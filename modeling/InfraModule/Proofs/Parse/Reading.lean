import InfraModule.Proofs.Parse.Declaration

/-!
# Reading from any state

Readers of values and skipping agree on where a value ends, and no mistake in a well-formed value
makes a reader fail (`ParseM.Agrees`). What they take and what they build has been said apart; a
reader fails at a well-formed value only by misusing the tree, and it never misuses a tree that
operations have built.

What is read as a declaration is typed down to its leaves: each declaration of the subtree binds its
keys to nodes of the forms that the schema table prescribes, and each function and condition has
operands of the forms that its tag demands.
-/

namespace InfraModule

open ParseM

variable {setting : Setting} {s u : ParseState} {type : DeclarationType} {id : NodeId}

/-- Reading and skipping a value agree on its extent, and a well-formed value can be read. -/
structure ParseM.Agrees {α : Type} (m : ParseM α) : Prop where
  /-- Where the reader succeeds, so does skipping; it stops at the same event, and all that was
  opened is closed. -/
  extent : ∀ setting s a u, m setting s = .ok a u →
    skip setting s = .ok () { s with events := u.events } ∧ u.depth = s.depth
  /-- Where a well-formed value stands, the reader succeeds and takes it. -/
  total : ∀ setting s rest, s.build.tree.Reachable → Event.Value s.events rest →
    ∃ a u, m setting s = .ok a u ∧ u.events = rest

/-- A reader that takes a value and never misuses a sound tree agrees with skipping. -/
theorem ParseM.agrees_of_takes {α : Type} {m : ParseM α} (htakes : Takes m)
    (htree : ∀ setting s, s.build.tree.Sound →
      Post m setting s (fun _ _ => True) fun error _ => ∀ te, error ≠ .tree te) : Agrees m where
  extent := by
    intro setting s a u h
    have htaken : s.Takes u := (htakes setting s).of_ok h
    exact ⟨skip_of_skipValue htaken.events, htaken.depth⟩
  total := by
    intro setting s rest hs hvalue
    have hpost := (htakes setting s).and (htree setting s hs.sound)
    -- No event is lost, so only a misuse of the tree would excuse a failure.
    have hfails (error : ParseError) : ¬ (s.Excuses error ∧ ∀ te, error ≠ .tree te) := by
      rintro ⟨hexcuses, herror⟩
      rcases hexcuses [] rest (by rwa [List.append_nil]) with ⟨te, hte⟩ | ⟨-, hlost⟩
      · exact herror te hte
      · exact hlost rfl
    obtain ⟨a, u, h, htaken, -⟩ := hpost.exists_ok fun error u => hfails error
    have hskip := htaken.events
    rw [hvalue.skipValue, Except.ok.injEq] at hskip
    exact ⟨a, u, h, hskip.symm⟩

/-- A reader that takes a value and makes a root as demanded agrees with skipping. -/
theorem ParseM.Yields.agrees {m : ParseM (Option NodeId)} {P : Tree → NodeId → Prop}
    (hyields : Yields m P) (htakes : Takes m) : Agrees m :=
  agrees_of_takes htakes fun setting s hs =>
    (hyields setting s hs).mono (fun _ _ _ => trivial) fun _ _ h => h.error

/-- A reader that takes a value and builds nothing agrees with skipping. -/
theorem ParseM.Spares.agrees {α : Type} {m : ParseM α} (hspares : Spares m) (htakes : Takes m) :
    Agrees m :=
  agrees_of_takes htakes fun setting s _ =>
    (hspares setting s).mono (fun _ _ _ => trivial) fun _ _ h => h.2

namespace Parse

/-- Every reader of values agrees with skipping. -/
theorem agrees_with_skip :
    (∀ type, Agrees (declaration type)) ∧ (∀ type, Agrees (declarationList type)) ∧
      (∀ kind, Agrees (valueOf kind)) ∧ Agrees expression ∧ Agrees condition ∧
      Agrees stringList ∧ Agrees rawValue := by
  have hvalueOf (kind : ValueKind) : Agrees (valueOf kind) :=
    (yields_valueOf kind).agrees (takes_valueOf kind)
  refine ⟨fun type => hvalueOf _, fun type => hvalueOf _, hvalueOf, ?expression, ?condition,
    ?stringList, ?rawValue⟩
  case expression =>
    exact (Yields.bind_spares Spares.levels yields_expressionWithin).agrees
      (takes_of_levels takes_expressionWithin)
  case condition =>
    exact (Yields.bind_spares Spares.levels yields_conditionWithin).agrees
      (takes_of_levels takes_conditionWithin)
  case stringList =>
    exact (Yields.bind_spares Spares.levels yields_stringListWithin).agrees
      (takes_of_levels takes_stringListWithin)
  case rawValue => exact (Spares.levels.bind spares_rawValueWithin).agrees takes_rawValue

/-- What is read as a declaration of a type is one, and all nodes of its subtree are typed. -/
theorem declaration_typed (hs : s.build.tree.Reachable)
    (h : declaration type setting s = .ok (some id) u) :
    u.build.tree.IsDeclaration type id ∧
      ∀ x n, (x, n) ∈ u.build.tree.inspect id → u.build.tree.WellTyped n := by
  have hgave := (yields_valueOf (.declaration type) setting s hs.sound).of_ok h
  have hmade : s.build.tree.Made u.build.tree [id] := hgave.made
  refine ⟨hgave.form id rfl, fun x n hx => ?_⟩
  obtain ⟨hn, hwithin⟩ := hmade.sound.mem_inspect.mp hx
  exact hmade.typed x n (hmade.size_le_of_within (hmade.new id List.mem_cons_self) hwithin) hn

/-- A variable of which the value refers to something else is read and typed. -/
theorem variable_typed :
    let events := [.mappingStart none, .scalar "Variable" none, .scalar "v" none,
      .scalar "Value" none, .scalar "t" (some "!Ref"), .mappingEnd].map (Event.mk · default default)
    ∃ id u, declaration (.concrete .variable) ⟨"m.yml", {}⟩ ⟨events, {}, 0⟩ = .ok (some id) u ∧
      u.build.tree.IsDeclaration (.concrete .variable) id ∧
      ∀ x n, (x, n) ∈ u.build.tree.inspect id → u.build.tree.WellTyped n := by
  intro events
  have hgiven : (match declaration (.concrete .variable) ⟨"m.yml", {}⟩ ⟨events, {}, 0⟩ with
    | .ok given _ => given
    | .error .. => none) = some 3 := by decide +kernel
  split at hgiven
  · next given u h =>
    rw [hgiven] at h
    exact ⟨3, u, h, declaration_typed ⟨[], rfl⟩ h⟩
  · cases hgiven

end Parse

end InfraModule
