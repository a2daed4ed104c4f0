import InfraModule.Document
import InfraModule.Proofs.Parse.Complete
import InfraModule.Proofs.Parse.Reading

/-!
# Sessions

A parser is asked for one thing after the other, and goes on after failures (`Parse.Request`). The
tree that it has built is sound at any time, and what it is asked for and does not give it reports.
A module document of which nothing is reported is read in full.
-/

namespace InfraModule

open ParseM ParseState

namespace ParseM

variable {setting : Setting} {s : ParseState} {e : Event} {es : List Event} {kind : EventKind}

/-- The expected event is taken if it is at the cursor. -/
theorem post_expect {Q : Unit → ParseState → Prop} {E : ParseError → ParseState → Prop}
    (hs : s.events = e :: es) (he : e.kind = kind) :
    Post (expect kind) setting s Q E ↔ Q () { s with events := es } := by
  unfold expect
  rw [post_bind, post_current hs]
  simp only [he, if_true]
  rw [post_advance, hs]
  rfl

/-- To expect an event builds nothing. -/
theorem Spares.expect (kind : EventKind) : Spares (expect kind) := by
  refine Spares.current.bind fun e => ?_
  dsimp only
  split
  · exact Spares.advance
  · exact fun _ _ => ⟨rfl, by simp⟩

/-- To expect an event reports nothing. -/
theorem Silent.expect (kind : EventKind) : Silent (expect kind) := by
  refine Silent.current.bind fun e => ?_
  dsimp only
  split
  · exact Silent.advance
  · exact fun _ _ => trivial

/-- What a function makes of the result builds nothing more. -/
theorem Grows.map {α β : Type} {m : ParseM α} (hm : Grows m) (f : α → β) : Grows (f <$> m) :=
  fun setting s hs => post_map.mpr (hm setting s hs)

end ParseM

namespace Parse

variable {setting : Setting} {s : ParseState} {type : DeclarationType}

/-! ## Requests -/

/-- What a parser can be asked for. -/
inductive Request where
  /-- The start of the stream and of its document. -/
  | start
  /-- A declaration. -/
  | declaration (type : DeclarationType)
  /-- A list of declarations. -/
  | declarationList (type : DeclarationType)
  /-- A value of the schema table. -/
  | valueOf (kind : ValueKind)
  /-- A value with a meaning. -/
  | expression
  /-- A condition. -/
  | condition
  /-- A text. -/
  | string
  /-- An integer. -/
  | int
  /-- A truth value. -/
  | bool
  /-- A list of texts. -/
  | stringList
  /-- An uninterpreted value. -/
  | rawValue
  /-- A key. -/
  | key
  /-- The end of the document and of the stream. -/
  | finishDocument

/-- Whether something is given. -/
def given {α : Type} (m : ParseM (Option α)) : ParseM (Option Unit) :=
  Option.map (fun _ => ()) <$> m

/-- Does what a request asks for. -/
def Request.perform : Request → ParseM (Option Unit)
  | .start => some <$> Parse.start
  | .declaration type => given (Parse.declaration type)
  | .declarationList type => given (Parse.declarationList type)
  | .valueOf kind => given (Parse.valueOf kind)
  | .expression => given Parse.expression
  | .condition => given Parse.condition
  | .string => given Parse.string
  | .int => given Parse.int
  | .bool => given Parse.bool
  | .stringList => given Parse.stringList
  | .rawValue => given Parse.rawValue
  | .key => given Parse.key
  | .finishDocument => some <$> Parse.finishDocument

/-- The state after requests, whether or not they fail. -/
def after (setting : Setting) (requests : List Request) (s : ParseState) : ParseState :=
  requests.foldl (fun s request => Result.final (request.perform setting s)) s

/-! ## One request -/

/-- Whatever a parser is asked for, it leaves a sound tree that has grown. -/
theorem Request.grows (request : Request) : Grows request.perform := by
  have hvalueOf (kind : ValueKind) : Grows (Parse.valueOf kind) := (yields_valueOf kind).grows
  have hlevels {m : Nat → ParseM (Option NodeId)} {P : Tree → NodeId → Prop}
      (hm : ∀ levels, Yields (m levels) P) : Grows (levels >>= m) :=
    (Yields.bind_spares Spares.levels hm).grows
  cases request with
  | start => exact ((Spares.expect _).bind fun _ => Spares.expect _).grows.map _
  | declaration type => exact (hvalueOf (.declaration type)).map _
  | declarationList type => exact (hvalueOf (.declarationList type)).map _
  | valueOf kind => exact (hvalueOf kind).map _
  | expression => exact (hlevels yields_expressionWithin).map _
  | condition => exact (hlevels yields_conditionWithin).map _
  | string => exact yields_string.grows.map _
  | int => exact yields_int.grows.map _
  | bool => exact yields_bool.grows.map _
  | stringList => exact (hlevels yields_stringListWithin).map _
  | rawValue => exact (Spares.levels.bind spares_rawValueWithin).grows.map _
  | key => exact spares_key.grows.map _
  | finishDocument => exact ((Spares.expect _).bind fun _ => Spares.expect _).grows.map _

/-- What is given for a request is given or reported. -/
theorem Request.accounts (request : Request) (hs : s.build.tree.Sound) :
    Ensures request.perform setting s fun r u => s.Accounts u (r = some ()) := by
  have hreads {α : Type} {m : ParseM (Option α)} {P : Tree → Source → α → Prop} (hm : Reads m P) :
      Ensures (given m) setting s fun r u => s.Accounts u (r = some ()) := by
    refine post_map.mpr ((hm setting s hs).mono fun r u hu => hu.mono ?_)
    rintro ⟨a, source, rfl, -⟩
    rfl
  have hlevels {α : Type} {m : Nat → ParseM (Option α)} {P : Tree → Source → α → Prop}
      (hm : ∀ levels, Reads (m levels) P) : Reads (levels >>= m) P := by
    intro setting s hs
    rw [Ensures, post_bind, post_levels]
    exact hm _ setting s hs
  have hsilent {m : ParseM Unit} (hm : Silent m) :
      Ensures (some <$> m) setting s fun r u => s.Accounts u (r = some ()) :=
    post_map.mpr ((hm setting s).mono fun _ _ hu => accounts_of_eq hu rfl)
  cases request with
  | start => exact hsilent ((Silent.expect _).bind fun _ => Silent.expect _)
  | declaration type => exact hreads (reads_valueOf (.declaration type))
  | declarationList type => exact hreads (reads_valueOf (.declarationList type))
  | valueOf kind => exact hreads (reads_valueOf kind)
  | expression => exact hreads (hlevels reads_expressionWithin)
  | condition => exact hreads (hlevels reads_conditionWithin)
  | string => exact hreads reads_string
  | int => exact hreads (reads_scalar _ _)
  | bool => exact hreads (reads_scalar _ _)
  | stringList => exact hreads (hlevels reads_stringListWithin)
  | rawValue => exact hreads (hlevels reads_rawValueWithin)
  | key =>
    refine post_map.mpr ((accounts_key setting s).mono fun r u hu => hu.mono ?_)
    rintro ⟨k, span, tag, rfl, -⟩
    rfl
  | finishDocument => exact hsilent ((Silent.expect _).bind fun _ => Silent.expect _)

/-! ## Runs -/

/-- Requests leave a sound tree, whether or not they fail. -/
theorem sound_after (requests : List Request) (hs : s.build.tree.Sound) :
    (after setting requests s).build.tree.Sound := by
  induction requests generalizing s with
  | nil => exact hs
  | cons request requests ih =>
    refine ih (s := Result.final (request.perform setting s)) ?_
    have hgrows := request.grows setting s hs
    cases h : request.perform setting s with
    | ok r u => exact (hgrows.of_ok h).sound
    | error error u => exact (hgrows.of_error h).sound

/-! ## Documents -/

/-- The module of a document is read, whatever is wrong with it. What is silent is read in full. -/
theorem readModule_ok {source : Source} {es : List Event} (hes : source.IsDocument es) :
    ∃ root u, Document.readModule setting { events := es } = .ok root u ∧
      u.build.Gave {} (fun t id => t.IsDeclaration (.concrete .module) id) root ∧
      ParseState.Accounts { events := es } u (∃ id, root = some id ∧
        u.build.tree.Mirrors (.declaration (.concrete .module)) source id) := by
  obtain ⟨first, start, stop, last, rfl⟩ := hes
  let s : ParseState :=
    { events := source.events ++ [.over stop .documentEnd, .over last .streamEnd] }
  -- Behind the two first events the declaration is read, and it takes its value.
  obtain ⟨root, v, hread, hrest⟩ : ∃ root v,
      declaration (.concrete .module) setting s = .ok root v ∧
        v.events = [.over stop .documentEnd, .over last .streamEnd] :=
    ((yields_valueOf _).agrees (takes_valueOf _)).total setting s _ ⟨[], rfl⟩ (source.value _)
  have hgave := (yields_valueOf _ setting s Tree.sound_empty).of_ok hread
  have haccounts := (reads_valueOf _ setting s Tree.sound_empty).of_ok hread
  refine ⟨root, { v with events := [] }, ?_, hgave, haccounts.mono ?_⟩
  · have hpost : Post Document.readModule setting
        { events := .over first .streamStart :: .over start .documentStart :: s.events }
        (fun r u => r = root ∧ u = { v with events := [] }) fun _ _ => False := by
      unfold Document.readModule Parse.start finishDocument
      simp only [post_bind]
      refine (post_expect rfl (Event.kind_over ..)).mpr ?_
      refine (post_expect rfl (Event.kind_over ..)).mpr ?_
      refine (Result.post_of_ok hread).mpr ?_
      refine (post_expect hrest (Event.kind_over ..)).mpr ?_
      exact (post_expect rfl (Event.kind_over ..)).mpr ⟨rfl, rfl⟩
    obtain ⟨_, _, hok, rfl, rfl⟩ := hpost.exists_ok fun _ _ h => h
    exact hok
  · rintro ⟨id, source', hid, hevents, hmirrors⟩
    -- The events tell which value they are those of.
    have heq : source = source' := (Source.events_append_inj hevents).1
    exact ⟨id, hid, heq ▸ hmirrors⟩

/-- What is not read is reported. Whatever a parser was asked for before, with failures or without,
a request for which it gives nothing has reported at least one error more. And the module of a
document is always read; where nothing is reported, there is a module that mirrors the document:
each declaration in it has all its mandatory keys, and binds each key of its mapping to what mirrors
the key's value; each collection has exactly one item for each item of its sequence, in order. -/
theorem complete_of_silent (setting : Setting) :
    (∀ events requests request u,
      let s := after setting requests { events }
      Request.perform request setting s = .ok none u →
        ∃ mistakes, mistakes ≠ [] ∧
          u.build.diagnostics.toList = s.build.diagnostics.toList ++ mistakes ∧
            ∀ d ∈ mistakes, d.severity = .error) ∧
    (∀ source events, Source.IsDocument source events →
      ∃ root u, Document.readModule setting { events } = .ok root u ∧
        (u.build.diagnostics.toList = [] → ∃ id, root = some id ∧
          u.build.tree.Mirrors (.declaration (.concrete .module)) source id ∧
          (∀ x d, u.build.tree.Within id x → u.build.tree.node? x = some (.declaration d) →
            (∀ key ∈ d.kind.mandatoryKeys, (d.bound? key).isSome = true) ∧
            ∃ first last entries, source.HasPart (.mapping first last none entries) ∧
              ∀ entry ∈ entries, ∃ span tag property child,
                entry.1 = .scalar span tag property.key ∧
                  d.kind.property? property.key = some property ∧
                  d.bound? property.key = some child ∧
                  u.build.tree.Mirrors property.value entry.2 child) ∧
          ∀ x ids, u.build.tree.Within id x → u.build.tree.node? x = some (.collection ids) →
            ∃ element first last items, source.HasPart (.sequence first last none items) ∧
              List.Forall₂ (u.build.tree.Mirrors element) items ids)) := by
  refine ⟨?requests, ?document⟩
  case requests =>
    intro events requests request u s h
    have hs : s.build.tree.Sound := sound_after requests Tree.sound_empty
    exact ((request.accounts hs).of_ok h).reported (by simp)
  case document =>
    intro source events hevents
    obtain ⟨root, u, hread, hgave, mistakes, htold, -, hsilent⟩ := readModule_ok hevents
    refine ⟨root, u, hread, fun hnil => ?_⟩
    have hmistakes : mistakes = [] := (List.append_eq_nil_iff.mp (htold.symm.trans hnil)).2
    obtain ⟨id, hid, hmirrors⟩ := hsilent hmistakes
    have hsound : u.build.tree.Sound := hgave.made.sound
    have htyped : ∀ x n, u.build.tree.node? x = some n → u.build.tree.WellTyped n :=
      fun x n => hgave.made.typed x n (Nat.zero_le x)
    -- What is no expression mirrors a part of the document.
    have hparts {x : NodeId} (hx : u.build.tree.Within id x) :=
      hmirrors.of_within hsound htyped hx
    refine ⟨id, hid, hmirrors, fun x d hx hnode => ?_, fun x ids hx hnode => ?_⟩
    · rcases hparts hx with ⟨e, he⟩ | ⟨kind, part, hpart, hmirrors⟩
      · simp [hnode] at he
      · obtain ⟨hmandatory, first, last, entries, rfl, hentries⟩ := hmirrors.of_declaration hnode
        exact ⟨hmandatory, first, last, entries, hpart, hentries⟩
    · rcases hparts hx with ⟨e, he⟩ | ⟨kind, part, hpart, hmirrors⟩
      · simp [hnode] at he
      · obtain ⟨element, first, last, items, rfl, hitems⟩ := hmirrors.of_collection hnode
        exact ⟨element, first, last, items, hpart, hitems⟩

/-- A module with a variable is read in full. -/
theorem complete_with_variable :
    let span : Span := ⟨default, default⟩
    let declared := Source.mapping span span none
      [(.scalar span none "Variable", .scalar span none "v"),
        (.scalar span none "Value", .scalar span (some "!Ref") "t")]
    let source := Source.mapping span span none
      [(.scalar span none "Module", .scalar span none "m"),
        (.scalar span none "Items", .sequence span span none [declared])]
    let events := .over span .streamStart :: .over span .documentStart ::
      (source.events ++ [.over span .documentEnd, .over span .streamEnd])
    ∃ id u, Document.readModule ⟨"m.yml", {}⟩ { events } = .ok (some id) u ∧
      u.build.diagnostics.toList = [] ∧
      u.build.tree.Mirrors (.declaration (.concrete .module)) source id := by
  intro span declared source events
  have hsilent : (match Document.readModule ⟨"m.yml", {}⟩ { events } with
      | .ok _ u => u.build.diagnostics.toList.isEmpty
      | .error .. => false) = true := by decide +kernel
  obtain ⟨root, u, hread, hcomplete⟩ :=
    (complete_of_silent ⟨"m.yml", {}⟩).2 source events ⟨span, span, span, span, rfl⟩
  rw [hread] at hsilent
  have hnil : u.build.diagnostics.toList = [] := List.isEmpty_iff.mp hsilent
  obtain ⟨id, rfl, hmirrors, -⟩ := hcomplete hnil
  exact ⟨id, u, hread, hnil, hmirrors⟩

end Parse

end InfraModule
