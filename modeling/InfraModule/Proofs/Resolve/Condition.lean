import InfraModule.Proofs.Resolve.Value

/-!
# What resolving a condition makes

In a sound tree the term that an uninterpreted value means as a condition is made where it means
one. For every other value a mistake is reported and no node is given.
-/

namespace InfraModule.Resolve

open Result BuildM

variable {b : Build} {items : List RawValue}

/-- Whether the number of operands is wrong is reported without changing the tree. -/
theorem succeeds_wrongConditionCount (tag : String) (l : Location) (count : Nat)
    (operands : Verdict (Option (List Term))) (c : ConditionName) :
    Succeeds (wrongConditionCount tag l count) b fun wrong b' => b'.tree = b.tree ∧
      if wrong then (connectiveMeaning c tag l count operands).answer = none ∧
        b.Told (connectiveMeaning c tag l count operands).mistakes b'
      else 2 ≤ count ∧ count ≤ 10 ∧ b.Told [] b' ∧
        connectiveMeaning c tag l count operands = do return (← operands).map (.condition c) := by
  unfold wrongConditionCount connectiveMeaning minConditionOperands maxConditionOperands
  split
  · exact ⟨rfl, rfl, Diagnostics.toList_error ..⟩
  · exact ⟨rfl, by omega, by omega, b.told_refl, rfl⟩

/-- Conditions are made one after the other. -/
theorem succeeds_allConditions
    (h : ∀ r ∈ items, Conveys (condition r) Tree.IsCondition (conditionMeaning r))
    (hb : b.tree.Sound) : Succeeds (allConditions items) b
      (b.ConveyedAll (fun t ids => ids.length = items.length ∧ ∀ id ∈ ids, t.IsCondition id)
        (conditionMeanings items)) := by
  induction items generalizing b with
  | nil =>
    rw [allConditions, conditionMeanings]
    exact Build.conveyedAll_some (Tree.Grown.refl hb).made (by simp) .nil rfl b.told_refl
  | cons item items ih =>
    obtain ⟨hitem, hitems⟩ := List.forall_mem_cons.mp h
    rw [allConditions, conditionMeanings]
    refine succeeds_bind (hitem b hb) fun given b₁ h₁ => ?_
    cases hanswer : (conditionMeaning item).answer with
    | none =>
      obtain rfl := h₁.none_of hanswer
      exact Build.conveyedAll_none h₁.made.toGrown (by simp [hanswer])
        (by simpa [hanswer] using h₁.told)
    | some term =>
      obtain ⟨id, rfl, hid, hcondition, hmade⟩ := h₁.some_of hanswer
      refine succeeds_bind (ih hitems hmade.sound) fun others b₂ h₂ => ?_
      have htold := h₁.told.trans h₂.told
      cases hanswers : (conditionMeanings items).answer with
      | none =>
        -- What was made for the first item remains.
        obtain rfl := h₂.none_of hanswers
        exact Build.conveyedAll_none (hmade.toGrown.trans h₂.made.toGrown)
          (by simp [hanswer, hanswers]) (by simpa [hanswer] using htold)
      | some terms =>
        obtain ⟨ids, rfl, hids, ⟨hlength, hconditions⟩, hmade₂⟩ := h₂.some_of hanswers
        refine Build.conveyedAll_some (hmade.trans hmade₂) ⟨by simp [hlength], ?_⟩
          (.cons (hid.of_retains hmade₂.retains) hids) (by simp [hanswer, hanswers])
          (by simpa [hanswer] using htold)
        exact List.forall_mem_cons.mpr ⟨hmade₂.keeps.isCondition hcondition, hconditions⟩

/-- `!And` and `!Or` are made over as many conditions as they may have. -/
theorem conveys_connective (connective : List NodeId → Condition) {c : ConditionName}
    (hname : ∀ ids, (connective ids).name = c) (hoperands : ∀ ids, (connective ids).operands = ids)
    (htarget : ∀ ids, (connective ids).target = none)
    (htyped : ∀ t ids, 2 ≤ ids.length → ids.length ≤ 10 → (∀ id ∈ ids, Tree.IsCondition t id) →
      t.OperandsTyped (connective ids))
    (h : ∀ r ∈ items, Conveys (condition r) Tree.IsCondition (conditionMeaning r)) (tag : String)
    (l : Location) :
    Conveys (do
      if ← wrongConditionCount tag l items.length then return none
      match ← allConditions items with
      | some operands => addCondition (connective operands) l
      | none => return none) Tree.IsCondition
      (connectiveMeaning c tag l items.length (conditionMeanings items)) := by
  intro b hb
  refine succeeds_bind (succeeds_wrongConditionCount tag l _ (conditionMeanings items) c)
    fun wrong b₁ h₁ => ?_
  obtain ⟨htree, hcount⟩ := h₁
  have hmade₁ : b.tree.Made b₁.tree [] := htree ▸ (Tree.Grown.refl hb).made
  cases wrong with
  | true => exact Build.conveyed_none hmade₁.toGrown hcount.1 hcount.2
  | false =>
    obtain ⟨hmin, hmax, hsilent, hmeaning⟩ := hcount
    rw [hmeaning]
    refine succeeds_bind (succeeds_allConditions h hmade₁.sound) fun given b₂ h₂ => ?_
    have htold := hsilent.trans h₂.told
    cases hanswer : (conditionMeanings items).answer with
    | none =>
      obtain rfl := h₂.none_of hanswer
      exact Build.conveyed_none (hmade₁.toGrown.trans h₂.made.toGrown) (by simp [hanswer])
        (by simpa using htold)
    | some terms =>
      -- Each item gave a condition, so that their number is that of the items.
      obtain ⟨ids, rfl, hids, ⟨hlength, hconditions⟩, hmade₂⟩ := h₂.some_of hanswer
      refine conveys_addCondition (connective ids) ?_ (htarget ids) ?_ ((hoperands ids).symm ▸ hids)
        (by simp [hanswer, hname]) (by simpa using htold) l
      · rw [hoperands ids]
        exact hmade₁.trans hmade₂
      · exact htyped _ ids (hlength ▸ hmin) (hlength ▸ hmax) hconditions

/-- `!Equals` is made over two values. -/
theorem conveys_equals (left right : RawValue) (l : Location) :
    Conveys (do
      let left ← value left
      let right ← value right
      match left, right with
      | some left, some right => addCondition (.equals left right) l
      | _, _ => return none) Tree.IsCondition
      (do
      let left ← meaning left
      let right ← meaning right
      match left, right with
      | some left, some right => return some (.condition .equals [left, right])
      | _, _ => return none) := by
  intro b hb
  refine succeeds_bind (conveys_value left b hb) fun given b₁ h₁ => ?_
  refine succeeds_bind (conveys_value right b₁ h₁.made.sound) fun given' b₂ h₂ => ?_
  have htold := h₁.told.trans h₂.told
  have hgrown := h₁.made.toGrown.trans h₂.made.toGrown
  cases hleft : (meaning left).answer with
  | none =>
    obtain rfl := h₁.none_of hleft
    exact Build.conveyed_none hgrown (by simp [hleft]) (by simpa [hleft] using htold)
  | some leftTerm =>
    obtain ⟨leftId, rfl, hleftId, hleftValue, hmade⟩ := h₁.some_of hleft
    cases hright : (meaning right).answer with
    | none =>
      obtain rfl := h₂.none_of hright
      exact Build.conveyed_none hgrown (by simp [hleft, hright])
        (by simpa [hleft, hright] using htold)
    | some rightTerm =>
      obtain ⟨rightId, rfl, hrightId, hrightValue, hmade₂⟩ := h₂.some_of hright
      exact conveys_addCondition (.equals leftId rightId) (hmade.trans hmade₂) rfl
        ⟨hmade₂.keeps.isValue hleftValue, hrightValue⟩
        (.cons (hleftId.of_retains hmade₂.retains) (.cons hrightId .nil))
        (by simp [hleft, hright]; rfl) (by simpa [hleft, hright] using htold) l

/-- Out of an uninterpreted value the condition is made that it means. -/
theorem conveys_condition (r : RawValue) :
    Conveys (condition r) Tree.IsCondition (conditionMeaning r) := by
  induction r using RawValue.induction with
  | scalar tag l text =>
    have hname : Conveys (some <$> addNamedCondition text l) Tree.IsCondition
        (pure (some (.named text))) :=
      (conveys_namedCondition text l).imp fun _ _ ⟨_, _, h⟩ => ⟨_, h⟩
    cases tag with
    | none => exact hname
    | some tag =>
      rw [condition, conditionMeaning]
      match ConditionName.ofTag? tag with
      | some .reference => exact hname
      | some .existence =>
        intro b hb
        refine succeeds_bind (succeeds_addText (Tree.Grown.refl hb).made text l)
          fun name b₁ h₁ => ?_
        exact conveys_addCondition (.existence name none) h₁.made rfl h₁.denotes.isText
          (.cons h₁.denotes .nil) rfl h₁.silent l
      | none | some .and | some .or | some .not | some .equals => exact conveys_refuse _ l
  | sequence tag l items ih =>
    cases tag with
    | none => exact conveys_refuse _ l
    | some tag =>
      unfold condition conditionMeaning
      match ConditionName.ofTag? tag, items with
      | some .and, items =>
        exact conveys_connective .and (fun _ => rfl) (fun _ => rfl) (fun _ => rfl)
          (fun t ids hmin hmax hids => ⟨hmin, hmax, hids⟩) ih tag l
      | some .or, items =>
        exact conveys_connective .or (fun _ => rfl) (fun _ => rfl) (fun _ => rfl)
          (fun t ids hmin hmax hids => ⟨hmin, hmax, hids⟩) ih tag l
      | some .not, [operand] =>
        intro b hb
        refine succeeds_bind (ih operand List.mem_cons_self b hb) fun given b₁ h₁ => ?_
        -- Without an operand there is no negation; what the operand told stays told.
        cases hanswer : (conditionMeaning operand).answer with
        | none =>
          obtain rfl := h₁.none_of hanswer
          exact Build.conveyed_none h₁.made.toGrown (by simp [hanswer]) (by simpa using h₁.told)
        | some term =>
          obtain ⟨id, rfl, hid, hcondition, hmade⟩ := h₁.some_of hanswer
          exact conveys_addCondition (.not id) hmade rfl hcondition (.cons hid .nil)
            (by simp [hanswer]; rfl) (by simpa using h₁.told) l
      | some .equals, [left, right] => exact conveys_equals left right l
      | some .not, [] | some .not, _ :: _ :: _ | some .equals, [] | some .equals, [_]
      | some .equals, _ :: _ :: _ :: _ | some .reference, _ | some .existence, _ | none, _ =>
        exact conveys_refuse _ l
  | mapping tag l entries ih =>
    cases tag with
    | none => exact conveys_refuse _ l
    | some tag =>
      rw [condition, conditionMeaning]
      cases ConditionName.ofTag? tag with
      | none | some c => exact conveys_refuse _ l

/-- Out of any uninterpreted value that describes a condition, the condition is made. -/
theorem gives_condition (r : RawValue) : Gives (condition r) Tree.IsCondition :=
  (conveys_condition r).gives

end InfraModule.Resolve
