import InfraModule.Proofs.RawValue
import InfraModule.Proofs.Resolve.Verdict

/-!
# What resolving makes

Resolving never fails. In a sound tree it makes the term that an uninterpreted value means as a
value, or reports a mistake and gives no node (`conveys_value`); what it leaves behind then is typed
as well.
-/

namespace InfraModule

open Result BuildM

/-! ## Calls and their operands -/

/-- The call of a function that takes any value has that value as its only operand. -/
theorem FunctionName.operands_of_ofAnyValue? {f : FunctionName} {call : NodeId → Call}
    (h : f.ofAnyValue? = some call) (id : NodeId) :
    (call id).name = f ∧ (call id).operands = [id] ∧ (call id).target = none ∧
      (call id).roles = [.value] := by
  cases f <;> cases h <;> exact ⟨rfl, rfl, rfl, rfl⟩

/-- A function on a sequence can be called on as many operands as it has roles, which are then the
operands of the call, in these roles. -/
theorem Call.exists_ofOperands? {f : FunctionName} {roles : List Role} {ids : List NodeId}
    (hf : f.signature = some roles) (hlength : roles.length = ids.length) :
    ∃ call, ofOperands? f ids none = some call ∧ call.name = f ∧ call.operands = ids ∧
      call.target = none ∧ call.roles = roles := by
  cases f <;> cases hf <;>
    match ids with
    | [] | [_] | [_, _] | [_, _, _] | _ :: _ :: _ :: _ :: _ =>
      first | exact ⟨_, rfl, rfl, rfl, rfl, rfl⟩ | simp at hlength

namespace Resolve

variable {b : Build} {t : Tree} {tag text : String} {l : Location} {items : List RawValue}
  {entries : List (Key × RawValue)}

/-! ## Operands that are scalars -/

/-- The call of a function that takes any value is added over the value that was made. -/
theorem conveys_addCall_ofAnyValue {f : FunctionName} {call : NodeId → Call} {b₁ : Build}
    {id : NodeId} {term : Term} {v : Verdict (Option Term)} (hcall : f.ofAnyValue? = some call)
    (hmade : b.tree.Made b₁.tree [id]) (hvalue : b₁.tree.IsValue id)
    (hid : b₁.tree.Denotes term id) (hanswer : v.answer = some (.call f [term]))
    (htold : b.Told v.mistakes b₁) (l : Location) :
    Succeeds (addCall (call id) l) b₁ (b.Conveyed Tree.IsValue v) := by
  obtain ⟨hname, hoperands, htarget, hroles⟩ := FunctionName.operands_of_ofAnyValue? hcall id
  have hterms : List.Forall₂ b₁.tree.Denotes [term] (call id).operands := by
    rw [hoperands]
    exact .cons hid .nil
  refine conveys_addCall (call id) (hoperands ▸ hmade) htarget ?_ hterms (hname ▸ hanswer) htold l
  rw [hoperands, hroles]
  exact .cons hvalue .nil

/-- A function on a scalar is made as the scalar means it. -/
theorem conveys_onScalar (f : FunctionName) (l : Location) (text : String) :
    Conveys (onScalar f l text) Tree.IsValue (scalarMeaning f l text) := by
  intro b hb
  have hnil : b.tree.Made b.tree [] := (Tree.Grown.refl hb).made
  cases f with
  | getAtt =>
    -- The text is split into two operands.
    refine succeeds_bind (succeeds_addText hnil _ l) fun resource b₁ h₁ => ?_
    refine succeeds_bind (succeeds_addText h₁.made _ l) fun name b₂ h₂ => ?_
    have hresource := h₁.denotes.of_retains h₂.retains
    exact conveys_addCall (.getAtt resource name none) h₂.made rfl
      (.cons hresource.isText (.cons h₂.denotes.isText.isValue .nil))
      (.cons hresource (.cons h₂.denotes .nil)) rfl (h₁.silent.of_silent h₂.silent) l
  | sub =>
    refine succeeds_bind (succeeds_addText hnil text l) fun format b₁ h₁ => ?_
    exact conveys_addCall (.sub format none) h₁.made rfl (.cons h₁.denotes.isText .nil)
      (.cons h₁.denotes .nil) rfl h₁.silent l
  | ref =>
    refine succeeds_bind (succeeds_addText hnil text l) fun name b₁ h₁ => ?_
    exact conveys_addCall (.ref name none) h₁.made rfl (.cons h₁.denotes.isText .nil)
      (.cons h₁.denotes .nil) rfl h₁.silent l
  | base64 | getAzs | importValue =>
    refine succeeds_bind (succeeds_addText hnil text l) fun id b₁ h₁ => ?_
    exact conveys_addCall_ofAnyValue rfl h₁.made h₁.denotes.isText.isValue h₁.denotes rfl
      h₁.silent l
  | _ => exact conveys_refuse _ _ b hb

/-- An operand that is to be a text is made as it means one. -/
theorem conveys_textOperand (tag : String) : ∀ operand : RawValue,
    Conveys (textOperand tag operand) Tree.IsText (textMeaning tag operand)
  | .scalar none l text => conveys_text text l
  | .scalar (some _) .. | .sequence .. | .mapping .. => conveys_refuse _ _

/-- An operand that is to name a condition is made as it means one. -/
theorem conveys_conditionNameOperand (tag : String) : ∀ operand : RawValue,
    Conveys (conditionNameOperand tag operand) (fun t id => t.HasRole .conditionName id)
      (nameMeaning tag operand)
  | .scalar none l text => conveys_namedCondition text l
  | .scalar (some _) .. | .sequence .. | .mapping .. => conveys_refuse _ _

/-- Checking the mapping of `!Transform` gives the name that the verdict answers. -/
theorem succeeds_checkTransform (l : Location) (entries : List (Key × RawValue)) :
    Succeeds (checkTransform l entries) b fun checked b' => b'.tree = b.tree ∧
      checked.map Prod.fst = (transformName l entries).answer ∧
      b.Told (transformName l entries).mistakes b' := by
  unfold checkTransform transformName
  cases firstEntry? "Name" entries with
  | none => exact ⟨rfl, rfl, Diagnostics.toList_error ..⟩
  | some name =>
    dsimp only
    cases name.plainScalar? with
    | none => exact ⟨rfl, rfl, Diagnostics.toList_error ..⟩
    | some text =>
      cases firstEntry? "Parameters" entries with
      | none => exact ⟨rfl, rfl, Diagnostics.toList_error ..⟩
      | some parameters =>
        dsimp only
        cases parameters.isPlainMapping with
        | false => exact ⟨rfl, rfl, Diagnostics.toList_error ..⟩
        | true => exact ⟨rfl, rfl, b.told_refl⟩

/-! ## Filling lists and objects -/

/-- What is made for the items is appended to the list that is being made. -/
def FillsList (items : List RawValue) : Prop :=
  ∀ (t : Tree) (list : NodeId) (terms : List Term) (b : Build), t.Made b.tree [list] →
    b.tree.Denotes (.list terms) list → Succeeds (valueItems list items) b fun _ b' =>
      t.Made b'.tree [list] ∧
        b'.tree.Denotes (.list (terms ++ (itemMeanings items).answer)) list ∧
        b.Told (itemMeanings items).mistakes b'

/-- What is made for the entries is added to the object that is being made, of which all keys were
seen. -/
def FillsObject (entries : List (Key × RawValue)) : Prop :=
  ∀ (t : Tree) (seen : List String) (object : NodeId) (made : List (String × Term)) (b : Build),
    t.Made b.tree [object] → b.tree.Denotes (.object made) object → made.map Prod.fst ⊆ seen →
    Succeeds (valueEntries object seen entries) b fun _ b' => t.Made b'.tree [object] ∧
      b'.tree.Denotes (.object (made ++ (entryMeanings seen entries).answer)) object ∧
      b.Told (entryMeanings seen entries).mistakes b'

/-- A list is filled item by item. -/
theorem fillsList (h : ∀ r ∈ items, Conveys (value r) Tree.IsValue (meaning r)) :
    FillsList items := by
  induction items with
  | nil =>
    intro t list terms b hmade hlist
    rw [valueItems]
    exact ⟨hmade, by simpa [itemMeanings] using hlist, b.told_refl⟩
  | cons item items ih =>
    obtain ⟨hitem, hitems⟩ := List.forall_mem_cons.mp h
    intro t list terms b hmade hlist
    rw [valueItems]
    refine succeeds_bind (hitem b hmade.sound) fun given b₁ hgiven => ?_
    have hlist₁ := hlist.of_retains hgiven.made.retains
    cases hanswer : (meaning item).answer with
    | none =>
      obtain rfl := hgiven.none_of hanswer
      refine (ih hitems t list terms b₁ (by simpa using hmade.trans hgiven.made) hlist₁).mono
        fun _ b' h' => ⟨h'.1, ?_, ?_⟩
      · simpa [itemMeanings, hanswer] using h'.2.1
      · simpa [itemMeanings] using hgiven.told.trans h'.2.2
    | some term =>
      obtain ⟨id, rfl, hid, hvalue, hmade₁⟩ := hgiven.some_of hanswer
      refine succeeds_bind (succeeds_pushChild (hmade.trans hmade₁) hlist₁ hid hvalue)
        fun _ b₂ h₂ => ?_
      refine (ih hitems t list _ b₂ h₂.1 h₂.2.1).mono fun _ b' h' => ⟨h'.1, ?_, ?_⟩
      · simpa [itemMeanings, hanswer] using h'.2.1
      · simpa [itemMeanings] using (hgiven.told.of_silent h₂.2.2).trans h'.2.2

/-- An object is filled entry by entry. -/
theorem fillsObject
    (h : ∀ entry ∈ entries, Conveys (value entry.2) Tree.IsValue (meaning entry.2)) :
    FillsObject entries := by
  induction entries with
  | nil =>
    intro t seen object made b hmade hobject hseen
    rw [valueEntries]
    exact ⟨hmade, by simpa [entryMeanings] using hobject, b.told_refl⟩
  | cons entry entries ih =>
    obtain ⟨key, item⟩ := entry
    obtain ⟨hitem, hentries⟩ := List.forall_mem_cons.mp h
    intro t seen object made b hmade hobject hseen
    rw [valueEntries, entryMeanings]
    split
    · -- A key that was seen is reported, and the tree stays as it is.
      refine succeeds_bind (succeeds_report _ _) fun _ b₁ h₁ => ?_
      refine (ih hentries t seen object made b₁ (h₁.1 ▸ hmade) (h₁.1 ▸ hobject) hseen).mono
        fun _ b' h' => ⟨h'.1, h'.2.1, h₁.2.trans h'.2.2⟩
    · next hkey =>
      have hseen' : made.map Prod.fst ⊆ key.text :: seen := fun k hk =>
        List.mem_cons_of_mem key.text (hseen hk)
      refine succeeds_bind (hitem b hmade.sound) fun given b₁ hgiven => ?_
      have hobject₁ := hobject.of_retains hgiven.made.retains
      cases hanswer : (meaning item).answer with
      | none =>
        obtain rfl := hgiven.none_of hanswer
        refine (ih hentries t _ object made b₁ (by simpa using hmade.trans hgiven.made) hobject₁
          hseen').mono fun _ b' h' => ⟨h'.1, ?_, ?_⟩
        · simpa [hanswer] using h'.2.1
        · simpa using hgiven.told.trans h'.2.2
      | some term =>
        obtain ⟨id, rfl, hid, hvalue, hmade₁⟩ := hgiven.some_of hanswer
        refine succeeds_bind (succeeds_insertEntry (hmade.trans hmade₁) hobject₁ hid hvalue
          fun hmem => hkey (hseen hmem)) fun _ b₂ h₂ => ?_
        refine (ih hentries t _ object _ b₂ h₂.1 h₂.2.1 ?_).mono fun _ b' h' => ⟨h'.1, ?_, ?_⟩
        · rw [List.map_append]
          exact List.append_subset.mpr ⟨hseen', by simp⟩
        · simpa [hanswer] using h'.2.1
        · simpa using (hgiven.told.of_silent h₂.2.2).trans h'.2.2

/-- A list is made empty and then filled. -/
theorem succeeds_list {β : Type} {R : β → Build → Prop} {k : NodeId → BuildM β}
    (hb : b.tree.Sound) (hitems : FillsList items)
    (hk : ∀ id b', b.tree.Made b'.tree [id] →
      b'.tree.Denotes (.list (itemMeanings items).answer) id →
      b.Told (itemMeanings items).mistakes b' → Succeeds (k id) b' R) (l : Location) :
    Succeeds (do let list ← add (.list []) l; valueItems list items; k list) b R := by
  refine succeeds_bind (succeeds_addList (Tree.Grown.refl hb).made l) fun list b₁ h₁ => ?_
  refine succeeds_bind (hitems _ list [] b₁ h₁.made h₁.denotes) fun _ b₂ h₂ => ?_
  exact hk list b₂ h₂.1 h₂.2.1 (h₁.silent.trans h₂.2.2)

/-- An object is made empty and then filled. -/
theorem succeeds_object {β : Type} {R : β → Build → Prop} {k : NodeId → BuildM β}
    (hb : b.tree.Sound) (hentries : FillsObject entries)
    (hk : ∀ id b', b.tree.Made b'.tree [id] →
      b'.tree.Denotes (.object (entryMeanings [] entries).answer) id →
      b.Told (entryMeanings [] entries).mistakes b' → Succeeds (k id) b' R) (l : Location) :
    Succeeds (do
      let object ← add (.object []) l
      valueEntries object [] entries
      k object) b R := by
  refine succeeds_bind (succeeds_addObject (Tree.Grown.refl hb).made l) fun object b₁ h₁ => ?_
  refine succeeds_bind (hentries _ [] object [] b₁ h₁.made h₁.denotes (by simp)) fun _ b₂ h₂ => ?_
  exact hk object b₂ h₂.1 h₂.2.1 (h₁.silent.trans h₂.2.2)

/-- A list is made of what its items mean. -/
theorem conveys_list (h : FillsList items) (l : Location) :
    Conveys (do let list ← add (.list []) l; valueItems list items; return some list)
      (fun t id => t.form? id = some .list)
      (do return some (.list (← itemMeanings items))) := by
  intro b hb
  refine succeeds_list hb h (fun list b' hmade hid htold => ?_) l
  exact Build.conveyed_some hmade hid.form?_list hid rfl (by simpa using htold)

/-- An object is made of what its entries mean. -/
theorem conveys_object (h : FillsObject entries) (l : Location) :
    Conveys (do let object ← add (.object []) l; valueEntries object [] entries; return some object)
      (fun t id => t.form? id = some .object)
      (do return some (.object (← entryMeanings [] entries))) := by
  intro b hb
  refine succeeds_object hb h (fun object b' hmade hid htold => ?_) l
  exact Build.conveyed_some hmade hid.form?_object hid rfl (by simpa using htold)

/-! ## Operands -/

/-- What is made of an operand in its role. -/
def operand (tag : String) (role : Option Role) (item : RawValue) : BuildM (Option NodeId) :=
  match role with
  | some .text => textOperand tag item
  | some .conditionName => conditionNameOperand tag item
  | some .parameters =>
    match item with
    | .mapping none location entries => do
      let object ← add (.object []) location
      valueEntries object [] entries
      pure (some object)
    | item => refuse s!"{tag} second parameter must be a map" item.location
  | _ => value item

/-- What an operand means in its role. -/
def operandMeaning (tag : String) (role : Option Role) (item : RawValue) :
    Verdict (Option Term) :=
  match role with
  | some .text => textMeaning tag item
  | some .conditionName => nameMeaning tag item
  | some .parameters =>
    match item with
    | .mapping none _ entries => do pure (some (.object (← entryMeanings [] entries)))
    | item => .refuse s!"{tag} second parameter must be a map" item.location
  | _ => meaning item

/-- Operands are made one after the other, each in the next role, until one is refused. -/
theorem operands_cons (tag : String) (roles : List Role) (item : RawValue)
    (items : List RawValue) : operands tag roles (item :: items) = do
      let id ← operand tag roles.head? item
      match id with
      | none => return none
      | some id => return (← operands tag roles.tail items).map (id :: ·) := by
  conv_lhs => unfold operands
  match roles.head?, item with
  | none, _ | some .value, _ | some .text, _ | some .conditionName, _ => rfl
  | some .parameters, .mapping (some _) .. | some .parameters, .scalar ..
  | some .parameters, .sequence .. => rfl
  | some .parameters, .mapping none .. => simp only [operand, bind_assoc, pure_bind]

/-- Operands mean something one after the other, each in the next role, until one is refused. -/
theorem operandMeanings_cons (tag : String) (roles : List Role) (item : RawValue)
    (items : List RawValue) : operandMeanings tag roles (item :: items) = do
      let term ← operandMeaning tag roles.head? item
      match term with
      | none => return none
      | some term => return (← operandMeanings tag roles.tail items).map (term :: ·) := by
  conv_lhs => unfold operandMeanings
  match roles.head?, item with
  | none, _ | some .value, _ | some .text, _ | some .conditionName, _ => rfl
  | some .parameters, .mapping (some _) .. | some .parameters, .scalar ..
  | some .parameters, .sequence .. => rfl
  | some .parameters, .mapping none .. => simp only [operandMeaning, bind_assoc, pure_bind]

/-- Out of the value its meaning is made, and out of the entries of a mapping an object. -/
def Conveyable (r : RawValue) : Prop :=
  Conveys (value r) Tree.IsValue (meaning r) ∧
    ∀ tag l entries, r = .mapping tag l entries → FillsObject entries

/-- An operand is made in its role. -/
theorem conveys_operand {item : RawValue} (h : Conveyable item) (tag : String)
    (role : Option Role) :
    Conveys (operand tag role item) (fun t id => ∀ r, role = some r → t.HasRole r id)
      (operandMeaning tag role item) := by
  match role, item with
  | none, _ => exact h.1.imp fun t id _ => by simp
  | some .value, _ => exact h.1.imp fun t id hid => by simpa [Tree.HasRole] using hid
  | some .text, item =>
    exact (conveys_textOperand tag item).imp fun t id hid => by simpa [Tree.HasRole] using hid
  | some .conditionName, item =>
    exact (conveys_conditionNameOperand tag item).imp fun t id hid => by simpa using hid
  | some .parameters, .mapping none l entries =>
    exact (conveys_object (h.2 _ _ _ rfl) l).imp fun t id hid => by
      simpa [Tree.HasRole] using hid
  | some .parameters, .mapping (some _) .. | some .parameters, .scalar ..
  | some .parameters, .sequence .. => exact conveys_refuse _ _

/-- The operands of a function are made in their roles. -/
theorem succeeds_operands (h : ∀ r ∈ items, Conveyable r) (tag : String) (roles : List Role)
    (hb : b.tree.Sound) : Succeeds (operands tag roles items) b
      (b.ConveyedAll (fun t ids => roles.length = items.length → List.Forall₂ t.HasRole roles ids)
        (operandMeanings tag roles items)) := by
  induction items generalizing roles b with
  | nil =>
    rw [operands, operandMeanings]
    refine Build.conveyedAll_some (Tree.Grown.refl hb).made (fun hlength => ?_) .nil rfl b.told_refl
    rw [List.eq_nil_of_length_eq_zero hlength]
    exact .nil
  | cons item items ih =>
    obtain ⟨hitem, hitems⟩ := List.forall_mem_cons.mp h
    rw [operands_cons, operandMeanings_cons]
    refine succeeds_bind (conveys_operand hitem tag roles.head? b hb) fun given b₁ h₁ => ?_
    cases hanswer : (operandMeaning tag roles.head? item).answer with
    | none =>
      obtain rfl := h₁.none_of hanswer
      exact Build.conveyedAll_none h₁.made.toGrown (by simp [hanswer])
        (by simpa [hanswer] using h₁.told)
    | some term =>
      obtain ⟨id, rfl, hid, hrole, hmade⟩ := h₁.some_of hanswer
      refine succeeds_bind (ih hitems roles.tail hmade.sound) fun others b₂ h₂ => ?_
      have htold := h₁.told.trans h₂.told
      cases hanswers : (operandMeanings tag roles.tail items).answer with
      | none =>
        -- What was made for the first operand remains.
        obtain rfl := h₂.none_of hanswers
        exact Build.conveyedAll_none (hmade.toGrown.trans h₂.made.toGrown)
          (by simp [hanswer, hanswers]) (by simpa [hanswer] using htold)
      | some terms =>
        obtain ⟨ids, rfl, hids, hroles, hmade₂⟩ := h₂.some_of hanswers
        refine Build.conveyedAll_some (hmade.trans hmade₂) (fun hlength => ?_)
          (.cons (hid.of_retains hmade₂.retains) hids) (by simp [hanswer, hanswers])
          (by simpa [hanswer] using htold)
        -- There is a role for each operand, so the first operand has one.
        obtain ⟨role, roles, rfl⟩ := List.exists_cons_of_length_eq_add_one hlength
        exact .cons (hmade₂.keeps.hasRole (hrole role rfl)) (hroles (by simpa using hlength))

/-- The parameters of `!Transform` are an object. -/
theorem conveys_transformParameters (h : ∀ entry ∈ entries, Conveyable entry.2) :
    Conveys (transformParameters entries) (fun t id => t.form? id = some .object)
      (parametersMeaning entries) := by
  induction entries with
  | nil =>
    intro b hb
    rw [transformParameters, parametersMeaning]
    exact Build.conveyed_none (Tree.Grown.refl hb) rfl b.told_refl
  | cons entry entries ih =>
    obtain ⟨key, item⟩ := entry
    obtain ⟨hitem, hentries⟩ := List.forall_mem_cons.mp h
    unfold transformParameters parametersMeaning
    by_cases hkey : key.text = "Parameters"
    · rw [if_pos hkey, if_pos hkey]
      match item with
      | .mapping _ l entries => exact conveys_object (hitem.2 _ _ _ rfl) l
      | .scalar .. | .sequence .. =>
        exact fun b hb => Build.conveyed_none (Tree.Grown.refl hb) rfl b.told_refl
    · rw [if_neg hkey, if_neg hkey]
      exact ih hentries

/-! ## Values -/

/-- Out of a sequence under a tag that has a signature, the call is made. -/
theorem conveys_call {f : FunctionName} {roles : List Role} (hroles : f.signature = some roles)
    (h : ∀ r ∈ items, Conveyable r) (tag : String) (l : Location) :
    Conveys (do
      if roles.length ≠ items.length then refuse (wrongCount tag roles.length) l
      else
        match (← operands tag roles items).bind (Call.ofOperands? f · none) with
        | some call => addCall call l
        | none => return none) Tree.IsValue
      (if roles.length ≠ items.length then .refuse (wrongCount tag roles.length) l
      else do return (← operandMeanings tag roles items).map (.call f)) := by
  by_cases hlength : roles.length = items.length
  · rw [if_neg (not_not.mpr hlength), if_neg (not_not.mpr hlength)]
    intro b hb
    refine succeeds_bind (succeeds_operands h tag roles hb) fun given b₁ h₁ => ?_
    cases hanswer : (operandMeanings tag roles items).answer with
    | none =>
      obtain rfl := h₁.none_of hanswer
      exact Build.conveyed_none h₁.made.toGrown (by simp [hanswer]) (by simpa using h₁.told)
    | some terms =>
      obtain ⟨ids, rfl, hids, htyped, hmade⟩ := h₁.some_of hanswer
      have htyped := htyped hlength
      obtain ⟨call, hcall, hname, hoperands, htarget, hcallRoles⟩ :=
        Call.exists_ofOperands? hroles htyped.length_eq
      rw [Option.bind_some, hcall]
      refine conveys_addCall call (hoperands ▸ hmade) htarget ?_ (hoperands ▸ hids)
        (by simp [hanswer, hname]) (by simpa using h₁.told) l
      rwa [hoperands, hcallRoles]
  · rw [if_pos hlength, if_pos hlength]
    exact conveys_refuse _ l

/-- Out of a mapping under the tag of `!Transform`, the call is made. -/
theorem conveys_transform (h : ∀ entry ∈ entries, Conveyable entry.2) (l : Location) :
    Conveys (do
      match ← checkTransform l entries with
      | none => return none
      | some (name, nameLocation) =>
        let name ← addText name nameLocation
        match ← transformParameters entries with
        | none => return none
        | some parameters => addCall (.transform name parameters) l) Tree.IsValue
      (do
      match ← transformName l entries with
      | none => return none
      | some name =>
        return (← parametersMeaning entries).map fun parameters =>
          .call .transform [.text name, parameters]) := by
  intro b hb
  refine succeeds_bind (succeeds_checkTransform l entries) fun checked b₁ h₁ => ?_
  obtain ⟨htree, hname, htold⟩ := h₁
  have hmade₁ : b.tree.Made b₁.tree [] := htree ▸ (Tree.Grown.refl hb).made
  match checked with
  | none =>
    exact Build.conveyed_none hmade₁.toGrown (by simp [← hname]) (by simpa [← hname] using htold)
  | some (name, nameLocation) =>
    refine succeeds_bind (succeeds_addText hmade₁ name nameLocation) fun id b₂ h₂ => ?_
    refine succeeds_bind (conveys_transformParameters h b₂ h₂.made.sound) fun given b₃ h₃ => ?_
    have hmade₃ := h₂.made.trans h₃.made
    have htold₃ := (htold.of_silent h₂.silent).trans h₃.told
    cases hanswer : (parametersMeaning entries).answer with
    | none =>
      obtain rfl := h₃.none_of hanswer
      exact Build.conveyed_none hmade₃.toGrown (by simp [← hname, hanswer])
        (by simpa [← hname] using htold₃)
    | some term =>
      obtain ⟨parameters, rfl, hparameters, hobject, -⟩ := h₃.some_of hanswer
      have htext := h₂.denotes.of_retains h₃.made.retains
      exact conveys_addCall (.transform id parameters) hmade₃ rfl
        (.cons htext.isText (.cons hobject .nil)) (.cons htext (.cons hparameters .nil))
        (by simp [← hname, hanswer]; rfl) (by simpa [← hname] using htold₃) l

/-- Out of an uninterpreted value the value is made that it means. -/
theorem conveys_value (r : RawValue) : Conveys (value r) Tree.IsValue (meaning r) := by
  -- `!Sub` and `!Transform` make an object out of the entries of a mapping below them, so what is
  -- made of the entries is carried along.
  suffices Conveyable r from this.1
  induction r using RawValue.induction with
  | scalar tag l text =>
    refine ⟨?_, nofun⟩
    cases tag with
    | none => exact (conveys_text text l).imp fun _ _ h => h.isValue
    | some tag =>
      rw [value, meaning]
      cases FunctionName.ofTag? tag with
      | none => exact conveys_refuse _ l
      | some f => exact conveys_onScalar f l text
  | sequence tag l items ih =>
    refine ⟨?_, nofun⟩
    have hfills := fillsList fun r hr => (ih r hr).1
    cases tag with
    | none =>
      rw [value, meaning]
      exact (conveys_list hfills l).imp fun _ _ h => ⟨_, h, rfl⟩
    | some tag =>
      rw [value, meaning]
      cases FunctionName.ofTag? tag with
      | none => exact conveys_refuse _ l
      | some f =>
        dsimp only
        cases hcall : f.ofAnyValue? with
        | some call =>
          intro b hb
          refine succeeds_list hb hfills (fun list b' hmade hid htold => ?_) l
          exact conveys_addCall_ofAnyValue hcall hmade hid.isValue_list hid rfl
            (by simpa using htold) l
        | none =>
          cases hroles : f.signature with
          | some roles => exact conveys_call hroles ih tag l
          | none => exact conveys_refuse _ l
  | mapping tag l entries ih =>
    have hfills := fillsObject fun entry hentry => (ih entry hentry).1
    refine ⟨?_, fun tag' l' entries' h => by cases h; exact hfills⟩
    cases tag with
    | none =>
      rw [value, meaning]
      exact (conveys_object hfills l).imp fun _ _ h => ⟨_, h, rfl⟩
    | some tag =>
      rw [value, meaning]
      match FunctionName.ofTag? tag with
      | none => exact conveys_refuse _ l
      | some .transform => exact conveys_transform ih l
      | some .base64 | some .getAzs | some .importValue =>
        intro b hb
        refine succeeds_object hb hfills (fun object b' hmade hid htold => ?_) l
        exact conveys_addCall_ofAnyValue rfl hmade hid.isValue_object hid rfl
          (by simpa [FunctionName.ofAnyValue?] using htold) l
      | some .cidr | some .findInMap | some .getAtt | some .ifElse | some .join | some .select
      | some .split | some .sub | some .ref => exact conveys_refuse _ l

/-- Out of any uninterpreted value a value is made. -/
theorem gives_value (r : RawValue) : Gives (value r) Tree.IsValue :=
  (conveys_value r).gives

/-- Out of a sequence without a tag a list is made. -/
theorem gives_list (l : Location) (items : List RawValue) :
    Gives (value (.sequence none l items)) fun t id => t.form? id = some .list := by
  rw [value]
  exact (conveys_list (fillsList fun r _ => conveys_value r) l).gives

/-- Out of a mapping without a tag an object is made. -/
theorem gives_object (l : Location) (entries : List (Key × RawValue)) :
    Gives (value (.mapping none l entries)) fun t id => t.form? id = some .object := by
  rw [value]
  exact (conveys_object (fillsObject fun entry _ => conveys_value entry.2) l).gives

end Resolve

end InfraModule
