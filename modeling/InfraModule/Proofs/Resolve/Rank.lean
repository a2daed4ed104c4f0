import InfraModule.Proofs.Resolve.Condition
import InfraModule.Proofs.Tree.Rank

/-!
# The depth of what is resolved

Resolving a value makes at most two nodes for each level of the value, one for the container and one
for its tag, and at most two for a scalar. This holds of every node that is made, whether or not it
ends up in what the value means: a value in which `n` containers are nested gives ranks below
`2 * n + 2` (`raises_value`, `raises_condition`).
-/

namespace InfraModule

open Result BuildM

/-! ## Nesting -/

namespace RawValue

mutual

/-- How many containers are nested in each other. -/
def nesting : RawValue → Nat
  | .scalar .. => 0
  | .sequence _ _ items => itemNesting items + 1
  | .mapping _ _ entries => entryNesting entries + 1
termination_by structural r => r

/-- How many containers are nested in each other in any of some items. -/
def itemNesting : List RawValue → Nat
  | [] => 0
  | item :: items => max item.nesting (itemNesting items)
termination_by structural items => items

/-- How many containers are nested in each other in any of some entries. -/
def entryNesting : List (Key × RawValue) → Nat
  | [] => 0
  | (_, item) :: entries => max item.nesting (entryNesting entries)
termination_by structural entries => entries

end

variable {n : Nat} {tag : Option String} {l : Location} {items : List RawValue}
  {entries : List (Key × RawValue)}

/-- Items are nested within a depth if each of them is. -/
theorem itemNesting_le : itemNesting items ≤ n ↔ ∀ r ∈ items, r.nesting ≤ n := by
  induction items with
  | nil => simp [itemNesting]
  | cons item items ih => rw [itemNesting, Nat.max_le, ih, List.forall_mem_cons]

/-- The values of entries are nested within a depth if each of them is. -/
theorem entryNesting_le : entryNesting entries ≤ n ↔ ∀ entry ∈ entries, entry.2.nesting ≤ n := by
  induction entries with
  | nil => simp [entryNesting]
  | cons entry entries ih =>
    obtain ⟨key, item⟩ := entry
    rw [entryNesting, Nat.max_le, ih, List.forall_mem_cons]

/-- In a sequence one level less is left for the items. -/
theorem nesting_sequence_le : (sequence tag l items).nesting ≤ n ↔
    ∃ m, n = m + 1 ∧ ∀ r ∈ items, r.nesting ≤ m := by
  rw [nesting]
  cases n with
  | zero => simp
  | succ m => simp [itemNesting_le]

/-- In a mapping one level less is left for the values. -/
theorem nesting_mapping_le : (mapping tag l entries).nesting ≤ n ↔
    ∃ m, n = m + 1 ∧ ∀ entry ∈ entries, entry.2.nesting ≤ m := by
  rw [nesting]
  cases n with
  | zero => simp
  | succ m => simp [entryNesting_le]

end RawValue

/-! ## Steps -/

namespace BuildM

variable {b : Build} {bound k j : Nat} {rank : NodeId → Nat} {l : Location} {e : Expression}

/-- Started in a ranked tree, the step gives ranks to what it makes, one below `k` to the node that
it gives. -/
def Raises (k : Nat) (m : BuildM (Option NodeId)) : Prop :=
  ∀ ⦃bound b rank⦄, k ≤ bound → b.tree.Ranked bound rank →
    Tree.Ranks Build.tree bound m b rank fun t r given => ∀ id ∈ given, t.Below r k id

/-- A rank below a bound is below every greater one. -/
theorem Raises.mono {m : BuildM (Option NodeId)} (h : Raises j m) (hjk : j ≤ k) : Raises k m :=
  fun _ _ _ hk hb => (h (hjk.trans hk) hb).mono fun _ _ _ hgiven id hid => (hgiven id hid).mono hjk

/-- An operation on the tree gives ranks as a step if it does as an operation. -/
theorem ranks_onTree {α : Type} {operation : TreeM α} {P : Tree → (NodeId → Nat) → α → Prop}
    (h : Tree.Ranks (fun t => t) bound operation b.tree rank P) :
    Tree.Ranks Build.tree bound (onTree operation) b rank P :=
  post_onTree.mpr h

/-- To report makes no node. -/
theorem ranks_report (hb : b.tree.Ranked bound rank) (message : String) (l : Location) :
    Tree.Ranks Build.tree bound (report message l) b rank fun _ _ _ => True :=
  ⟨rank, .refl hb, trivial⟩

/-- A step that leaves the tree as it is leaves ranks as they are. -/
theorem ranks_of_tree {α : Type} {m : BuildM α} (hm : Succeeds m b fun _ b' => b'.tree = b.tree)
    (hb : b.tree.Ranked bound rank) : Tree.Ranks Build.tree bound m b rank fun _ _ _ => True :=
  Post.mono hm (fun _ _ h => ⟨rank, by rw [h]; exact .refl hb, trivial⟩) fun _ _ h => h.elim

/-- A step that gives no node gives ranks. -/
theorem raises_none : Raises k (pure none) := fun _ _ _ _ hb => .pure hb (by simp)

/-- To refuse a value makes no node. -/
theorem raises_refuse (message : String) (l : Location) : Raises k (refuse message l) :=
  fun _ _ _ hk hb => (ranks_report hb message l).bind fun _ _ _ hu _ => raises_none hk hu.toRanked

/-- An expression above operands of ranks below `k` gets the rank `k`. -/
theorem ranks_add (hb : b.tree.Ranked bound rank) (hchildren : ∀ c ∈ e.children, rank c < k)
    (hk : k < bound) (l : Location) :
    Tree.Ranks Build.tree bound (add e l) b rank fun t r id => t.HasRank r k id :=
  ranks_onTree (Tree.ranks_add (n := .expression e) hb hchildren hk l)

/-- A text is a leaf. -/
theorem ranks_addText (hb : b.tree.Ranked bound rank) (hbound : 0 < bound) (text : String)
    (l : Location) :
    Tree.Ranks Build.tree bound (addText text l) b rank fun t r id => t.HasRank r 0 id :=
  ranks_add (e := .literal (.string text)) hb (by simp [Expression.children]) hbound l

/-- An expression that is given has a rank above those of its operands. -/
theorem ranks_addSome (hb : b.tree.Ranked bound rank) (hchildren : ∀ c ∈ e.children, rank c < k)
    (hk : k < j) (hj : j ≤ bound) (l : Location) :
    Tree.Ranks Build.tree bound (some <$> add e l) b rank
      fun t r given => ∀ id ∈ given, t.Below r j id :=
  .map ((ranks_add hb hchildren (hk.trans_le hj) l).mono fun _ _ _ hid => by
    simpa using hid.below hk)

/-- A named condition stands one above its name. -/
theorem ranks_addNamedCondition (hb : b.tree.Ranked bound rank) (hbound : 1 < bound)
    (name : String) (l : Location) :
    Tree.Ranks Build.tree bound (addNamedCondition name l) b rank
      fun t r id => t.HasRank r 1 id :=
  (ranks_addText hb (Nat.zero_lt_of_lt hbound) name l).bind fun id _ _ hu hid =>
    ranks_add (e := .condition (.reference id none)) hu.toRanked
      (by simpa [Expression.children, Condition.operands] using hid.2.trans_lt Nat.one_pos) hbound l

end BuildM

/-- A call that is made of operands alone has these operands. -/
theorem Call.operands_of_ofOperands? {f : FunctionName} {ids : List NodeId}
    {target : Option NodeId} {call : Call} (h : ofOperands? f ids target = some call) :
    call.operands = ids := by
  unfold ofOperands? at h
  split at h <;> cases h <;> rfl

namespace Resolve

variable {b : Build} {bound k n : Nat} {rank : NodeId → Nat} {l : Location} {items : List RawValue}
  {entries : List (Key × RawValue)}

/-! ## Filling lists and objects -/

/-- A list has a rank above all that may be appended to it. -/
theorem ranks_valueItems (h : ∀ r ∈ items, Raises k (value r)) (hk : k ≤ bound)
    (hb : b.tree.Ranked bound rank) {list : NodeId} (hlist : b.tree.HasRank rank k list) :
    Tree.Ranks Build.tree bound (valueItems list items) b rank fun _ _ _ => True := by
  induction items generalizing b rank with
  | nil =>
    rw [valueItems]
    exact .pure hb trivial
  | cons item items ih =>
    obtain ⟨hitem, hitems⟩ := List.forall_mem_cons.mp h
    rw [valueItems]
    refine (hitem hk hb).bind fun given b₁ rank₁ hb₁ hgiven => ?_
    have hlist₁ := hb₁.hasRank hlist
    cases given with
    | none => exact ih hitems hb₁.toRanked hlist₁
    | some id =>
      have hid : rank₁ id < rank₁ list := hlist₁.2 ▸ (hgiven id rfl).2
      refine (ranks_onTree (Tree.ranks_pushChild hb₁.toRanked hid)).bind fun _ b₂ rank₂ hb₂ _ => ?_
      exact ih hitems hb₂.toRanked (hb₂.hasRank hlist₁)

/-- An object has a rank above all that may be added to it. -/
theorem ranks_valueEntries (h : ∀ entry ∈ entries, Raises k (value entry.2)) (hk : k ≤ bound)
    (hb : b.tree.Ranked bound rank) {object : NodeId} (hobject : b.tree.HasRank rank k object)
    (seen : List String) :
    Tree.Ranks Build.tree bound (valueEntries object seen entries) b rank fun _ _ _ => True := by
  induction entries generalizing b rank seen with
  | nil =>
    rw [valueEntries]
    exact .pure hb trivial
  | cons entry entries ih =>
    obtain ⟨key, item⟩ := entry
    obtain ⟨hitem, hentries⟩ := List.forall_mem_cons.mp h
    rw [valueEntries]
    split
    · refine (ranks_report hb _ _).bind fun _ b₁ rank₁ hb₁ _ => ?_
      exact ih hentries hb₁.toRanked (hb₁.hasRank hobject) seen
    · refine (hitem hk hb).bind fun given b₁ rank₁ hb₁ hgiven => ?_
      have hobject₁ := hb₁.hasRank hobject
      cases given with
      | none => exact ih hentries hb₁.toRanked hobject₁ _
      | some id =>
        have hid : rank₁ id < rank₁ object := hobject₁.2 ▸ (hgiven id rfl).2
        have hinsert : Tree.Ranks Build.tree bound (discard (onTree (.insertEntry object key id)))
            b₁ rank₁ fun _ _ _ => True :=
          .map (ranks_onTree (Tree.ranks_insertEntry hb₁.toRanked hid key))
        refine hinsert.bind fun _ b₂ rank₂ hb₂ _ => ?_
        exact ih hentries hb₂.toRanked (hb₂.hasRank hobject₁) _

section Containers

variable {β : Type} {f : NodeId → BuildM β} {R : Tree → (NodeId → Nat) → β → Prop}

/-- A list is made above its items and then used. -/
theorem ranks_list (h : ∀ r ∈ items, Raises k (value r)) (hk : k < bound)
    (hb : b.tree.Ranked bound rank)
    (hf : ∀ list b' rank', b.tree.Rises bound rank b'.tree rank' → b'.tree.HasRank rank' k list →
      Tree.Ranks Build.tree bound (f list) b' rank' R) (l : Location) :
    Tree.Ranks Build.tree bound (do let list ← add (.list []) l; valueItems list items; f list) b
      rank R := by
  have hadd := ranks_add (e := .list []) hb (by simp [Expression.children]) hk l
  refine hadd.bind fun list b₁ rank₁ hb₁ hlist => ?_
  refine (ranks_valueItems h hk.le hb₁.toRanked hlist).bind fun _ b₂ rank₂ hb₂ _ => ?_
  exact hf list b₂ rank₂ (hb₁.trans hb₂) (hb₂.hasRank hlist)

/-- An object is made above its values and then used. -/
theorem ranks_object (h : ∀ entry ∈ entries, Raises k (value entry.2)) (hk : k < bound)
    (hb : b.tree.Ranked bound rank)
    (hf : ∀ object b' rank', b.tree.Rises bound rank b'.tree rank' →
      b'.tree.HasRank rank' k object → Tree.Ranks Build.tree bound (f object) b' rank' R)
    (l : Location) :
    Tree.Ranks Build.tree bound (do
      let object ← add (.object []) l
      valueEntries object [] entries
      f object) b rank R := by
  have hadd := ranks_add (e := .object []) hb (by simp [Expression.children]) hk l
  refine hadd.bind fun object b₁ rank₁ hb₁ hobject => ?_
  refine (ranks_valueEntries h hk.le hb₁.toRanked hobject []).bind fun _ b₂ rank₂ hb₂ _ => ?_
  exact hf object b₂ rank₂ (hb₁.trans hb₂) (hb₂.hasRank hobject)

end Containers

/-! ## Operands -/

/-- A call has a rank above those of its operands. -/
theorem ranks_addCall {call : Call} (hb : b.tree.Ranked bound rank)
    (hoperands : ∀ c ∈ call.operands, rank c < k) (hk : k < n) (hn : n ≤ bound) (l : Location) :
    Tree.Ranks Build.tree bound (addCall call l) b rank
      fun t r given => ∀ id ∈ given, t.Below r n id :=
  ranks_addSome (e := .call call) hb hoperands hk hn l

/-- The call of a function that takes any value is ranked above that value. -/
theorem ranks_addCall_ofAnyValue {f : FunctionName} {call : NodeId → Call}
    (hcall : f.ofAnyValue? = some call) (hb : b.tree.Ranked bound rank) {value : NodeId}
    (hvalue : b.tree.HasRank rank k value) (hk : k + 2 ≤ bound) (l : Location) :
    Tree.Ranks Build.tree bound (addCall (call value) l) b rank
      fun t r given => ∀ id ∈ given, t.Below r (k + 2) id := by
  obtain ⟨-, hoperands, -⟩ := FunctionName.operands_of_ofAnyValue? hcall value
  refine ranks_addCall hb (fun c hc => ?_) (Nat.lt_succ_self (k + 1)) hk l
  rw [hoperands, List.mem_singleton] at hc
  exact hc ▸ hvalue.2.trans_lt (Nat.lt_succ_self k)

/-- A text that is given is a leaf. -/
theorem raises_text (text : String) (l : Location) : Raises 1 (some <$> addText text l) :=
  fun _ _ _ hk hb => ranks_addSome (e := .literal (.string text)) hb (by simp [Expression.children])
    Nat.one_pos hk l

/-- A named condition that is given stands one above its name. -/
theorem raises_namedCondition (name : String) (l : Location) :
    Raises 2 (some <$> addNamedCondition name l) := fun _ _ _ hk hb =>
  .map ((ranks_addNamedCondition hb hk name l).mono fun _ _ _ hid => by
    simpa using hid.below (Nat.lt_succ_self 1))

/-- A function on a scalar stands one above texts. -/
theorem raises_onScalar (f : FunctionName) (l : Location) (text : String) :
    Raises 2 (onScalar f l text) := by
  intro bound b rank hk hb
  have htext (call : NodeId → Call) (hcall : ∀ id, (call id).operands = [id]) :
      Tree.Ranks Build.tree bound (do addCall (call (← addText text l)) l) b rank
        fun t r given => ∀ id ∈ given, t.Below r 2 id := by
    refine (ranks_addText hb (Nat.zero_lt_of_lt hk) text l).bind fun id b₁ rank₁ hb₁ hid => ?_
    refine ranks_addCall hb₁.toRanked (k := 1) ?_ (Nat.lt_succ_self 1) hk l
    simp [hcall, hid.2]
  cases f with
  | getAtt =>
    refine (ranks_addText hb (Nat.zero_lt_of_lt hk) _ l).bind fun resource b₁ rank₁ hb₁ hres => ?_
    refine (ranks_addText hb₁.toRanked (Nat.zero_lt_of_lt hk) _ l).bind
      fun name b₂ rank₂ hb₂ hname => ?_
    refine ranks_addCall hb₂.toRanked (k := 1) ?_ (Nat.lt_succ_self 1) hk l
    simp [Call.operands, (hb₂.hasRank hres).2, hname.2]
  | sub => exact htext (.sub · none) fun _ => rfl
  | ref => exact htext (.ref · none) fun _ => rfl
  | base64 | getAzs | importValue => exact htext _ fun _ => rfl
  | _ => exact raises_refuse _ _ hk hb

/-- An operand that is a text is a leaf. -/
theorem raises_textOperand (tag : String) : ∀ operand : RawValue,
    Raises 1 (textOperand tag operand)
  | .scalar none l text => raises_text text l
  | .scalar (some _) .. | .sequence .. | .mapping .. => raises_refuse _ _

/-- An operand that names a condition stands one above the name. -/
theorem raises_conditionNameOperand (tag : String) : ∀ operand : RawValue,
    Raises 2 (conditionNameOperand tag operand)
  | .scalar none l text => raises_namedCondition text l
  | .scalar (some _) .. | .sequence .. | .mapping .. => raises_refuse _ _

/-- In whatever role an operand stands, it gives no higher rank than a value or a name. -/
theorem raises_operand {item : RawValue} (h : Raises k (value item)) (hk : 2 ≤ k) (tag : String)
    (role : Option Role) : Raises k (operand tag role item) := by
  match role, item with
  | none, _ | some .value, _ => exact h
  | some .text, item => exact (raises_textOperand tag item).mono (Nat.one_le_of_lt hk)
  | some .conditionName, item => exact (raises_conditionNameOperand tag item).mono hk
  | some .parameters, .mapping none l entries =>
    rw [value] at h
    exact h
  | some .parameters, .mapping (some _) .. | some .parameters, .scalar ..
  | some .parameters, .sequence .. => exact raises_refuse _ _

/-- A node is ranked like those behind it. -/
theorem ranks_prepend {first : BuildM (Option NodeId)} {others : BuildM (Option (List NodeId))}
    (hfirst : Raises k first) (hk : k ≤ bound) (hb : b.tree.Ranked bound rank)
    (hothers : ∀ b' rank', b'.tree.Ranked bound rank' →
      Tree.Ranks Build.tree bound others b' rank'
        fun t r given => ∀ ids ∈ given, ∀ id ∈ ids, t.Below r k id) :
    Tree.Ranks Build.tree bound (do
      match ← first with
      | none => return none
      | some id => return (← others).map (id :: ·)) b rank
        fun t r given => ∀ ids ∈ given, ∀ id ∈ ids, t.Below r k id := by
  refine (hfirst hk hb).bind fun given b₁ rank₁ hb₁ hgiven => ?_
  cases given with
  | none => exact .pure hb₁.toRanked (by simp)
  | some id =>
    refine (hothers b₁ rank₁ hb₁.toRanked).bind fun others b₂ rank₂ hb₂ hothers => ?_
    refine .pure hb₂.toRanked ?_
    rintro ids hids
    obtain ⟨rest, hrest, rfl⟩ := Option.map_eq_some_iff.mp hids
    exact List.forall_mem_cons.mpr ⟨hb₂.below (hgiven id rfl), hothers rest hrest⟩

/-- Operands are given ranks one after the other. -/
theorem ranks_operands (h : ∀ r ∈ items, Raises k (value r)) (hk : 2 ≤ k) (hbound : k ≤ bound)
    (hb : b.tree.Ranked bound rank) (tag : String) (roles : List Role) :
    Tree.Ranks Build.tree bound (operands tag roles items) b rank
      fun t r given => ∀ ids ∈ given, ∀ id ∈ ids, t.Below r k id := by
  induction items generalizing b rank roles with
  | nil =>
    rw [operands]
    exact .pure hb (by simp)
  | cons item items ih =>
    obtain ⟨hitem, hitems⟩ := List.forall_mem_cons.mp h
    rw [operands_cons]
    exact ranks_prepend (raises_operand hitem hk tag roles.head?) hbound hb
      fun _ _ hb' => ih hitems hb' roles.tail

/-- The parameters of `!Transform` are a mapping like any other. -/
theorem raises_transformParameters
    (h : ∀ entry ∈ entries, ∀ tag l es, entry.2 = .mapping tag l es →
      Raises k (value (.mapping none l es))) : Raises k (transformParameters entries) := by
  induction entries with
  | nil =>
    rw [transformParameters]
    exact raises_none
  | cons entry entries ih =>
    obtain ⟨key, item⟩ := entry
    obtain ⟨hitem, hentries⟩ := List.forall_mem_cons.mp h
    unfold transformParameters
    split
    · cases item with
      | mapping tag l es =>
        have hvalue := hitem tag l es rfl
        rw [value] at hvalue
        exact hvalue
      | scalar | sequence => exact raises_none
    · exact ih hentries

/-! ## Values -/

/-- A call of a function on a sequence is ranked above its operands. -/
theorem raises_call (h : ∀ r ∈ items, Raises k (value r)) (hk : 2 ≤ k) (f : FunctionName)
    (roles : List Role) (tag : String) (l : Location) :
    Raises (k + 1) (do
      if roles.length ≠ items.length then refuse (wrongCount tag roles.length) l
      else
        match (← operands tag roles items).bind (Call.ofOperands? f · none) with
        | some call => addCall call l
        | none => return none) := by
  split
  · exact raises_refuse _ _
  · intro bound b rank hbound hb
    refine (ranks_operands h hk (Nat.le_of_succ_le hbound) hb tag roles).bind
      fun given b₁ rank₁ hb₁ hgiven => ?_
    split
    · next call hcall =>
      obtain ⟨ids, hids, hcall⟩ := Option.bind_eq_some_iff.mp hcall
      refine ranks_addCall hb₁.toRanked (fun c hc => ?_) (Nat.lt_succ_self k) hbound l
      exact (hgiven ids hids c (Call.operands_of_ofOperands? hcall ▸ hc)).2
    · exact raises_none hbound hb₁.toRanked

/-- The call of a transform is ranked above its name and its parameters. -/
theorem raises_transform
    (h : ∀ entry ∈ entries, ∀ tag l es, entry.2 = .mapping tag l es →
      Raises k (value (.mapping none l es))) (hk : 2 ≤ k) (l : Location) :
    Raises (k + 1) (do
      match ← checkTransform l entries with
      | none => return none
      | some (name, nameLocation) =>
        let name ← addText name nameLocation
        match ← transformParameters entries with
        | none => return none
        | some parameters => addCall (.transform name parameters) l) := by
  intro bound b rank hbound hb
  have hcheck : Succeeds (checkTransform l entries) b fun _ b' => b'.tree = b.tree :=
    (succeeds_checkTransform l entries).mono fun _ _ h => h.1
  refine (ranks_of_tree hcheck hb).bind fun checked b₁ rank₁ hb₁ _ => ?_
  cases checked with
  | none => exact raises_none hbound hb₁.toRanked
  | some checked =>
    refine (ranks_addText hb₁.toRanked (Nat.zero_lt_of_lt hbound) checked.1 checked.2).bind
      fun name b₂ rank₂ hb₂ hname => ?_
    refine (raises_transformParameters h (Nat.le_of_succ_le hbound) hb₂.toRanked).bind
      fun given b₃ rank₃ hb₃ hgiven => ?_
    cases given with
    | none => exact raises_none hbound hb₃.toRanked
    | some parameters =>
      refine ranks_addCall hb₃.toRanked ?_ (Nat.lt_succ_self k) hbound l
      have hparameters : rank₃ parameters < k := (hgiven parameters rfl).2
      have hname : rank₃ name < k := (hb₃.hasRank hname).2.trans_lt (Nat.zero_lt_of_lt hk)
      simp [Call.operands, hname, hparameters]

/-- A scalar makes at most a function and its texts. -/
theorem raises_value_scalar (tag : Option String) (l : Location) (text : String) :
    Raises 2 (value (.scalar tag l text)) := by
  cases tag with
  | none => exact (raises_text text l).mono (Nat.le_succ 1)
  | some tag =>
    rw [value]
    split
    · exact raises_refuse _ l
    · next f hf => exact raises_onScalar f l text

/-- A sequence is ranked above its items, and its tag above the sequence. -/
theorem raises_value_sequence (h : ∀ r ∈ items, Raises k (value r)) (hk : 2 ≤ k)
    (tag : Option String) (l : Location) : Raises (k + 2) (value (.sequence tag l items)) := by
  cases tag with
  | none =>
    rw [value]
    intro bound b rank hbound hb
    refine ranks_list h (by omega) hb (fun list b' rank' hb' hlist => ?_) l
    exact .pure hb'.toRanked (by simpa using hlist.below (by omega))
  | some tag =>
    rw [value]
    split
    · exact raises_refuse _ l
    · next f hf =>
      split
      · next call hcall =>
        intro bound b rank hbound hb
        refine ranks_list h (by omega) hb (fun list b' rank' hb' hlist => ?_) l
        exact ranks_addCall_ofAnyValue hcall hb'.toRanked hlist hbound l
      · exact (raises_call h hk f _ tag l).mono (Nat.le_succ _)
      · exact raises_refuse _ l

/-- A mapping is ranked above its values, and its tag above the mapping. The parameters of
`!Transform` are ranked by what they are without their tag. -/
theorem raises_value_mapping (h : ∀ entry ∈ entries, Raises k (value entry.2))
    (hparameters : ∀ entry ∈ entries, ∀ tag l es, entry.2 = .mapping tag l es →
      Raises k (value (.mapping none l es))) (hk : 2 ≤ k) (tag : Option String) (l : Location) :
    Raises (k + 2) (value (.mapping tag l entries)) := by
  cases tag with
  | none =>
    rw [value]
    intro bound b rank hbound hb
    refine ranks_object h (by omega) hb (fun object b' rank' hb' hobject => ?_) l
    exact .pure hb'.toRanked (by simpa using hobject.below (by omega))
  | some tag =>
    rw [value]
    split
    · exact raises_refuse _ l
    · exact (raises_transform hparameters hk l).mono (Nat.le_succ _)
    · next f hf _ =>
      split
      · next call hcall =>
        intro bound b rank hbound hb
        refine ranks_object h (by omega) hb (fun object b' rank' hb' hobject => ?_) l
        exact ranks_addCall_ofAnyValue hcall hb'.toRanked hobject hbound l
      · exact raises_refuse _ l

/-- A value in which `n` containers are nested gives at most two levels of nodes for each. -/
theorem raises_value {r : RawValue} (hr : r.nesting ≤ n) : Raises (2 * n + 2) (value r) := by
  induction n using Nat.strong_induction_on generalizing r with
  | _ n ih =>
    cases r with
    | scalar tag l text => exact (raises_value_scalar tag l text).mono (Nat.le_add_left ..)
    | sequence tag l items =>
      obtain ⟨m, rfl, hnesting⟩ := RawValue.nesting_sequence_le.mp hr
      have hitems : ∀ item ∈ items, Raises (2 * m + 2) (value item) := fun item hitem =>
        ih m (Nat.lt_succ_self m) (hnesting item hitem)
      exact raises_value_sequence hitems (Nat.le_add_left ..) tag l
    | mapping tag l entries =>
      obtain ⟨m, rfl, hnesting⟩ := RawValue.nesting_mapping_le.mp hr
      have hentries : ∀ entry ∈ entries, Raises (2 * m + 2) (value entry.2) := fun entry hentry =>
        ih m (Nat.lt_succ_self m) (hnesting entry hentry)
      refine raises_value_mapping hentries (fun entry hentry tag' l' es hes => ?_)
        (Nat.le_add_left ..) tag l
      -- A tag does not count for how deep a value is nested.
      refine ih m (Nat.lt_succ_self m) ?_
      have hentry := hnesting entry hentry
      rwa [hes, RawValue.nesting, ← RawValue.nesting] at hentry

/-! ## Conditions -/

/-- A condition has a rank above those of its operands. -/
theorem ranks_addCondition {c : Condition} (hb : b.tree.Ranked bound rank)
    (hoperands : ∀ d ∈ c.operands, rank d < k) (hk : k < n) (hn : n ≤ bound) (l : Location) :
    Tree.Ranks Build.tree bound (addCondition c l) b rank
      fun t r given => ∀ id ∈ given, t.Below r n id :=
  ranks_addSome (e := .condition c) hb hoperands hk hn l

/-- Conditions are given ranks one after the other. -/
theorem ranks_allConditions (h : ∀ r ∈ items, Raises k (condition r)) (hk : k ≤ bound)
    (hb : b.tree.Ranked bound rank) :
    Tree.Ranks Build.tree bound (allConditions items) b rank
      fun t r given => ∀ ids ∈ given, ∀ id ∈ ids, t.Below r k id := by
  induction items generalizing b rank with
  | nil =>
    rw [allConditions]
    exact .pure hb (by simp)
  | cons item items ih =>
    obtain ⟨hitem, hitems⟩ := List.forall_mem_cons.mp h
    rw [allConditions]
    exact ranks_prepend hitem hk hb fun _ _ hb' => ih hitems hb'

/-- `!And` and `!Or` are ranked above their operands. -/
theorem raises_connective (connective : List NodeId → Condition)
    (hoperands : ∀ ids, (connective ids).operands = ids)
    (h : ∀ r ∈ items, Raises k (condition r)) (tag : String) (l : Location) :
    Raises (k + 1) (do
      if ← wrongConditionCount tag l items.length then return none
      match ← allConditions items with
      | some operands => addCondition (connective operands) l
      | none => return none) := by
  intro bound b rank hbound hb
  have hcount : Succeeds (wrongConditionCount tag l items.length) b
      fun _ b' => b'.tree = b.tree :=
    (succeeds_wrongConditionCount tag l _ (conditionMeanings items) .and).mono fun _ _ h => h.1
  refine (ranks_of_tree hcount hb).bind fun wrong b₁ rank₁ hb₁ _ => ?_
  cases wrong with
  | true => exact raises_none hbound hb₁.toRanked
  | false =>
    refine (ranks_allConditions h (Nat.le_of_succ_le hbound) hb₁.toRanked).bind
      fun given b₂ rank₂ hb₂ hgiven => ?_
    cases given with
    | none => exact raises_none hbound hb₂.toRanked
    | some ids =>
      refine ranks_addCondition hb₂.toRanked (fun c hc => ?_) (Nat.lt_succ_self k) hbound l
      exact (hgiven ids rfl c (hoperands ids ▸ hc)).2

/-- `!Equals` is ranked above its two values. -/
theorem raises_equals {left right : RawValue} (hleft : Raises k (value left))
    (hright : Raises k (value right)) (l : Location) :
    Raises (k + 1) (do
      let left ← value left
      let right ← value right
      match left, right with
      | some left, some right => addCondition (.equals left right) l
      | _, _ => return none) := by
  intro bound b rank hbound hb
  have hk := Nat.le_of_succ_le hbound
  refine (hleft hk hb).bind fun given b₁ rank₁ hb₁ hgiven => ?_
  refine (hright hk hb₁.toRanked).bind fun given' b₂ rank₂ hb₂ hgiven' => ?_
  split
  · next left right =>
    refine ranks_addCondition hb₂.toRanked ?_ (Nat.lt_succ_self k) hbound l
    have hleft := (hb₂.below (hgiven left rfl)).2
    have hright := (hgiven' right rfl).2
    simp [Condition.operands, hleft, hright]
  · exact raises_none hbound hb₂.toRanked

/-- A scalar that is a condition makes at most a named condition and its name. -/
theorem raises_condition_scalar (tag : Option String) (l : Location) (text : String) :
    Raises 2 (condition (.scalar tag l text)) := by
  have hname := raises_namedCondition text l
  cases tag with
  | none => exact hname
  | some tag =>
    rw [condition]
    split
    · exact raises_refuse _ l
    · exact hname
    · intro bound b rank hbound hb
      refine (ranks_addText hb (Nat.zero_lt_of_lt hbound) text l).bind
        fun name b₁ rank₁ hb₁ hname => ?_
      refine ranks_addCondition (k := 1) hb₁.toRanked ?_ (Nat.lt_succ_self 1) hbound l
      simp [Condition.operands, hname.2]
    · exact raises_refuse _ l

/-- A sequence is ranked above its items, which are values or conditions. -/
theorem raises_condition_sequence (h : ∀ r ∈ items, Raises k (condition r))
    (hvalue : ∀ r ∈ items, Raises k (value r)) (tag : Option String) (l : Location) :
    Raises (k + 1) (condition (.sequence tag l items)) := by
  cases tag with
  | none => exact raises_refuse _ l
  | some tag =>
    unfold condition
    split
    · exact raises_refuse _ l
    · exact raises_connective .and (fun _ => rfl) h tag l
    · exact raises_connective .or (fun _ => rfl) h tag l
    · next operand _ =>
      intro bound b rank hbound hb
      refine (h operand List.mem_cons_self (Nat.le_of_succ_le hbound) hb).bind
        fun given b₁ rank₁ hb₁ hgiven => ?_
      cases given with
      | none => exact raises_none hbound hb₁.toRanked
      | some id =>
        refine ranks_addCondition hb₁.toRanked ?_ (Nat.lt_succ_self _) hbound l
        simpa [Condition.operands] using (hgiven id rfl).2
    · exact raises_refuse _ l
    · next left right _ =>
      exact raises_equals (hvalue left (by simp)) (hvalue right (by simp)) l
    · exact raises_refuse _ l
    · exact raises_refuse _ l

/-- A condition in which `n` containers are nested gives at most two levels of nodes for each. -/
theorem raises_condition {r : RawValue} (hr : r.nesting ≤ n) :
    Raises (2 * n + 2) (condition r) := by
  induction n using Nat.strong_induction_on generalizing r with
  | _ n ih =>
    cases r with
    | scalar tag l text => exact (raises_condition_scalar tag l text).mono (Nat.le_add_left ..)
    | sequence tag l items =>
      obtain ⟨m, rfl, hnesting⟩ := RawValue.nesting_sequence_le.mp hr
      have hitems : ∀ item ∈ items, Raises (2 * m + 2) (condition item) := fun item hitem =>
        ih m (Nat.lt_succ_self m) (hnesting item hitem)
      have hvalues : ∀ item ∈ items, Raises (2 * m + 2) (value item) := fun item hitem =>
        raises_value (hnesting item hitem)
      exact (raises_condition_sequence hitems hvalues tag l).mono (Nat.le_succ (2 * m + 3))
    | mapping tag l entries =>
      cases tag with
      | none => exact raises_refuse _ l
      | some tag =>
        rw [condition]
        split <;> exact raises_refuse _ l

end Resolve

end InfraModule
