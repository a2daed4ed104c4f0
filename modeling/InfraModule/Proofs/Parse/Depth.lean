import InfraModule.Proofs.Parse.Naming
import InfraModule.Proofs.Resolve.Rank

/-!
# The depth of what is read

The levels that may be opened bound how deep a tree becomes, whatever the document. A declaration or
a list of declarations takes one level and is one node above what it holds; an uninterpreted value
nests no more containers than there are levels, and each of them comes to at most two levels of
nodes. So the ranks of what is read with `levels` levels are below `2 * levels + 2`
(`raises_valueWithin`). Since every node has a rank as soon as it is made, this holds as well of
what is dropped, and of what is there when a reader fails.
-/

namespace InfraModule

open Result

namespace ParseM

variable {α β σ : Type} {setting : Setting} {s : ParseState} {bound j k : Nat}
  {rank : NodeId → Nat} {container : Container}

/-- A loop keeps an invariant of its steps, where `I none` holds if a step gives up, and fails as
its steps may fail. If none gives up, the loop stops at the end of its container. -/
theorem post_foldWithin_of_invariant {step : σ → ParseM (Option σ)}
    {I : Option σ → ParseState → Prop} {E : ParseError → ParseState → Prop}
    (hstep : ∀ acc s, I (some acc) s → Post (step acc) setting s I E)
    (hstuck : ∀ acc s, I (some acc) s → ∀ error, E error s) (turns : List Event) {acc : σ}
    (hI : I (some acc) s) : Post (foldWithin container step turns acc) setting s
      (fun acc u => I acc u ∧ (acc ≠ none → AtClose container u)) E := by
  induction turns generalizing acc s with
  | nil => exact hstuck acc s hI _
  | cons turn turns ih =>
    unfold foldWithin
    rw [post_bind]
    refine post_atClose (fun hclose => ⟨hI, fun _ => hclose⟩) (fun _ => ?_)
      fun _ _ error _ _ => hstuck acc s hI error
    simp only [Bool.false_eq_true, if_false, post_bind]
    refine (hstep acc s hI).mono (fun r u hu => ?_) fun _ _ h => h
    cases r with
    | some acc' => exact ih hu
    | none => exact ⟨hu, fun h => (h rfl).elim⟩

/-! ## What readers return -/

/-- What the reader returns, wherever it starts, is as demanded. -/
def Returns (P : α → Prop) (m : ParseM α) : Prop :=
  ∀ setting s, Ensures m setting s fun a _ => P a

namespace Returns

variable {P : α → Prop} {Q : β → Prop} {m : ParseM α} {f : α → ParseM β}

/-- A value as demanded is returned as demanded. -/
theorem pure {a : α} (h : P a) : Returns P (Pure.pure a) := fun _ _ => h

/-- The second of two readers returns what is demanded for what the first returns. -/
theorem bind (hm : Returns P m) (hf : ∀ a, P a → Returns Q (f a)) : Returns Q (m >>= f) :=
  fun setting s => Post.bind (hm setting s) fun a u ha => hf a ha setting u

/-- What comes first is of no account if what follows returns what is demanded in any case. -/
theorem after (hf : ∀ a, Returns Q (f a)) : Returns Q (m >>= f) := by
  have hany : Returns (fun _ => True) m := fun setting s => by
    unfold Ensures Post Result.Post
    split <;> trivial
  exact hany.bind fun a _ => hf a

/-- Nesting changes nothing of what is returned. -/
theorem nested {body : ParseM α} (h : Returns P body) : Returns P (nested body) :=
  after fun _ => after fun _ => h.bind fun _ ha => after fun _ => pure ha

/-- A refused value is as demanded if no answer is. -/
theorem refuse {P : Option α → Prop} (message : String) (h : P none) :
    Returns P (refuse message) :=
  after fun _ => after fun _ => after fun _ => pure h

/-- A loop returns what is demanded if each turn keeps it of what is carried along. -/
theorem foldUntilClose {step : σ → ParseM (Option σ)} {P : Option σ → Prop}
    (hstep : ∀ acc, P (some acc) → Returns P (step acc)) {acc : σ} (hP : P (some acc)) :
    Returns P (foldUntilClose container step acc) := fun setting s =>
  Post.mono (post_foldWithin_of_invariant (I := fun acc _ => P acc)
    (fun acc s hacc => hstep acc hacc setting s) (fun _ _ _ _ => trivial) s.events hP)
    (fun _ _ h => h.1) fun _ _ h => h

/-- What a collection holds is as its items are. -/
theorem collect {item : ParseM (Option α)} (hitem : Returns (fun given => ∀ a ∈ given, P a) item) :
    Returns (fun items => ∀ a ∈ items, P a) (collect container item) := by
  refine bind (foldUntilClose (P := fun items => ∀ a ∈ items.getD [], P a)
    (fun items hitems => hitem.bind fun given hgiven => pure ?_) (by simp)) fun items hitems =>
      pure hitems
  exact List.forall_mem_append.mpr ⟨hitems, fun a ha => hgiven a (Option.mem_toList.mp ha)⟩

end Returns

/-! ## Readers that give ranks -/

/-- Started in a ranked tree, the reader gives ranks to the nodes that it makes, so that `P` holds
if it succeeds. -/
abbrev Ranks (bound : Nat) (m : ParseM α) (setting : Setting) (s : ParseState)
    (rank : NodeId → Nat) (P : Tree → (NodeId → Nat) → α → Prop) : Prop :=
  Tree.Ranks (fun s : ParseState => s.build.tree) bound (m setting) s rank P

/-- Started in a ranked tree, the reader gives ranks to what it makes, one below `k` to the node
that it gives. -/
def Raises (k : Nat) (m : ParseM (Option NodeId)) : Prop :=
  ∀ ⦃bound setting s rank⦄, k ≤ bound → s.build.tree.Ranked bound rank →
    Ranks bound m setting s rank fun t r given => ∀ id ∈ given, t.Below r k id

section Ranks

variable {P Q : Tree → (NodeId → Nat) → α → Prop} {R : Tree → (NodeId → Nat) → β → Prop}

/-- Of two readers in a row the second starts with the ranks that the first has given. -/
theorem Ranks.bind {m : ParseM α} {f : α → ParseM β} (hm : Ranks bound m setting s rank P)
    (hf : ∀ a u rank', s.build.tree.Rises bound rank u.build.tree rank' → P u.build.tree rank' a →
      Ranks bound (f a) setting u rank' R) : Ranks bound (m >>= f) setting s rank R :=
  Tree.Ranks.bind hm hf

/-- A reader that leaves the tree as it is leaves ranks as they are. -/
theorem ranks_of_spares {m : ParseM α} (hm : Spares m) (hs : s.build.tree.Ranked bound rank) :
    Ranks bound m setting s rank fun _ _ _ => True :=
  have hrises {u : ParseState} (hu : u.build.tree = s.build.tree) :
      s.build.tree.Rises bound rank u.build.tree rank := by
    rw [hu]
    exact .refl hs
  Post.mono (hm setting s) (fun _ _ hu => ⟨rank, hrises hu, trivial⟩)
    fun _ _ hu => ⟨rank, hrises hu.1⟩

/-- A step of building gives ranks as a reader if it does as a step. -/
theorem ranks_build {step : BuildM α}
    (h : Tree.Ranks Build.tree bound step s.build rank P) :
    Ranks bound (build step) setting s rank P :=
  post_build.mpr h

/-- A node added above children of ranks below `k` gets the rank `k`. -/
theorem ranks_add {n : Node} (hs : s.build.tree.Ranked bound rank)
    (hchildren : ∀ c ∈ n.children, rank c < k) (hk : k < bound) (l : Location) :
    Ranks bound (add n l) setting s rank fun t r id => t.HasRank r k id :=
  ranks_build (BuildM.ranks_onTree (Tree.ranks_add hs hchildren hk l))

/-- A node is given a rank above its children. -/
theorem ranks_addSome {n : Node} (hs : s.build.tree.Ranked bound rank)
    (hchildren : ∀ c ∈ n.children, rank c < k) (hk : k < j) (hj : j ≤ bound) (l : Location) :
    Ranks bound (some <$> add n l) setting s rank
      fun t r given => ∀ id ∈ given, t.Below r j id :=
  .map ((ranks_add hs hchildren (hk.trans_le hj) l).mono fun _ _ _ hid => by
    simpa using hid.below hk)

/-- What is nested gives ranks if it does one level deeper, after the event at the cursor. -/
theorem ranks_nested {body : ParseM α}
    (h : Ranks bound body setting { s with events := s.events.tail, depth := s.depth + 1 } rank P) :
    Ranks bound (nested body) setting s rank P :=
  post_nested.mpr h

/-- A loop gives ranks as its steps do. -/
theorem ranks_foldUntilClose {step : σ → ParseM (Option σ)}
    {P : Tree → (NodeId → Nat) → Option σ → Prop}
    (hstep : ∀ acc s rank, s.build.tree.Ranked bound rank → P s.build.tree rank (some acc) →
      Ranks bound (step acc) setting s rank P)
    (hs : s.build.tree.Ranked bound rank) {acc : σ} (hP : P s.build.tree rank (some acc)) :
    Ranks bound (foldUntilClose container step acc) setting s rank P :=
  Post.mono (post_foldWithin_of_invariant (s := s)
    (I := fun acc u => ∃ rank', s.build.tree.Rises bound rank u.build.tree rank' ∧
      P u.build.tree rank' acc)
    (E := fun _ u => ∃ rank', s.build.tree.Rises bound rank u.build.tree rank')
    (fun acc u ⟨rank', hu, hP⟩ => (hstep acc u rank' hu.toRanked hP).after hu)
    (fun _ _ ⟨rank', hu, _⟩ _ => ⟨rank', hu⟩) s.events ⟨rank, .refl hs, hP⟩)
    (fun _ _ h => h.1) fun _ _ h => h

end Ranks

namespace Raises

/-- A rank below a bound is below every greater one. -/
theorem mono {m : ParseM (Option NodeId)} (h : Raises j m) (hjk : j ≤ k) : Raises k m :=
  fun _ _ _ _ hk hs => (h (hjk.trans hk) hs).mono fun _ _ _ hgiven id hid =>
    (hgiven id hid).mono hjk

/-- A reader that gives no node gives ranks. -/
theorem none : Raises k (pure none) := fun _ _ _ _ _ hs => .pure hs (by simp)

/-- A reader that leaves the tree as it is may come first. -/
theorem bind_spares {m : ParseM α} {f : α → ParseM (Option NodeId)} (hm : Spares m)
    (hf : ∀ a, Raises k (f a)) : Raises k (m >>= f) := fun _ _ _ _ hk hs =>
  (ranks_of_spares hm hs).bind fun a _ _ hu _ => hf a hk hu.toRanked

/-- Refusing a value makes no node. -/
theorem refuse (message : String) : Raises k (refuse message) :=
  bind_spares Spares.here fun l => bind_spares (Spares.report message l) fun _ =>
    bind_spares Spares.skip fun _ => none

/-- Passing over a value that is too deep makes no node. -/
theorem tooDeep : Raises k tooDeep :=
  refuse _

/-- A reader that builds gives ranks as its building step does. -/
theorem build {step : BuildM (Option NodeId)} (h : BuildM.Raises k step) :
    Raises k (build step) := fun _ _ _ _ hk hs => ranks_build (h hk hs)

end Raises

/-- What is made for the elements of a sequence has the ranks of the elements. -/
theorem ranks_collect {item : ParseM (Option NodeId)} (hitem : Raises k item) (hk : k ≤ bound)
    (hs : s.build.tree.Ranked bound rank) :
    Ranks bound (collect container item) setting s rank
      fun t r items => ∀ id ∈ items, t.Below r k id := by
  refine (ranks_foldUntilClose (P := fun t r items => ∀ id ∈ items.getD [], t.Below r k id)
    (fun items s rank hs hitems => ?_) hs (by simp)).bind fun items u rank' hu hitems => ?_
  · refine (hitem hk hs).bind fun given u rank' hu hgiven => ?_
    refine .pure hu.toRanked fun id hid => ?_
    rcases List.mem_append.mp hid with hid | hid
    · exact hu.below (hitems id hid)
    · exact hgiven id (Option.mem_toList.mp hid)
  · exact .pure hu.toRanked hitems

end ParseM

namespace Parse

open ParseM

variable {setting : Setting} {s : ParseState} {bound k levels : Nat} {rank : NodeId → Nat}
  {container : Container} {draft : Draft} {value : ValueReader} {type : DeclarationType}

/-! ## Uninterpreted values -/

/-- An entry of which the value is left out is left out. -/
theorem returns_rawEntry {value : ParseM (Option RawValue)}
    (hvalue : Returns (fun given => ∀ r ∈ given, r.nesting ≤ levels) value)
    {entries : List (Key × RawValue)} (hentries : ∀ entry ∈ entries, entry.2.nesting ≤ levels) :
    Returns (fun r => ∀ entry ∈ r.getD [], entry.2.nesting ≤ levels) (rawEntry value entries) := by
  refine .after fun k => ?_
  cases k with
  | none => exact .pure hentries
  | some k =>
    refine hvalue.bind fun given hgiven => ?_
    cases given with
    | none => exact .pure hentries
    | some r => exact .pure (List.forall_mem_append.mpr ⟨hentries, by simpa using hgiven⟩)

/-- An uninterpreted value nests no more containers than there are levels. -/
theorem returns_rawValueWithin (levels : Nat) :
    Returns (fun given => ∀ r ∈ given, r.nesting ≤ levels) (rawValueWithin levels) := by
  induction levels with
  | zero =>
    unfold rawValueWithin
    refine .after fun start => .after fun e => ?_
    split
    · exact .after fun _ => .pure (by simp [RawValue.nesting])
    · exact .refuse _ (by simp)
    · exact .refuse _ (by simp)
    · exact .refuse _ (by simp)
  | succ levels ih =>
    unfold rawValueWithin
    refine .after fun start => .after fun e => ?_
    split
    · exact .after fun _ => .pure (by simp [RawValue.nesting])
    · refine .nested (.bind (.collect ih) fun items hitems => .after fun l => .pure ?_)
      rintro r ⟨⟩
      exact RawValue.nesting_sequence_le.mpr ⟨levels, rfl, hitems⟩
    · refine .nested (.bind (.foldUntilClose (P := fun r => ∀ entry ∈ r.getD [],
        entry.2.nesting ≤ levels) (fun _ => returns_rawEntry ih) (by simp)) fun entries hentries =>
          .after fun l => .pure ?_)
      rintro r ⟨⟩
      exact RawValue.nesting_mapping_le.mpr ⟨levels, rfl, hentries⟩
    · exact .refuse _ (by simp)

/-! ## Values -/

/-- A scalar is a leaf. -/
theorem raises_scalar (message : String) (convert : String → Option Literal) :
    Raises 1 (scalar message convert) := by
  unfold scalar
  refine .bind_spares Spares.current fun e => ?_
  dsimp only
  split
  · refine .bind_spares Spares.here fun l => .bind_spares Spares.advance fun _ => ?_
    exact fun _ _ _ _ hk hs => ranks_addSome hs (by simp [Node.children, Expression.children])
      Nat.one_pos hk l
  · exact .refuse message

/-- What a value comes to when it is given a meaning is bounded by how it nests. -/
theorem raises_meaning {step : RawValue → BuildM (Option NodeId)}
    (hstep : ∀ r, r.nesting ≤ levels → BuildM.Raises k (step r)) :
    Raises k (do
      let some value ← rawValueWithin levels | return none
      build (step value)) := by
  intro bound setting s rank hk hs
  have hread : Ranks bound (rawValueWithin levels) setting s rank
      fun _ _ given => ∀ r ∈ given, r.nesting ≤ levels := by
    refine Result.Post.mono (Result.Post.and (ranks_of_spares (spares_rawValueWithin levels) hs)
      (returns_rawValueWithin levels setting s)) (fun given u hu => ?_) fun _ _ hu => hu.1
    obtain ⟨⟨rank', hrises, -⟩, hgiven⟩ := hu
    exact ⟨rank', hrises, hgiven⟩
  refine hread.bind fun given u rank' hu hgiven => ?_
  cases given with
  | none => exact Raises.none hk hu.toRanked
  | some r => exact Raises.build (hstep r (hgiven r rfl)) hk hu.toRanked

/-- An expression has at most two nodes of depth for each level, and two more. -/
theorem raises_expressionWithin (levels : Nat) :
    Raises (2 * levels + 2) (expressionWithin levels) :=
  raises_meaning fun _ => Resolve.raises_value

/-- A condition has at most two nodes of depth for each level, and two more. -/
theorem raises_conditionWithin (levels : Nat) :
    Raises (2 * levels + 2) (conditionWithin levels) :=
  raises_meaning fun _ => Resolve.raises_condition

/-- A plain value takes no level, so its body bounds it. -/
theorem raises_plain {body : ParseM (Option NodeId)} (hbody : Raises k body) :
    Raises k (plain container body) := by
  refine .bind_spares (Spares.current.bind fun _ => Spares.pure _) fun plain => ?_
  split
  · exact hbody
  · exact .refuse _

/-- A collection is ranked above its items. -/
theorem ranks_add_collection {items : List NodeId} (hs : s.build.tree.Ranked bound rank)
    (hitems : ∀ id ∈ items, s.build.tree.Below rank k id) (hk : k + 1 ≤ bound) (l : Location) :
    Ranks bound (some <$> add (.collection items) l) setting s rank
      fun t r given => ∀ id ∈ given, t.Below r (k + 1) id :=
  ranks_addSome (n := .collection items) hs (fun c hc => (hitems c hc).2) (Nat.lt_succ_self k) hk l

/-- A list of texts is within the bound for expressions. -/
theorem raises_stringListWithin (levels : Nat) :
    Raises (2 * levels + 2) (stringListWithin levels) := by
  refine raises_plain (.bind_spares Spares.here fun start => ?_)
  cases levels with
  | zero => exact .tooDeep
  | succ levels =>
    refine Raises.mono (j := 2) (fun bound setting s rank hk hs => ?_) (Nat.le_add_left ..)
    have htexts : Ranks bound (do
        let items ← collect .sequence string
        return (items, ← closeFrom start)) setting
        { s with events := s.events.tail, depth := s.depth + 1 } rank
        fun t r texts => ∀ id ∈ texts.1, t.Below r 1 id := by
      refine Ranks.bind (ranks_collect (s := { s with events := s.events.tail, depth := s.depth + 1 })
        (raises_scalar _ _) (Nat.le_of_succ_le hk) hs) fun items u rank' hu hitems => ?_
      refine (ranks_of_spares (Spares.closeFrom start) hu.toRanked).bind fun l v rank'' hv _ => ?_
      exact .pure hv.toRanked fun id hid => hv.below (hitems id hid)
    exact (ranks_nested htexts).bind fun texts u rank' hu hitems =>
      ranks_add_collection hu.toRanked hitems hk texts.2

/-! ## Entries -/

/-- What a draft has read has ranks below `k`. -/
def ReadBelow (k : Nat) (t : Tree) (rank : NodeId → Nat) (read : Option (Option Draft)) : Prop :=
  ∀ draft, read = some (some draft) → ∀ id ∈ draft.nodes, t.Below rank k id

/-- What a draft has read keeps its ranks when more is built. -/
theorem ReadBelow.rises {t u : Tree} {rank' : NodeId → Nat} {read : Option (Option Draft)}
    (h : ReadBelow k t rank read) (hu : t.Rises bound rank u rank') : ReadBelow k u rank' read :=
  fun draft hdraft id hid => hu.below (h draft hdraft id hid)

section Entries

variable (hvalue : ∀ kind, Raises k (value kind)) (hk : k ≤ bound)

include hvalue hk

/-- What is read for a key is given ranks as well. -/
theorem ranks_property {known : Property} (hs : s.build.tree.Ranked bound rank)
    (hdraft : ∀ id ∈ draft.nodes, s.build.tree.Below rank k id) :
    Ranks bound (property value draft known) setting s rank (ReadBelow k) := by
  refine (hvalue known.value hk hs).bind fun given u rank' hu hgiven => ?_
  have hold : ∀ id ∈ draft.nodes, u.build.tree.Below rank' k id :=
    fun id hid => hu.below (hdraft id hid)
  dsimp only
  split
  · cases given with
    | none => exact .pure hu.toRanked (by simp [ReadBelow])
    | some id =>
      refine .pure hu.toRanked ?_
      rintro draft ⟨⟩ i hi
      rcases List.mem_append.mp hi with hi | hi
      · exact hgiven i (Option.mem_toList.mp hi)
      · exact hold i (List.mem_append_right _ hi)
  · refine .pure hu.toRanked ?_
    rintro draft ⟨⟩ i hi
    rw [Draft.nodes, List.map_append, ← List.append_assoc] at hi
    rcases List.mem_append.mp hi with hi | hi
    · exact hold i hi
    · cases given with
      | none => simp at hi
      | some id => exact hgiven i (by simpa [eq_comm] using hi)

/-- An entry gives ranks to what it reads. -/
theorem ranks_entry {read : Option Draft} (hs : s.build.tree.Ranked bound rank)
    (hread : ReadBelow k s.build.tree rank (some read)) :
    Ranks bound (entry type value read) setting s rank (ReadBelow k) := by
  refine (ranks_of_spares spares_key hs).bind fun key u rank₁ hu _ => ?_
  have hread₁ := hread.rises hu
  cases key with
  | none => exact .pure hu.toRanked hread₁
  | some key =>
    have hskip (message : String) (r : Option (Option Draft))
        (hr : ReadBelow k u.build.tree rank₁ r) :
        Ranks bound (do report message key.location; skip; return r) setting u rank₁
          (ReadBelow k) := by
      refine (ranks_of_spares (Spares.report message key.location) hu.toRanked).bind
        fun _ v rank₂ hv _ => ?_
      refine (ranks_of_spares Spares.skip hv.toRanked).bind fun _ w rank₃ hw _ => ?_
      exact .pure hw.toRanked (hr.rises (hv.trans hw))
    dsimp only
    split
    · exact hskip _ none (by simp [ReadBelow])
    · next draft hdraft =>
      -- The first key starts a draft without nodes; later keys find the draft.
      have hnodes : ∀ id ∈ draft.nodes, u.build.tree.Below rank₁ k id := by
        cases read with
        | some read =>
          cases hdraft
          exact hread₁ _ rfl
        | none =>
          obtain ⟨kind, -, rfl⟩ := Option.map_eq_some_iff.mp hdraft
          simp [Draft.nodes]
      have hdraftRead : ReadBelow k u.build.tree rank₁ (some (some draft)) := by
        rintro draft ⟨⟩
        exact hnodes
      split
      · exact hskip _ _ hdraftRead
      · split
        · exact hskip _ _ hdraftRead
        · exact ranks_property hvalue hk hu.toRanked hnodes

/-! ## One declaration -/

omit hvalue hk in
/-- What is bound to keys of a declaration is ranked below it. -/
theorem ranks_bindAll {id : NodeId} {values : List (String × NodeId)}
    (hs : s.build.tree.Ranked bound rank)
    (hvalues : ∀ v ∈ values, s.build.tree.Below rank (rank id) v.2)
    (hid : id < s.build.tree.size) :
    Ranks bound (bindAll id values) setting s rank fun _ _ _ => True := by
  induction values generalizing s rank with
  | nil => exact .pure hs trivial
  | cons v values ih =>
    obtain ⟨hv, hvalues⟩ := List.forall_mem_cons.mp hvalues
    have hbind : Ranks bound (discard <| build (.onTree (.setProperty id v.1 (some v.2)))) setting s
        rank fun _ _ _ => True :=
      .map (ranks_build (BuildM.ranks_onTree (Tree.ranks_setProperty hs hv.2 v.1)))
    refine Ranks.bind hbind fun _ u rank' hu _ => ih hu.toRanked (fun v hv => ?_) ?_
    · rw [hu.keeps id hid]
      exact hu.below (hvalues v hv)
    · exact hid.trans_le hu.size_le

omit hvalue hk in
/-- The version that a module is given is ranked below the module. -/
theorem ranks_addDefaultVersion {id : NodeId} (hs : s.build.tree.Ranked bound rank)
    (hid : s.build.tree.HasRank rank k id) (hpos : 0 < k) (hk : k < bound) (l : Location) :
    Ranks bound (addDefaultVersion draft id l) setting s rank fun _ _ _ => True := by
  unfold addDefaultVersion
  split
  · refine (ranks_of_spares Spares.read hs).bind fun setting' u rank₁ hu _ => ?_
    refine (ranks_add (k := 0) hu.toRanked (by simp [Node.children, Expression.children])
      (hpos.trans hk) l).bind fun version v rank₂ hv hversion => ?_
    have hid := (hu.trans hv).hasRank hid
    refine ranks_bindAll hv.toRanked ?_ hid.1
    simpa [hid.2] using hversion.below hpos
  · exact .pure hs trivial

omit hvalue hk in
/-- A declaration is ranked above what was read for it. -/
theorem ranks_finish (hs : s.build.tree.Ranked bound rank)
    (hdraft : ∀ id ∈ draft.nodes, s.build.tree.Below rank k id) (hpos : 0 < k) (hk : k < bound)
    (start l : Location) : Ranks bound (finish draft start l) setting s rank
      fun t r given => ∀ id ∈ given, t.Below r (k + 1) id := by
  unfold finish
  refine (ranks_of_spares (spares_reportMissing _ start) hs).bind fun _ u rank₁ hu _ => ?_
  split
  · exact .pure hu.toRanked (by simp)
  · next d hd =>
    obtain ⟨-, -, hchildren, -⟩ := Declaration.new?_eq_some hd
    have hnodes : ∀ id ∈ draft.nodes, u.build.tree.Below rank₁ k id :=
      fun id hid => hu.below (hdraft id hid)
    have hadd : Ranks bound (add (.declaration d) l) setting u rank₁
        fun t r id => t.HasRank r k id :=
      ranks_add (n := .declaration d) hu.toRanked (fun c hc =>
        (hnodes c (List.mem_append_left _ (hchildren.subset hc))).2) hk l
    refine hadd.bind fun id v rank₂ hv hid => ?_
    have hvalues : ∀ value ∈ draft.values, v.build.tree.Below rank₂ (rank₂ id) value.2 := by
      intro value hvalue
      rw [hid.2]
      exact hv.below (hnodes _ (List.mem_append_right _ (List.mem_map_of_mem hvalue)))
    refine (ranks_bindAll hv.toRanked hvalues hid.1).bind fun _ w rank₃ hw _ => ?_
    have hid₃ := hw.hasRank hid
    refine (ranks_addDefaultVersion hw.toRanked hid₃ hpos hk l).bind fun _ x rank₄ hx _ => ?_
    exact .pure hx.toRanked (by simpa using (hx.hasRank hid₃).below (Nat.lt_succ_self k))

omit hvalue hk in
/-- A draft without entries has nothing that could have a rank. -/
theorem ranks_emptyDraft (start : Location) (hs : s.build.tree.Ranked bound rank) :
    Ranks bound (emptyDraft type start) setting s rank
      fun t r draft => ReadBelow k t r (some draft) := by
  unfold emptyDraft
  split
  · split
    · refine .pure hs ?_
      rintro draft ⟨⟩
      simp [Draft.nodes]
    · refine (ranks_of_spares (spares_reportMissing _ start) hs).bind fun _ u rank' hu _ => ?_
      exact .pure hu.toRanked (by simp [ReadBelow])
  · refine (ranks_of_spares (Spares.report _ start) hs).bind fun _ u rank' hu _ => ?_
    exact .pure hu.toRanked (by simp [ReadBelow])

omit hk in
/-- A declaration is one level above its values. -/
theorem raises_declarationBody (hpos : 0 < k) (type : DeclarationType) (start : Location) :
    Raises (k + 1) (declarationBody type value start) := by
  intro bound setting s rank hbound hs
  have hk := Nat.le_of_succ_le hbound
  unfold declarationBody
  refine (ranks_foldUntilClose (P := fun t r read => ReadBelow k t r read)
    (fun read s rank hs hread => ranks_entry hvalue hk hs hread) hs (by simp [ReadBelow])).bind
    fun read u rank₁ hu hread => ?_
  cases read with
  | none =>
    exact Raises.bind_spares spares_skipEntries (fun _ => .bind_spares Spares.advance fun _ =>
      .none) hbound hu.toRanked
  | some read =>
    refine (ranks_of_spares (Spares.closeFrom start) hu.toRanked).bind fun l v rank₂ hv _ => ?_
    have hread₂ := hread.rises hv
    cases read with
    | some draft => exact ranks_finish hv.toRanked (hread₂ draft rfl) hpos hbound start l
    | none =>
      refine (ranks_emptyDraft (k := k) start hv.toRanked).bind fun draft w rank₃ hw hdraft => ?_
      cases draft with
      | none => exact .pure hw.toRanked (by simp)
      | some draft => exact ranks_finish hw.toRanked (hdraft draft rfl) hpos hbound start l

end Entries

/-! ## Lists of declarations -/

/-- An element gives ranks to what it reads, whether or not it is kept. -/
theorem ranks_element {declaration : ParseM (Option NodeId)} (hdeclaration : Raises k declaration)
    (hk : k ≤ bound) (hs : s.build.tree.Ranked bound rank) {items : Items}
    (hitems : ∀ id ∈ items.ids, s.build.tree.Below rank k id) :
    Ranks bound (element declaration items) setting s rank
      fun t r items => ∀ id ∈ (items.getD {}).ids, t.Below r k id := by
  unfold element
  refine (hdeclaration hk hs).bind fun given u rank₁ hu hgiven => ?_
  have hold : ∀ id ∈ items.ids, u.build.tree.Below rank₁ k id :=
    fun id hid => hu.below (hitems id hid)
  cases given with
  | none => exact .pure hu.toRanked hold
  | some id =>
    have hall : ∀ i ∈ items.ids ++ [id], u.build.tree.Below rank₁ k i :=
      List.forall_mem_append.mpr ⟨hold, by simpa using hgiven⟩
    refine (ranks_of_spares (spares_uniqueName? id) hu.toRanked).bind fun name v rank₂ hv _ => ?_
    cases name with
    | none => exact .pure hv.toRanked fun i hi => hv.below (hall i hi)
    | some name =>
      dsimp only
      split
      · refine (ranks_of_spares Spares.get hv.toRanked).bind fun _ w rank₃ hw _ => ?_
        refine (ranks_of_spares (Spares.report _ _) hw.toRanked).bind fun _ x rank₄ hx _ => ?_
        exact .pure hx.toRanked fun i hi => (hv.trans (hw.trans hx)).below (hold i hi)
      · exact .pure hv.toRanked fun i hi => hv.below (hall i hi)

/-- The items of a list have the ranks of the elements. -/
theorem ranks_listBody {declaration : ParseM (Option NodeId)} (hdeclaration : Raises k declaration)
    (hk : k ≤ bound) (hs : s.build.tree.Ranked bound rank) (start : Location) :
    Ranks bound (listBody declaration start) setting s rank
      fun t r items => ∀ id ∈ items.1, t.Below r k id := by
  unfold listBody
  refine (ranks_foldUntilClose (P := fun t r items => ∀ id ∈ (items.getD {}).ids, t.Below r k id)
    (fun items s rank hs hitems => ranks_element hdeclaration hk hs hitems) hs (by simp)).bind
    fun items u rank₁ hu hitems => ?_
  refine (ranks_of_spares (Spares.closeFrom start) hu.toRanked).bind fun l v rank₂ hv _ => ?_
  exact .pure hv.toRanked fun id hid => hv.below (hitems id hid)

/-! ## All shapes -/

/-- Whatever the shape, a value that may open `levels` levels has a rank below `2 * levels + 2`. -/
theorem raises_valueWithin (levels : Nat) (kind : ValueKind) :
    Raises (2 * levels + 2) (valueWithin levels kind) := by
  have hscalar (message : String) (convert : String → Option Literal) (levels : Nat) :
      Raises (2 * levels + 2) (scalar message convert) :=
    (raises_scalar message convert).mono (Nat.succ_le_succ (Nat.zero_le _))
  induction levels generalizing kind with
  | zero =>
    cases kind with
    | string | int | bool => exact hscalar _ _ 0
    | expression => exact raises_expressionWithin 0
    | condition => exact raises_conditionWithin 0
    | object | list => exact raises_plain (raises_expressionWithin 0)
    | stringList => exact raises_stringListWithin 0
    | declaration type | declarationList type =>
      exact raises_plain (.bind_spares Spares.here fun _ => .tooDeep)
  | succ levels ih =>
    have hle : 2 * levels + 2 + 1 ≤ 2 * (levels + 1) + 2 := Nat.le_succ (2 * levels + 3)
    cases kind with
    | string | int | bool => exact hscalar _ _ (levels + 1)
    | expression => exact raises_expressionWithin (levels + 1)
    | condition => exact raises_conditionWithin (levels + 1)
    | object | list => exact raises_plain (raises_expressionWithin (levels + 1))
    | stringList => exact raises_stringListWithin (levels + 1)
    | declaration type =>
      refine raises_plain (.bind_spares Spares.here fun start => .mono ?_ hle)
      exact fun _ _ s _ hk hs =>
        ranks_nested (raises_declarationBody ih (Nat.succ_pos _) type start hk hs)
    | declarationList type =>
      refine raises_plain (.bind_spares Spares.here fun start => .mono ?_ hle)
      intro bound setting s rank hk hs
      refine (ranks_nested (ranks_listBody
        (s := { s with events := s.events.tail, depth := s.depth + 1 }) (ih (.declaration type))
        (Nat.le_of_succ_le hk) hs start)).bind fun items u rank' hu hitems => ?_
      exact ranks_add_collection hu.toRanked hitems hk items.2

/-! ## Requests -/

/-- A reader that takes the levels that are left has no more than the options allow. -/
theorem ranks_levels {m : Nat → ParseM (Option NodeId)}
    (hm : ∀ levels, Raises (2 * levels + 2) (m levels))
    (hbound : 2 * setting.options.maxDepth + 2 ≤ bound) (hs : s.build.tree.Ranked bound rank) :
    Ranks bound (ParseM.levels >>= m) setting s rank fun _ _ _ => True := by
  have hlevels : Ranks bound ParseM.levels setting s rank
      fun _ _ levels => levels ≤ setting.options.maxDepth :=
    ⟨rank, .refl hs, Nat.sub_le _ _⟩
  refine hlevels.bind fun levels u rank' hu hle => ?_
  have hlevels : 2 * levels + 2 ≤ bound := by omega
  exact (hm levels hlevels hu.toRanked).mono fun _ _ _ _ => trivial

/-- A declaration that is asked for stays within the bound that the options set. -/
theorem ranks_declaration (type : DeclarationType)
    (hbound : 2 * setting.options.maxDepth + 2 ≤ bound) (hs : s.build.tree.Ranked bound rank) :
    Ranks bound (declaration type) setting s rank fun _ _ _ => True :=
  ranks_levels (fun levels => raises_valueWithin levels (.declaration type)) hbound hs

/-- Every request gives ranks to what it makes, whether or not it fails. -/
theorem Request.ranks (request : Request) (hbound : 2 * setting.options.maxDepth + 2 ≤ bound)
    (hs : s.build.tree.Ranked bound rank) :
    Ranks bound request.perform setting s rank fun _ _ _ => True := by
  have hvalue (kind : ValueKind) :
      Ranks bound (given (Parse.valueOf kind)) setting s rank fun _ _ _ => True :=
    .map (ranks_levels (fun levels => raises_valueWithin levels kind) hbound hs)
  have hscalar (message : String) (convert : String → Option Literal) :
      Ranks bound (given (scalar message convert)) setting s rank fun _ _ _ => True :=
    .map ((raises_scalar message convert (by omega) hs).mono fun _ _ _ _ => trivial)
  cases request with
  | start => exact ranks_of_spares (spares_start.map _) hs
  | declaration type => exact hvalue (.declaration type)
  | declarationList type => exact hvalue (.declarationList type)
  | valueOf kind => exact hvalue kind
  | expression => exact .map (ranks_levels raises_expressionWithin hbound hs)
  | condition => exact .map (ranks_levels raises_conditionWithin hbound hs)
  | string | int | bool => exact hscalar _ _
  | stringList => exact .map (ranks_levels raises_stringListWithin hbound hs)
  | rawValue =>
    exact ranks_of_spares ((Spares.levels.bind spares_rawValueWithin).map _) hs
  | key => exact ranks_of_spares (spares_key.map _) hs
  | finishDocument => exact ranks_of_spares (spares_finishDocument.map _) hs

/-- After any requests every node has a rank, those included that were dropped. -/
theorem ranked_after (requests : List Request)
    (hbound : 2 * setting.options.maxDepth + 2 ≤ bound) (hs : s.build.tree.Ranked bound rank) :
    ∃ rank', (after setting requests s).build.tree.Ranked bound rank' := by
  induction requests generalizing s rank with
  | nil => exact ⟨rank, hs⟩
  | cons request requests ih =>
    obtain ⟨rank', hrank⟩ := (request.ranks hbound hs).final
    exact ih hrank

end Parse

/-! ## Documents -/

namespace Tree

variable {t u : Tree} {bound : Nat} {rank : NodeId → Nat}

/-- A tree without nodes is ranked by anything. -/
theorem ranked_empty (bound : Nat) (rank : NodeId → Nat) : Ranked bound rank {} where
  sound := sound_empty
  lower := fun p c hc => by
    rw [children_eq_nil_of_le (Nat.zero_le p)] at hc
    cases hc
  bounded := fun x hx => (Nat.not_lt_zero x hx).elim

/-- Targets are no children, so that binding references leaves ranks as they are. -/
theorem Ranked.sameButTargets (h : t.Ranked bound rank) (hu : u.Sound)
    (htu : t.SameButTargets u) : u.Ranked bound rank where
  sound := hu
  lower := by
    intro p c hc
    refine h.lower p c ?_
    rw [children, htu.node p] at hc
    rw [children]
    cases hp : t.node? p with
    | none => simp [hp] at hc
    | some n => simpa [hp] using hc
  bounded := fun x hx => h.bounded x (htu.size ▸ hx)

end Tree

namespace Document

variable {setting : Setting} {events : List Event} {d : Document}

/-- Binding references changes nothing but targets. -/
theorem sameButTargets_of_link {options : Options} {root : Option NodeId} {t u : Tree}
    {unresolved : List Unresolved} (ht : t.Sound)
    (hlink : link options root t = .ok unresolved u) : t.SameButTargets u ∧ u.Sound := by
  unfold link at hlink
  cases root with
  | none =>
    cases hlink
    exact ⟨.refl t, ht⟩
  | some root =>
    dsimp only at hlink
    split at hlink
    · obtain ⟨v, hv, hsame, hsound, -⟩ := TreeM.linkReferences_ok root ht (.refl t) ht
      cases hlink.symm.trans hv
      exact ⟨hsame, hsound⟩
    · cases hlink
      exact ⟨.refl t, ht⟩

/-- Every node of a document has a rank. -/
theorem ranked (hd : ofEvents setting events = .ok d) :
    ∃ rank, d.tree.Ranked (2 * setting.options.maxDepth + 2) rank := by
  obtain ⟨u, unresolved, hread, hlink⟩ := exists_of_ofEvents hd
  have hranks : ParseM.Ranks (2 * setting.options.maxDepth + 2) readModule setting { events }
      (fun _ => 0) fun _ _ _ => True := by
    refine (ParseM.ranks_of_spares Parse.spares_start (Tree.ranked_empty _ _)).bind
      fun _ s rank hs _ => ?_
    refine (Parse.ranks_declaration _ (Nat.le_refl _) hs.toRanked).bind fun root u rank hu _ => ?_
    exact ParseM.ranks_of_spares (Parse.spares_finishDocument.bind fun _ => .pure root) hu.toRanked
  obtain ⟨rank, hrises, -⟩ := hranks.of_ok hread
  refine ⟨rank, ?_⟩
  obtain ⟨hsame, hsound⟩ := sameButTargets_of_link hrises.sound hlink
  exact hrises.toRanked.sameButTargets hsound hsame

end Document

namespace Parse

/-- The option `maxDepth` bounds the depth of whatever is read, not the document. After any requests
and their failures, no way down in the tree that the parser has built passes more than
`2 * maxDepth + 2` nodes, and visiting, writing and copying go down no further; the same holds of
every document. An uninterpreted value nests no more containers than there are levels, so that
giving it a meaning goes down no further either. -/
theorem depth_bounded (setting : Setting) :
    (∀ events requests, (after setting requests { events }).build.tree.DepthAtMost
      (2 * setting.options.maxDepth + 2)) ∧
    (∀ events d, Document.ofEvents setting events = .ok d →
      d.tree.DepthAtMost (2 * setting.options.maxDepth + 2)) ∧
    (∀ levels s r u, rawValueWithin levels setting s = .ok (some r) u → r.nesting ≤ levels) ∧
    ∀ s r u, rawValue setting s = .ok (some r) u →
      r.nesting ≤ setting.options.maxDepth - s.depth := by
  refine ⟨fun events requests => ?requests, fun events d hd => ?document,
    fun levels s r u hread => ?within, fun s r u hread => ?value⟩
  case requests =>
    obtain ⟨rank, hrank⟩ := ranked_after (s := { events }) requests (Nat.le_refl _)
      (Tree.ranked_empty _ fun _ => 0)
    exact hrank.depthAtMost (Nat.succ_pos _)
  case document =>
    obtain ⟨rank, hrank⟩ := Document.ranked hd
    exact hrank.depthAtMost (Nat.succ_pos _)
  case within => exact (returns_rawValueWithin levels setting s).of_ok hread r rfl
  case value => exact (returns_rawValueWithin _ setting s).of_ok hread r rfl

/-- The bound is reached: with one level, `!Base64 [!Ref x]` comes to four levels of nodes. -/
example :
    let span : Span := ⟨default, default⟩
    let source := Source.sequence span span (some "!Base64") [.scalar span (some "!Ref") "x"]
    let t := (after ⟨"m.yml", { maxDepth := 1 }⟩ [.expression] { events := source.events }).build.tree
    [3, 0, 2, 1].IsChain (fun p c => c ∈ t.children p) := by
  decide +kernel

end Parse

end InfraModule
