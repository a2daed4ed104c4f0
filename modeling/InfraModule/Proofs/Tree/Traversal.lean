import InfraModule.Proofs.Tree.Reachable

/-!
# The two walks agree

One walk lists a subtree, the other calls a visitor, which may leave subtrees out or end the walk.
What the second does is read off its calls: a visitor that also records them ends in the same state
and walks the same way. The record of a walk over some subtrees is put together from those over
their parts in six ways (`Tree.Walks`). So whatever is true of records is an induction over them:
the nodes that the walk comes to are those of the list up to the first stop, without what lies below
nodes whose children are left out, and each is done with after all that the walk came to below it.
-/

namespace InfraModule

/-! ## Recording -/

/-- A call that a walk makes of its visitor. -/
inductive VisitCall where
  /-- The walk comes to a node, and is given an answer. -/
  | start (id : NodeId) (node : Node) (answer : VisitControl)
  /-- The walk is done with a node. -/
  | finish (id : NodeId) (node : Node)

namespace VisitCall

/-- The nodes that a walk comes to, in order. -/
def started (calls : List VisitCall) : List (NodeId × Node) :=
  calls.filterMap fun
    | start id node _ => some (id, node)
    | finish .. => none

/-- The nodes that a walk is done with, in order. -/
def finished (calls : List VisitCall) : List (NodeId × Node) :=
  calls.filterMap fun
    | start .. => none
    | finish id node => some (id, node)

/-- The nodes at which a walk is given an answer. -/
def answered (answer : VisitControl) (calls : List VisitCall) : List NodeId :=
  calls.filterMap fun
    | start id _ given => if given = answer then some id else none
    | finish .. => none

variable {id : NodeId} {n : Node} {a answer : VisitControl} {calls more : List VisitCall}

/-- No calls start nothing. -/
@[simp] theorem started_nil : started [] = [] := rfl

/-- No calls finish nothing. -/
@[simp] theorem finished_nil : finished [] = [] := rfl

/-- No calls answer nothing. -/
@[simp] theorem answered_nil : answered a [] = [] := rfl

/-- The start of a visit is recorded among those started. -/
@[simp] theorem started_start : started (.start id n a :: calls) = (id, n) :: started calls := rfl

/-- The end of a visit starts nothing. -/
@[simp] theorem started_finish : started (.finish id n :: calls) = started calls := rfl

/-- The start of a visit finishes nothing. -/
@[simp] theorem finished_start : finished (.start id n a :: calls) = finished calls := rfl

/-- The end of a visit is recorded among those finished. -/
@[simp] theorem finished_finish : finished (.finish id n :: calls) = (id, n) :: finished calls :=
  rfl

/-- The end of a visit answers nothing. -/
@[simp] theorem answered_finish : answered a (.finish id n :: calls) = answered a calls := rfl

/-- The start of a visit counts as answered by the answer that it got. -/
@[simp] theorem answered_start : answered a (.start id n answer :: calls)
    = if answer = a then id :: answered a calls else answered a calls := by
  by_cases h : answer = a <;> simp [answered, h]

/-- What two runs of calls start, they start in order. -/
@[simp] theorem started_append : started (calls ++ more) = started calls ++ started more :=
  List.filterMap_append

/-- What two runs of calls finish, they finish in order. -/
@[simp] theorem finished_append : finished (calls ++ more) = finished calls ++ finished more :=
  List.filterMap_append

/-- What two runs of calls answer, they answer in order. -/
@[simp] theorem answered_append : answered a (calls ++ more) = answered a calls ++ answered a more :=
  List.filterMap_append

/-- A walk is given answers at the nodes it comes to. -/
theorem exists_started_of_answered (h : id ∈ answered a calls) : ∃ n, (id, n) ∈ started calls := by
  induction calls with
  | nil => simp at h
  | cons call calls ih =>
    cases call with
    | start x m answer =>
      rw [answered_start] at h
      simp only [started_start, List.mem_cons, Prod.mk.injEq]
      split at h
      · rcases List.mem_cons.mp h with rfl | hmem
        · exact ⟨m, Or.inl ⟨rfl, rfl⟩⟩
        · exact (ih hmem).imp fun n hn => Or.inr hn
      · exact (ih h).imp fun n hn => Or.inr hn
    | finish x m => exact ih h

end VisitCall

open VisitCall

/-- A visitor that also records its calls. -/
def Visitor.recording {σ : Type} (v : Visitor σ) : Visitor (σ × List VisitCall) where
  start state id node :=
    let (next, answer) := v.start state.1 id node
    ((next, state.2 ++ [.start id node answer]), answer)
  finish state id node := (v.finish state.1 id node, state.2 ++ [.finish id node])

/-- A recording visitor starts a visit as the visitor does, and writes the call and its answer
down. -/
@[simp] theorem Visitor.recording_start {σ : Type} (v : Visitor σ) (s : σ) (before : List VisitCall)
    (id : NodeId) (n : Node) : v.recording.start (s, before) id n
      = (((v.start s id n).1, before ++ [.start id n (v.start s id n).2]), (v.start s id n).2) :=
  rfl

/-- A recording visitor ends a visit as the visitor does, and writes the call down. -/
@[simp] theorem Visitor.recording_finish {σ : Type} (v : Visitor σ) (s : σ) (before : List VisitCall)
    (id : NodeId) (n : Node) :
    v.recording.finish (s, before) id n = (v.finish s id n, before ++ [.finish id n]) :=
  rfl

/-- The calls that a visit makes. -/
def Tree.calls {σ : Type} (t : Tree) (v : Visitor σ) (root : NodeId) (state : σ) : List VisitCall :=
  (t.visit v.recording root (state, [])).1.2

/-- The beginning of a list up to the first element that `p` holds of. -/
def cutAfter {α : Type} (p : α → Bool) : List α → List α
  | [] => []
  | a :: l => if p a then [a] else a :: cutAfter p l

section CutAfter

variable {α : Type} {p : α → Bool} {l m : List α}

/-- If `p` holds of nothing in the first list, the second is cut. -/
theorem cutAfter_append_of_forall (h : ∀ a ∈ l, p a = false) :
    cutAfter p (l ++ m) = l ++ cutAfter p m := by
  induction l with
  | nil => rfl
  | cons a l ih =>
    obtain ⟨ha, hl⟩ := List.forall_mem_cons.mp h
    simp [cutAfter, ha, ih hl]

/-- If `p` holds of something in the first list, nothing of the second is left. -/
theorem cutAfter_append_of_exists (h : ∃ a ∈ l, p a = true) :
    cutAfter p (l ++ m) = cutAfter p l := by
  induction l with
  | nil => simp at h
  | cons a l ih =>
    by_cases ha : p a = true
    · simp [cutAfter, ha]
    · have hl : ∃ b ∈ l, p b = true := by simpa [ha] using h
      simp [cutAfter, ha, ih hl]

/-- If `p` holds of nothing in a list, nothing is cut off. -/
theorem cutAfter_eq_self (h : ∀ a ∈ l, p a = false) : cutAfter p l = l := by
  simpa [cutAfter] using cutAfter_append_of_forall (m := []) h

/-- What is left when a list is cut comes from the list. -/
theorem cutAfter_subset : cutAfter p l ⊆ l := by
  induction l with
  | nil => exact List.Subset.refl _
  | cons a l ih =>
    rw [cutAfter]
    split
    · simp
    · exact List.cons_subset_cons a ih

end CutAfter

namespace Tree

/-! ## The grammar of records -/

/-- The calls of a walk over some subtrees, one after the other, and whether it came to its end. -/
inductive Walks (t : Tree) : List NodeId → List VisitCall → Bool → Prop
  | done : Walks t [] [] true
  | missing {id ids calls ended} (hid : t.node? id = none) (rest : Walks t ids calls ended) :
      Walks t (id :: ids) calls ended
  | stop {id n ids} (hid : t.node? id = some n) : Walks t (id :: ids) [.start id n .stop] false
  | skip {id n ids calls ended} (hid : t.node? id = some n) (rest : Walks t ids calls ended) :
      Walks t (id :: ids) (.start id n .skipChildren :: .finish id n :: calls) ended
  | through {id n ids inner calls ended} (hid : t.node? id = some n)
      (below : Walks t n.children inner true) (rest : Walks t ids calls ended) :
      Walks t (id :: ids) (.start id n .proceed :: inner ++ .finish id n :: calls) ended
  | cut {id n ids inner} (hid : t.node? id = some n) (below : Walks t n.children inner false) :
      Walks t (id :: ids) (.start id n .proceed :: inner) false

variable {t : Tree} {ids : List NodeId} {calls more : List VisitCall} {ended : Bool} {id : NodeId}

/-- A walk that came to its end goes on with the next subtrees. -/
theorem Walks.cons (h : t.Walks [id] calls true) (rest : t.Walks ids more ended) :
    t.Walks (id :: ids) (calls ++ more) ended := by
  cases h with
  | missing hid hdone =>
    cases hdone
    exact .missing hid rest
  | skip hid hdone =>
    cases hdone
    exact .skip hid rest
  | through hid below hdone =>
    cases hdone
    simpa using Walks.through hid below rest

/-- A walk that was ended leaves the next subtrees out. -/
theorem Walks.leave (h : t.Walks [id] calls false) : t.Walks (id :: ids) calls false := by
  cases h with
  | missing hid hdone => cases hdone
  | stop hid => exact .stop hid
  | skip hid hdone => cases hdone
  | through hid below hdone => cases hdone
  | cut hid below => exact .cut hid below

section Record

variable {σ : Type} {v : Visitor σ}

/-- Visits one after the other whose records are walks have a walk as their record. -/
theorem exists_walks_each (visit : NodeId → σ → σ × Bool)
    (record : NodeId → σ × List VisitCall → (σ × List VisitCall) × Bool)
    (h : ∀ id ∈ ids, ∀ s before, ∃ calls,
      record id (s, before) = (((visit id s).1, before ++ calls), (visit id s).2) ∧
      t.Walks [id] calls (visit id s).2) (s : σ) (before : List VisitCall) :
    ∃ calls, Visitor.each record ids (s, before)
      = (((Visitor.each visit ids s).1, before ++ calls), (Visitor.each visit ids s).2) ∧
      t.Walks ids calls (Visitor.each visit ids s).2 := by
  induction ids generalizing s before with
  | nil => exact ⟨[], by simp [Visitor.each], .done⟩
  | cons id ids ih =>
    obtain ⟨hid, hids⟩ := List.forall_mem_cons.mp h
    obtain ⟨calls, hrecord, hwalks⟩ := hid s before
    rw [Visitor.each, Visitor.each, hrecord]
    rcases hvisit : visit id s with ⟨s', ended⟩
    rw [hvisit] at hwalks
    cases ended with
    | false => exact ⟨calls, rfl, hwalks.leave⟩
    | true =>
      obtain ⟨more, hmore, hrest⟩ := ih hids s' (before ++ calls)
      exact ⟨calls ++ more, by simp [hmore], hwalks.cons hrest⟩

/-- To record calls changes nothing about a visit, and the record is a walk. -/
theorem exists_walks {levels : Nat} (hfits : t.Fits levels id) (s : σ) (before : List VisitCall) :
    ∃ calls, t.visitWithin v.recording levels id (s, before)
      = (((t.visitWithin v levels id s).1, before ++ calls), (t.visitWithin v levels id s).2) ∧
      t.Walks [id] calls (t.visitWithin v levels id s).2 := by
  induction levels generalizing id s before with
  | zero => exact hfits.elim
  | succ levels ih =>
    rw [visitWithin, visitWithin]
    cases hid : t.node? id with
    | none => exact ⟨[], by simp, .missing hid .done⟩
    | some n =>
      have heach := exists_walks_each (t.visitWithin v levels) (t.visitWithin v.recording levels)
        fun c hc => ih (hfits c (children_of_node? hid ▸ hc))
      rcases hstart : v.start s id n with ⟨s', answer⟩
      simp only [Visitor.visitNode, Visitor.recording_start, hstart]
      cases answer with
      | stop => exact ⟨_, rfl, .stop hid⟩
      | skipChildren => exact ⟨_, by simp, .skip hid .done⟩
      | proceed =>
        obtain ⟨inner, hinner, hbelow⟩ := heach s' (before ++ [.start id n .proceed])
        simp only [hinner]
        rcases hbody : Visitor.each (t.visitWithin v levels) n.children s' with ⟨s'', ended⟩
        rw [hbody] at hbelow
        cases ended with
        | false => exact ⟨_, by simp, .cut hid hbelow⟩
        | true => exact ⟨_, by simp, .through hid hbelow .done⟩

end Record

namespace Walks

/-! ## What holds of every record -/

/-- A walk that came to its end was given no stop. -/
theorem stopped_eq_nil (h : t.Walks ids calls true) : answered .stop calls = [] := by
  generalize hended : true = ended at h
  induction h with
  | done => rfl
  | missing hid rest ih => exact ih hended
  | stop hid | cut hid below => cases hended
  | skip hid rest ih => simp [ih hended]
  | through hid below rest ihbelow ih => simp [ihbelow rfl, ih hended]

/-- A walk that was ended was given one stop. -/
theorem exists_stopped (h : t.Walks ids calls false) : ∃ z, answered .stop calls = [z] := by
  generalize hended : false = ended at h
  induction h with
  | done => cases hended
  | missing hid rest ih => exact ih hended
  | stop hid => exact ⟨_, rfl⟩
  | skip hid rest ih => simpa using ih hended
  | through hid below rest ihbelow ih => simpa [below.stopped_eq_nil] using ih hended
  | cut hid below ih => simpa using ih rfl

/-- A walk does not come to its end exactly if it is told to stop somewhere. -/
theorem ended_eq_false_iff (h : t.Walks ids calls ended) :
    ended = false ↔ answered .stop calls ≠ [] := by
  cases ended with
  | false =>
    obtain ⟨z, hz⟩ := h.exists_stopped
    simp [hz]
  | true => simp [h.stopped_eq_nil]

/-- A walk comes to nodes of its subtrees. -/
theorem started_subset (ht : t.Sound) (h : t.Walks ids calls ended) :
    started calls ⊆ ids.flatMap t.inspect := by
  induction h with
  | done => simp
  | missing hid rest ih =>
    rw [List.flatMap_cons]
    exact List.subset_append_of_subset_right _ ih
  | stop hid => simp [ht.inspect_eq hid]
  | skip hid rest ih =>
    rw [List.flatMap_cons, ht.inspect_eq hid, List.cons_append]
    exact List.cons_subset_cons _ (List.subset_append_of_subset_right _ ih)
  | through hid below rest ihbelow ih =>
    rw [List.flatMap_cons, ht.inspect_eq hid, List.cons_append, List.cons_append, started_start,
      started_append]
    exact List.cons_subset_cons _ (List.append_subset.mpr
      ⟨List.subset_append_of_subset_left _ ihbelow, List.subset_append_of_subset_right _ ih⟩)
  | cut hid below ih =>
    rw [List.flatMap_cons, ht.inspect_eq hid, List.cons_append, started_start]
    exact List.cons_subset_cons _ (List.subset_append_of_subset_left _ ih)

end Walks

/-! ## Subtrees side by side -/

/-- No node lies in two of these subtrees. -/
def Disjoint (t : Tree) (ids : List NodeId) : Prop :=
  ids.Pairwise fun a b => ∀ x, t.Within a x → ¬ t.Within b x

/-- The subtrees at the children of a node do not meet. -/
theorem Sound.disjoint_children (ht : t.Sound) {n : Node} (hid : t.node? id = some n) :
    t.Disjoint n.children := by
  rw [← children_of_node? hid]
  exact (ht.nodup id).imp_of_mem fun hc hd hne _ hcx hdx =>
    hne (child_unique ht (ht.owner.mp hc) (ht.owner.mp hd) hcx hdx)

/-- Of two nodes in subtrees side by side neither lies below the other. -/
theorem Disjoint.not_within {x y : NodeId} (ht : t.Sound) (h : t.Disjoint (id :: ids))
    (hx : t.Within id x) (hy : ∃ i ∈ ids, t.Within i y) : ¬ t.Within x y ∧ ¬ t.Within y x := by
  obtain ⟨i, hi, hiy⟩ := hy
  have hid := List.rel_of_pairwise_cons h hi
  exact ⟨fun hxy => hid y (hx.trans ht hxy) hiy, fun hyx => hid x hx (hiy.trans ht hyx)⟩

/-- Walking over several subtrees comes to the nodes that lie in one of them. -/
theorem Sound.mem_flatMap_inspect (ht : t.Sound) {x : NodeId × Node} :
    x ∈ ids.flatMap t.inspect ↔ t.node? x.1 = some x.2 ∧ ∃ i ∈ ids, t.Within i x.1 := by
  obtain ⟨x, n⟩ := x
  simp only [List.mem_flatMap, ht.mem_inspect]
  constructor
  · rintro ⟨i, hi, hx, hwithin⟩
    exact ⟨hx, i, hi, hwithin⟩
  · rintro ⟨hx, i, hi, hwithin⟩
    exact ⟨i, hi, hx, hwithin⟩

/-- What lies in the subtrees at the children lies strictly below their owner. -/
theorem Sound.mem_ancestors_of_child (ht : t.Sound) {c x : NodeId} (hc : c ∈ t.children id)
    (hx : t.Within c x) : id ∈ t.ancestors x := by
  have hchain := ht.ancestors_of_parent? (ht.owner.mp hc)
  rcases List.mem_cons.mp hx with rfl | hx
  · rw [hchain]
    exact List.mem_cons_self
  · obtain ⟨l, hl⟩ := ht.ancestors_suffix hx
    rw [hl, hchain]
    simp

/-- What a walk comes to below a node has the node above it. -/
theorem Sound.mem_ancestors_of_mem_inspect (ht : t.Sound) {n : Node} (hid : t.node? id = some n)
    {x : NodeId × Node} (hx : x ∈ n.children.flatMap t.inspect) : id ∈ t.ancestors x.1 := by
  obtain ⟨-, c, hc, hcx⟩ := ht.mem_flatMap_inspect.mp hx
  exact ht.mem_ancestors_of_child (children_of_node? hid ▸ hc) hcx

/-- A node does not lie below one that it lies strictly above. -/
theorem Sound.not_within_of_mem_ancestors (ht : t.Sound) {a x : NodeId} (ha : a ∈ t.ancestors x) :
    ¬ t.Within x a := by
  obtain ⟨l, hl⟩ := ht.ancestors_suffix ha
  intro hx
  refine ht.notMem_ancestors x ?_
  rw [hl]
  exact List.mem_append_right l hx

/-- The nodes of a list that lie strictly below none of these. -/
def notBelow (t : Tree) (ids : List NodeId) (l : List (NodeId × Node)) : List (NodeId × Node) :=
  l.filter fun x => ∀ a ∈ ids, a ∉ t.ancestors x.1

section NotBelow

variable {l m : List (NodeId × Node)} (above more : List NodeId)

/-- What lies below none of some nodes is told of each part of a list. -/
theorem notBelow_append : t.notBelow ids (l ++ m) = t.notBelow ids l ++ t.notBelow ids m :=
  List.filter_append ..

variable {above} in
/-- Nodes that no node of the list lies below need not be named. -/
theorem notBelow_append_left (h : ∀ a ∈ above, ∀ x ∈ l, ¬ t.Within a x.1) :
    t.notBelow (above ++ more) l = t.notBelow more l := by
  refine List.filter_congr fun x hx => ?_
  have hclear : ∀ a ∈ above, a ∉ t.ancestors x.1 := fun a ha hmem =>
    h a ha x hx (List.mem_cons_of_mem _ hmem)
  simp only [List.mem_append, decide_eq_decide]
  exact ⟨fun hall a ha => hall a (Or.inr ha), fun hall a ha => ha.elim (hclear a) (hall a)⟩

variable {more} in
/-- Further nodes are of no account if nothing in the list lies in their subtrees. -/
theorem notBelow_append_right (h : ∀ a ∈ more, ∀ x ∈ l, ¬ t.Within a x.1) :
    t.notBelow (above ++ more) l = t.notBelow above l := by
  refine List.filter_congr fun x hx => ?_
  have hclear : ∀ a ∈ more, a ∉ t.ancestors x.1 := fun a ha hmem =>
    h a ha x hx (List.mem_cons_of_mem _ hmem)
  simp only [List.mem_append, decide_eq_decide]
  exact ⟨fun hall a ha => hall a (Or.inl ha), fun hall a ha => ha.elim (hall a) (hclear a)⟩

variable {above} in
/-- Nothing is left of a list that lies below one of the nodes. -/
theorem notBelow_eq_nil (h : ∀ x ∈ l, id ∈ t.ancestors x.1) (hid : id ∈ above) :
    t.notBelow above l = [] := by
  simp only [notBelow, List.filter_eq_nil_iff, decide_eq_true_eq, not_forall, not_not]
  exact fun x hx => ⟨id, hid, h x hx⟩

/-- Of subtrees side by side each is thinned by the nodes named in it. -/
theorem notBelow_flatMap_cons (ht : t.Sound) (hids : t.Disjoint (id :: ids)) {n : Node}
    (hid : t.node? id = some n) (habove : ∀ a ∈ above, t.Within id a)
    (hmore : ∀ a ∈ more, ∃ i ∈ ids, t.Within i a) :
    t.notBelow (above ++ more) ((id :: ids).flatMap t.inspect)
      = (id, n) :: (t.notBelow above (n.children.flatMap t.inspect)
        ++ t.notBelow more (ids.flatMap t.inspect)) := by
  have hroot : ∀ a ∈ above ++ more, a ∉ t.ancestors id := by
    intro a ha hmem
    rcases List.mem_append.mp ha with ha | ha
    · exact ht.not_within_of_mem_ancestors hmem (habove a ha)
    · exact (hids.not_within ht (t.within_refl id) (hmore a ha)).2 (List.mem_cons_of_mem _ hmem)
  have hchildren : ∀ x ∈ n.children.flatMap t.inspect, t.Within id x.1 := fun x hx =>
    List.mem_cons_of_mem _ (ht.mem_ancestors_of_mem_inspect hid hx)
  have hleft := notBelow_append_right above
    fun a ha x hx => (hids.not_within ht (hchildren x hx) (hmore a ha)).2
  have hright := notBelow_append_left (l := ids.flatMap t.inspect) more
    fun a ha x hx => (hids.not_within ht (habove a ha) (ht.mem_flatMap_inspect.mp hx).2).1
  rw [List.flatMap_cons, ht.inspect_eq hid, notBelow_append, hright, ← hleft, notBelow,
    List.filter_cons_of_pos (by simpa using hroot)]
  rfl

end NotBelow

namespace Walks

/-! ## What a walk comes to, and what it is done with -/

/-- What a walk is given answers at, or comes to, below a node lies in the node's subtree. -/
theorem within_of_started_below (ht : t.Sound) {n : Node} (hid : t.node? id = some n)
    (h : t.Walks n.children calls ended) {x : NodeId × Node} (hx : x ∈ started calls) :
    id ∈ t.ancestors x.1 :=
  ht.mem_ancestors_of_mem_inspect hid (h.started_subset ht hx)

/-- Where a walk over the children of a node is answered lies below the node. -/
theorem within_of_answered_below (ht : t.Sound) {n : Node} (hid : t.node? id = some n)
    (h : t.Walks n.children calls ended) {z : NodeId} {answer : VisitControl}
    (hz : z ∈ answered answer calls) : t.Within id z := by
  obtain ⟨m, hm⟩ := exists_started_of_answered hz
  exact List.mem_cons_of_mem z (h.within_of_started_below ht hid hm)

/-- A walk over several subtrees is answered in these subtrees only. -/
theorem within_of_answered (ht : t.Sound) (h : t.Walks ids calls ended) {answer : VisitControl}
    {z : NodeId} (hz : z ∈ answered answer calls) : ∃ i ∈ ids, t.Within i z := by
  obtain ⟨m, hm⟩ := exists_started_of_answered hz
  exact (ht.mem_flatMap_inspect.mp (h.started_subset ht hm)).2

/-- Below a node no answer is given at the node itself. -/
theorem notMem_answered_below (ht : t.Sound) {n : Node} (hid : t.node? id = some n)
    (h : t.Walks n.children calls ended) (answer : VisitControl) : id ∉ answered answer calls := by
  intro hmem
  obtain ⟨m, hm⟩ := exists_started_of_answered hmem
  exact ht.notMem_ancestors id (h.within_of_started_below ht hid hm)

/-- Beside a subtree no answer is given in it. -/
theorem notMem_answered_beside (ht : t.Sound) (hids : t.Disjoint (id :: ids))
    (h : t.Walks ids calls ended) {x : NodeId} (hx : t.Within id x) (answer : VisitControl) :
    x ∉ answered answer calls := fun hmem =>
  (hids.not_within ht hx (h.within_of_answered ht hmem)).1 (t.within_refl x)

/-- A walk comes to the nodes of its subtrees in the order of the list, without those strictly below
a node whose children are left out, and up to the first stop. -/
theorem started_eq (ht : t.Sound) (h : t.Walks ids calls ended) (hids : t.Disjoint ids) :
    started calls = cutAfter (fun x => x.1 ∈ answered .stop calls)
      (t.notBelow (answered .skipChildren calls) (ids.flatMap t.inspect)) := by
  induction h with
  | done => rfl
  | missing hid rest ih =>
    rw [List.flatMap_cons, Sound.inspect_eq_nil (node?_eq_none_iff.mp hid)]
    exact ih hids.of_cons
  | stop hid => simp [notBelow, cutAfter, ht.inspect_eq hid]
  | @skip id n ids calls ended hid rest ih =>
    have hlist := notBelow_flatMap_cons [id] (answered .skipChildren calls) ht hids hid
      (by simp [within_refl]) fun a ha => rest.within_of_answered ht ha
    have hnil : t.notBelow [id] (n.children.flatMap t.inspect) = [] :=
      notBelow_eq_nil (fun x hx => ht.mem_ancestors_of_mem_inspect hid hx) List.mem_cons_self
    have hstop : id ∉ answered .stop calls :=
      rest.notMem_answered_beside ht hids (t.within_refl id) .stop
    rw [hnil, List.singleton_append, List.nil_append] at hlist
    simp only [started_start, started_finish, answered_start, answered_finish, reduceCtorEq,
      if_false, if_true]
    rw [hlist, cutAfter, ih hids.of_cons]
    simp [hstop]
  | @through id n ids inner calls ended hid below rest ihbelow ih =>
    have hchildren := ht.disjoint_children hid
    have hlist := notBelow_flatMap_cons (answered .skipChildren inner)
      (answered .skipChildren calls) ht hids hid
      (fun a ha => below.within_of_answered_below ht hid ha)
      fun a ha => rest.within_of_answered ht ha
    have hinner := ihbelow hchildren
    rw [below.stopped_eq_nil, cutAfter_eq_self (by simp)] at hinner
    -- No stop is given below this node.
    have hstop : ∀ x ∈ (id, n) :: started inner,
        decide (x.1 ∈ answered .stop calls) = false := by
      intro x hx
      have hwithin : t.Within id x.1 := by
        rcases List.mem_cons.mp hx with rfl | hx
        · exact t.within_refl id
        · exact List.mem_cons_of_mem _ (below.within_of_started_below ht hid hx)
      exact decide_eq_false (rest.notMem_answered_beside ht hids hwithin .stop)
    have hcut := cutAfter_append_of_forall (m := t.notBelow (answered .skipChildren calls)
      (ids.flatMap t.inspect)) hstop
    rw [← ih hids.of_cons] at hcut
    simp only [List.cons_append, started_start, started_append, started_finish, answered_start,
      answered_append, answered_finish, reduceCtorEq, if_false, below.stopped_eq_nil,
      List.nil_append]
    rw [hlist, ← hinner]
    exact hcut.symm
  | @cut id n ids inner hid below ih =>
    have hchildren := ht.disjoint_children hid
    have hlist := notBelow_flatMap_cons (answered .skipChildren inner) [] ht hids hid
      (fun a ha => below.within_of_answered_below ht hid ha) (by simp)
    have hinner := ih hchildren
    have hstop : id ∉ answered .stop inner := below.notMem_answered_below ht hid .stop
    -- The stop was given below this node, so that the rest of the list is cut off.
    have hexists : ∃ x ∈ t.notBelow (answered .skipChildren inner) (n.children.flatMap t.inspect),
        decide (x.1 ∈ answered .stop inner) = true := by
      obtain ⟨z, hz⟩ := below.exists_stopped
      obtain ⟨m, hm⟩ := exists_started_of_answered (hz ▸ List.mem_singleton_self z)
      exact ⟨(z, m), cutAfter_subset (hinner ▸ hm), by simp [hz]⟩
    have hcut := cutAfter_append_of_exists (m := t.notBelow [] (ids.flatMap t.inspect)) hexists
    rw [← hinner] at hcut
    rw [List.append_nil] at hlist
    simp only [started_start, answered_start, reduceCtorEq, if_false]
    rw [hlist, cutAfter, hcut]
    simp [hstop]

/-- A walk is done with the nodes it comes to, except for the one that is given the stop and those
above it. -/
theorem mem_finished_iff (ht : t.Sound) (h : t.Walks ids calls ended) (hids : t.Disjoint ids)
    {x : NodeId × Node} : x ∈ finished calls ↔
      x ∈ started calls ∧ ∀ z ∈ answered .stop calls, ¬ t.Within x.1 z := by
  induction h generalizing x with
  | done => simp
  | missing hid rest ih => exact ih hids.of_cons
  -- The node that gets the stop is started, and never finished.
  | @stop id n ids hid =>
    have hid : x = (id, n) → t.Within x.1 id := fun hx => hx ▸ t.within_refl id
    simpa using hid
  | @skip id n ids calls ended hid rest ih =>
    have hroot (z : NodeId) (hz : z ∈ answered .stop calls) : ¬ t.Within id z :=
      (hids.not_within ht (t.within_refl id) (rest.within_of_answered ht hz)).1
    simp only [finished_start, finished_finish, started_start, started_finish, answered_start,
      answered_finish, List.mem_cons, ih hids.of_cons, reduceCtorEq, if_false]
    constructor
    · rintro (rfl | ⟨hx, hz⟩)
      · exact ⟨Or.inl rfl, hroot⟩
      · exact ⟨Or.inr hx, hz⟩
    · rintro ⟨rfl | hx, hz⟩
      · exact Or.inl rfl
      · exact Or.inr ⟨hx, hz⟩
  | @through id n ids inner calls ended hid below rest ihbelow ih =>
    have hchildren := ht.disjoint_children hid
    -- What comes later lies beside this subtree, so a stop that is given there leaves it done.
    have hclear {y : NodeId} (hy : t.Within id y) (z : NodeId) (hz : z ∈ answered .stop calls) :
        ¬ t.Within y z :=
      (hids.not_within ht hy (rest.within_of_answered ht hz)).1
    simp only [List.cons_append, finished_start, finished_append, finished_finish, started_start,
      started_append, started_finish, answered_start, answered_append, answered_finish,
      below.stopped_eq_nil, List.nil_append, List.mem_cons, List.mem_append, ih hids.of_cons,
      ihbelow hchildren, reduceCtorEq, if_false, List.not_mem_nil, false_imp_iff, implies_true,
      and_true]
    constructor
    · rintro (hx | rfl | ⟨hx, hz⟩)
      · exact ⟨Or.inr (Or.inl hx),
          hclear (List.mem_cons_of_mem _ (below.within_of_started_below ht hid hx))⟩
      · exact ⟨Or.inl rfl, hclear (t.within_refl id)⟩
      · exact ⟨Or.inr (Or.inr hx), hz⟩
    · rintro ⟨rfl | hx | hx, hz⟩
      · exact Or.inr (Or.inl rfl)
      · exact Or.inl hx
      · exact Or.inr (Or.inr ⟨hx, hz⟩)
  | @cut id n ids inner hid below ih =>
    have hchildren := ht.disjoint_children hid
    simp only [finished_start, started_start, answered_start, List.mem_cons, ih hchildren,
      reduceCtorEq, if_false]
    constructor
    · rintro ⟨hx, hz⟩
      exact ⟨Or.inr hx, hz⟩
    -- The stop was given below this node, so that the node is not done.
    · rintro ⟨rfl | hx, hz⟩
      · obtain ⟨z, hstop⟩ := below.exists_stopped
        have hmem := hstop ▸ List.mem_singleton_self z
        exact (hz z hmem (below.within_of_answered_below ht hid hmem)).elim
      · exact ⟨hx, hz⟩

/-- A walk is done with a node once, and after all that lie below it. -/
theorem pairwise_finished (ht : t.Sound) (h : t.Walks ids calls ended) (hids : t.Disjoint ids) :
    (finished calls).Pairwise fun x y => ¬ t.Within x.1 y.1 := by
  induction h with
  | done => exact .nil
  | missing hid rest ih => exact ih hids.of_cons
  | stop hid => exact .nil
  | @skip id n ids calls ended hid rest ih =>
    refine List.pairwise_cons.mpr ⟨fun y hy => ?_, ih hids.of_cons⟩
    have hy := rest.started_subset ht ((rest.mem_finished_iff ht hids.of_cons).mp hy).1
    exact (hids.not_within ht (t.within_refl id) (ht.mem_flatMap_inspect.mp hy).2).1
  | @through id n ids inner calls ended hid below rest ihbelow ih =>
    have hchildren := ht.disjoint_children hid
    have hrest {x : NodeId} (hx : t.Within id x) (y : NodeId × Node) (hy : y ∈ finished calls) :
        ¬ t.Within x y.1 := by
      have hy := rest.started_subset ht ((rest.mem_finished_iff ht hids.of_cons).mp hy).1
      exact (hids.not_within ht hx (ht.mem_flatMap_inspect.mp hy).2).1
    simp only [List.cons_append, finished_start, finished_append, finished_finish]
    refine List.pairwise_append.mpr ⟨ihbelow hchildren,
      List.pairwise_cons.mpr ⟨hrest (t.within_refl id), ih hids.of_cons⟩, fun x hx y hy => ?_⟩
    have hbelow := below.within_of_started_below ht hid
      ((below.mem_finished_iff ht hchildren).mp hx).1
    rcases List.mem_cons.mp hy with rfl | hy
    · exact ht.not_within_of_mem_ancestors hbelow
    · exact hrest (List.mem_cons_of_mem _ hbelow) y hy
  | cut hid below ih =>
    exact ih (ht.disjoint_children hid)

end Walks

/-! ## Agreement -/

/-- A walk comes to no node twice. -/
theorem Sound.nodup_inspect (ht : t.Sound) (id : NodeId) : ((t.inspect id).map Prod.fst).Nodup := by
  by_cases hid : id < t.size
  · rw [ht.inspect_eq_preorder hid]
    exact ht.nodup_preorder (ht.fits hid)
  · simp [inspect_eq_nil (Nat.not_lt.mp hid)]

section Calls

variable {σ : Type}

/-- A visit and its record. -/
theorem Sound.visit_recording (ht : t.Sound) (v : Visitor σ) (root : NodeId) (s : σ) :
    t.visit v.recording root (s, [])
      = (((t.visit v root s).1, t.calls v root s), (t.visit v root s).2) ∧
    t.Walks [root] (t.calls v root s) (t.visit v root s).2 := by
  cases hroot : t.node? root with
  | none =>
    simp only [Tree.calls, ht.visit_eq_elim, hroot, Option.elim_none, true_and]
    exact .missing hroot .done
  | some n =>
    obtain ⟨calls, hrecord, hwalks⟩ :=
      exists_walks (v := v) (ht.fits (lt_size_of_node? hroot)) s []
    have hcalls : t.calls v root s = calls := congrArg (fun visited => visited.1.2) hrecord
    rw [hcalls]
    exact ⟨hrecord, hwalks⟩

/-- A visit keeps what each call of its visitor keeps. -/
theorem visitWithin_preserves {v : Visitor σ} {P : σ → Prop}
    (hstart : ∀ s id n, P s → P (v.start s id n).1) (hfinish : ∀ s id n, P s → P (v.finish s id n))
    {levels : Nat} {s : σ} (hs : P s) : P (t.visitWithin v levels id s).1 := by
  induction levels generalizing id s with
  | zero => exact hs
  | succ levels ih =>
    -- The children keep it one after the other, as far as they are visited.
    have heach (ids : List NodeId) {s : σ} (hs : P s) :
        P (Visitor.each (t.visitWithin v levels) ids s).1 := by
      induction ids generalizing s with
      | nil => exact hs
      | cons c ids ihids =>
        have hc : P (t.visitWithin v levels c s).1 := ih hs
        rw [Visitor.each]
        rcases hvisit : t.visitWithin v levels c s with ⟨s', ended⟩
        rw [hvisit] at hc
        cases ended with
        | false => exact hc
        | true => exact ihids hc
    rw [visitWithin]
    cases t.node? id with
    | none => exact hs
    | some n =>
      have hs := hstart s id n hs
      have hchildren := heach n.children hs
      simp only [Visitor.visitNode]
      rcases hvisitor : v.start s id n with ⟨s', answer⟩
      rw [hvisitor] at hs hchildren
      cases answer with
      | stop => exact hs
      | skipChildren => exact hfinish s' id n hs
      | proceed =>
        rcases hvisit : Visitor.each (t.visitWithin v levels) n.children s' with ⟨s'', ended⟩
        simp only [hvisit] at hchildren ⊢
        cases ended with
        | false => exact hchildren
        | true => exact hfinish s'' id n hchildren

/-- A visitor that always goes on gives no other answer. -/
theorem answered_of_proceed {v : Visitor σ} (h : ∀ s id n, (v.start s id n).2 = .proceed)
    {answer : VisitControl} (hanswer : answer ≠ .proceed) (root : NodeId) (s : σ) :
    answered answer (t.calls v root s) = [] := by
  refine visitWithin_preserves (P := fun s : σ × List VisitCall => answered answer s.2 = [])
    (fun s id n hs => ?_) (fun s id n hs => ?_) rfl
  · simp [Visitor.recording, hs, h, hanswer.symm]
  · simp [Visitor.recording, hs]

end Calls

/-- Whatever operations build a tree, its two walks agree. The list has the root first and then the
lists of its children, and names each node of the subtree once. A visitor is called at these nodes
in this order, without those strictly below a node whose children it leaves out and up to the first
stop, and the walk comes to its end exactly if there is no stop. It is done with the nodes it came
to other than the stop and those above it, with each of them once, after all that it came to below
it. A visitor that always goes on is called at all nodes of the list. -/
theorem walks_agree {σ : Type} (ops : List Operation) (v : Visitor σ) (root : NodeId) (s : σ) :
    let t := after ops
    let calls := t.calls v root s
    (∀ id, t.inspect id
      = (t.node? id).elim [] fun n => (id, n) :: n.children.flatMap t.inspect) ∧
    ((t.inspect root).map Prod.fst).Nodup ∧
    (∀ x n, (x, n) ∈ t.inspect root ↔ t.node? x = some n ∧ t.Within root x) ∧
    t.visit v.recording root (s, [])
      = (((t.visit v root s).1, calls), (t.visit v root s).2) ∧
    started calls = cutAfter (fun x => x.1 ∈ answered .stop calls)
      ((t.inspect root).filter fun x =>
        ∀ a ∈ answered .skipChildren calls, a ∉ t.ancestors x.1) ∧
    ((t.visit v root s).2 = false ↔ answered .stop calls ≠ []) ∧
    (∀ x, x ∈ finished calls ↔
      x ∈ started calls ∧ ∀ z ∈ answered .stop calls, x.1 ∉ z :: t.ancestors z) ∧
    ((finished calls).map Prod.fst).Nodup ∧
    (∀ before x later, finished calls = before ++ x :: later →
      ∀ y ∈ started calls, x.1 ∈ t.ancestors y.1 → y ∈ before) ∧
    ((∀ s id n, (v.start s id n).2 = .proceed) → started calls = t.inspect root) := by
  intro t calls
  have ht : t.Sound := sound_after ops
  obtain ⟨hrecord, hwalks⟩ := ht.visit_recording v root s
  have hids : t.Disjoint [root] := List.pairwise_singleton ..
  have hstarted := hwalks.started_eq ht hids
  have hfinished (x : NodeId × Node) := hwalks.mem_finished_iff ht hids (x := x)
  have hpairwise := hwalks.pairwise_finished ht hids
  rw [List.flatMap_singleton] at hstarted
  refine ⟨ht.inspect_eq_elim, ht.nodup_inspect root, fun x n => ht.mem_inspect, hrecord, hstarted,
    hwalks.ended_eq_false_iff, hfinished, ?_, ?_, ?_⟩
  · refine List.Pairwise.map _ (fun x y hxy hne => ?_) hpairwise
    exact hxy (hne ▸ t.within_refl x.1)
  · intro before x later hsplit y hy hxy
    have hx : x ∈ finished calls := by simp [hsplit]
    have hwithin : t.Within x.1 y.1 := List.mem_cons_of_mem _ hxy
    have hfinished : y ∈ finished calls :=
      (hfinished y).mpr ⟨hy, fun z hz hyz => ((hfinished x).mp hx).2 z hz (hwithin.trans ht hyz)⟩
    rw [hsplit] at hfinished hpairwise
    -- A node that is done later, or is the node itself, does not lie below it.
    rcases List.mem_append.mp hfinished with hbefore | hlater
    · exact hbefore
    · rcases List.mem_cons.mp hlater with rfl | hlater
      · exact (ht.notMem_ancestors y.1 hxy).elim
      · have hpairwise := (List.pairwise_append.mp hpairwise).2.1
        exact (List.rel_of_pairwise_cons hpairwise hlater hwithin).elim
  · intro hproceed
    rw [hstarted, answered_of_proceed hproceed (by decide),
      answered_of_proceed hproceed (by decide), cutAfter_eq_self (by simp)]
    simp [notBelow]

end Tree

end InfraModule
