import InfraModule.Proofs.Tree.Copy
import InfraModule.Tree.Write

/-!
# Walks over subtrees as recursions

Visiting, writing and copying a subtree descend as many levels as the tree has nodes. In a sound
tree no subtree is deeper, so that the bound can be left out: each of them does at a node what it
does there and then the same at the children. Since every chain of owners ends and every subtree has
a depth, this determines what they do.
-/

namespace InfraModule

open Result

namespace Tree

variable {t : Tree} {id : NodeId} {k l : Nat}

/-- A subtree that fits in some levels fits in more. -/
theorem Fits.mono (h : t.Fits k id) (hkl : k ≤ l) : t.Fits l id := by
  induction k generalizing id l with
  | zero => exact h.elim
  | succ k ih =>
    obtain ⟨l, rfl⟩ := Nat.exists_eq_add_one.mpr (Nat.lt_of_lt_of_le (Nat.succ_pos k) hkl)
    exact fun c hc => ih (h c hc) (Nat.succ_le_succ_iff.mp hkl)

/-- The subtree at a child has a level less than the tree has nodes. -/
theorem Sound.fits_child (h : t.Sound) {c : NodeId} (hc : c ∈ t.children id) :
    ∃ levels, t.size = levels + 1 ∧ t.Fits levels c := by
  have hid := h.lt_size_of_owner (h.owner.mp hc)
  obtain ⟨levels, hlevels⟩ := exists_size_eq hid
  exact ⟨levels, hlevels, (hlevels ▸ h.fits hid : t.Fits (levels + 1) id) c hc⟩

/-! ## Visiting -/

section Visit

variable {σ : Type} {v : Visitor σ}

/-- Going through some nodes depends on what is done at these nodes only. -/
theorem each_congr {f g : NodeId → σ → σ × Bool} {ids : List NodeId}
    (h : ∀ c ∈ ids, f c = g c) : Visitor.each f ids = Visitor.each g ids := by
  induction ids with
  | nil =>
    funext state
    rfl
  | cons c ids ih =>
    obtain ⟨hc, hids⟩ := List.forall_mem_cons.mp h
    funext state
    rw [Visitor.each, Visitor.each, hc, ih hids]

/-- Two bounds that a subtree fits in give the same visit. -/
theorem visitWithin_congr (hk : t.Fits k id) (hl : t.Fits l id) :
    t.visitWithin v k id = t.visitWithin v l id := by
  induction k generalizing l id with
  | zero => exact hk.elim
  | succ k ih =>
    cases l with
    | zero => exact hl.elim
    | succ l =>
      funext state
      rw [visitWithin, visitWithin]
      cases hn : t.node? id with
      | none => rfl
      | some n =>
        have heach : Visitor.each (t.visitWithin v k) n.children
            = Visitor.each (t.visitWithin v l) n.children := by
          rw [← children_of_node? hn]
          exact each_congr fun c hc => ih (hk c hc) (hl c hc)
        simp only [Visitor.visitNode, heach]

/-- A subtree is visited by visiting its root and the subtrees at the children. -/
theorem Sound.visit_eq (h : t.Sound) {n : Node} (hn : t.node? id = some n) :
    t.visit v id = v.visitNode (t.visit v) id n := by
  obtain ⟨levels, hlevels⟩ := exists_size_eq (lt_size_of_node? hn)
  have heach : Visitor.each (t.visitWithin v levels) n.children
      = Visitor.each (t.visit v) n.children := by
    rw [← children_of_node? hn]
    refine each_congr fun c hc => ?_
    obtain ⟨levels', hlevels', hfits⟩ := h.fits_child hc
    rw [hlevels, Nat.add_right_cancel_iff] at hlevels'
    exact visitWithin_congr (hlevels' ▸ hfits) (h.fits (h.lt_size_of_child hc))
  funext state
  rw [visit, hlevels, visitWithin, hn]
  simp only [Visitor.visitNode, heach]

/-- Visiting a node that does not exist does nothing, and visiting any other does what its visit
says. -/
theorem Sound.visit_eq_elim (h : t.Sound) :
    t.visit v id = (t.node? id).elim (·, true) fun n => v.visitNode (t.visit v) id n := by
  cases hn : t.node? id with
  | none =>
    funext state
    rw [visit]
    cases t.size <;> simp [visitWithin, hn]
  | some n => exact h.visit_eq hn

end Visit

/-! ## Writing -/

section Write

variable {write write' : NodeId → Except TreeError Written}

/-- A node is an expression exactly if it is found as one. -/
theorem expression?_eq_some_iff {e : Expression} :
    t.expression? id = some e ↔ t.node? id = some (.expression e) := by
  rw [expression?]
  cases t.node? id with
  | none => simp
  | some n => cases n <;> simp [Node.expression?]

/-- The name of a condition is written from the node itself or from one of its children. -/
theorem conditionName_eq_or (t : Tree) (c : NodeId) :
    t.conditionName c = c ∨ t.conditionName c ∈ t.children c := by
  unfold conditionName
  split
  · next name target h =>
    rw [children_of_node? (expression?_eq_some_iff.mp h)]
    exact Or.inr List.mem_cons_self
  · exact Or.inl rfl

/-- What is written for a call depends on what is written for its operands and for the names of
conditions among them. -/
theorem writeOperand_congr {f : Call} (h : ∀ c ∈ f.operands,
    write c = write' c ∧ write (t.conditionName c) = write' (t.conditionName c)) :
    t.writeOperand write f = t.writeOperand write' f := by
  have hall : f.operands.mapM write = f.operands.mapM write' := mapM_congr fun c hc => (h c hc).1
  cases f with
  | base64 c | getAzs c | importValue c | ref c target =>
    exact (h c (by simp [Call.operands])).1
  | cidr a b c | findInMap a b c => exact congrArg (Written.sequence <$> ·) hall
  | getAtt a b target => exact congrArg (Written.sequence <$> ·) hall
  | join a b | select a b | split a b => exact congrArg (Written.sequence <$> ·) hall
  | sub a parameters =>
    cases parameters with
    | none => exact (h a (by simp [Call.operands])).1
    | some b => exact congrArg (Written.sequence <$> ·) hall
  | ifElse c a b =>
    -- A condition that is only named is written as its name.
    have hnames : [t.conditionName c, a, b].mapM write = [t.conditionName c, a, b].mapM write' := by
      refine mapM_congr fun d hd => ?_
      simp only [List.mem_cons, List.not_mem_nil, or_false] at hd
      rcases hd with rfl | rfl | rfl
      · exact (h c (by simp [Call.operands])).2
      · exact (h _ (by simp [Call.operands])).1
      · exact (h _ (by simp [Call.operands])).1
    exact congrArg (Written.sequence <$> ·) hnames
  | transform a b =>
    have ha := (h a (by simp [Call.operands])).1
    have hb := (h b (by simp [Call.operands])).1
    simp only [writeOperand, ha, hb]

/-- An operand that is a condition is written from its own operands. -/
theorem writeConditionOperand_congr {c : Condition} (h : ∀ d ∈ c.operands, write d = write' d) :
    writeConditionOperand write c = writeConditionOperand write' c := by
  have hall : c.operands.mapM write = c.operands.mapM write' := mapM_congr h
  cases c with
  | reference name target | existence name target => exact h name (by simp [Condition.operands])
  | _ => exact congrArg (Written.sequence <$> ·) hall

/-- What is written for a node depends on what is written for its children and for the names of
conditions among them. -/
theorem writeNode_congr {n : Node} (h : ∀ c ∈ n.children,
    write c = write' c ∧ write (t.conditionName c) = write' (t.conditionName c)) :
    t.writeNode write id n = t.writeNode write' id n := by
  have hchildren (c : NodeId) (hc : c ∈ n.children) : write c = write' c := (h c hc).1
  match n with
  | .declaration d => rfl
  | .collection items => exact congrArg (Written.sequence <$> ·) (mapM_congr hchildren)
  | .expression (.literal l) => rfl
  | .expression (.list items) => exact congrArg (Written.sequence <$> ·) (mapM_congr hchildren)
  | .expression (.object entries) =>
    refine congrArg (Written.ofEntries <$> ·) (mapM_congr fun ⟨key, c⟩ hentry => ?_)
    exact congrArg ((key.text, ·) <$> ·) (hchildren c (List.mem_map_of_mem hentry))
  | .expression (.call f) =>
    exact congrArg (Written.tagged f.name.tag <$> ·) (writeOperand_congr h)
  | .expression (.condition c) =>
    exact congrArg (Written.tagged c.name.tag <$> ·) (writeConditionOperand_congr hchildren)

/-- Where the name of a condition stands the subtree is no deeper. -/
theorem fits_conditionName {c : NodeId} (h : t.Fits k c) : t.Fits k (t.conditionName c) := by
  rcases t.conditionName_eq_or c with hname | hname
  · rwa [hname]
  · cases k with
    | zero => exact h.elim
    | succ k => exact (h _ hname).mono (Nat.le_succ k)

/-- Two bounds that a subtree fits in write it alike. -/
theorem writeWithin_congr (hk : t.Fits k id) (hl : t.Fits l id) :
    t.writeWithin k id = t.writeWithin l id := by
  induction k generalizing l id with
  | zero => exact hk.elim
  | succ k ih =>
    cases l with
    | zero => exact hl.elim
    | succ l =>
      rw [writeWithin, writeWithin]
      cases hn : t.node? id with
      | none => rfl
      | some n =>
        refine writeNode_congr fun c hc => ?_
        rw [← children_of_node? hn] at hc
        exact ⟨ih (hk c hc) (hl c hc),
          ih (fits_conditionName (hk c hc)) (fits_conditionName (hl c hc))⟩

/-- A subtree is written by writing its root around what is written for the subtrees at the
children. -/
theorem Sound.write_eq (h : t.Sound) {n : Node} (hn : t.node? id = some n) :
    t.write id = t.writeNode t.write id n := by
  obtain ⟨levels, hlevels⟩ := exists_size_eq (lt_size_of_node? hn)
  -- One level less is enough below the root.
  have hwrite (c : NodeId) (hc : t.Fits levels c) : t.writeWithin levels c = t.write c := by
    rw [write, hlevels]
    exact writeWithin_congr hc (hc.mono (Nat.le_succ levels))
  rw [write, hlevels, writeWithin, hn]
  refine writeNode_congr fun c hc => ?_
  rw [← children_of_node? hn] at hc
  obtain ⟨levels', hlevels', hfits⟩ := h.fits_child hc
  rw [hlevels, Nat.add_right_cancel_iff] at hlevels'
  subst hlevels'
  exact ⟨hwrite c hfits, hwrite _ (fits_conditionName hfits)⟩

/-- Writing a node that does not exist fails, and any other is written from its children. -/
theorem Sound.write_eq_elim (h : t.Sound) (id : NodeId) :
    t.write id
      = (t.node? id).elim (.error (.unknownNode id)) fun n => t.writeNode t.write id n := by
  cases hn : t.node? id with
  | none =>
    rw [write]
    cases t.size <;> simp [writeWithin, hn]
  | some n => exact h.write_eq hn

end Write

end Tree

/-! ## Copying -/

namespace TreeM

variable {t : Tree} {id : NodeId} {k l : Nat}

/-- The children of a node are copied in trees that extend the one that is there at first. -/
theorem mapM_copyWithin_congr {copy : NodeId → TreeM NodeId} (ht : t.Sound)
    (hfits : ∀ c ∈ t.children id, t.Fits k c)
    (hcopy : ∀ c ∈ t.children id, ∀ u : Tree, u.Sound → t.Extends u → u.Fits k c →
      copyWithin k c u = copy c u) :
    (t.children id).mapM (copyWithin k) t = (t.children id).mapM copy t := by
  refine mapM_congr_of_invariant (P := fun u => u.Sound ∧ t.Extends u) ⟨ht, Tree.Extends.refl t⟩
    (fun c hc u hu => ?_) (fun c hc u hu d v hv => ?_)
  · exact hcopy c hc u hu.1 hu.2 (hu.2.fits ht (ht.lt_size_of_child hc) (hfits c hc))
  · have hclt := ht.lt_size_of_child hc
    obtain ⟨d', v', hv', hsound, hextends, -⟩ := copyWithin_ok hu.1
      (hclt.trans_le hu.2.size_le) (hu.2.fits ht hclt (hfits c hc))
    rw [hv, EStateM.Result.ok.injEq] at hv'
    obtain ⟨rfl, rfl⟩ := hv'
    exact ⟨hsound, hu.2.trans hextends⟩

/-- Two bounds that a subtree fits in give the same copy. -/
theorem copyWithin_congr (ht : t.Sound) (hid : id < t.size) (hk : t.Fits k id)
    (hl : t.Fits l id) : copyWithin k id t = copyWithin l id t := by
  induction k generalizing t l id with
  | zero => exact hk.elim
  | succ k ih =>
    cases l with
    | zero => exact hl.elim
    | succ l =>
      obtain ⟨n, hn⟩ := Tree.node?_eq_some_iff_lt.mpr hid
      obtain ⟨e, -, -, -, hloc⟩ := Tree.requireEntry_of_lt hid
      rw [copyWithin_succ hn hloc, copyWithin_succ hn hloc, ← Tree.children_of_node? hn]
      refine bind_congr (mapM_copyWithin_congr ht hk fun c hc u hu htu hfits => ?_)
      have hclt := ht.lt_size_of_child hc
      exact ih hu (hclt.trans_le htu.size_le) hfits (htu.fits ht hclt (hl c hc))

/-- A subtree is copied by copying the subtrees at the children, and then the root over the copies.
-/
theorem copySubtree_eq {n : Node} {loc : Location} (ht : t.Sound) (hn : t.node? id = some n)
    (hloc : t.location? id = some loc) : copySubtree id t
      = (n.children.mapM copySubtree >>= fun copies => append (n.withChildren copies) loc) t := by
  obtain ⟨levels, hlevels⟩ := Tree.exists_size_eq (Tree.lt_size_of_node? hn)
  have happly : copySubtree id t = copyWithin (levels + 1) id t := hlevels ▸ rfl
  rw [happly, copyWithin_succ hn hloc, ← Tree.children_of_node? hn]
  refine bind_congr (mapM_copyWithin_congr ht (fun c hc => ?_) fun c hc u hu htu hfits => ?_)
  · obtain ⟨levels', hlevels', hfits⟩ := ht.fits_child hc
    rw [hlevels, Nat.add_right_cancel_iff] at hlevels'
    exact hlevels' ▸ hfits
  · have hclt := (ht.lt_size_of_child hc).trans_le htu.size_le
    exact copyWithin_congr hu hclt hfits (hu.fits hclt)

/-- Copying a node that does not exist fails, and any other is copied after its children. -/
theorem copySubtree_eq_elim (ht : t.Sound) (id : NodeId) :
    copySubtree id t
      = (t.entry? id).elim (.error (.unknownNode id) t) fun e => (do
          let copies ← e.node.children.mapM copySubtree
          append (e.node.withChildren copies) e.location : TreeM NodeId) t := by
  cases he : t.entry? id with
  | none => exact copySubtree_of_le (Tree.node?_eq_none_iff.mp (by simp [Tree.node?, he]))
  | some e => exact copySubtree_eq ht (by simp [Tree.node?, he]) (by simp [Tree.location?, he])

end TreeM

end InfraModule
