import InfraModule.Proofs.Tree.Keys
import InfraModule.Proofs.Tree.Recursion

/-!
# What is written of a subtree

Writing goes through a subtree in the order of `inspect`, although it does not follow the children
of a node uniformly: it leaves out the node of a condition that `!If` only names, gives the operand
of some calls without a sequence around it, and those of `!Transform` as a mapping. It is refused by
the first declaration that it comes to, and otherwise its result shows the literals of the subtree,
each of them once and in order (`Tree.write_exact`).

The proof follows the nodes walked and the result side by side (`Tree.Renders`). Each way of putting
results together has a rule that puts the lists of nodes together in the same way, so that a node
comes down to its children.
-/

namespace InfraModule

/-! ## Literals -/

/-- The literal, if the node is one. -/
def Node.literal? : Node → Option Literal
  | .expression (.literal l) => some l
  | _ => none

namespace Written

mutual

/-- The texts, integers and truth values in a value, in order. -/
def scalars : Written → List Written
  | .text s => [.text s]
  | .int n => [.int n]
  | .bool b => [.bool b]
  | .sequence items => itemScalars items
  | .mapping entries => entryScalars entries
  | .tagged _ value => value.scalars
termination_by structural value => value

/-- The scalars in the items of a sequence. -/
def itemScalars : List Written → List Written
  | [] => []
  | item :: items => item.scalars ++ itemScalars items
termination_by structural items => items

/-- The scalars in the values of a mapping. -/
def entryScalars : List (String × Written) → List Written
  | [] => []
  | (_, value) :: entries => value.scalars ++ entryScalars entries
termination_by structural entries => entries

end

/-- The scalars in items are those of one item after the other. -/
theorem itemScalars_eq : ∀ items : List Written, itemScalars items = items.flatMap scalars
  | [] => rfl
  | item :: items => by rw [itemScalars, itemScalars_eq items, List.flatMap_cons]

/-- The scalars in entries are those of one value after the other. -/
theorem entryScalars_eq : ∀ entries : List (String × Written),
    entryScalars entries = entries.flatMap fun entry => entry.2.scalars
  | [] => rfl
  | (key, value) :: entries => by rw [entryScalars, entryScalars_eq entries, List.flatMap_cons]

/-- The scalars of a sequence are those of its items, in order. -/
@[simp] theorem scalars_sequence (items : List Written) :
    (sequence items).scalars = items.flatMap scalars :=
  itemScalars_eq items

/-- The scalars of a mapping are those of its values, in order. -/
@[simp] theorem scalars_mapping (entries : List (String × Written)) :
    (mapping entries).scalars = entries.flatMap fun entry => entry.2.scalars :=
  entryScalars_eq entries

/-- A tag adds no scalar. -/
@[simp] theorem scalars_tagged (tag : String) (value : Written) :
    (tagged tag value).scalars = value.scalars := rfl

end Written

/-- A literal is written as a scalar. -/
@[simp] theorem Literal.scalars_write (l : Literal) : l.write.scalars = [l.write] := by
  unfold Literal.write
  split <;> rfl

namespace Tree

/-! ## Results beside the nodes they come from -/

/-- The literals among nodes, as they are written. -/
def writtenLiterals (ns : List (NodeId × Node)) : List Written :=
  (ns.filterMap fun x => x.2.literal?).map Literal.write

/-- What writing the nodes in this order may come to. Either it is refused by the first declaration
among them; or there is none, and the result shows the literals among them in order, if no object
has a key twice. -/
inductive Renders {α : Type} (scalars : α → List Written) (ns : List (NodeId × Node)) :
    Except TreeError α → Prop
  | refused {before rest : List (NodeId × Node)} {x : NodeId} {d : Declaration}
    (first : ns = before ++ (x, .declaration d) :: rest)
    (before_clear : ∀ y ∈ before, y.2.declaration? = none) :
    Renders scalars ns (.error (.unexpectedNode x "Expression" d.kind.name))
  | written {a : α} (clear : ∀ y ∈ ns, y.2.declaration? = none)
    (shown : (∀ y ∈ ns, y.2.keys.Nodup) → scalars a = writtenLiterals ns) :
    Renders scalars ns (.ok a)

section Rules

variable {α β γ : Type} {f : α → List Written} {g : β → List Written} {h : γ → List Written}
  {ns ms : List (NodeId × Node)} {x : Except TreeError α} {y : Except TreeError β}

/-- The literals among nodes are those of one part after the other. -/
theorem writtenLiterals_append (ns ms : List (NodeId × Node)) :
    writtenLiterals (ns ++ ms) = writtenLiterals ns ++ writtenLiterals ms := by
  rw [writtenLiterals, List.filterMap_append, List.map_append]
  rfl

/-- The first node comes first among the literals, if it is one. -/
theorem writtenLiterals_cons (id : NodeId) (n : Node) (ns : List (NodeId × Node)) :
    writtenLiterals ((id, n) :: ns)
      = n.literal?.toList.map Literal.write ++ writtenLiterals ns := by
  cases hn : n.literal? <;> simp [writtenLiterals, hn]

namespace Renders

/-- A result that shows no literals is what no nodes come to. -/
theorem nil {a : α} (ha : f a = []) : Renders f [] (.ok a) :=
  .written (by simp) fun _ => ha

/-- A result that is only dressed up shows the same. -/
theorem map {k : α → β} (hx : Renders f ns x) (hk : ∀ a, x = .ok a → g (k a) = f a) :
    Renders g ns (k <$> x) := by
  cases hx with
  | refused first before => exact .refused first before
  | written clear shown => exact .written clear fun hkeys => (hk _ rfl).trans (shown hkeys)

/-- Two results are made one after the other, and shown one after the other. -/
theorem both {k : α → β → γ} (hx : Renders f ns x) (hy : Renders g ms y)
    (hk : ∀ a b, h (k a b) = f a ++ g b) :
    Renders h (ns ++ ms) (do let a ← x; let b ← y; return k a b) := by
  cases hx with
  | @refused before rest z d first before_clear =>
    -- What is refused at first stays so, and the second result is not asked for.
    have hfirst : ns ++ ms = before ++ (z, .declaration d) :: (rest ++ ms) := by
      rw [first, List.append_assoc, List.cons_append]
    exact .refused hfirst before_clear
  | written clear shown =>
    cases hy with
    | @refused before rest z d first before_clear =>
      have hfirst : ns ++ ms = (ns ++ before) ++ (z, .declaration d) :: rest := by
        rw [first, List.append_assoc]
      exact .refused hfirst fun y hy => (List.mem_append.mp hy).elim (clear y) (before_clear y)
    | written clear' shown' =>
      refine .written (fun y hy => (List.mem_append.mp hy).elim (clear y) (clear' y)) fun hkeys => ?_
      have hleft := shown fun y hy => hkeys y (List.mem_append_left ms hy)
      have hright := shown' fun y hy => hkeys y (List.mem_append_right ns hy)
      rw [hk, hleft, hright, writtenLiterals_append]

/-- A node that is no declaration comes before what is below it. -/
theorem node {k : α → β} {id : NodeId} {n : Node} (hn : n.declaration? = none)
    (hx : Renders f ns x) (hk : ∀ a, x = .ok a → n.keys.Nodup →
      g (k a) = n.literal?.toList.map Literal.write ++ f a) :
    Renders g ((id, n) :: ns) (k <$> x) := by
  cases hx with
  | @refused before rest z d first before_clear =>
    have hfirst : (id, n) :: ns = ((id, n) :: before) ++ (z, .declaration d) :: rest := by
      rw [first, List.cons_append]
    exact .refused hfirst (List.forall_mem_cons.mpr ⟨hn, before_clear⟩)
  | written clear shown =>
    refine .written (List.forall_mem_cons.mpr ⟨hn, clear⟩) fun hkeys => ?_
    obtain ⟨hnkeys, hkeys⟩ := List.forall_mem_cons.mp hkeys
    rw [hk _ rfl hnkeys, shown hkeys, writtenLiterals_cons]

/-- Results that are made in a row. -/
theorem mapM {δ : Type} {make : δ → Except TreeError α} {ds : List δ}
    {nss : List (List (NodeId × Node))}
    (hall : List.Forall₂ (fun ns d => Renders f ns (make d)) nss ds) :
    Renders (List.flatMap f) nss.flatten (ds.mapM make) := by
  induction hall with
  | nil => exact .nil rfl
  | cons hd hrest ih =>
    rw [List.mapM_cons, List.flatten_cons]
    exact hd.both ih fun a as => List.flatMap_cons

end Renders

end Rules

/-! ## From the children to a node -/

section Around

variable {t : Tree} {id : NodeId} {ids : List NodeId} {write : NodeId → Except TreeError Written}

/-- The subtree at a node is written by writing the node, and also by writing what stands for the
node as the condition of `!If`. -/
structure WritesAt (t : Tree) (write : NodeId → Except TreeError Written) (c : NodeId) : Prop where
  /-- The node itself is written. -/
  self : Renders Written.scalars (t.inspect c) (write c)
  /-- The name of a condition is written in its place. -/
  name : Renders Written.scalars (t.inspect c) (write (t.conditionName c))

/-- Several nodes are written one after the other, as a walk comes to them. -/
theorem renders_mapM (h : ∀ c ∈ ids, t.WritesAt write c) :
    Renders (List.flatMap Written.scalars) (ids.flatMap t.inspect) (ids.mapM write) := by
  rw [List.flatMap_def]
  exact .mapM (List.forall₂_map_left_iff.mpr (List.forall₂_same.mpr fun c hc => (h c hc).self))

/-- A sequence of nodes shows what its items show. -/
theorem renders_sequence (h : ∀ c ∈ ids, t.WritesAt write c) :
    Renders Written.scalars (ids.flatMap t.inspect) (.sequence <$> ids.mapM write) :=
  (renders_mapM h).map fun items _ => Written.scalars_sequence items

/-- The operands of a call are written in order, whatever stands around them. -/
theorem renders_writeOperand {f : Call} (h : ∀ c ∈ f.operands, t.WritesAt write c) :
    Renders Written.scalars (f.operands.flatMap t.inspect) (t.writeOperand write f) := by
  have hall := renders_sequence h
  cases f with
  | base64 c | getAzs c | importValue c | ref c target =>
    rw [Call.operands, List.flatMap_singleton]
    exact (h c (by simp [Call.operands])).self
  | cidr | findInMap | getAtt | join | select | split => exact hall
  | sub c parameters =>
    cases parameters with
    | none =>
      simp only [Call.operands, Option.toList_none, List.flatMap_singleton]
      exact (h c (by simp [Call.operands])).self
    | some parameters => exact hall
  | ifElse c a b =>
    -- The name stands for the condition, but what is walked is the condition.
    have hc := (h c (by simp [Call.operands])).name
    have ha := (h a (by simp [Call.operands])).self
    have hb := (h b (by simp [Call.operands])).self
    have hwritten : Renders (List.flatMap Written.scalars)
        [t.inspect c, t.inspect a, t.inspect b].flatten ([t.conditionName c, a, b].mapM write) :=
      .mapM (.cons hc (.cons ha (.cons hb .nil)))
    exact hwritten.map fun items _ => Written.scalars_sequence items
  | transform a b =>
    have ha := (h a (by simp [Call.operands])).self
    have hb := (h b (by simp [Call.operands])).self
    rw [Call.operands, List.flatMap_cons, List.flatMap_singleton]
    exact ha.both hb fun name parameters => by simp

/-- An operand that is a condition shows what its own operands show. -/
theorem renders_writeConditionOperand {c : Condition} (h : ∀ d ∈ c.operands, t.WritesAt write d) :
    Renders Written.scalars (c.operands.flatMap t.inspect) (writeConditionOperand write c) := by
  have hall := renders_sequence h
  cases c with
  | reference name target | existence name target =>
    rw [Condition.operands, List.flatMap_singleton]
    exact (h name (by simp [Condition.operands])).self
  | _ => exact hall

/-- If no key of an object comes twice, all of its values are shown. -/
theorem renders_object {es : Entries} (h : ∀ c ∈ es.map Prod.snd, t.WritesAt write c) :
    Renders Written.scalars ((id, .expression (.object es)) :: (es.map Prod.snd).flatMap t.inspect)
      (Written.ofEntries <$> es.mapM fun (key, value) => (key.text, ·) <$> write value) := by
  have hentry (entry : Key × NodeId) (hentry : entry ∈ es) :
      Renders (fun made => made.2.scalars) (t.inspect entry.2)
        ((entry.1.text, ·) <$> write entry.2) :=
    (h entry.2 (List.mem_map_of_mem hentry)).self.map fun _ _ => rfl
  have hentries := Renders.mapM
    (List.forall₂_map_left_iff.mpr (List.forall₂_same.mpr hentry))
  rw [List.flatMap_map]
  refine hentries.node rfl fun made hmade hkeys => ?_
  obtain ⟨hsame, -⟩ := lookup_of_mapM hmade
  have hnodup : (made.map Prod.fst).Nodup := hsame ▸ hkeys
  rw [Written.ofEntries_of_nodup hnodup, Written.scalars_mapping]
  rfl

/-- A node is written if its children are. -/
theorem renders_writeNode {n : Node} (h : ∀ c ∈ n.children, t.WritesAt write c) :
    Renders Written.scalars ((id, n) :: n.children.flatMap t.inspect) (t.writeNode write id n) := by
  match n with
  | .declaration d =>
    have hfirst : (id, Node.declaration d) :: (Node.declaration d).children.flatMap t.inspect
        = [] ++ (id, Node.declaration d) :: (Node.declaration d).children.flatMap t.inspect := rfl
    exact .refused hfirst (by simp)
  | .collection items =>
    exact (renders_mapM h).node rfl fun items _ _ => Written.scalars_sequence items
  | .expression (.literal l) =>
    -- There is nothing below a literal, and it shows itself.
    have hnothing : Renders (fun _ : Unit => []) [] (.ok ()) := .nil rfl
    have hshown : l.write.scalars = [l.write] ++ [] := l.scalars_write
    exact hnothing.node (k := fun _ => l.write) rfl fun _ _ _ => hshown
  | .expression (.list items) =>
    exact (renders_mapM h).node rfl fun items _ _ => Written.scalars_sequence items
  | .expression (.object es) => exact renders_object h
  | .expression (.call f) =>
    exact (renders_writeOperand h).node rfl fun w _ _ => Written.scalars_tagged f.name.tag w
  | .expression (.condition c) =>
    exact (renders_writeConditionOperand h).node rfl fun w _ _ =>
      Written.scalars_tagged c.name.tag w

end Around

/-! ## The whole subtree -/

variable {t : Tree} {id : NodeId}

/-- By induction on the subtree: `!If` writes the name of its condition alone, so that both are
followed downwards. -/
theorem Sound.writesAt (ht : t.Sound) (hid : id < t.size) : t.WritesAt t.write id := by
  induction id using ht.finite_children.induction with
  | _ id ih =>
    obtain ⟨n, hn⟩ := node?_eq_some_iff_lt.mpr hid
    have hchildren (c : NodeId) (hc : c ∈ n.children) : t.WritesAt t.write c := by
      rw [← children_of_node? hn] at hc
      exact ih c hc (ht.lt_size_of_child hc)
    have hself : Renders Written.scalars (t.inspect id) (t.write id) := by
      rw [ht.inspect_eq hn, ht.write_eq hn]
      exact renders_writeNode hchildren
    refine ⟨hself, ?_⟩
    unfold conditionName
    split
    · next name target he =>
      -- The node that is left out is no declaration and has no literal.
      cases hn.symm.trans (expression?_eq_some_iff.mp he)
      have hname := (hchildren name List.mem_cons_self).self
      have hbelow : t.inspect id = (id, .expression (.condition (.reference name target))) ::
          t.inspect name := by
        rw [ht.inspect_eq hn, ← List.flatMap_singleton t.inspect name]
        rfl
      rw [hbelow, ← id_map (t.write name)]
      exact hname.node rfl fun _ _ _ => rfl
    · exact hself

/-- A node has no key twice if, being an object, it has none. -/
theorem nodup_keys_of_objects {n : Node}
    (h : ∀ es, n = .expression (.object es) → es.keys.Nodup) : n.keys.Nodup := by
  match n with
  | .expression (.object es) => exact h es rfl
  | .declaration _ | .collection _ | .expression (.literal _) | .expression (.list _)
  | .expression (.call _) | .expression (.condition _) => exact List.nodup_nil

/-- However a tree was built, writing a node is refused exactly if there is a declaration in the
subtree, and then by the first of them in the order of `inspect`. Otherwise, if no object of the
subtree has a key twice, the scalars of what is written are the literals of the subtree in this
order. -/
theorem write_exact (h : t.Reachable) (hid : id < t.size) :
    ((∃ e, t.write id = .error e) ↔
      ∃ x d, t.Within id x ∧ t.node? x = some (.declaration d)) ∧
    (∀ e, t.write id = .error e → ∃ before x d rest,
      t.inspect id = before ++ (x, .declaration d) :: rest ∧
      (∀ y ∈ before, y.2.declaration? = none) ∧
      e = .unexpectedNode x "Expression" d.kind.name) ∧
    ((¬ ∃ x d, t.Within id x ∧ t.node? x = some (.declaration d)) → ∃ w, t.write id = .ok w ∧
      ((∀ x es, t.Within id x → t.node? x = some (.expression (.object es)) → es.keys.Nodup) →
        w.scalars = ((t.inspect id).filterMap fun y => y.2.literal?).map Literal.write)) := by
  have ht : t.Sound := h.sound
  have hrenders := (ht.writesAt hid).self
  generalize t.write id = result at hrenders ⊢
  cases hrenders with
  | @refused before rest x d first before_clear =>
    have hmem : (x, .declaration d) ∈ t.inspect id := by simp [first]
    obtain ⟨hx, hwithin⟩ := ht.mem_inspect.mp hmem
    refine ⟨iff_of_true ⟨_, rfl⟩ ⟨x, d, hwithin, hx⟩, fun e he => ?_, fun hnone => ?_⟩
    · cases he
      exact ⟨before, x, d, rest, first, before_clear, rfl⟩
    · exact absurd ⟨x, d, hwithin, hx⟩ hnone
  | @written w clear shown =>
    have hdeclaration : ¬ ∃ x d, t.Within id x ∧ t.node? x = some (.declaration d) := by
      rintro ⟨x, d, hwithin, hx⟩
      cases clear _ (ht.mem_inspect.mpr ⟨hx, hwithin⟩)
    have herror : ¬ ∃ e, (.ok w : Except TreeError Written) = .error e := nofun
    refine ⟨iff_of_false herror hdeclaration, fun e he => absurd ⟨e, he⟩ herror, fun _ => ?_⟩
    refine ⟨w, rfl, fun hkeys => shown fun ⟨x, n⟩ hmem => nodup_keys_of_objects fun es hes => ?_⟩
    obtain ⟨hx, hwithin⟩ := ht.mem_inspect.mp hmem
    exact hkeys x es hwithin (hes ▸ hx)

/-- A call of `!If` shows the name of its condition and its other operands; beside a declaration it
is not written. -/
theorem write_exact_of_named_condition :
    let declaration := (Declaration.new? .variable (some 5)).map Node.declaration
    let l : Location := default
    let ops : List Operation := [.add (.expression (.literal (.string "c"))) l,
      .add (.expression (.condition (.reference 0 none))) l,
      .add (.expression (.literal (.string "a"))) l,
      .add (.expression (.literal (.bool true))) l,
      .add (.expression (.call (.ifElse 1 2 3))) l,
      .add (.expression (.literal (.string "v"))) l] ++
      declaration.toList.map (Operation.add · l) ++ [.add (.collection [4, 6]) l]
    let t := after ops
    (∃ w, t.write 4 = .ok w ∧ w.scalars = [.text "c", .text "a", .bool true]) ∧
      ∃ e, t.write 7 = .error e := by
  intro declaration l ops t
  have ht : t.Reachable := ⟨ops, rfl⟩
  have hsize : t.size = 8 := by decide
  have hplain : ∀ x < 8, t.Within 4 x → (t.node? x).all
      (fun n => n.declaration?.isNone ∧ n.keys = []) = true := by decide
  have hliterals : ((t.inspect 4).filterMap fun y => y.2.literal?)
      = [.string "c", .string "a", .bool true] := by decide
  obtain ⟨-, -, hwritten⟩ := write_exact ht (show 4 < t.size by rw [hsize]; decide)
  obtain ⟨hrefused, -, -⟩ := write_exact ht (show 7 < t.size by rw [hsize]; decide)
  have hkind : (t.kind? 6).isSome = true := by decide
  obtain ⟨d, hd⟩ := requireDeclaration_of_kind? hkind
  refine ⟨?_, hrefused.mpr ⟨6, d, by decide, requireDeclaration_eq_ok.mp hd⟩⟩
  have hnode (x : NodeId) (n : Node) (hwithin : t.Within 4 x) (hx : t.node? x = some n) :
      n.declaration?.isNone ∧ n.keys = [] := by
    have h := hplain x (hsize ▸ lt_size_of_node? hx) hwithin
    rwa [hx, Option.all_some, decide_eq_true_eq] at h
  obtain ⟨w, hw, hscalars⟩ := hwritten fun ⟨x, d, hwithin, hx⟩ =>
    Bool.false_ne_true (hnode x _ hwithin hx).1
  refine ⟨w, hw, ?_⟩
  rw [hscalars fun x es hwithin hx => ?_, hliterals]
  · rfl
  · have hnil : es.keys = [] := (hnode x _ hwithin hx).2
    rw [hnil]
    exact List.nodup_nil

end Tree

end InfraModule
