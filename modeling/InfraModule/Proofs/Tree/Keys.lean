import InfraModule.Proofs.Resolve.RoundTrip
import InfraModule.Proofs.Tree.Binding
import InfraModule.Proofs.Tree.Clone

/-!
# Keys of objects

An object has its keys from one of three places: it is added with them, `insertEntry` adds one, or
they are among those that an object had before (`Tree.KeysFrom`). Only `insertEntry` makes sure that
no key comes twice. So in every state of a run no object has a key twice exactly if each object that
was added had none twice (`Tree.keys_unique`). Where an object has a key twice, asking for the key
shows the first value, and of the entries that are written one is lost.
-/

namespace InfraModule

open Result

/-! ## Objects as they are written -/

namespace Written

variable {key k : String} {value : Written} {entries ms : List (String × Written)}

/-- Setting a key that is there keeps the keys as they are. -/
theorem keys_setKey_of_mem (h : key ∈ entries.map Prod.fst) :
    (setKey key value entries).map Prod.fst = entries.map Prod.fst := by
  induction entries with
  | nil => simp at h
  | cons entry entries ih =>
    obtain ⟨j, w⟩ := entry
    rw [setKey]
    split
    · rfl
    · next hne =>
      have hmem : key ∈ entries.map Prod.fst := by simpa [Ne.symm hne] using h
      rw [List.map_cons, ih hmem, List.map_cons]

/-- Setting a key adds none that is there. -/
theorem nodup_keys_setKey (h : (entries.map Prod.fst).Nodup) :
    ((setKey key value entries).map Prod.fst).Nodup := by
  by_cases hkey : key ∈ entries.map Prod.fst
  · rwa [keys_setKey_of_mem hkey]
  · rw [setKey_of_notMem hkey, List.map_append]
    simpa using h.concat hkey

/-- No key comes twice in a mapping that is written. -/
theorem nodup_keys_ofEntries (h : ofEntries entries = .mapping ms) : (ms.map Prod.fst).Nodup := by
  have hrun (made : List (String × Written)) (hmade : (made.map Prod.fst).Nodup) :
      ((entries.foldl (fun made entry => setKey entry.1 entry.2 made) made).map
        Prod.fst).Nodup := by
    clear h
    induction entries generalizing made with
    | nil => exact hmade
    | cons entry entries ih => exact ih _ (nodup_keys_setKey hmade)
  cases h
  exact hrun [] List.nodup_nil

/-- Every entry stands in the mapping that is written exactly if no key comes twice. -/
theorem keys_ofEntries_iff (h : ofEntries entries = .mapping ms) :
    ms.map Prod.fst = entries.map Prod.fst ↔ (entries.map Prod.fst).Nodup := by
  constructor
  · intro hkeys
    rw [← hkeys]
    exact nodup_keys_ofEntries h
  · intro hnodup
    rw [ofEntries_of_nodup hnodup, mapping.injEq] at h
    rw [h]

end Written

/-- The keys of an object; other nodes have none. -/
def Node.keys : Node → List String
  | .expression (.object es) => es.keys
  | _ => []

namespace Tree

variable {t u : Tree} {id x p c : NodeId} {n n' : Node} {es : Entries} {w : Written}
  {ms : List (String × Written)} {op : Operation}

/-- The entries of an object are written under their keys, and the value of a key as what is found
under it first. -/
theorem lookup_of_mapM {write : NodeId → Except TreeError Written}
    (h : (es.mapM fun (key, value) => (key.text, ·) <$> write value) = .ok ms) :
    ms.map Prod.fst = es.keys ∧
      ∀ key c, es.get? key = some c → ∃ w, write c = .ok w ∧ ms.lookup key = some w := by
  induction es generalizing ms with
  | nil =>
    cases h
    exact ⟨rfl, by simp [Entries.get?]⟩
  | cons entry es ih =>
    obtain ⟨k, v⟩ := entry
    rw [List.mapM_cons] at h
    dsimp only at h
    cases hv : write v with
    | error e =>
      rw [hv] at h
      cases h
    | ok wv =>
      cases hrest : es.mapM fun (key, value) => (key.text, ·) <$> write value with
      | error e =>
        rw [hv, hrest] at h
        cases h
      | ok rest =>
        rw [hv, hrest] at h
        cases h
        obtain ⟨hkeys, hlookup⟩ := ih hrest
        refine ⟨congrArg (k.text :: ·) hkeys, fun key c hc => ?_⟩
        by_cases hkey : k.text = key
        · rw [Entries.get?, List.find?_cons_of_pos (by simpa using hkey)] at hc
          cases hc
          exact ⟨wv, hv, by simp [hkey]⟩
        · have hne : (key == k.text) = false := by simpa using Ne.symm hkey
          rw [Entries.get?, List.find?_cons_of_neg (by simpa using hkey)] at hc
          rw [List.lookup_cons, hne]
          exact hlookup key c hc

/-- An object is written as a mapping. Each of its entries stands in it exactly if no key comes
twice, and then the mapping shows for each key what the object does. -/
theorem Sound.write_object (ht : t.Sound) (hid : t.node? id = some (.expression (.object es)))
    (hw : t.write id = .ok w) : ∃ ms, w = .mapping ms ∧
      (ms.map Prod.fst = es.keys ↔ es.keys.Nodup) ∧
      (es.keys.Nodup → ∀ key c, es.get? key = some c →
        ∃ w, t.write c = .ok w ∧ ms.lookup key = some w) := by
  rw [ht.write_eq hid, writeNode, writeExpression] at hw
  cases hall : es.mapM fun (key, value) => (key.text, ·) <$> t.write value with
  | error e =>
    rw [hall] at hw
    cases hw
  | ok entries =>
    rw [hall] at hw
    cases hw
    obtain ⟨hkeys, hlookup⟩ := lookup_of_mapM hall
    obtain ⟨ms, hms⟩ : ∃ ms, Written.ofEntries entries = .mapping ms := ⟨_, rfl⟩
    refine ⟨ms, hms, hkeys ▸ Written.keys_ofEntries_iff hms, fun hnodup => ?_⟩
    rw [Written.ofEntries_of_nodup (hkeys ▸ hnodup)] at hms
    cases hms
    exact hlookup

/-! ## One operation -/

/-- Where the keys of a node come from that stands in the tree after an operation. -/
inductive KeysFrom (t : Tree) (op : Operation) (n : Node) : Prop
  /-- They are among those of a node that stood in the tree before. -/
  | kept {x : NodeId} {m : Node} (hm : t.node? x = some m) (h : n.keys.Sublist m.keys)
  /-- A new one was added to those of a node that stood in the tree before. -/
  | inserted {x : NodeId} {m : Node} {key : String} (hm : t.node? x = some m)
    (h : n.keys = m.keys ++ [key]) (hkey : key ∉ m.keys)
  /-- The node was added with them. -/
  | added {l : Location} {id : NodeId} {u : Tree} (hop : op = .add n l)
    (h : TreeM.add n l t = .ok id u)

end Tree

namespace Node

variable {n n' : Node} {c : NodeId} {f : NodeId → NodeId}

/-- A declaration has no keys of its own; its slots are fixed. -/
@[simp] theorem keys_declaration (d : Declaration) : (declaration d).keys = [] := rfl

/-- A node that loses a child has no new keys. -/
theorem keys_of_remove (h : n.remove c = .removed n') : n'.keys.Sublist n.keys := by
  cases n with
  | declaration d =>
    obtain ⟨d', -, rfl⟩ := Removal.map_eq_removed.mp h
    exact List.nil_sublist _
  | collection items =>
    simp only [remove] at h
    split at h
    · cases h
      exact List.nil_sublist _
    · cases h
  | expression e =>
    obtain ⟨e', he, rfl⟩ := Removal.map_eq_removed.mp h
    cases e with
    | object es =>
      simp only [Expression.remove] at he
      split at he
      · cases he
        exact List.eraseP_sublist.map _
      · cases he
    | literal l => cases he
    | list items =>
      simp only [Expression.remove] at he
      split at he
      · cases he
        exact List.nil_sublist _
      · cases he
    | call f =>
      obtain ⟨f', -, rfl⟩ := Removal.map_eq_removed.mp he
      exact List.nil_sublist _
    | condition d =>
      obtain ⟨d', -, rfl⟩ := Removal.map_eq_removed.mp he
      exact List.nil_sublist _

/-- What is appended to has no keys. -/
theorem keys_of_push? (h : n.push? c = some n') : n'.keys = [] := by
  unfold push? at h
  split at h
  · cases h
    rfl
  · cases h
    rfl
  · cases h

/-- Binding a reference leaves the keys of a node as they are. -/
@[simp] theorem keys_withTarget (n : Node) (target : Option NodeId) :
    (n.withTarget target).keys = n.keys := by
  cases n with
  | declaration d => rfl
  | collection items => rfl
  | expression e => cases e <;> rfl

/-- Renaming the children of a node leaves its keys as they are. -/
@[simp] theorem keys_mapChildren (n : Node) : (n.mapChildren f).keys = n.keys := by
  cases n with
  | declaration d => rfl
  | collection items => rfl
  | expression e =>
    cases e with
    | object es => simp [keys, mapChildren, Expression.mapChildren, Entries.keys]
    | _ => rfl

end Node

namespace Tree

variable {t u : Tree} {id x p c : NodeId} {n n' : Node} {es : Entries} {op : Operation}

/-- A node that stood in the tree before has its keys from there. -/
theorem KeysFrom.of_node? (hn : t.node? x = some n) : t.KeysFrom op n :=
  .kept hn (List.Sublist.refl _)

/-- A node that takes over or gives up a child keeps keys of its own, and others keep theirs. -/
theorem KeysFrom.move {q : Option NodeId} (hp : t.node? p = some n) (h : n'.keys.Sublist n.keys)
    {m : Node} (hm : (t.move p n' c q).node? x = some m) : t.KeysFrom op m := by
  rw [node?_move (lt_size_of_node? hp)] at hm
  split at hm
  · cases hm
    exact .kept hp h
  · exact .of_node? hm

/-- What is in the subtree at a node exists. -/
theorem Sound.lt_size_of_within (ht : t.Sound) (hid : id < t.size) (hx : t.Within id x) :
    x < t.size := by
  cases hp : t.parent? x with
  | none => exact (within_iff_of_root ht hp).mp hx ▸ hid
  | some p => exact lt_size_of_parent? hp

/-- A node that is added brings its keys with it. -/
theorem keysFrom_add {l : Location} (hx : (final (TreeM.add n' l t)).node? x = some n) :
    t.KeysFrom (.add n' l) n := by
  rcases TreeM.adoptable_or_error t n' l with ha | ⟨e, he⟩
  · have hadd := TreeM.add_of_adoptable (l := l) ha
    rw [hadd, final, node?_refreshSubtree] at hx
    by_cases hnew : x = t.size
    · rw [hnew, node?_append_self] at hx
      cases hx
      exact .added rfl hadd
    · rw [node?_append_of_ne hnew] at hx
      exact .of_node? hx
  · rw [he] at hx
    exact .of_node? hx

/-- What a declaration is given becomes no entry, and what it loses was none. -/
theorem Sound.keysFrom_setProperty (ht : t.Sound) {key : String} {value : Option NodeId}
    (hx : (final (TreeM.setProperty id key value t)).node? x = some n) : t.KeysFrom op n := by
  rcases TreeM.setProperty_cases t id key value with ⟨d, hid, hkey, ha⟩ | ⟨e, he⟩
  · rw [TreeM.setProperty_of_attachable ht hid hkey ha] at hx
    -- First the old value is let go, if there is one, and then the new one is taken.
    have hvacate {y : NodeId} {m : Node} (hm : (t.vacate id d key).node? y = some m) :
        t.KeysFrom op m := by
      cases hc : d.property? key with
      | none => exact .of_node? (vacate_of_none hc ▸ hm)
      | some c =>
        rw [vacate_of_some hc] at hm
        exact .move hid (by simp) hm
    cases value with
    | none => exact hvacate hx
    | some v =>
      rw [final, Tree.occupy, node?_move (lt_size_of_node? (node?_vacate hid))] at hx
      split at hx
      · cases hx
        exact .kept hid (List.nil_sublist _)
      · exact hvacate hx
  · rw [he] at hx
    exact .of_node? hx

/-- A child that is appended has no key. -/
theorem keysFrom_pushChild (hx : (final (TreeM.pushChild p c t)).node? x = some n) :
    t.KeysFrom op n := by
  rcases TreeM.pushChild_cases t p c with ⟨ha, m, m', hp, hpush⟩ | ⟨e, he⟩
  · rw [TreeM.pushChild_of_attachable ha hp hpush] at hx
    exact .move hp (by simp [Node.keys_of_push? hpush]) hx
  · rw [he] at hx
    exact .of_node? hx

/-- A key is inserted only where it is not yet. -/
theorem keysFrom_insertEntry {k : Key}
    (hx : (final (TreeM.insertEntry p k c t)).node? x = some n) : t.KeysFrom op n := by
  rcases TreeM.insertEntry_cases t p k c with ⟨ha, es, hp⟩ | ⟨e, he⟩
  · cases hk : es.contains k.text with
    | true =>
      rw [TreeM.insertEntry_of_contains ha hp hk] at hx
      exact .of_node? hx
    | false =>
      rw [TreeM.insertEntry_of_attachable ha hp hk, final, node?_move ha.owner] at hx
      split at hx
      · cases hx
        have hkeys : (Node.expression (.object (es ++ [(k, c)]))).keys
            = (Node.expression (.object es)).keys ++ [k.text] := by
          simp [Node.keys, Entries.keys]
        refine .inserted hp hkeys ?_
        simpa [Node.keys, Entries.keys, Entries.contains] using hk
      · exact .of_node? hx
  · rw [he] at hx
    exact .of_node? hx

/-- An object that loses a child loses its key and keeps the others. -/
theorem Sound.keysFrom_detach (ht : t.Sound)
    (hx : (final (TreeM.detach c t)).node? x = some n) : t.KeysFrom op n := by
  rcases TreeM.detach_cases ht c with ⟨p, m, m', hc, hp, hremove⟩ | ⟨-, -, hok⟩ | ⟨-, he⟩ |
    ⟨p, -, he⟩
  · rw [TreeM.detach_of_removed hc hp hremove] at hx
    exact .move hp (Node.keys_of_remove hremove) hx
  · rw [hok] at hx
    exact .of_node? hx
  · rw [he] at hx
    exact .of_node? hx
  · rw [he] at hx
    exact .of_node? hx

/-- In a tree that differs in targets only, keys are the same. -/
theorem SameButTargets.keysFrom (h : t.SameButTargets u) (hx : u.node? x = some n) :
    t.KeysFrom op n := by
  rw [h.node] at hx
  obtain ⟨m, hm, rfl⟩ := Option.map_eq_some_iff.mp hx
  exact .kept hm (by simp)

/-- A copy has the keys of the node that it is a copy of. -/
theorem Sound.keysFrom_copySubtree (ht : t.Sound) {root : NodeId}
    (hx : (final (TreeM.copySubtree root t)).node? x = some n) : t.KeysFrom op n := by
  by_cases hroot : root < t.size
  · obtain ⟨copy, u, f, hok, -, htu, hcopies, -⟩ := TreeM.copySubtree_faithful ht hroot
    rw [hok, final] at hx
    by_cases hold : x < t.size
    · exact .of_node? (htu.node x hold ▸ hx)
    · -- What is new is the copy of a node.
      have hnew := (hcopies.new x).mpr ⟨Nat.not_lt.mp hold, lt_size_of_node? hx⟩
      obtain ⟨y, hy, rfl⟩ := (hcopies.onto x).mp hnew
      obtain ⟨m, hm⟩ := node?_eq_some_iff_lt.mpr (ht.lt_size_of_within hroot hy)
      rw [hcopies.node y m hy hm] at hx
      cases hx
      exact .kept hm (by simp)
  · rw [TreeM.copySubtree_of_le (Nat.not_lt.mp hroot)] at hx
    exact .of_node? hx

/-- Keys come from nowhere but these places, whether or not the operation is refused. -/
theorem Sound.keysFrom (ht : t.Sound) (hx : (op.apply t).node? x = some n) :
    t.KeysFrom op n := by
  rw [Operation.apply] at hx
  cases op with
  | add n' l =>
    rw [Operation.perform, final_discard] at hx
    exact keysFrom_add hx
  | setProperty id key value =>
    rw [Operation.perform, final_discard] at hx
    exact ht.keysFrom_setProperty hx
  | pushChild p c => exact keysFrom_pushChild hx
  | insertEntry p k c =>
    rw [Operation.perform, final_discard] at hx
    exact keysFrom_insertEntry hx
  | detach c => exact ht.keysFrom_detach hx
  | setReference id target => exact (TreeM.sameButTargets_setReference t id target).keysFrom hx
  | copySubtree root =>
    rw [Operation.perform, final_discard] at hx
    exact ht.keysFrom_copySubtree hx
  | linkReferences root =>
    rw [Operation.perform, final_discard] at hx
    obtain ⟨u, hok, hsame, -⟩ := TreeM.linkReferences_ok root ht (SameButTargets.refl t) ht
    rw [hok] at hx
    exact hsame.keysFrom hx

/-! ## Runs -/

/-- No object of the tree has a key twice. -/
def KeysUnique (t : Tree) : Prop :=
  ∀ id es, t.node? id = some (.expression (.object es)) → es.keys.Nodup

/-- An operation keeps keys unique unless it adds an object that has one twice. -/
theorem KeysUnique.apply (h : t.KeysUnique) (ht : t.Sound)
    (hadd : ∀ es l id u, op = .add (.expression (.object es)) l →
      TreeM.add (.expression (.object es)) l t = .ok id u → es.keys.Nodup) :
    (op.apply t).KeysUnique := by
  intro x es hx
  have hunique {y : NodeId} {m : Node} (hm : t.node? y = some m) : m.keys.Nodup := by
    unfold Node.keys
    split
    · exact h _ _ hm
    · exact List.nodup_nil
  change (Node.expression (.object es)).keys.Nodup
  cases ht.keysFrom hx with
  | kept hm hsub => exact hsub.nodup (hunique hm)
  | inserted hm hkeys hkey =>
    rw [hkeys]
    simpa using (hunique hm).concat hkey
  | added hop hok => exact hadd _ _ _ _ hop hok

/-- The next state of a run is what its next operation makes of this one. -/
theorem after_take_succ (ops : List Operation) {k : Nat} (hop : ops[k]? = some op) :
    after (ops.take (k + 1)) = op.apply (after (ops.take k)) := by
  rw [List.take_add_one, hop]
  exact after_concat (ops.take k) op

/-- In every state of a run no object has a key twice exactly if each object that was added had none
twice. Every object is written as a mapping, in which each of its entries stands exactly if it has
no key twice; and then the mapping shows for each key what the object does. -/
theorem keys_unique (ops : List Operation) :
    ((∀ k, (after (ops.take k)).KeysUnique) ↔
      ∀ k es l, ops[k]? = some (.add (.expression (.object es)) l) →
        (∃ id u, TreeM.add (.expression (.object es)) l (after (ops.take k)) = .ok id u) →
        es.keys.Nodup) ∧
    ∀ id es w, (after ops).node? id = some (.expression (.object es)) →
      (after ops).write id = .ok w → ∃ ms, w = .mapping ms ∧
        (ms.map Prod.fst = es.keys ↔ es.keys.Nodup) ∧
        (es.keys.Nodup → ∀ key c, es.get? key = some c →
          ∃ w, (after ops).write c = .ok w ∧ ms.lookup key = some w) := by
  refine ⟨⟨fun h k es l hop hok => ?added, fun h k => ?run⟩, fun id es w hid hw => ?written⟩
  case added =>
    obtain ⟨id, u, hok⟩ := hok
    rcases TreeM.adoptable_or_error (after (ops.take k)) (.expression (.object es)) l with
      ha | ⟨e, he⟩
    · refine h (k + 1) (after (ops.take k)).size es ?_
      rw [after_take_succ ops hop, Operation.apply, Operation.perform, final_discard,
        TreeM.add_of_adoptable ha, final, node?_refreshSubtree, node?_append_self]
    · rw [he] at hok
      cases hok
  case run =>
    induction k with
    | zero => simp [KeysUnique, after, node?, entry?]
    | succ k ih =>
      cases hop : ops[k]? with
      | none =>
        have hle := List.getElem?_eq_none_iff.mp hop
        rwa [List.take_of_length_le (by omega), ← List.take_of_length_le hle]
      | some op =>
        rw [after_take_succ ops hop]
        refine ih.apply (sound_after _) fun es l id u hadd hok => ?_
        exact h k es l (hadd ▸ hop) ⟨id, u, hok⟩
  case written => exact (sound_after ops).write_object hid hw

/-- An object may be added with a key twice. Asked for the key it shows the first value, and it is
written with the second alone. -/
theorem keys_not_unique :
    let ops : List Operation := [.add (.expression (.literal (.string "a"))) default,
      .add (.expression (.literal (.string "b"))) default,
      .add (.expression (.object [(⟨"k", default⟩, 0), (⟨"k", default⟩, 1)])) default]
    let t := after ops
    ¬ t.KeysUnique ∧ ∃ es, t.node? 2 = some (.expression (.object es)) ∧ es.get? "k" = some 0 ∧
      t.write 0 = .ok (.text "a") ∧ t.write 2 = .ok (.mapping [("k", .text "b")]) := by
  intro ops t
  have hobject : t.node? 2
      = some (.expression (.object [(⟨"k", default⟩, 0), (⟨"k", default⟩, 1)])) := rfl
  refine ⟨fun h => ?_, _, hobject, rfl, rfl, rfl⟩
  exact absurd (h 2 _ hobject) (by decide)

end Tree

end InfraModule
