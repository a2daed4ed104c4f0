import InfraModule.Proofs.Resolve.Shape

/-!
# Resolving what was written

What an expression is written as resolves to the expression again. A term that a value means is
written as a value that means it, without a mistake (`restored_meaning`), and so is one that a value
means as a condition (`restored_conditionMeaning`); subtrees are written as their terms, and
resolving makes what a value means.
-/

namespace InfraModule

open Result BuildM Verdict

namespace Written

variable {key : String} {value : Written} {made entries : List (String × Written)}

/-- A new key comes at the end. -/
theorem setKey_of_notMem (h : key ∉ entries.map Prod.fst) :
    setKey key value entries = entries ++ [(key, value)] := by
  induction entries with
  | nil => rfl
  | cons entry entries ih =>
    obtain ⟨k, v⟩ := entry
    rw [List.map_cons, List.mem_cons, not_or] at h
    rw [setKey, if_neg (Ne.symm h.1), ih h.2, List.cons_append]

/-- Setting distinct keys keeps all of them in order. -/
theorem ofEntries_of_nodup (h : (entries.map Prod.fst).Nodup) :
    ofEntries entries = .mapping entries := by
  have hrun (made : List (String × Written)) (hmade : ((made ++ entries).map Prod.fst).Nodup) :
      entries.foldl (fun entries entry => setKey entry.1 entry.2 entries) made
        = made ++ entries := by
    clear h
    induction entries generalizing made with
    | nil => simp
    | cons entry entries ih =>
      obtain ⟨key, value⟩ := entry
      have hnew : key ∉ made.map Prod.fst := by
        rw [List.map_append, List.map_cons] at hmade
        exact fun hmem => (List.nodup_append.mp hmade).2.2 _ hmem _ List.mem_cons_self rfl
      rw [List.foldl_cons, setKey_of_notMem hnew, ih _ (by simpa using hmade)]
      simp
  exact congrArg mapping (hrun [] (by simpa using h))

end Written

namespace Term

variable {terms : List Term}

/-- A text is written as itself. -/
theorem written_text (text : String) : (Term.text text).written = .text text := rfl

/-- A list is written as the sequence of its items. -/
theorem written_list (terms : List Term) :
    (Term.list terms).written = .sequence (terms.map written) :=
  written_node ..

/-- An object with distinct keys is written as the mapping of its entries, in their order. -/
theorem written_object {entries : List (String × Term)} (h : (entries.map Prod.fst).Nodup) :
    (Term.object entries).written
      = .mapping (entries.map fun entry => (entry.1, entry.2.written)) := by
  have hzip : (entries.map Prod.fst).zip ((entries.map Prod.snd).map written)
      = entries.map fun entry => (entry.1, entry.2.written) := by
    simp [List.zip_map', List.map_map, Function.comp_def]
  rw [Term.object, written_node, Label.write, hzip, Written.ofEntries_of_nodup]
  simpa [List.map_map, Function.comp_def] using h

/-- A call is written with its tag before its operands. -/
theorem written_call (f : FunctionName) (terms : List Term) :
    (Term.call f terms).written = .tagged f.tag (f.writeOperands (terms.map written)) :=
  written_node ..

/-- A condition is written with its tag before its operands. -/
theorem written_condition (c : ConditionName) (terms : List Term) :
    (Term.condition c terms).written = .tagged c.tag (c.writeOperands (terms.map written)) :=
  written_node ..

end Term

/-- An operand as it is written in its role: the name alone of a condition that is only named. -/
def Role.write (w : Written) : Role → Written
  | .conditionName => w.conditionName
  | _ => w

/-- A function with a signature is written on its operands in their roles. -/
theorem FunctionName.writeOperands_of_signature {f : FunctionName} {roles : List Role}
    {ws : List Written} (hroles : f.signature = some roles) (hlength : roles.length = ws.length) :
    f.writeOperands ws = .sequence (List.zipWith (fun role w => role.write w) roles ws) := by
  cases f <;> cases hroles <;>
    match ws with
    | [] | [_] | [_, _] | [_, _, _] | _ :: _ :: _ :: _ :: _ => first | rfl | simp at hlength

namespace Resolve

variable {l : Location} {items : List RawValue} {entries : List (Key × RawValue)} {w : Written}
  {term : Term} {terms : List Term} {f : FunctionName}

/-! ## Values that mean what was written -/

/-- There is a value that is written so, and all values that are mean the term, without a
mistake. -/
structure Restored (read : RawValue → Verdict (Option Term)) (w : Written) (term : Term) :
    Prop where
  /-- Some value is written so. -/
  exists_written : ∃ r : RawValue, r.written = w
  /-- Every value that is written so means the term. -/
  read_eq : ∀ r : RawValue, r.written = w → read r = pure (some term)

/-- The term is what its own writing means as a value. -/
abbrev RestoredValue (term : Term) : Prop :=
  Restored meaning term.written term

/-- Each of some writings stands for a value. -/
theorem exists_written_all {ws : List Written}
    (h : ∀ w ∈ ws, ∃ r : RawValue, r.written = w) :
    ∃ items : List RawValue, items.map RawValue.written = ws := by
  induction ws with
  | nil => exact ⟨[], rfl⟩
  | cons w ws ih =>
    obtain ⟨hw, hws⟩ := List.forall_mem_cons.mp h
    obtain ⟨r, rfl⟩ := hw
    obtain ⟨items, rfl⟩ := ih hws
    exact ⟨r :: items, rfl⟩

/-- Each of some written entries stands for an entry. -/
theorem exists_written_entries {ws : List (String × Written)}
    (h : ∀ entry ∈ ws, ∃ r : RawValue, r.written = entry.2) :
    ∃ entries : List (Key × RawValue),
      entries.map (fun entry => (entry.1.text, entry.2.written)) = ws := by
  induction ws with
  | nil => exact ⟨[], rfl⟩
  | cons entry ws ih =>
    obtain ⟨⟨r, hr⟩, hws⟩ := List.forall_mem_cons.mp h
    obtain ⟨entries, rfl⟩ := ih hws
    exact ⟨(⟨entry.1, default⟩, r) :: entries, congrArg (· :: _) (Prod.ext rfl hr)⟩

/-- Items that are written as restored terms mean these terms. -/
theorem itemMeanings_of_restored (h : ∀ t ∈ terms, RestoredValue t)
    (hitems : items.map RawValue.written = terms.map Term.written) :
    itemMeanings items = pure terms := by
  induction terms generalizing items with
  | nil =>
    obtain rfl := List.map_eq_nil_iff.mp hitems
    rw [itemMeanings]
  | cons t terms ih =>
    obtain ⟨ht, hterms⟩ := List.forall_mem_cons.mp h
    obtain ⟨item, items, rfl, hitem, hitems⟩ := List.map_eq_cons_iff.mp hitems
    rw [itemMeanings, ht.read_eq item hitem, ih hterms hitems]
    rfl

/-- Objects with distinct keys none of which was seen before. -/
theorem entryMeanings_of_restored {made : List (String × Term)} {seen : List String}
    (h : ∀ entry ∈ made, RestoredValue entry.2) (hnodup : (made.map Prod.fst).Nodup)
    (hseen : ∀ key ∈ made.map Prod.fst, key ∉ seen)
    (hentries : entries.map (fun entry => (entry.1.text, entry.2.written))
      = made.map fun entry => (entry.1, entry.2.written)) :
    entryMeanings seen entries = pure made := by
  induction made generalizing entries seen with
  | nil =>
    obtain rfl := List.map_eq_nil_iff.mp hentries
    rw [entryMeanings]
  | cons entry made ih =>
    obtain ⟨hentry, hmade⟩ := List.forall_mem_cons.mp h
    obtain ⟨⟨key, item⟩, entries, rfl, hpair, hentries⟩ := List.map_eq_cons_iff.mp hentries
    obtain ⟨hkey, hitem⟩ := Prod.mk.inj hpair
    obtain ⟨hnew, hnodup⟩ := List.nodup_cons.mp hnodup
    obtain ⟨hunseen, hseen⟩ := List.forall_mem_cons.mp hseen
    have hrest : entryMeanings (key.text :: seen) entries = pure made := by
      refine ih hmade hnodup (fun k hk hmem => ?_) hentries
      rcases List.mem_cons.mp hmem with rfl | hmem
      · exact hnew (hkey ▸ hk)
      · exact hseen k hk hmem
    dsimp only at hkey
    rw [entryMeanings, if_neg (hkey ▸ hunseen), hentry.read_eq item hitem, hrest, hkey]
    rfl

/-- What a scalar under a tag means is restored where it means the same at every place. -/
theorem restored_scalar {read : RawValue → Verdict (Option Term)} (tag : Option String)
    {text : String} (h : ∀ l, read (.scalar tag l text) = pure (some term)) :
    Restored read (.under tag (.text text)) term where
  exists_written := ⟨.scalar tag default text, rfl⟩
  read_eq := by
    intro r hr
    obtain ⟨l, rfl⟩ := (RawValue.written_eq_text tag).mp hr
    exact h l

/-- What a sequence under a tag means is restored where its meaning is made of its items. -/
theorem restored_sequence {read : RawValue → Verdict (Option Term)} (tag : Option String)
    {ws : List Written} (hws : ∀ w ∈ ws, ∃ r : RawValue, r.written = w)
    (h : ∀ l items, items.map RawValue.written = ws →
      read (.sequence tag l items) = pure (some term)) :
    Restored read (.under tag (.sequence ws)) term where
  exists_written := by
    obtain ⟨items, hitems⟩ := exists_written_all hws
    exact ⟨.sequence tag default items, (RawValue.written_eq_sequence tag).mpr ⟨_, _, rfl, hitems⟩⟩
  read_eq := by
    intro r hr
    obtain ⟨l, items, rfl, hitems⟩ := (RawValue.written_eq_sequence tag).mp hr
    exact h l items hitems

/-- What a mapping under a tag means is restored where its meaning is made of its entries. -/
theorem restored_mapping {read : RawValue → Verdict (Option Term)} (tag : Option String)
    {ws : List (String × Written)} (hws : ∀ entry ∈ ws, ∃ r : RawValue, r.written = entry.2)
    (h : ∀ l entries, entries.map (fun entry => (entry.1.text, entry.2.written)) = ws →
      read (.mapping tag l entries) = pure (some term)) :
    Restored read (.under tag (.mapping ws)) term where
  exists_written := by
    obtain ⟨entries, hentries⟩ := exists_written_entries hws
    exact ⟨.mapping tag default entries,
      (RawValue.written_eq_mapping tag).mpr ⟨_, _, rfl, hentries⟩⟩
  read_eq := by
    intro r hr
    obtain ⟨l, entries, rfl, hentries⟩ := (RawValue.written_eq_mapping tag).mp hr
    exact h l entries hentries

/-- A text means itself again. -/
theorem restored_text (text : String) : RestoredValue (.text text) :=
  restored_scalar none fun _ => rfl

/-! ## Lists and objects, also under a tag that takes any value -/

/-- A list is restored, and so is a call on it. -/
theorem restored_list {read : RawValue → Verdict (Option Term)} (tag : Option String)
    (around : Term → Term)
    (hread : ∀ l items, read (.sequence tag l items) = do
      return some (around (.list (← itemMeanings items))))
    (h : ∀ t ∈ terms, RestoredValue t) :
    Restored read (.under tag (Term.list terms).written) (around (.list terms)) := by
  rw [Term.written_list]
  refine restored_sequence tag (fun w hw => ?_) fun l items hitems => ?_
  · obtain ⟨t, ht, rfl⟩ := List.mem_map.mp hw
    exact (h t ht).exists_written
  · rw [hread, itemMeanings_of_restored h hitems]
    rfl

/-- An object with distinct keys is restored, and so is a call on it. -/
theorem restored_object {read : RawValue → Verdict (Option Term)} (tag : Option String)
    (around : Term → Term) {made : List (String × Term)}
    (hread : ∀ l entries, read (.mapping tag l entries) = do
      return some (around (.object (← entryMeanings [] entries))))
    (h : ∀ entry ∈ made, RestoredValue entry.2) (hnodup : (made.map Prod.fst).Nodup) :
    Restored read (.under tag (Term.object made).written) (around (.object made)) := by
  rw [Term.written_object hnodup]
  refine restored_mapping tag (fun entry hentry => ?_) fun l entries hentries => ?_
  · obtain ⟨made, hmade, rfl⟩ := List.mem_map.mp hentry
    exact (h made hmade).exists_written
  · rw [hread, entryMeanings_of_restored h hnodup (by simp) hentries]
    rfl

/-! ## Calls -/

/-- The term is what its writing in a role means in that role. -/
abbrev RestoredOperand (role : Role) (term : Term) : Prop :=
  ∀ tag, Restored (operandMeaning tag (some role)) (role.write term.written) term

/-- Operands as they are written in their roles are those of some value. -/
theorem exists_written_of_mem_zipWith {roles : List Role}
    (h : List.Forall₂ RestoredOperand roles terms) :
    ∀ w ∈ List.zipWith (fun role w => role.write w) roles (terms.map Term.written),
      ∃ r : RawValue, r.written = w := by
  induction h with
  | nil => simp
  | cons ht hterms ih => exact List.forall_mem_cons.mpr ⟨(ht "").exists_written, ih⟩

/-- Operands that are written as restored terms in their roles mean these terms. -/
theorem operandMeanings_of_restored {roles : List Role}
    (h : List.Forall₂ RestoredOperand roles terms) (tag : String)
    (hitems : items.map RawValue.written
      = List.zipWith (fun role w => role.write w) roles (terms.map Term.written)) :
    operandMeanings tag roles items = pure (some terms) := by
  induction h generalizing items with
  | nil =>
    obtain rfl := List.map_eq_nil_iff.mp hitems
    rw [operandMeanings]
  | cons ht hterms ih =>
    obtain ⟨item, items, rfl, hitem, hitems⟩ := List.map_eq_cons_iff.mp hitems
    rw [operandMeanings_cons]
    dsimp only [List.head?_cons, List.tail_cons]
    rw [(ht tag).read_eq item hitem, pure_bind]
    dsimp only
    rw [ih hitems]
    rfl

/-- A call with restored operands is restored. -/
theorem restored_call {roles : List Role} (hroles : f.signature = some roles)
    (h : List.Forall₂ RestoredOperand roles terms) : RestoredValue (.call f terms) := by
  have hany : f.ofAnyValue? = none := by cases f <;> first | rfl | cases hroles
  have hlength := h.length_eq
  rw [RestoredValue, Term.written_call,
    FunctionName.writeOperands_of_signature hroles (by simpa using hlength)]
  refine restored_sequence (some f.tag) (exists_written_of_mem_zipWith h) fun l items hitems => ?_
  have hcount : roles.length = items.length := by
    have hboth := congrArg List.length hitems
    simp only [List.length_map, List.length_zipWith] at hboth
    omega
  rw [meaning]
  simp only [FunctionName.ofTag?_tag, hany, hroles]
  rw [if_neg (not_not.mpr hcount), operandMeanings_of_restored h f.tag hitems]
  rfl

/-! ## Values -/

/-- The operand of a function that takes any value stands alone under its tag. -/
theorem written_ofAnyValue {call : NodeId → Call} (hcall : f.ofAnyValue? = some call)
    (term : Term) : (Term.call f [term]).written = .under (some f.tag) term.written := by
  rw [Term.written_call]
  cases f <;> first | rfl | cases hcall

/-- What a function on a scalar means is restored. -/
theorem restored_of_scalarMeaning {text : String}
    (h : (scalarMeaning f l text).answer = some term) : RestoredValue term := by
  cases f with
  | getAtt =>
    cases h
    exact restored_call rfl (.cons (fun _ => restored_scalar none fun _ => rfl)
      (.cons (fun _ => restored_text _) .nil))
  | base64 | getAzs | importValue | sub | ref =>
    cases h
    exact restored_scalar (some _) fun _ => rfl
  | _ => cases h

/-- What an operand means as a text is restored. -/
theorem restored_of_textMeaning {tag : String} {r : RawValue}
    (h : (textMeaning tag r).answer = some term) : RestoredOperand .text term := by
  match r with
  | .scalar none .. =>
    cases h
    exact fun tag => restored_scalar none fun _ => rfl
  | .scalar (some _) .. | .sequence .. | .mapping .. => cases h

/-- What an operand means as the name of a condition is restored. -/
theorem restored_of_nameMeaning {tag : String} {r : RawValue}
    (h : (nameMeaning tag r).answer = some term) : RestoredOperand .conditionName term := by
  match r with
  | .scalar none .. =>
    cases h
    exact fun tag => restored_scalar none fun _ => rfl
  | .scalar (some _) .. | .sequence .. | .mapping .. => cases h

/-- The keys of an object are distinct, and were not seen before. -/
theorem nodup_entryMeanings (seen : List String) (entries : List (Key × RawValue)) :
    ((entryMeanings seen entries).answer.map Prod.fst).Nodup ∧
      ∀ key ∈ (entryMeanings seen entries).answer.map Prod.fst, key ∉ seen := by
  induction entries generalizing seen with
  | nil => exact ⟨List.nodup_nil, by simp [entryMeanings]⟩
  | cons entry entries ih =>
    obtain ⟨key, item⟩ := entry
    rw [entryMeanings]
    split
    · exact ih seen
    · next hkey =>
      obtain ⟨hnodup, hnew⟩ := ih (key.text :: seen)
      have hold : ∀ k ∈ (entryMeanings (key.text :: seen) entries).answer.map Prod.fst, k ∉ seen :=
        fun k hk hmem => hnew k hk (List.mem_cons_of_mem _ hmem)
      cases hanswer : (meaning item).answer with
      | none => simpa [hanswer] using ⟨hnodup, by simpa using hold⟩
      | some term =>
        have hfirst : key.text ∉ (entryMeanings (key.text :: seen) entries).answer.map Prod.fst :=
          fun hmem => hnew _ hmem List.mem_cons_self
        simp only [answer_bind, hanswer, answer_pure, Option.map_some, Option.toList_some,
          List.singleton_append, List.map_cons]
        exact ⟨List.nodup_cons.mpr ⟨hfirst, hnodup⟩, List.forall_mem_cons.mpr ⟨hkey, hold⟩⟩

/-- `!Transform` is restored, its name first. -/
theorem restored_transform {name : String} {made : List (String × Term)}
    (h : ∀ entry ∈ made, RestoredValue entry.2) (hnodup : (made.map Prod.fst).Nodup) :
    RestoredValue (.call .transform [.text name, .object made]) := by
  have hname := restored_text name
  have hobject : RestoredValue (.object made) := restored_object none id (fun _ _ => rfl) h hnodup
  rw [RestoredValue, Term.written_call]
  refine restored_mapping (some _) (List.forall_mem_cons.mpr ⟨hname.exists_written,
    List.forall_mem_singleton.mpr hobject.exists_written⟩) fun l entries hentries => ?_
  obtain ⟨⟨key, first⟩, rest, rfl, hfirst, hrest⟩ := List.map_eq_cons_iff.mp hentries
  obtain ⟨⟨key', second⟩, rest', rfl, hsecond, hrest'⟩ := List.map_eq_cons_iff.mp hrest
  obtain rfl := List.map_eq_nil_iff.mp hrest'
  rw [Prod.mk.injEq, Term.written_text] at hfirst
  rw [Prod.mk.injEq, Term.written_object hnodup] at hsecond
  obtain ⟨hkey, hfirst⟩ := hfirst
  obtain ⟨hkey', hsecond⟩ := hsecond
  dsimp only at hkey hkey'
  obtain ⟨l₁, rfl⟩ := (RawValue.written_eq_text none).mp hfirst
  obtain ⟨l₂, parameters, rfl, hparameters⟩ := (RawValue.written_eq_mapping none).mp hsecond
  have hfirstName : firstEntry? "Name" [(key, .scalar none l₁ name),
      (key', .mapping none l₂ parameters)] = some (.scalar none l₁ name) := by
    rw [firstEntry?_cons, if_pos hkey]
  have hfirstParameters : firstEntry? "Parameters" [(key, .scalar none l₁ name),
      (key', .mapping none l₂ parameters)] = some (.mapping none l₂ parameters) := by
    rw [firstEntry?_cons, if_neg (by rw [hkey]; decide), firstEntry?_cons, if_pos hkey']
  have hchecked : transformName l [(key, .scalar none l₁ name),
      (key', .mapping none l₂ parameters)] = pure (some name) := by
    rw [transformName, hfirstName, hfirstParameters]
    rfl
  rw [meaning]
  simp only [FunctionName.ofTag?_tag]
  rw [hchecked, parametersMeaning_of_mapping hfirstParameters,
    entryMeanings_of_restored h hnodup (by simp) hparameters]
  rfl

/-- What values mean is restored, wherever they stand. -/
def RestoredMeaning (r : RawValue) : Prop :=
  ∀ term, (meaning r).answer = some term → RestoredValue term

/-- What items mean is restored if what each means is. -/
theorem restored_itemMeanings (h : ∀ r ∈ items, RestoredMeaning r) :
    ∀ t ∈ (itemMeanings items).answer, RestoredValue t := by
  induction items with
  | nil => simp [itemMeanings]
  | cons item items ih =>
    obtain ⟨hitem, hitems⟩ := List.forall_mem_cons.mp h
    rw [itemMeanings]
    refine List.forall_mem_append.mpr ⟨fun t ht => ?_, ih hitems⟩
    exact hitem t (Option.mem_toList.mp ht)

/-- What entries mean is restored if what each value means is. -/
theorem restored_entryMeanings (h : ∀ entry ∈ entries, RestoredMeaning entry.2)
    (seen : List String) : ∀ entry ∈ (entryMeanings seen entries).answer,
      RestoredValue entry.2 := by
  induction entries generalizing seen with
  | nil => simp [entryMeanings]
  | cons entry entries ih =>
    obtain ⟨key, item⟩ := entry
    obtain ⟨hitem, hentries⟩ := List.forall_mem_cons.mp h
    rw [entryMeanings]
    split
    · exact ih hentries seen
    · refine List.forall_mem_append.mpr ⟨fun made hmade => ?_, ih hentries _⟩
      obtain ⟨term, hterm, rfl⟩ := Option.map_eq_some_iff.mp (Option.mem_toList.mp hmade)
      exact hitem term hterm

/-- The object of a mapping is restored, and so is a call on it. -/
theorem restored_mapping_object {read : RawValue → Verdict (Option Term)}
    (h : ∀ entry ∈ entries, RestoredMeaning entry.2) (tag : Option String) (around : Term → Term)
    (hread : ∀ l entries, read (.mapping tag l entries) = do
      return some (around (.object (← entryMeanings [] entries)))) :
    Restored read (.under tag (Term.object (entryMeanings [] entries).answer).written)
      (around (.object (entryMeanings [] entries).answer)) :=
  restored_object tag around hread (restored_entryMeanings h []) (nodup_entryMeanings [] entries).1

/-- What an operand means in its role is restored in that role. -/
theorem restored_operandMeaning {r : RawValue} (h : RestoredMeaning r)
    (hentries : ∀ tag l entries, r = .mapping tag l entries →
      ∀ entry ∈ entries, RestoredMeaning entry.2) (tag : String) (role : Role) (term : Term)
    (hterm : (operandMeaning tag (some role) r).answer = some term) :
    RestoredOperand role term := by
  match role, r with
  | .value, _ => exact fun _ => h term hterm
  | .text, _ => exact restored_of_textMeaning hterm
  | .conditionName, _ => exact restored_of_nameMeaning hterm
  | .parameters, .mapping none l entries =>
    cases hterm
    exact fun tag => restored_mapping_object (hentries _ _ _ rfl) none id fun _ _ => rfl
  | .parameters, .mapping (some _) .. | .parameters, .scalar .. | .parameters, .sequence .. =>
    cases hterm

/-- What operands mean in their roles is restored in these roles. -/
theorem restored_operandMeanings {tag : String} {roles : List Role}
    (h : ∀ r ∈ items, ∀ role term, (operandMeaning tag (some role) r).answer = some term →
      RestoredOperand role term) (hlength : roles.length = items.length)
    (hterms : (operandMeanings tag roles items).answer = some terms) :
    List.Forall₂ RestoredOperand roles terms := by
  induction items generalizing roles terms with
  | nil =>
    obtain rfl := List.eq_nil_of_length_eq_zero hlength
    rw [operandMeanings] at hterms
    cases hterms
    exact .nil
  | cons item items ih =>
    obtain ⟨role, roles, rfl⟩ := List.exists_cons_of_length_eq_add_one hlength
    obtain ⟨hitem, hitems⟩ := List.forall_mem_cons.mp h
    rw [operandMeanings_cons] at hterms
    cases hanswer : (operandMeaning tag (some role) item).answer with
    | none => simp [hanswer] at hterms
    | some term =>
      simp only [answer_bind, List.head?_cons, hanswer] at hterms
      obtain ⟨others, hothers, rfl⟩ := Option.map_eq_some_iff.mp hterms
      exact .cons (hitem role term hanswer) (ih hitems (by simpa using hlength) hothers)

/-- What a value means is restored. -/
theorem restored_meaning (r : RawValue) : RestoredMeaning r := by
  -- Under `!Transform` the parameters are read entry by entry, so the entries of a mapping are
  -- carried along with what it means.
  suffices RestoredMeaning r ∧ ∀ tag l entries, r = .mapping tag l entries →
    ∀ entry ∈ entries, RestoredMeaning entry.2 from this.1
  induction r using RawValue.induction with
  | scalar tag l text =>
    refine ⟨fun term h => ?_, by rintro _ _ _ ⟨⟩⟩
    cases tag with
    | none =>
      cases h
      exact restored_text text
    | some tag =>
      obtain ⟨f, -, hf⟩ := meaning_scalar_eq_some h
      exact restored_of_scalarMeaning hf
  | sequence tag l items ih =>
    refine ⟨fun term h => ?_, by rintro _ _ _ ⟨⟩⟩
    have hitems := restored_itemMeanings fun r hr => (ih r hr).1
    cases tag with
    | none =>
      cases h
      exact restored_list none id (fun _ _ => rfl) hitems
    | some tag =>
      obtain ⟨f, rfl, ⟨call, hany, rfl⟩ | ⟨roles, terms, hroles, hlength, hterms, rfl⟩⟩ :=
        meaning_sequence_eq_some h
      · rw [RestoredValue, written_ofAnyValue hany]
        refine restored_list (some f.tag) (fun t => .call f [t]) (fun l items => ?_) hitems
        rw [meaning]
        simp only [FunctionName.ofTag?_tag, hany]
      · refine restored_call hroles (restored_operandMeanings (fun r hr => ?_) hlength hterms)
        exact restored_operandMeaning (ih r hr).1 (ih r hr).2 f.tag
  | mapping tag l entries ih =>
    have hentries : ∀ entry ∈ entries, RestoredMeaning entry.2 := fun entry hentry =>
      (ih entry hentry).1
    refine ⟨fun term h => ?_, fun tag' l' entries' h => by cases h; exact hentries⟩
    cases tag with
    | none =>
      cases h
      exact restored_mapping_object hentries none id fun _ _ => rfl
    | some tag =>
      obtain ⟨f, rfl, ⟨call, hany, rfl⟩ | ⟨rfl, name, terms, hname, hterms, rfl⟩⟩ :=
        meaning_mapping_eq_some h
      · rw [RestoredValue, written_ofAnyValue hany]
        refine restored_mapping_object hentries (some f.tag) (fun t => .call f [t]) fun l items => ?_
        rw [meaning]
        cases f <;> first | rfl | cases hany
      · obtain ⟨-, l', parameters, hparameters⟩ := transformName_eq_some_iff.mp hname
        obtain ⟨entry, hentry, heq⟩ := mem_entries_of_first hparameters
        have hvalues := (ih entry hentry).2 _ _ _ heq
        rw [parametersMeaning_of_mapping hparameters] at hterms
        cases hterms
        exact restored_transform (restored_entryMeanings hvalues [])
          (nodup_entryMeanings [] parameters).1

/-! ## Conditions -/

/-- The term is what its own writing means as a condition. -/
abbrev RestoredCondition (term : Term) : Prop :=
  Restored conditionMeaning term.written term

/-- Conditions that are written as restored terms mean these terms. -/
theorem conditionMeanings_of_restored (h : ∀ t ∈ terms, RestoredCondition t)
    (hitems : items.map RawValue.written = terms.map Term.written) :
    conditionMeanings items = pure (some terms) := by
  induction terms generalizing items with
  | nil =>
    obtain rfl := List.map_eq_nil_iff.mp hitems
    rw [conditionMeanings]
  | cons t terms ih =>
    obtain ⟨ht, hterms⟩ := List.forall_mem_cons.mp h
    obtain ⟨item, items, rfl, hitem, hitems⟩ := List.map_eq_cons_iff.mp hitems
    rw [conditionMeanings, ht.read_eq item hitem, pure_bind]
    dsimp only
    rw [ih hterms hitems]
    rfl

/-- What conditions mean is restored, and there are as many of them. -/
theorem restored_conditionMeanings
    (h : ∀ r ∈ items, ∀ term, (conditionMeaning r).answer = some term → RestoredCondition term)
    (hterms : (conditionMeanings items).answer = some terms) :
    terms.length = items.length ∧ ∀ t ∈ terms, RestoredCondition t := by
  induction items generalizing terms with
  | nil =>
    cases hterms
    exact ⟨rfl, by simp⟩
  | cons item items ih =>
    obtain ⟨hitem, hitems⟩ := List.forall_mem_cons.mp h
    rw [conditionMeanings] at hterms
    cases hanswer : (conditionMeaning item).answer with
    | none => simp [hanswer] at hterms
    | some term =>
      simp only [answer_bind, hanswer] at hterms
      obtain ⟨others, hothers, rfl⟩ := Option.map_eq_some_iff.mp hterms
      obtain ⟨hlength, hrestored⟩ := ih hitems hothers
      exact ⟨by simp [hlength], List.forall_mem_cons.mpr ⟨hitem term hanswer, hrestored⟩⟩

/-- `!And` and `!Or` over as many restored conditions as they may have are restored. -/
theorem restored_connective {c : ConditionName}
    (hwrite : ∀ ws, c.writeOperands ws = .sequence ws)
    (hmeaning : ∀ l items, conditionMeaning (.sequence (some c.tag) l items)
      = connectiveMeaning c c.tag l items.length (conditionMeanings items))
    (hmin : 2 ≤ terms.length) (hmax : terms.length ≤ 10)
    (h : ∀ t ∈ terms, RestoredCondition t) : RestoredCondition (.condition c terms) := by
  rw [RestoredCondition, Term.written_condition, hwrite]
  refine restored_sequence (some c.tag) (fun w hw => ?_) fun l items hitems => ?_
  · obtain ⟨t, ht, rfl⟩ := List.mem_map.mp hw
    exact (h t ht).exists_written
  · have hcount : terms.length = items.length := by
      simpa using (congrArg List.length hitems).symm
    rw [hmeaning, connectiveMeaning, if_neg, conditionMeanings_of_restored h hitems]
    · rfl
    · unfold minConditionOperands maxConditionOperands
      omega

/-- A negation is restored if what it negates is. -/
theorem restored_not (h : RestoredCondition term) : RestoredCondition (.condition .not [term]) := by
  rw [RestoredCondition, Term.written_condition]
  refine restored_sequence (some _) (List.forall_mem_singleton.mpr h.exists_written)
    fun l items hitems => ?_
  obtain ⟨r, rest, rfl, hr, hrest⟩ := List.map_eq_cons_iff.mp hitems
  obtain rfl := List.map_eq_nil_iff.mp hrest
  rw [conditionMeaning_not, h.read_eq r hr]
  rfl

/-- A comparison is restored if both sides are. -/
theorem restored_equals {left right : Term} (hleft : RestoredValue left)
    (hright : RestoredValue right) : RestoredCondition (.condition .equals [left, right]) := by
  rw [RestoredCondition, Term.written_condition]
  refine restored_sequence (some _) (List.forall_mem_cons.mpr ⟨hleft.exists_written,
    List.forall_mem_singleton.mpr hright.exists_written⟩) fun l items hitems => ?_
  obtain ⟨a, rest, rfl, ha, hrest⟩ := List.map_eq_cons_iff.mp hitems
  obtain ⟨b, rest', rfl, hb, hrest'⟩ := List.map_eq_cons_iff.mp hrest
  obtain rfl := List.map_eq_nil_iff.mp hrest'
  rw [conditionMeaning_equals, hleft.read_eq a ha, hright.read_eq b hb]
  rfl

/-- What a value means as a condition is restored. -/
theorem restored_conditionMeaning (r : RawValue) :
    ∀ term, (conditionMeaning r).answer = some term → RestoredCondition term := by
  induction r using RawValue.induction with
  | scalar tag l text =>
    intro term h
    have hnamed : RestoredCondition (.named text) := restored_scalar (some _) fun _ => rfl
    cases tag with
    | none =>
      cases h
      exact hnamed
    | some tag =>
      obtain ⟨-, rfl⟩ | ⟨-, rfl⟩ := conditionMeaning_scalar_eq_some h
      · exact hnamed
      · exact restored_scalar (some _) fun _ => rfl
  | sequence tag l items ih =>
    intro term h
    obtain ⟨c, -, hc, hmin, hmax, terms, hterms, rfl⟩ | ⟨-, a, operand, rfl, ha, rfl⟩ |
      ⟨-, a, b, left, right, -, ha, hb, rfl⟩ := conditionMeaning_sequence_eq_some h
    · obtain ⟨hlength, hrestored⟩ := restored_conditionMeanings ih hterms
      rw [← hlength] at hmin hmax
      rcases hc with rfl | rfl
      · exact restored_connective (fun _ => rfl) (fun _ _ => rfl) hmin hmax hrestored
      · exact restored_connective (fun _ => rfl) (fun _ _ => rfl) hmin hmax hrestored
    · exact restored_not (ih a List.mem_cons_self operand ha)
    · exact restored_equals (restored_meaning a left ha) (restored_meaning b right hb)
  | mapping tag l entries ih =>
    intro term h
    rw [answer_conditionMeaning_mapping] at h
    cases h

/-! ## Nodes that were written -/

/-- Whatever node the resolver gives, what the node is written as is written for some value; and
every such value, resolved again in any sound tree, gives a node of the same term and reports
nothing. -/
def Restores (resolve : RawValue → BuildM (Option NodeId)) (b : Build) (r : RawValue) : Prop :=
  ∀ id b', resolve r b = .ok (some id) b' → b'.tree.Sound ∧ ∃ w, b'.tree.write id = .ok w ∧
    (∃ r' : RawValue, r'.written = w) ∧
    ∀ r' : RawValue, r'.written = w → ∀ b₁ : Build, b₁.tree.Sound → ∃ id' b₁',
      resolve r' b₁ = .ok (some id') b₁' ∧ b₁'.diagnostics = b₁.diagnostics ∧
      ∃ term, b'.tree.Denotes term id ∧ b₁'.tree.Denotes term id'

/-- A resolver that makes what values mean restores what the meaning restores. -/
theorem restores_of_conveys {resolve : RawValue → BuildM (Option NodeId)}
    {P : Tree → NodeId → Prop} {read : RawValue → Verdict (Option Term)} {b : Build} {r : RawValue}
    (h : ∀ r, Conveys (resolve r) P (read r)) (hb : b.tree.Sound)
    (hrestored : ∀ term, (read r).answer = some term → Restored read term.written term) :
    Restores resolve b r := by
  intro id b' hresolve
  have hconveyed := (h r b hb).of_ok hresolve
  obtain ⟨term, hterm⟩ : ∃ term, (read r).answer = some term := by
    cases hanswer : (read r).answer with
    | none => cases hconveyed.none_of hanswer
    | some term => exact ⟨term, rfl⟩
  obtain ⟨id', hid, hdenotes, -, hmade⟩ := hconveyed.some_of hterm
  cases hid
  obtain ⟨hexists, hread⟩ := hrestored term hterm
  refine ⟨hmade.sound, term.written, hdenotes.write_eq hmade.sound, hexists, ?_⟩
  intro r' hr' b₁ hb₁
  obtain ⟨given, b₁', hresolve', hconveyed'⟩ := Post.exists_ok (h r' b₁ hb₁) fun _ _ hno => hno
  rw [hread r' hr'] at hconveyed'
  obtain ⟨id', rfl, hdenotes', -⟩ := hconveyed'.some_of rfl
  refine ⟨id', b₁', hresolve', Diagnostics.ext_toList ?_, term, hdenotes, hdenotes'⟩
  simpa [Build.Told] using hconveyed'.told

/-- In whatever tree operations have built, what a value or a condition resolves to can be written,
and what is written resolves to the same term again. -/
theorem written_restored (ops : List Operation) (diagnostics : Diagnostics) (r : RawValue) :
    Restores value ⟨Tree.after ops, diagnostics⟩ r ∧
      Restores condition ⟨Tree.after ops, diagnostics⟩ r :=
  ⟨restores_of_conveys conveys_value (Tree.sound_after ops) (restored_meaning r),
    restores_of_conveys conveys_condition (Tree.sound_after ops) (restored_conditionMeaning r)⟩

/-- A call that is read from one text is written with two, and resolves again. -/
theorem getAtt_restored :
    let r := RawValue.scalar (some "!GetAtt") default "Queue.Arn"
    ∃ id b, value r ⟨Tree.after [], {}⟩ = .ok (some id) b ∧ ∃ w, b.tree.write id = .ok w ∧
      (∃ r' : RawValue, r'.written = w) ∧ ∀ r' : RawValue, r'.written = w → ∃ id' b',
        value r' b = .ok (some id') b' ∧ b'.diagnostics = b.diagnostics := by
  intro r
  obtain ⟨id, b, h⟩ : ∃ id b, value r ⟨Tree.after [], {}⟩ = .ok (some id) b := ⟨_, _, rfl⟩
  obtain ⟨hsound, w, hw, hexists, hagain⟩ := (written_restored [] {} r).1 id b h
  refine ⟨id, b, h, w, hw, hexists, fun r' hr' => ?_⟩
  obtain ⟨id', b', hresolve, hsilent, -⟩ := hagain r' hr' b hsound
  exact ⟨id', b', hresolve, hsilent⟩

end Resolve

end InfraModule
