import Mathlib.Data.List.TakeWhile
import Mathlib.Data.Nat.Digits.Defs
import InfraModule.Text.Blank
import InfraModule.Text.Integer

/-!
# Numerals

A numeral is a sign, which may be missing, and at least one ASCII digit; `Numeral cs n` says that
the characters are one that denotes `n`, and `Denotes text n` that a text is one with blanks around
it. Such a text is read, if the number fits in 64 bits, and no other
(`Text.Integer.read?_trim_eq_some_iff`). What is written is the decimal of the number without a plus
sign and without leading zeros (`Text.Integer.write_eq_toString`), which is itself a numeral without
blanks, so that it is read as the same number (`Text.Integer.read?_write`).
-/

namespace InfraModule.Text

variable {before core after cs : List Char}

/-! ## Trimming -/

/-- Nothing is trimmed where no blank stands. -/
theorem dropWhile_isBlank_of_forall (h : ∀ c ∈ cs, isBlank c = false) :
    cs.dropWhile isBlank = cs := by
  cases cs with
  | nil => rfl
  | cons c cs => exact List.dropWhile_cons_of_neg (by simp [h c])

/-- Blanks around characters that are none are taken away. -/
theorem trimChars_append (hbefore : ∀ c ∈ before, isBlank c = true)
    (hcore : ∀ c ∈ core, isBlank c = false) (hafter : ∀ c ∈ after, isBlank c = true) :
    trimChars (before ++ core ++ after) = core := by
  have hleft : (before ++ core ++ after).dropWhile isBlank = (core ++ after).dropWhile isBlank := by
    rw [List.append_assoc, List.dropWhile_append_of_pos hbefore]
  have hright : ((core ++ after).reverse).dropWhile isBlank = core.reverse := by
    rw [List.reverse_append, List.dropWhile_append_of_pos fun c hc =>
      hafter c (List.mem_reverse.mp hc)]
    exact dropWhile_isBlank_of_forall fun c hc => hcore c (List.mem_reverse.mp hc)
  cases hcs : core with
  | nil =>
    -- Nothing but blanks is left behind the first of them either.
    have hnil : (core ++ after).dropWhile isBlank = [] := by
      rw [hcs, List.nil_append]
      exact List.dropWhile_eq_nil_iff.mpr hafter
    rw [← hcs, trimChars, hleft, hnil, hcs]
    rfl
  | cons c rest =>
    have hself : (core ++ after).dropWhile isBlank = core ++ after := by
      have hc : isBlank c = false := hcore c (hcs ▸ List.mem_cons_self)
      rw [hcs, List.cons_append]
      exact List.dropWhile_cons_of_neg (by simp [hc])
    rw [← hcs, trimChars, hleft, hself, hright, List.reverse_reverse]

/-- What is taken away is blank. -/
theorem exists_trimChars (cs : List Char) : ∃ before after, cs = before ++ trimChars cs ++ after ∧
    (∀ c ∈ before, isBlank c = true) ∧ ∀ c ∈ after, isBlank c = true := by
  have hsplit (cs : List Char) : cs.takeWhile isBlank ++ cs.dropWhile isBlank = cs :=
    List.takeWhile_append_dropWhile
  have hblank (cs : List Char) : ∀ c ∈ cs.takeWhile isBlank, isBlank c = true :=
    fun c hc => List.mem_takeWhile_imp hc
  refine ⟨cs.takeWhile isBlank, ((cs.dropWhile isBlank).reverse.takeWhile isBlank).reverse, ?_,
    hblank cs, fun c hc => hblank _ c (List.mem_reverse.mp hc)⟩
  have hrest : trimChars cs ++ ((cs.dropWhile isBlank).reverse.takeWhile isBlank).reverse
      = cs.dropWhile isBlank := by
    rw [trimChars, ← List.reverse_append, hsplit, List.reverse_reverse]
  rw [List.append_assoc, hrest, hsplit]

end InfraModule.Text

namespace InfraModule.Text.Integer

variable {before core after cs digits : List Char} {n : Int} {m : Nat}

/-! ## Numerals -/

/-- The number that digits denote: the last of them counts ones, the one before tens, and so on. -/
def magnitude (digits : List Char) : Nat :=
  Nat.ofDigits 10 (digits.reverse.map fun c => c.toNat - '0'.toNat)

/-- At least one character, and each is an ASCII digit. -/
def AreDigits (digits : List Char) : Prop :=
  digits ≠ [] ∧ ∀ c ∈ digits, '0' ≤ c ∧ c ≤ '9'

/-- The characters are an integer in decimal, with or without a sign. -/
inductive Numeral : List Char → Int → Prop
  | unsigned {digits : List Char} (h : AreDigits digits) : Numeral digits (magnitude digits)
  | plus {digits : List Char} (h : AreDigits digits) : Numeral ('+' :: digits) (magnitude digits)
  | minus {digits : List Char} (h : AreDigits digits) : Numeral ('-' :: digits) (-magnitude digits)

/-- A digit is a character from zero to nine. -/
theorem isDigit_iff {c : Char} : c.isDigit = true ↔ '0' ≤ c ∧ c ≤ '9' := by
  simp [Char.isDigit, Char.le_def]

/-- Digits are read as the number that they denote. -/
theorem ofDigitChars_eq (digits : List Char) :
    Nat.ofDigitChars 10 digits 0 = magnitude digits := by
  rw [Nat.ofDigitChars_eq_foldl, List.foldl_eq_foldr_reverse, magnitude, Nat.ofDigits_eq_foldr,
    List.foldr_map]
  congr 1
  funext c m
  rw [Nat.add_comm]
  rfl

/-- Exactly the characters that are digits are read as a number without sign. -/
theorem digits?_eq_some_iff : digits? digits = some m ↔
    AreDigits digits ∧ m = magnitude digits := by
  have hdigits : (digits ≠ [] ∧ digits.all Char.isDigit = true) ↔ AreDigits digits := by
    rw [AreDigits, List.all_eq_true]
    exact and_congr_right fun _ => forall₂_congr fun c _ => isDigit_iff
  unfold digits?
  rw [ofDigitChars_eq]
  split
  · next h => simp [hdigits.mp h, eq_comm]
  · next h =>
    have hnot : ¬ AreDigits digits := fun hd => h (hdigits.mpr hd)
    simp [hnot]

/-- Neither sign is a digit. -/
theorem AreDigits.signed? (h : AreDigits digits) :
    signed? digits = (digits? digits).map Int.ofNat := by
  unfold Integer.signed?
  split
  · exact absurd (h.2 '+' List.mem_cons_self) (by decide)
  · exact absurd (h.2 '-' List.mem_cons_self) (by decide)
  · rfl

/-- Exactly the numerals are read as a number. -/
theorem signed?_eq_some_iff : signed? cs = some n ↔ Numeral cs n := by
  constructor
  · intro h
    unfold signed? at h
    split at h
    · obtain ⟨m, hm, rfl⟩ := Option.map_eq_some_iff.mp h
      obtain ⟨hdigits, rfl⟩ := digits?_eq_some_iff.mp hm
      exact .plus hdigits
    · obtain ⟨m, hm, rfl⟩ := Option.map_eq_some_iff.mp h
      obtain ⟨hdigits, rfl⟩ := digits?_eq_some_iff.mp hm
      exact .minus hdigits
    · obtain ⟨m, hm, rfl⟩ := Option.map_eq_some_iff.mp h
      obtain ⟨hdigits, rfl⟩ := digits?_eq_some_iff.mp hm
      exact .unsigned hdigits
  · rintro (hdigits | hdigits | hdigits)
    · rw [hdigits.signed?, digits?_eq_some_iff.mpr ⟨hdigits, rfl⟩]
      rfl
    · rw [signed?, digits?_eq_some_iff.mpr ⟨hdigits, rfl⟩]
      rfl
    · rw [signed?, digits?_eq_some_iff.mpr ⟨hdigits, rfl⟩]
      rfl

/-! ## Reading -/

/-- A number fits if it is one of 64 bits with a sign. -/
theorem fits_iff : Fits n ↔ -2 ^ 63 ≤ n ∧ n < 2 ^ 63 := by
  unfold Fits
  omega

/-- No character of a numeral is blank. -/
theorem Numeral.not_blank (h : Numeral cs n) : ∀ c ∈ cs, isBlank c = false := by
  have hdigit (digits : List Char) (h : AreDigits digits) : ∀ c ∈ digits, isBlank c = false := by
    intro c hc
    obtain ⟨hlow, hhigh⟩ := h.2 c hc
    have hlow' : 48 ≤ c.toNat := hlow
    have hhigh' : c.toNat ≤ 57 := hhigh
    simp [isBlank]
    omega
  cases h with
  | unsigned h => exact hdigit cs h
  | plus h => exact List.forall_mem_cons.mpr ⟨by decide, hdigit _ h⟩
  | minus h => exact List.forall_mem_cons.mpr ⟨by decide, hdigit _ h⟩

/-- The text is a numeral between blanks. -/
def Denotes (text : String) (n : Int) : Prop :=
  ∃ before core after, text.toList = before ++ core ++ after ∧ (∀ c ∈ before, isBlank c = true) ∧
    (∀ c ∈ after, isBlank c = true) ∧ Numeral core n

/-- Exactly the texts that denote a number are read as one, without the blanks around it. -/
theorem signed?_trim_eq_some_iff {text : String} :
    signed? (trimChars text.toList) = some n ↔ Denotes text n := by
  rw [signed?_eq_some_iff]
  constructor
  · intro h
    obtain ⟨before, after, htext, hbefore, hafter⟩ := exists_trimChars text.toList
    exact ⟨before, _, after, htext, hbefore, hafter, h⟩
  · rintro ⟨before, core, after, htext, hbefore, hafter, h⟩
    rwa [htext, trimChars_append hbefore h.not_blank hafter]

/-- Between blanks a numeral is read whose number fits in 64 bits, and nothing else is. -/
theorem read?_trim_eq_some_iff {text : String} :
    read? (trim text) = some n ↔ Denotes text n ∧ Fits n := by
  rw [read?, trim, String.toList_ofList, Option.filter_eq_some_iff, signed?_trim_eq_some_iff,
    decide_eq_true_eq]

example : read? (trim " -09223372036854775808\n") = some (-9223372036854775808) := by decide

example : read? (trim "+9223372036854775808") = none := by decide

/-! ## Writing -/

/-- A number is written as usual. -/
theorem write_eq_toString (n : Int) : write n = toString n := by
  have hnat (m : Nat) : String.ofList (Nat.toDigits 10 m) = m.repr :=
    Nat.repr_eq_ofList_toDigits.symm
  have hint : toString n = n.repr := rfl
  rw [hint, Int.repr_eq_if]
  by_cases hn : n < 0
  · have habs : n.natAbs = (-n).toNat := by omega
    have hsign (digits : List Char) :
        String.ofList (['-'] ++ digits) = String.ofList ['-'] ++ String.ofList digits :=
      String.ofList_append
    rw [if_neg (by omega), write, if_pos hn, habs, ← hnat]
    exact hsign (Nat.toDigits 10 (-n).toNat)
  · have habs : n.natAbs = n.toNat := by omega
    rw [if_pos (by omega), write, if_neg hn, habs, hnat]

/-- What is written is a numeral that denotes the number. -/
theorem numeral_write (n : Int) : Numeral (write n).toList n := by
  have hdigits (m : Nat) : AreDigits (Nat.toDigits 10 m) :=
    ⟨Nat.toDigits_ne_nil, fun c hc =>
      isDigit_iff.mp (Nat.isDigit_of_mem_toDigits (by decide) (by decide) hc)⟩
  have hmagnitude (m : Nat) : magnitude (Nat.toDigits 10 m) = m := by
    rw [← ofDigitChars_eq, Nat.ofDigitChars_toDigits (by decide) (by decide)]
  rw [write, String.toList_ofList]
  split
  · next hn =>
    have h := Numeral.minus (hdigits n.natAbs)
    rwa [hmagnitude, show -(n.natAbs : Int) = n by omega] at h
  · next hn =>
    have h := Numeral.unsigned (hdigits n.natAbs)
    rwa [hmagnitude, show (n.natAbs : Int) = n by omega] at h

/-- A number that fits is read back from what is written. -/
theorem read?_write (h : Fits n) : read? (write n) = some n := by
  rw [read?, signed?_eq_some_iff.mpr (numeral_write n)]
  simp [h]

/-- What is written denotes the number. -/
theorem denotes_write (n : Int) : Denotes (write n) n :=
  ⟨[], _, [], by simp, by simp, by simp, numeral_write n⟩

end InfraModule.Text.Integer
