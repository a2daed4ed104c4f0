import InfraModule.Proofs.Parse.Source
import InfraModule.Proofs.Text.Integer
import InfraModule.Proofs.Tree.Operation
import InfraModule.Tree.Write

/-!
# Literals

A reader of literals either makes a literal of the untagged scalar at the cursor, which it takes and
adds to the tree, or reports the scalar and leaves it out; which of them depends on the text alone
(`Parse.makesLiteral_of_convert`, `Parse.refusesText_of_convert`). For integers this says that a
numeral is read exactly if its number fits in 64 bits, and that the number is not changed on the way:
not by being kept as text, not by being written, and not by being read again (`Parse.int_exact`).
-/

namespace InfraModule

/-! ## Literals that denote integers -/

/-- An integer that fits is read back from its literal. -/
theorem Literal.asInt?_int {n : Int} (h : Text.Integer.Fits n) : (Literal.int n).asInt? = some n :=
  Text.Integer.read?_write h

/-- A literal that denotes an integer is written as the integer. -/
theorem Literal.write_of_asInt? {l : Literal} {n : Int} (h : l.asInt? = some n) :
    l.write = .int n := by
  rw [Literal.write, h]

/-- A literal has nothing below it, so that one level is enough to write it. -/
theorem Tree.write_literal {t : Tree} {id : NodeId} {l : Literal}
    (h : t.node? id = some (.expression (.literal l))) : t.write id = .ok l.write := by
  obtain ⟨levels, hlevels⟩ := exists_size_eq (lt_size_of_node? h)
  rw [write, hlevels, writeWithin, h]
  rfl

namespace Parse

open ParseM

variable {text message : String} {convert : String → Option Literal} {l : Literal} {n : Int}

/-! ## What becomes of a scalar -/

/-- The reader makes the literal of an untagged scalar with the text, wherever it stands: it takes
the scalar, adds a node that spans it, and reports nothing. -/
def MakesLiteral (read : ParseM (Option NodeId)) (text : String) (l : Literal) : Prop :=
  ∀ (setting : Setting) (s : ParseState) (e : Event) (rest : List Event),
    s.events = e :: rest → e.kind = .scalar text none →
    ∃ tree, read setting s = .ok (some s.build.tree.size) ⟨rest, { s.build with tree }, s.depth⟩ ∧
      tree.node? s.build.tree.size = some (.expression (.literal l)) ∧
      tree.location? s.build.tree.size = some (e.location setting.file)

/-- The reader makes nothing of an untagged scalar with the text, wherever it stands: it takes the
scalar and reports the span. -/
def RefusesText (read : ParseM (Option NodeId)) (message text : String) : Prop :=
  ∀ (setting : Setting) (s : ParseState) (e : Event) (rest : List Event),
    s.events = e :: rest → e.kind = .scalar text none →
    read setting s = .ok none { s with
      events := rest
      build.diagnostics := s.build.diagnostics.error message (e.location setting.file) }

/-- A text that can be converted is made a literal. -/
theorem makesLiteral_of_convert (h : convert text = some l) :
    MakesLiteral (scalar message convert) text l := by
  intro setting s e rest hevents hkind
  let appended := s.build.tree.append (.expression (.literal l)) (e.location setting.file)
  let tree := appended.refreshSubtree s.build.tree.size
  -- A literal has no children and no target, so that it can be added to any tree.
  have ha : s.build.tree.Adoptable (.expression (.literal l)) :=
    ⟨fun _ hd => absurd hd List.not_mem_nil, List.nodup_nil, fun _ hd => by cases hd⟩
  have hadd : TreeM.add (.expression (.literal l)) (e.location setting.file) s.build.tree
      = .ok s.build.tree.size tree :=
    TreeM.add_of_adoptable ha
  have hread : scalar message convert setting s
      = .ok (some s.build.tree.size) ⟨rest, { s.build with tree }, s.depth⟩ := by
    apply eq_ok_of_post
    unfold scalar
    rw [post_bind, post_current hevents]
    simp only [hkind, h]
    rw [post_bind, post_here hevents, post_bind, post_advance, hevents, post_map, ParseM.add,
      post_build, Result.Post, BuildM.onTree, hadd]
    exact ⟨rfl, rfl⟩
  exact ⟨tree, hread, by simp [tree, appended], by simp [tree, appended]⟩

/-- A text that cannot be converted is reported and left out. -/
theorem refusesText_of_convert (h : convert text = none) :
    RefusesText (scalar message convert) message text := by
  intro setting s e rest hevents hkind
  have hskip : Event.skipValue (e :: rest) = .ok rest :=
    Event.skipValue_cons_leaf (by rw [hkind]; rfl)
  apply eq_ok_of_post
  unfold scalar
  rw [post_bind, post_current hevents]
  simp only [hkind, h]
  unfold refuse
  rw [post_bind, post_here hevents, post_bind, post_report, post_bind, post_skip]
  simp only [hevents, hskip]
  exact ⟨rfl, rfl⟩

/-! ## Integers -/

/-- A numeral whose number fits is made a literal of the number. -/
theorem makesLiteral_int (hdenotes : Text.Integer.Denotes text n) (hfits : Text.Integer.Fits n) :
    MakesLiteral int text (.int n) := by
  refine makesLiteral_of_convert ?_
  rw [Text.Integer.read?_trim_eq_some_iff.mpr ⟨hdenotes, hfits⟩]
  rfl

/-- A text that is no numeral, or whose number does not fit, is reported and left out. -/
theorem refusesText_int (h : ∀ n, Text.Integer.Denotes text n → ¬ Text.Integer.Fits n) :
    RefusesText int "expected a literal integer" text := by
  refine refusesText_of_convert ?_
  have hnone : Text.Integer.read? (Text.trim text) = none := by
    refine Option.eq_none_iff_forall_ne_some.mpr fun n hn => ?_
    obtain ⟨hdenotes, hfits⟩ := Text.Integer.read?_trim_eq_some_iff.mp hn
    exact h n hdenotes hfits
  rw [hnone]
  rfl

/-- An untagged scalar is read as an integer exactly if it is a numeral between blanks whose number
fits in 64 bits; otherwise it is reported and left out. The literal is kept as the decimal of the
number. Wherever the literal stands it denotes the number and is written as it, and reading its text
gives the same literal. -/
theorem int_exact (text : String) :
    (∀ (setting : Setting) (s : ParseState) (e : Event) (rest : List Event),
      s.events = e :: rest → e.kind = .scalar text none →
      ((∃ id u, int setting s = .ok (some id) u) ↔
        ∃ n, Text.Integer.Denotes text n ∧ -2 ^ 63 ≤ n ∧ n < 2 ^ 63)) ∧
    ((¬ ∃ n, Text.Integer.Denotes text n ∧ -2 ^ 63 ≤ n ∧ n < 2 ^ 63) →
      RefusesText int "expected a literal integer" text) ∧
    ∀ n, Text.Integer.Denotes text n → -2 ^ 63 ≤ n → n < 2 ^ 63 →
      MakesLiteral int text ⟨toString n, .int⟩ ∧
      (⟨toString n, .int⟩ : Literal).asInt? = some n ∧
      (∀ (t : Tree) (id : NodeId), t.node? id = some (.expression (.literal ⟨toString n, .int⟩)) →
        t.write id = .ok (.int n)) ∧
      MakesLiteral int (toString n) ⟨toString n, .int⟩ := by
  have hrefused (h : ¬ ∃ n, Text.Integer.Denotes text n ∧ -2 ^ 63 ≤ n ∧ n < 2 ^ 63) :
      RefusesText int "expected a literal integer" text :=
    refusesText_int fun n hdenotes hfits => h ⟨n, hdenotes, Text.Integer.fits_iff.mp hfits⟩
  refine ⟨fun setting s e rest hevents hkind => ⟨fun ⟨id, u, hread⟩ => ?_, ?_⟩, hrefused, ?_⟩
  · by_contra h
    -- A scalar that is refused is not read.
    have hnone := hrefused h setting s e rest hevents hkind
    rw [hread] at hnone
    cases hnone
  · rintro ⟨n, hdenotes, hn⟩
    obtain ⟨tree, hread, -⟩ :=
      makesLiteral_int hdenotes (Text.Integer.fits_iff.mpr hn) setting s e rest hevents hkind
    exact ⟨_, _, hread⟩
  · intro n hdenotes hlow hhigh
    have hfits : Text.Integer.Fits n := Text.Integer.fits_iff.mpr ⟨hlow, hhigh⟩
    have htext : (⟨toString n, .int⟩ : Literal) = .int n := by
      rw [Literal.int, Text.Integer.write_eq_toString]
    have hasInt := Literal.asInt?_int hfits
    have hagain := makesLiteral_int (Text.Integer.denotes_write n) hfits
    rw [Text.Integer.write_eq_toString] at hagain
    rw [htext]
    refine ⟨makesLiteral_int hdenotes hfits, hasInt, fun t id hid => ?_, hagain⟩
    rw [Tree.write_literal hid, Literal.write_of_asInt? hasInt]

end Parse

end InfraModule
