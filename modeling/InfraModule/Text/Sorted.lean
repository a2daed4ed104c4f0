/-!
# Sorted lists without repetition

Finite sets as lists in strictly increasing order: inserting keeps the order, and an element that
is already there is not repeated.
-/

namespace InfraModule.Sorted

variable {α : Type} [LT α] [DecidableLT α] [DecidableEq α]

/-- Puts an element at its place in an increasing list, unless it is there already. -/
def insert (x : α) : List α → List α
  | [] => [x]
  | y :: ys =>
    if x < y then x :: y :: ys
    else if x = y then y :: ys
    else y :: insert x ys

/-- The distinct elements of a list in increasing order. -/
def ofList (xs : List α) : List α :=
  xs.foldr insert []

/-- Inserting adds the element and keeps the others. -/
@[simp] theorem mem_insert {a x : α} {ys : List α} : a ∈ insert x ys ↔ a = x ∨ a ∈ ys := by
  induction ys with
  | nil => simp [insert]
  | cons y ys ih =>
    unfold insert
    split
    · simp
    · split
      · next h => subst h; simp
      · simp only [List.mem_cons, ih]
        grind

/-- The sorted list holds exactly the elements of the list. -/
@[simp] theorem mem_ofList {a : α} {xs : List α} : a ∈ ofList xs ↔ a ∈ xs := by
  induction xs with
  | nil => simp [ofList]
  | cons x xs ih => simpa [ofList] using or_congr Iff.rfl ih

end InfraModule.Sorted
