/-!
Stable sorting by insertion. It recurses on the list alone, so sorted lists
can be computed within proofs; the lists sorted with it are short.
-/

namespace Gantry

variable {α : Type}

/-- Places an element before the first one that it does not exceed. -/
def insertSorted (le : α → α → Bool) (x : α) : List α → List α
  | [] => [x]
  | y :: ys => if le x y then x :: y :: ys else y :: insertSorted le x ys

def sortBy (le : α → α → Bool) : List α → List α
  | [] => []
  | x :: xs => insertSorted le x (sortBy le xs)

@[simp] theorem length_insertSorted (le : α → α → Bool) (x : α) (ys : List α) :
    (insertSorted le x ys).length = ys.length + 1 := by
  induction ys with
  | nil => rfl
  | cons y ys ih => by_cases h : le x y <;> simp [insertSorted, h, ih]

@[simp] theorem length_sortBy (le : α → α → Bool) (xs : List α) :
    (sortBy le xs).length = xs.length := by
  induction xs with
  | nil => rfl
  | cons x xs ih => simp [sortBy, ih]

end Gantry
