/-! A stable sort by insertion: elements that neither precedes keep their order. -/
namespace XamlFormat

variable {α : Type}

/-- Puts `x` in front of the first element that it may precede. -/
def insertBy (le : α → α → Bool) (x : α) : List α → List α
  | [] => [x]
  | y :: ys => if le x y then x :: y :: ys else y :: insertBy le x ys

def stableSort (le : α → α → Bool) : List α → List α
  | [] => []
  | x :: xs => insertBy le x (stableSort le xs)

theorem insertBy_perm (le : α → α → Bool) (x : α) (l : List α) :
    (insertBy le x l).Perm (x :: l) := by
  induction l with
  | nil => exact List.Perm.refl _
  | cons y ys ih =>
    by_cases h : le x y = true
    · simp [insertBy, h]
    · simp only [insertBy, h, Bool.false_eq_true, ↓reduceIte]
      exact (ih.cons y).trans (List.Perm.swap x y ys)

theorem stableSort_perm (le : α → α → Bool) (l : List α) : (stableSort le l).Perm l := by
  induction l with
  | nil => exact List.Perm.refl _
  | cons x xs ih => exact (insertBy_perm le x _).trans (ih.cons x)

@[simp] theorem length_stableSort (le : α → α → Bool) (l : List α) :
    (stableSort le l).length = l.length := (stableSort_perm le l).length_eq

end XamlFormat
