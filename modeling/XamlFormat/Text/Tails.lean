import XamlFormat.Text.Basic

/-! Patterns matched from their end. For the rest of a pattern, a row tells of each tail of a text,
the longest first, whether the rest of the pattern stands for it. Each part of the pattern makes a
row from the row behind it, with one step for each character, so that no tail is tried twice. -/
namespace XamlFormat
namespace Tails

/-- The row of a property of texts. -/
def row (f : Chars → Bool) (s : Chars) : List Bool := (Text.suffixes s).map f

/-- The answer of a row for the whole text. -/
def whole (row : List Bool) : Bool := row.headD false

/-- One character of a class, and then the rest. -/
def one (allowed : Char → Bool) : Chars → List Bool → List Bool
  | [], _ => [false]
  | c :: s, row => (allowed c && whole row.tail) :: one allowed s row.tail

/-- Any run of characters of a class, and then the rest. -/
def run (allowed : Char → Bool) : Chars → List Bool → List Bool
  | [], row => [whole row]
  | c :: s, row =>
    let later := run allowed s row.tail
    (whole row || (allowed c && whole later)) :: later

@[simp] theorem whole_cons (b : Bool) (row : List Bool) : whole (b :: row) = b := rfl

@[simp] theorem row_nil (f : Chars → Bool) : row f [] = [f []] := rfl

@[simp] theorem row_cons (f : Chars → Bool) (c : Char) (s : Chars) :
    row f (c :: s) = f (c :: s) :: row f s := rfl

@[simp] theorem whole_row (f : Chars → Bool) (s : Chars) : whole (row f s) = f s := by
  cases s <;> rfl

/-- The property that `one` computes. -/
def startsWithOne (allowed : Char → Bool) (f : Chars → Bool) : Chars → Bool
  | [] => false
  | c :: s => allowed c && f s

/-- The property that `run` computes. -/
def startsWithRun (allowed : Char → Bool) (f : Chars → Bool) : Chars → Bool
  | [] => f []
  | c :: s => f (c :: s) || (allowed c && startsWithRun allowed f s)

theorem one_row (allowed : Char → Bool) (f : Chars → Bool) (s : Chars) :
    one allowed s (row f s) = row (startsWithOne allowed f) s := by
  induction s with
  | nil => rfl
  | cons c s ih => simp [one, startsWithOne, ih]

theorem run_row (allowed : Char → Bool) (f : Chars → Bool) (s : Chars) :
    run allowed s (row f s) = row (startsWithRun allowed f) s := by
  induction s with
  | nil => simp [run, startsWithRun]
  | cons c s ih => simp [run, startsWithRun, ih]

end Tails
end XamlFormat
