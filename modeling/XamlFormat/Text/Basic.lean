/-! Text as a list of characters: sizes in bytes, slices by byte range, and cuts at a character or
at a sequence of characters. A cut never loses a character, so each comes with the equation that
puts the pieces back together. -/
namespace XamlFormat

/-- A text, one entry for each character. -/
abbrev Chars := List Char

namespace Text

/-- Bytes that the text takes in UTF-8. -/
def byteLength : Chars → Nat
  | [] => 0
  | c :: cs => c.utf8Size + byteLength cs

@[simp] theorem byteLength_nil : byteLength [] = 0 := rfl

@[simp] theorem byteLength_cons (c : Char) (cs : Chars) :
    byteLength (c :: cs) = c.utf8Size + byteLength cs := rfl

@[simp] theorem byteLength_append (a b : Chars) :
    byteLength (a ++ b) = byteLength a + byteLength b := by
  induction a with
  | nil => simp
  | cons c cs ih => simp [ih, Nat.add_assoc]

/-- What is left after the first `n` bytes. A character that does not end within them stays. -/
def dropBytes (n : Nat) : Chars → Chars
  | [] => []
  | c :: cs => if c.utf8Size ≤ n then dropBytes (n - c.utf8Size) cs else c :: cs

/-- The characters that end within the first `n` bytes. -/
def takeBytes (n : Nat) : Chars → Chars
  | [] => []
  | c :: cs => if c.utf8Size ≤ n then c :: takeBytes (n - c.utf8Size) cs else []

@[simp] theorem dropBytes_zero (s : Chars) : dropBytes 0 s = s := by
  cases s with
  | nil => rfl
  | cons c cs =>
    have h := c.utf8Size_pos
    simp [dropBytes, show ¬ c.utf8Size ≤ 0 by omega]

@[simp] theorem takeBytes_zero (s : Chars) : takeBytes 0 s = [] := by
  cases s with
  | nil => rfl
  | cons c cs =>
    have h := c.utf8Size_pos
    simp [takeBytes, show ¬ c.utf8Size ≤ 0 by omega]

theorem dropBytes_append (a b : Chars) : dropBytes (byteLength a) (a ++ b) = b := by
  induction a with
  | nil => simp
  | cons c cs ih => simp [dropBytes, ih]

theorem takeBytes_append (a b : Chars) : takeBytes (byteLength a) (a ++ b) = a := by
  induction a with
  | nil => simp
  | cons c cs ih => simp [takeBytes, ih]

def slice (source : Chars) (start stop : Nat) : Chars :=
  takeBytes (stop - start) (dropBytes start source)

theorem slice_append (a b c : Chars) :
    slice (a ++ (b ++ c)) (byteLength a) (byteLength a + byteLength b) = b := by
  simp [slice, dropBytes_append, takeBytes_append]

def cutAt (d : Char) : Chars → Option (Chars × Chars)
  | [] => none
  | c :: cs => if c = d then some ([], cs) else (cutAt d cs).map fun p => (c :: p.1, p.2)

theorem eq_of_cutAt {d : Char} {s a b : Chars} (h : cutAt d s = some (a, b)) :
    s = a ++ d :: b := by
  induction s generalizing a with
  | nil => simp [cutAt] at h
  | cons c cs ih =>
    by_cases hc : c = d
    · simp only [cutAt, hc, ↓reduceIte, Option.some.injEq, Prod.mk.injEq] at h
      obtain ⟨rfl, rfl⟩ := h
      simp [hc]
    · simp only [cutAt, hc, ↓reduceIte, Option.map_eq_some_iff, Prod.exists] at h
      obtain ⟨a', b', h, h'⟩ := h
      cases h'
      rw [ih h]
      rfl

def cutAtMark (mark : Chars) : Chars → Option (Chars × Chars)
  | [] => if mark.isEmpty then some ([], []) else none
  | c :: cs =>
    match mark.isPrefixOf? (c :: cs) with
    | some rest => some ([], rest)
    | none => (cutAtMark mark cs).map fun p => (c :: p.1, p.2)

/-- The pieces between the characters that `p` picks out, the empty ones included. -/
def piecesBy (p : Char → Bool) : Chars → List Chars
  | [] => [[]]
  | c :: cs =>
    if p c then [] :: piecesBy p cs
    else
      match piecesBy p cs with
      | [] => [[c]]
      | t :: ts => (c :: t) :: ts

def pieces (d : Char) (s : Chars) : List Chars := piecesBy (· == d) s

def joinWith (separator : Chars) : List Chars → Chars
  | [] => []
  | [t] => t
  | t :: ts => t ++ separator ++ joinWith separator ts

/-- The text and everything that is left of it after each of its characters. -/
def suffixes : Chars → List Chars
  | [] => [[]]
  | c :: cs => (c :: cs) :: suffixes cs

def equalIgnoringCase (a b : Chars) : Bool := a.map Char.toLower == b.map Char.toLower

end Text
end XamlFormat
