import XamlFormat.Text.Basic

/-! The line and column of a position given in bytes. -/
namespace XamlFormat

/-- A position as people count it: lines end with a line feed, columns count characters, and both
start at one. -/
structure Place where
  line : Nat
  column : Nat
deriving DecidableEq, Repr

namespace Place

def next (p : Place) (c : Char) : Place :=
  if c = '\n' then ⟨p.line + 1, 1⟩ else ⟨p.line, p.column + 1⟩

/-- Walks `n` bytes forward from `p`, stopping at the end of the text. -/
def after (p : Place) (n : Nat) : Chars → Place
  | [] => p
  | c :: cs => if c.utf8Size ≤ n then after (p.next c) (n - c.utf8Size) cs else p

/-- The place of a byte offset. An offset inside a character means its start. -/
def ofOffset (source : Chars) (offset : Nat) : Place :=
  after ⟨1, 1⟩ offset source

end Place
end XamlFormat
