import XamlFormat.Text.Basic

/-! Blank characters. Markup separates its parts by the four blanks of XML; values inside
attributes, comments and settings are trimmed by the wider class of Unicode white space. -/
namespace XamlFormat
namespace Text

/-- Space, tab, line feed and carriage return. -/
def isXmlBlank (c : Char) : Bool :=
  c == ' ' || c == '\t' || c == '\n' || c == '\r'

/-- Unicode white space: the 25 characters of the property `White_Space`. -/
def isBlank (c : Char) : Bool :=
  let n := c.toNat
  n == 0x20 || (0x9 ≤ n && n ≤ 0xd) || n == 0x85 || n == 0xa0 || n == 0x1680 ||
    (0x2000 ≤ n && n ≤ 0x200a) || n == 0x2028 || n == 0x2029 || n == 0x202f || n == 0x205f ||
    n == 0x3000

theorem isBlank_of_isXmlBlank {c : Char} (h : isXmlBlank c = true) : isBlank c = true := by
  simp only [isXmlBlank, Bool.or_eq_true, beq_iff_eq] at h
  obtain ((rfl | rfl) | rfl) | rfl := h <;> decide

def trimStart (s : Chars) : Chars := s.dropWhile isBlank

def trimEnd : Chars → Chars
  | [] => []
  | c :: cs =>
    match trimEnd cs with
    | [] => if isBlank c then [] else [c]
    | t => c :: t

def trim (s : Chars) : Chars := trimEnd (trimStart s)

def trimXmlEnd : Chars → Chars
  | [] => []
  | c :: cs =>
    match trimXmlEnd cs with
    | [] => if isXmlBlank c then [] else [c]
    | t => c :: t

/-- Each run of XML blanks as a single space. -/
def collapse : Chars → Chars
  | [] => []
  | [c] => if isXmlBlank c then [' '] else [c]
  | c :: d :: cs =>
    if isXmlBlank c then
      if isXmlBlank d then collapse (d :: cs) else ' ' :: collapse (d :: cs)
    else c :: collapse (d :: cs)

/-- The maximal runs of characters that are not blank. -/
def words (s : Chars) : List Chars := (piecesBy isBlank s).filter fun t => !t.isEmpty

/-- The entries of a comma separated list, trimmed; the empty ones are dropped. -/
def nameList (s : Chars) : List Chars :=
  ((pieces ',' s).map trim).filter fun t => !t.isEmpty

end Text
end XamlFormat
