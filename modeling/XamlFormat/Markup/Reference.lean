import XamlFormat.Text.Basic

/-! Character references (`&amp;`, `&#65;`, `&#x41;`) and the escapes that write them. -/
namespace XamlFormat
namespace Reference

structure Invalid where
  /-- Bytes before the `&`. -/
  offset : Nat
  /-- The reference, or the start of what follows an `&` that no `;` ends. -/
  text : Chars
deriving DecidableEq, Repr

def named : List (Chars × Char) :=
  [("amp".toList, '&'), ("lt".toList, '<'), ("gt".toList, '>'), ("quot".toList, '"'),
    ("apos".toList, '\'')]

def digitValue (c : Char) : Option Nat :=
  if '0' ≤ c ∧ c ≤ '9' then some (c.toNat - '0'.toNat)
  else if 'a' ≤ c ∧ c ≤ 'f' then some (c.toNat - 'a'.toNat + 10)
  else if 'A' ≤ c ∧ c ≤ 'F' then some (c.toNat - 'A'.toNat + 10)
  else none

def readDigits (base value : Nat) : Chars → Option Nat
  | [] => some value
  | c :: cs =>
    match digitValue c with
    | some d => if d < base then readDigits base (value * base + d) cs else none
    | none => none

/-- A code in the base: at least one digit, with or without a plus sign in front. -/
def readCode (base : Nat) : Chars → Option Nat
  | [] => none
  | ['+'] => none
  | '+' :: digits => readDigits base 0 digits
  | digits => readDigits base 0 digits

/-- The character of a code point. The code point zero is no character of a document. -/
def ofCode (n : Nat) : Option Char :=
  if n.isValidChar ∧ n ≠ 0 then some (Char.ofNat n) else none

def resolveCode : Chars → Option Char
  | '#' :: 'x' :: code => (readCode 16 code).bind ofCode
  | '#' :: code => (readCode 10 code).bind ofCode
  | _ => none

/-- The character that the text between `&` and `;` stands for. -/
def resolve (name : Chars) : Option Char :=
  match named.lookup name with
  | some c => some c
  | none => resolveCode name

def decodeFrom (pos : Nat) : Chars → Except Invalid Chars
  | [] => .ok []
  | c :: cs =>
    if c = '&' then
      match _h : Text.cutAt ';' cs with
      | none => .error ⟨pos, cs.take 8⟩
      | some (name, rest) =>
        match resolve name with
        | none => .error ⟨pos, '&' :: name ++ [';']⟩
        | some d => (d :: ·) <$> decodeFrom (pos + 1 + Text.byteLength name + 1) rest
    else (c :: ·) <$> decodeFrom (pos + c.utf8Size) cs
termination_by s => s.length
decreasing_by
  · rw [Text.eq_of_cutAt _h]
    simp only [List.length_cons, List.length_append]
    omega
  · simp

def decode (s : Chars) : Except Invalid Chars := decodeFrom 0 s

/-- How a character is written between double quotes. An ampersand and a double quote are always
escaped, the other special characters unless they are in `unescaped`. -/
def escapeAttributeChar (unescaped : Chars) (c : Char) : Chars :=
  match c with
  | '&' => "&amp;".toList
  | '"' => "&quot;".toList
  | '<' => if unescaped.contains c then [c] else "&lt;".toList
  | '>' => if unescaped.contains c then [c] else "&gt;".toList
  | '\n' => if unescaped.contains c then [c] else "&#xA;".toList
  | '\r' => if unescaped.contains c then [c] else "&#xD;".toList
  | '\t' => if unescaped.contains c then [c] else "&#x9;".toList
  | c => [c]

def escapeAttribute (unescaped value : Chars) : Chars :=
  value.flatMap (escapeAttributeChar unescaped)

def escapeTextChar : Char → Chars
  | '&' => "&amp;".toList
  | '<' => "&lt;".toList
  | '>' => "&gt;".toList
  | c => [c]

def escapeText (value : Chars) : Chars := value.flatMap escapeTextChar

end Reference
end XamlFormat
