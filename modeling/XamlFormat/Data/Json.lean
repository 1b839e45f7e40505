import XamlFormat.Data.Basic
import XamlFormat.Settings.Basic

/-! Reading JSON. -/
namespace XamlFormat
namespace Json

def isBlank (c : Char) : Bool := c == ' ' || c == '\n' || c == '\t' || c == '\r'

def skipBlanks (s : Chars) : Chars := s.dropWhile isBlank

def hexDigit? (c : Char) : Option Nat :=
  if '0' ≤ c ∧ c ≤ '9' then some (c.toNat - '0'.toNat)
  else if 'a' ≤ c ∧ c ≤ 'f' then some (c.toNat - 'a'.toNat + 10)
  else if 'A' ≤ c ∧ c ≤ 'F' then some (c.toNat - 'A'.toNat + 10)
  else none

/-- The number that four hexadecimal digits stand for. -/
def unit? (a b c d : Char) : Option Nat := do
  let a ← hexDigit? a
  let b ← hexDigit? b
  let c ← hexDigit? c
  let d ← hexDigit? d
  some (((a * 16 + b) * 16 + c) * 16 + d)

inductive Piece where
  | char (c : Char)
  /-- One of the 2048 code units that come in pairs. -/
  | surrogate (unit : Nat)

def simpleEscape? (c : Char) : Option Char :=
  match c with
  | '"' => some '"'
  | '\\' => some '\\'
  | '/' => some '/'
  | 'b' => some '\x08'
  | 'f' => some '\x0c'
  | 'n' => some '\n'
  | 'r' => some '\r'
  | 't' => some '\t'
  | _ => none

def Piece.ofUnit (n : Nat) : Piece :=
  if 0xd800 ≤ n ∧ n < 0xe000 then .surrogate n else .char (Char.ofNat n)

def pieces? : Chars → Option (List Piece × Chars)
  | [] => none
  | '"' :: rest => some ([], rest)
  | '\\' :: 'u' :: a :: b :: c :: d :: rest => do
    let n ← unit? a b c d
    let (more, rest) ← pieces? rest
    some (.ofUnit n :: more, rest)
  | '\\' :: c :: rest => do
    let c ← simpleEscape? c
    let (more, rest) ← pieces? rest
    some (.char c :: more, rest)
  | c :: rest => do
    if c = '\\' ∨ c.toNat < 0x20 then none
    let (more, rest) ← pieces? rest
    some (.char c :: more, rest)

/-- The characters of the pieces, if each surrogate is one of a pair. -/
def assemble? : List Piece → Option Chars
  | [] => some []
  | .char c :: rest => (assemble? rest).map (c :: ·)
  | .surrogate high :: .surrogate low :: rest =>
    if high < 0xdc00 ∧ 0xdc00 ≤ low then
      (assemble? rest).map (Char.ofNat (0x10000 + (high - 0xd800) * 0x400 + (low - 0xdc00)) :: ·)
    else none
  | .surrogate _ :: _ => none

/-- A string behind its opening quote; the inner value is missing where it is not Unicode. -/
def string? (s : Chars) : Option (Option String × Chars) :=
  (pieces? s).map fun p => ((assemble? p.1).map String.ofList, p.2)

def fraction? : Chars → Option (Bool × Chars)
  | '.' :: rest =>
    if (rest.takeWhile Char.isDigit).isEmpty then none else some (true, rest.dropWhile Char.isDigit)
  | rest => some (false, rest)

def exponent? : Chars → Option (Bool × Chars)
  | c :: rest =>
    if c = 'e' ∨ c = 'E' then
      let digits := match rest with
        | '+' :: t => t
        | '-' :: t => t
        | t => t
      if (digits.takeWhile Char.isDigit).isEmpty then none
      else some (true, digits.dropWhile Char.isDigit)
    else some (false, c :: rest)
  | [] => some (false, [])

/-- A number. Only one without sign, fraction and exponent, and of 64 bits, is natural. -/
def number? (s : Chars) : Option (Data × Chars) := do
  let (negative, s) := match s with
    | '-' :: rest => (true, rest)
    | rest => (false, rest)
  let digits := s.takeWhile Char.isDigit
  if digits.isEmpty || (digits.head? == some '0' && digits.length > 1) then none
  let (hasFraction, rest) ← fraction? (s.dropWhile Char.isDigit)
  let (hasExponent, rest) ← exponent? rest
  let n := digits.foldl (fun n c => n * 10 + (c.toNat - '0'.toNat)) 0
  if negative || hasFraction || hasExponent || n ≥ Settings.wordSize then some (.other, rest)
  else some (.natural n, rest)

/-- The table of some entries. A table with a key that is not Unicode is of no use. -/
def tableOf (entries : List (Option String × Data)) : Data :=
  match entries.mapM fun (key, value) => key.map fun key => (key, value) with
  | some entries => .table entries
  | none => .other

mutual

def value? : Nat → Chars → Option (Data × Chars)
  | 0, _ => none
  | fuel + 1, s =>
    match skipBlanks s with
    | '{' :: rest =>
      match skipBlanks rest with
      | '}' :: rest => some (.table [], rest)
      | rest => (entries? fuel rest).map fun p => (tableOf p.1, p.2)
    | '[' :: rest =>
      match skipBlanks rest with
      | ']' :: rest => some (.list [], rest)
      | rest => (items? fuel rest).map fun p => (.list p.1, p.2)
    | '"' :: rest => (string? rest).map fun p => (p.1.elim .other .text, p.2)
    | 't' :: 'r' :: 'u' :: 'e' :: rest => some (.flag true, rest)
    | 'f' :: 'a' :: 'l' :: 's' :: 'e' :: rest => some (.flag false, rest)
    | 'n' :: 'u' :: 'l' :: 'l' :: rest => some (.null, rest)
    | rest => number? rest

def items? : Nat → Chars → Option (List Data × Chars)
  | 0, _ => none
  | fuel + 1, s => do
    let (value, rest) ← value? fuel s
    match skipBlanks rest with
    | ',' :: rest =>
      let (more, rest) ← items? fuel rest
      some (value :: more, rest)
    | ']' :: rest => some ([value], rest)
    | _ => none

def entries? : Nat → Chars → Option (List (Option String × Data) × Chars)
  | 0, _ => none
  | fuel + 1, s => do
    match skipBlanks s with
    | '"' :: rest =>
      let (key, rest) ← string? rest
      match skipBlanks rest with
      | ':' :: rest =>
        let (value, rest) ← value? fuel rest
        match skipBlanks rest with
        | ',' :: rest =>
          let (more, rest) ← entries? fuel rest
          some ((key, value) :: more, rest)
        | '}' :: rest => some ([(key, value)], rest)
        | _ => none
      | _ => none
    | _ => none

end

/-- Reads a whole text. A list or a table and its parts take at most two steps for each
character. -/
def read? (s : Chars) : Option Data :=
  match value? (2 * s.length + 2) s with
  | some (value, rest) => if (skipBlanks rest).isEmpty then some value else none
  | none => none

end Json
end XamlFormat
