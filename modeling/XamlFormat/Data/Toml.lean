import XamlFormat.Data.Basic
import XamlFormat.Data.Json
import XamlFormat.Number.Binary64

/-! Reading TOML. -/
namespace XamlFormat
namespace Toml

/-! ### Blanks, comments and line ends -/

def isBlank (c : Char) : Bool := c == ' ' || c == '\t'

def skipBlanks (s : Chars) : Chars := s.dropWhile isBlank

/-- Characters of comments and of strings that are not escapes: no control characters but tabs. -/
def isPlain (c : Char) : Bool := c == '\t' || (c.toNat ≥ 0x20 && c.toNat != 0x7f)

def afterLineEnd? : Chars → Option Chars
  | '\n' :: rest => some rest
  | '\r' :: '\n' :: rest => some rest
  | _ => none

def skipComment (s : Chars) : Chars :=
  match s with
  | '#' :: rest => rest.dropWhile isPlain
  | s => s

/-- What follows the end of a line, where only blanks and a comment may stand before it. -/
def endOfLine? (s : Chars) : Option Chars :=
  match skipComment (skipBlanks s) with
  | [] => some []
  | rest => afterLineEnd? rest

/-- What follows blanks, comments and line ends; each round takes a character. -/
def skipTrivia : Nat → Chars → Chars
  | 0, s => s
  | fuel + 1, s =>
    match skipComment (skipBlanks s) with
    | [] => []
    | rest =>
      match afterLineEnd? rest with
      | some rest => skipTrivia fuel rest
      | none => rest

/-! ### Strings -/

def hex? (value : Nat) : Nat → Chars → Option (Nat × Chars)
  | 0, s => some (value, s)
  | n + 1, c :: rest => (Json.hexDigit? c).bind fun d => hex? (value * 16 + d) n rest
  | _ + 1, [] => none

def ofCode? (n : Nat) : Option Char := if n.isValidChar then some (Char.ofNat n) else none

def escape? : Chars → Option (Char × Chars)
  | 'b' :: rest => some ('\x08', rest)
  | 't' :: rest => some ('\t', rest)
  | 'n' :: rest => some ('\n', rest)
  | 'f' :: rest => some ('\x0c', rest)
  | 'r' :: rest => some ('\r', rest)
  | '"' :: rest => some ('"', rest)
  | '\\' :: rest => some ('\\', rest)
  | 'u' :: rest => (hex? 0 4 rest).bind fun (n, rest) => (ofCode? n).map fun c => (c, rest)
  | 'U' :: rest => (hex? 0 8 rest).bind fun (n, rest) => (ofCode? n).map fun c => (c, rest)
  | _ => none

def basic? : Nat → Chars → Option (Chars × Chars)
  | 0, _ => none
  | _, [] => none
  | _ + 1, '"' :: rest => some ([], rest)
  | fuel + 1, '\\' :: rest => do
    let (c, rest) ← escape? rest
    let (more, rest) ← basic? fuel rest
    some (c :: more, rest)
  | fuel + 1, c :: rest => do
    if !isPlain c then none
    let (more, rest) ← basic? fuel rest
    some (c :: more, rest)

def literal? (s : Chars) : Option (Chars × Chars) :=
  match Text.cutAt '\'' s with
  | some (text, rest) => if text.all isPlain then some (text, rest) else none
  | none => none

/-- The quotes at the end of a string over several lines: three close it, and up to two more in
front of them belong to it. -/
def closing? (quote : Char) (s : Chars) : Option (Chars × Chars) :=
  let count := (s.takeWhile (· == quote)).length
  if count < 3 then none
  else
    let inner := min (count - 3) 2
    some (List.replicate inner quote, s.drop (inner + 3))

/-- What follows a backslash at the end of a line: the blanks and line ends up to the next
character. -/
def afterContinuation? (s : Chars) : Option Chars :=
  match afterLineEnd? (skipBlanks s) with
  | none => none
  | some rest => some (skipWhite (rest.length + 1) rest)
where
  skipWhite : Nat → Chars → Chars
    | 0, s => s
    | fuel + 1, s =>
      match afterLineEnd? (skipBlanks s) with
      | some rest => skipWhite fuel rest
      | none => skipBlanks s

def multiline? (quote : Char) : Nat → Chars → Option (Chars × Chars)
  | 0, _ => none
  | _, [] => none
  | fuel + 1, c :: rest =>
    match closing? quote (c :: rest) with
    | some result => some result
    | none =>
      if c = '\\' ∧ quote = '"' then
        match afterContinuation? rest with
        | some rest => multiline? quote fuel rest
        | none => do
          let (c, rest) ← escape? rest
          let (more, rest) ← multiline? quote fuel rest
          some (c :: more, rest)
      else
        match afterLineEnd? (c :: rest) with
        | some rest => (multiline? quote fuel rest).map fun p => ('\n' :: p.1, p.2)
        | none =>
          if isPlain c then (multiline? quote fuel rest).map fun p => (c :: p.1, p.2) else none

def dropFirstLineEnd (s : Chars) : Chars := (afterLineEnd? s).getD s

def string? : Chars → Option (Chars × Chars)
  | '"' :: '"' :: '"' :: rest => multiline? '"' (rest.length + 1) (dropFirstLineEnd rest)
  | '\'' :: '\'' :: '\'' :: rest => multiline? '\'' (rest.length + 1) (dropFirstLineEnd rest)
  | '"' :: rest => basic? (rest.length + 1) rest
  | '\'' :: rest => literal? rest
  | _ => none

/-! ### Keys -/

def isBareKeyChar (c : Char) : Bool := c.isAlphanum || c == '_' || c == '-'

def simpleKey? (s : Chars) : Option (String × Chars) :=
  match s with
  | '"' :: rest => (basic? (rest.length + 1) rest).map fun p => (String.ofList p.1, p.2)
  | '\'' :: rest => (literal? rest).map fun p => (String.ofList p.1, p.2)
  | s =>
    let bare := s.takeWhile isBareKeyChar
    if bare.isEmpty then none else some (String.ofList bare, s.dropWhile isBareKeyChar)

/-- How many parts a key may have, and how many lists and tables a value may lie in. -/
def maxNesting : Nat := 79

/-- A key of at most `room` parts between dots, and what follows it and the blanks behind it. -/
def keyWithin? : Nat → Chars → Option (List String × Chars)
  | 0, _ => none
  | room + 1, s => do
    let (part, rest) ← simpleKey? (skipBlanks s)
    match skipBlanks rest with
    | '.' :: rest =>
      let (more, rest) ← keyWithin? room rest
      some (part :: more, rest)
    | rest => some ([part], rest)

def key? (s : Chars) : Option (List String × Chars) := keyWithin? maxNesting s

/-! ### Numbers and dates -/

/-- Digits that single underscores may separate. -/
def isDigitRun (isDigit : Char → Bool) (s : Chars) : Bool :=
  (Text.pieces '_' s).all fun piece => !piece.isEmpty && piece.all isDigit

def isDecimalRun (s : Chars) : Bool := isDigitRun Char.isDigit s

def digits (s : Chars) : Chars := s.filter (· != '_')

def valueIn (base : Nat) (s : Chars) : Nat :=
  (digits s).foldl (fun n c => n * base + (Json.hexDigit? c).getD 0) 0

def dropSign : Chars → Chars
  | '+' :: rest => rest
  | '-' :: rest => rest
  | rest => rest

/-- Digits without a superfluous zero in front. -/
def isWhole (s : Chars) : Bool := isDecimalRun s && (s.head? != some '0' || s.length == 1)

/-- A whole number of 64 bits with a sign. -/
def integer? (s : Chars) : Option Data :=
  let based (base : Nat) (isDigit : Char → Bool) (rest : Chars) : Option Data :=
    if isDigitRun isDigit rest && valueIn base rest < Number.signedLimit then
      some (.natural (valueIn base rest))
    else none
  match s with
  | '0' :: 'x' :: rest => based 16 (fun c => (Json.hexDigit? c).isSome) rest
  | '0' :: 'o' :: rest => based 8 (fun c => '0' ≤ c && c ≤ '7') rest
  | '0' :: 'b' :: rest => based 2 (fun c => c == '0' || c == '1') rest
  | s =>
    let n := valueIn 10 (dropSign s)
    if !isWhole (dropSign s) then none
    else if s.head? == some '-' then
      if n = 0 then some (.natural 0) else if n ≤ Number.signedLimit then some .other else none
    else if n < Number.signedLimit then some (.natural n)
    else none

def isExponent : Chars → Bool
  | c :: rest => (c == 'e' || c == 'E') && isDecimalRun (dropSign rest)
  | [] => false

def isFloat (s : Chars) : Bool :=
  let body := dropSign s
  if body = "inf".toList ∨ body = "nan".toList then true
  else
    let whole := body.takeWhile fun c => c.isDigit || c == '_'
    isWhole whole &&
      match body.drop whole.length with
      | '.' :: rest =>
        let fraction := rest.takeWhile fun c => c.isDigit || c == '_'
        let tail := rest.drop fraction.length
        isDecimalRun fraction && (tail.isEmpty || isExponent tail)
      | rest => isExponent rest

/-- Whether a float that is written in digits is larger than all finite ones. -/
def isOverflow (s : Chars) : Bool :=
  s.head? != some '-' && Number.decimal? (digits (dropSign s)) == some Number.infinity

def pair? (low high : Nat) : Chars → Option (Nat × Chars)
  | a :: b :: rest =>
    if a.isDigit && b.isDigit then
      let n := valueIn 10 [a, b]
      if low ≤ n && n ≤ high then some (n, rest) else none
    else none
  | _ => none

def daysIn (year month : Nat) : Nat :=
  if month = 2 then
    if year % 4 = 0 ∧ (year % 100 ≠ 0 ∨ year % 400 = 0) then 29 else 28
  else if month = 4 ∨ month = 6 ∨ month = 9 ∨ month = 11 then 30
  else 31

def afterDate? (s : Chars) : Option Chars := do
  let year := s.take 4
  if year.length != 4 || !year.all Char.isDigit then none
  match s.drop 4 with
  | '-' :: rest =>
    let (month, rest) ← pair? 1 12 rest
    match rest with
    | '-' :: rest =>
      let (day, rest) ← pair? 1 31 rest
      if day ≤ daysIn (valueIn 10 year) month then some rest else none
    | _ => none
  | _ => none

def afterTime? (s : Chars) : Option Chars := do
  let (_, rest) ← pair? 0 23 s
  match rest with
  | ':' :: rest =>
    let (_, rest) ← pair? 0 59 rest
    match rest with
    | ':' :: rest =>
      let (_, rest) ← pair? 0 60 rest
      match rest with
      | '.' :: rest =>
        if (rest.takeWhile Char.isDigit).isEmpty then none else some (rest.dropWhile Char.isDigit)
      | rest => some rest
    | _ => none
  | _ => none

def isOffset : Chars → Bool
  | [] => true
  | ['Z'] => true
  | ['z'] => true
  | c :: rest =>
    (c == '+' || c == '-') &&
      match pair? 0 23 rest with
      | some (_, ':' :: rest) =>
        match pair? 0 59 rest with
        | some (_, []) => true
        | _ => false
      | _ => false

def isMoment (s : Chars) : Bool :=
  match afterDate? s with
  | some [] => true
  | some (c :: rest) =>
    (c == 'T' || c == 't' || c == ' ') &&
      match afterTime? rest with
      | some rest => isOffset rest
      | none => false
  | none => afterTime? s == some []

def isWordChar (c : Char) : Bool :=
  c.isAlphanum || c == '_' || c == '+' || c == '-' || c == '.' || c == ':'

/-- The characters of a number, a date or a name of a value. A single space may stand between a date
and a time. -/
def word (s : Chars) : Chars :=
  let first := s.takeWhile isWordChar
  match afterDate? first, s.drop first.length with
  | some [], ' ' :: a :: b :: ':' :: rest =>
    if a.isDigit && b.isDigit then first ++ ' ' :: (a :: b :: ':' :: rest).takeWhile isWordChar
    else first
  | _, _ => first

def scalar? (w : Chars) : Option Data :=
  if w = "true".toList then some (.flag true)
  else if w = "false".toList then some (.flag false)
  else if isMoment w then some .other
  else if isFloat w then if isOverflow w then none else some .other
  else integer? w

/-! ### Tables -/

inductive Item where
  /-- A value that cannot be extended. -/
  | leaf (value : Data)
  /-- A table; `implicit` if only longer keys mention it, and `dotted` if those were keys of
  entries. -/
  | table (implicit dotted : Bool) (entries : List (String × Item))
  /-- A list of tables, of which the last can be extended. -/
  | tables (items : List (List (String × Item)))

abbrev Entries := List (String × Item)

def setEntry (key : String) (item : Item) : Entries → Entries
  | [] => [(key, item)]
  | (k, i) :: rest => if k = key then (k, item) :: rest else (k, i) :: setEntry key item rest

/-- Changes the entries at a path below a table, making the tables on the way. `dotted` says that
the path is part of a key of an entry; it then may not enter a table that has a header of its own. The
change learns whether its table is itself dotted. -/
def modifyAt (dotted here : Bool) (f : Bool → Entries → Option Entries) :
    List String → Entries → Option Entries
  | [], entries => f here entries
  | key :: path, entries =>
    match entries.lookup key with
    | none =>
      (modifyAt dotted dotted f path []).map fun sub =>
        setEntry key (.table true dotted sub) entries
    | some (.leaf _) => none
    | some (.table implicit d sub) =>
      if dotted && !implicit then none
      else
        (modifyAt dotted d f path sub).map fun sub => setEntry key (.table implicit d sub) entries
    | some (.tables items) =>
      match items.getLast? with
      | none => none
      | some last =>
        (modifyAt dotted false f path last).map fun sub =>
          setEntry key (.tables (items.dropLast ++ [sub])) entries

def insert? (key : List String) (value : Data) (entries : Entries) : Option Entries :=
  match key.getLast? with
  | none => none
  | some name =>
    let path := key.dropLast
    modifyAt true false
      (fun here entries =>
        if here == path.isEmpty || (entries.lookup name).isSome then none
        else some (entries ++ [(name, .leaf value)]))
      path entries

def openTable? (key : List String) (root : Entries) : Option Entries :=
  match key.getLast? with
  | none => none
  | some name =>
    modifyAt false false
      (fun _ entries =>
        match entries.lookup name with
        | none => some (entries ++ [(name, .table false false [])])
        | some (.table true false sub) => some (setEntry name (.table false false sub) entries)
        | some _ => none)
      key.dropLast root

/-- Starts a further table of a list of tables. -/
def openListTable? (key : List String) (root : Entries) : Option Entries :=
  match key.getLast? with
  | none => none
  | some name =>
    modifyAt false false
      (fun _ entries =>
        match entries.lookup name with
        | none => some (entries ++ [(name, .tables [[]])])
        | some (.tables items) => some (setEntry name (.tables (items ++ [[]])) entries)
        | some _ => none)
      key.dropLast root

def insertBelow? (header key : List String) (value : Data) (root : Entries) : Option Entries :=
  modifyAt false false (fun _ entries => insert? key value entries) header root

mutual

def Item.toData : Item → Data
  | .leaf value => value
  | .table _ _ entries => .table (entriesToData entries)
  | .tables items => .list (itemsToData items)

def entriesToData : Entries → List (String × Data)
  | [] => []
  | (key, item) :: rest => (key, item.toData) :: entriesToData rest

def itemsToData : List Entries → List Data
  | [] => []
  | entries :: rest => .table (entriesToData entries) :: itemsToData rest

end

/-! ### Values and documents -/

mutual

/-- The value that starts here. `room` is how many lists and tables may lie in each other from here
on. -/
def value? : Nat → Nat → Chars → Option (Data × Chars)
  | 0, _, _ => none
  | fuel + 1, room, s =>
    match s, room with
    | '[' :: _, 0 => none
    | '{' :: _, 0 => none
    | '[' :: rest, room + 1 => (items? fuel room rest).map fun p => (.list p.1, p.2)
    | '{' :: rest, room + 1 =>
      match skipBlanks rest with
      | '}' :: rest => some (.table [], rest)
      | rest => (entries? fuel room [] rest).map fun p => (.table (entriesToData p.1), p.2)
    | c :: _, _ =>
      if c = '"' ∨ c = '\'' then (string? s).map fun p => (.text (String.ofList p.1), p.2)
      else
        let w := word s
        (scalar? w).map fun d => (d, s.drop w.length)
    | [], _ => none

def items? : Nat → Nat → Chars → Option (List Data × Chars)
  | 0, _, _ => none
  | fuel + 1, room, s =>
    match skipTrivia (s.length + 1) s with
    | ']' :: rest => some ([], rest)
    | s => do
      let (value, rest) ← value? fuel room s
      match skipTrivia (rest.length + 1) rest with
      | ',' :: rest =>
        let (more, rest) ← items? fuel room rest
        some (value :: more, rest)
      | ']' :: rest => some ([value], rest)
      | _ => none

def entries? : Nat → Nat → Entries → Chars → Option (Entries × Chars)
  | 0, _, _, _ => none
  | fuel + 1, room, seen, s => do
    let (key, rest) ← key? s
    match rest with
    | '=' :: rest =>
      let (value, rest) ← value? fuel room (skipBlanks rest)
      let seen ← insert? key value seen
      match skipBlanks rest with
      | ',' :: rest => entries? fuel room seen rest
      | '}' :: rest => some (seen, rest)
      | _ => none
    | _ => none

end

/-- Reads the lines of a document. `header` is the key of the table that entries go to; each line
takes a character. -/
def lines? : Nat → List String → Entries → Chars → Option Entries
  | 0, _, root, _ => some root
  | fuel + 1, header, root, s =>
    match skipTrivia (s.length + 1) s with
    | [] => some root
    | '[' :: '[' :: rest => do
      let (key, rest) ← key? rest
      match rest with
      | ']' :: ']' :: rest =>
        let rest ← endOfLine? rest
        let root ← openListTable? key root
        lines? fuel key root rest
      | _ => none
    | '[' :: rest => do
      let (key, rest) ← key? rest
      match rest with
      | ']' :: rest =>
        let rest ← endOfLine? rest
        let root ← openTable? key root
        lines? fuel key root rest
      | _ => none
    | s => do
      let (key, rest) ← key? s
      match rest with
      | '=' :: rest =>
        let (value, rest) ← value? (2 * rest.length + 2) maxNesting (skipBlanks rest)
        let rest ← endOfLine? rest
        let root ← insertBelow? header key value root
        lines? fuel header root rest
      | _ => none

/-- Reads a whole text, behind a byte order mark if there is one. -/
def read? (s : Chars) : Option Data :=
  let s := match s with
    | '\ufeff' :: rest => rest
    | s => s
  (lines? (s.length + 1) [] [] s).map fun root => .table (entriesToData root)

end Toml
end XamlFormat
