import XamlFormat.Extension.Basic
import XamlFormat.Text.Letter

/-! Reading markup extensions.

An extension is `{Name argument, argument, Key=value}`. Commas, equals signs and braces separate
only outside quotes and outside inner braces, a backslash takes the next character as it is, and
`{}` in front of a literal is part of the literal. -/
namespace XamlFormat
namespace Extension

/-- Extensions are nested at most this deep. -/
def maxDepth : Nat := 64

inductive Fault where
  | notExtension
  | trailingText
  | badName
  | missingBlank
  | expectedSeparator
  | missingBrace
  | missingKey
  | missingValue
  | emptyArgument
  | unterminatedLiteral
  | tooDeep
deriving DecidableEq, Repr

namespace Fault

def message : Fault → String
  | notExtension => "not a markup extension"
  | trailingText => "unexpected text after the closing brace"
  | badName => "extension name must start with a letter"
  | missingBlank => "expected whitespace after the extension name"
  | expectedSeparator => "expected ',' or '\x7d'"
  | missingBrace => "missing closing brace"
  | missingKey => "named argument without a key"
  | missingValue => "named argument without a value"
  | emptyArgument => "empty argument"
  | unterminatedLiteral => "unterminated quoted literal"
  | tooDeep => "markup extensions nested deeper than " ++ toString maxDepth

end Fault

/-- A value in braces whose first brace is not closed at once. -/
def looksLike (value : Chars) : Bool :=
  match Text.trim value with
  | '{' :: '}' :: _ => false
  | '{' :: rest => ('{' :: rest).getLast? == some '}'
  | _ => false

def isNameStart (c : Char) : Bool := Text.isLetter c || c == '_'

def isNameChar (c : Char) : Bool :=
  Text.isLetterOrNumber c || c == '_' || c == ':' || c == '.'

def skipBlanks (s : Chars) : Chars := s.dropWhile Text.isBlank

/-- The characters of a literal, up to where it ends, and the rest. A literal that a quote or a
backslash leaves open has no end.

`quote` is the quote that is open and `depth` counts the open inner braces. With `keyed` an equals
sign also ends the literal. -/
def scanLiteral (keyed : Bool) (quote : Option Char) (depth : Nat) :
    Chars → Option (Chars × Chars)
  | [] => if quote.isSome then none else some ([], [])
  | ['\\'] => none
  | '\\' :: c :: cs => (scanLiteral keyed quote depth cs).map fun p => ('\\' :: c :: p.1, p.2)
  | c :: cs =>
    match quote with
    | some q =>
      (scanLiteral keyed (if c = q then none else some q) depth cs).map fun p => (c :: p.1, p.2)
    | none =>
      if c = '\'' ∨ c = '"' then
        (scanLiteral keyed (some c) depth cs).map fun p => (c :: p.1, p.2)
      else if c = '{' then
        (scanLiteral keyed none (depth + 1) cs).map fun p => (c :: p.1, p.2)
      else if c = '}' ∧ 0 < depth then
        (scanLiteral keyed none (depth - 1) cs).map fun p => (c :: p.1, p.2)
      else if depth = 0 ∧ (c = '}' ∨ c = ',' ∨ (c = '=' ∧ keyed = true)) then some ([], c :: cs)
      else (scanLiteral keyed none depth cs).map fun p => (c :: p.1, p.2)

/-- The literal without the blanks at its end. A blank behind a backslash belongs to it. -/
def trimLiteral : Chars → Chars
  | [] => []
  | '\\' :: c :: cs => '\\' :: c :: trimLiteral cs
  | c :: cs =>
    match trimLiteral cs with
    | [] => if Text.isBlank c then [] else [c]
    | t => c :: t

def readLiteral (keyed : Bool) (s : Chars) : Except Fault (Chars × Chars) :=
  match scanLiteral keyed none 0 s with
  | none => .error .unterminatedLiteral
  | some (raw, rest) => .ok (trimLiteral raw, rest)

def opensNested : Chars → Bool
  | '{' :: '}' :: _ => false
  | '{' :: _ => true
  | _ => false

/-- How an argument starts: its key if it has one, and its literal, or none where a nested
extension is its value. -/
structure ArgumentStart where
  key : Option Chars
  literal : Option Chars
  /-- What follows the literal, or the opening brace of the nested extension. -/
  rest : Chars

def readNamedValue (key : Chars) (s : Chars) : Except Fault ArgumentStart :=
  if opensNested s then .ok ⟨some key, none, s.tail⟩
  else
    match readLiteral false s with
    | .error e => .error e
    | .ok ([], _) => .error .missingValue
    | .ok (text, rest) => .ok ⟨some key, some text, rest⟩

/-- Reads an argument up to the end of its literal or to the brace of its nested extension. -/
def readArgumentStart (s : Chars) : Except Fault ArgumentStart :=
  if opensNested s then .ok ⟨none, none, s.tail⟩
  else
    match readLiteral true s with
    | .error e => .error e
    | .ok (text, '=' :: rest) =>
      if text.isEmpty then .error .missingKey else readNamedValue text (skipBlanks rest)
    | .ok (text, rest) =>
      if text.isEmpty then .error .emptyArgument else .ok ⟨none, some text, rest⟩

def readName (s : Chars) : Except Fault (Chars × Chars) :=
  match skipBlanks s with
  | [] => .error .badName
  | c :: cs =>
    if isNameStart c then
      let rest := cs.dropWhile isNameChar
      match rest with
      | ',' :: _ => .error .missingBlank
      | _ => .ok (c :: cs.takeWhile isNameChar, skipBlanks rest)
    else .error .badName

/-- Reads the arguments of an extension at nesting `depth` up to and with its closing brace. Each
further argument and each nested extension takes a character of the text, so its length is fuel
enough; without any text there is no argument. -/
def readArguments : Nat → Nat → Chars → Except Fault (List Argument × Chars)
  | 0, _, _ => .error .emptyArgument
  | fuel + 1, depth, s => do
    let start ← readArgumentStart (skipBlanks s)
    let (value, rest) ←
      match start.literal with
      | some text => pure (Value.literal text, start.rest)
      | none => do
        if maxDepth ≤ depth then throw .tooDeep
        let (name, rest) ← readName start.rest
        match rest with
        | '}' :: rest => pure (Value.extension name [], rest)
        | rest =>
          let (arguments, rest) ← readArguments fuel (depth + 1) rest
          pure (Value.extension name arguments, rest)
    match skipBlanks rest with
    | ',' :: rest =>
      let (arguments, rest) ← readArguments fuel depth rest
      pure (⟨start.key, value⟩ :: arguments, rest)
    | '}' :: rest => pure ([⟨start.key, value⟩], rest)
    | [] => throw .missingBrace
    | _ => throw .expectedSeparator

def readBody (s : Chars) : Except Fault (Extension × Chars) := do
  let (name, rest) ← readName s
  match rest with
  | '}' :: rest => pure (⟨name, []⟩, rest)
  | rest =>
    let (arguments, rest) ← readArguments rest.length 1 rest
    pure (⟨name, arguments⟩, rest)

def read (value : Chars) : Except Fault Extension :=
  if looksLike value then
    match readBody (Text.trim value).tail with
    | .error e => .error e
    | .ok (e, []) => .ok e
    | .ok (_, _ :: _) => .error .trailingText
  else .error .notExtension

end Extension
end XamlFormat
