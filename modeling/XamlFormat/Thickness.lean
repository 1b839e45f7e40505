import XamlFormat.Markup.Node
import XamlFormat.Settings.Basic
import XamlFormat.Text.Letter

/-! Thickness values: one to four numbers, separated by commas or by blanks. -/
namespace XamlFormat
namespace Thickness

def dropSign : Chars → Chars
  | '+' :: rest => rest
  | '-' :: rest => rest
  | rest => rest

/-- What follows the digits, and behind a point more digits, that a number starts with. -/
def afterMantissa? (s : Chars) : Option Chars :=
  let rest := s.dropWhile Text.isDecimal
  if (s.takeWhile Text.isDecimal).isEmpty then
    match rest with
    | '.' :: t =>
      if (t.takeWhile Text.isDecimal).isEmpty then none else some (t.dropWhile Text.isDecimal)
    | _ => none
  else
    match rest with
    | '.' :: t => some (t.dropWhile Text.isDecimal)
    | t => some t

def isExponent : Chars → Bool
  | [] => true
  | c :: rest =>
    let digits := dropSign rest
    (c == 'e' || c == 'E') && !digits.isEmpty && digits.all Text.isDecimal

/-- A number with decimal digits of any script. -/
def isComponent (s : Chars) : Bool :=
  match afterMantissa? (dropSign s) with
  | some rest => isExponent rest
  | none => false

/-- The components of a value: between commas if there are any, otherwise between blanks. -/
def components (value : Chars) : List Chars :=
  if value.contains ',' then (Text.pieces ',' value).map Text.trim else Text.words value

def separator? : ThicknessStyle → Option Chars
  | .keep => none
  | .comma => some [',']
  | .space => some [' ']

/-- The value with the separators of the style; none where it is no thickness or stays as it is. -/
def normalize? (style : ThicknessStyle) (value : Chars) : Option Chars :=
  match separator? style with
  | none => none
  | some separator =>
    let parts := components value
    if 1 ≤ parts.length ∧ parts.length ≤ 4 ∧ parts.all isComponent then
      some (Text.joinWith separator parts)
    else none

end Thickness

namespace Attribute

def normalizeThickness (s : Settings) (a : Attribute) : Attribute :=
  if a.extension.isNone && s.thicknessAttributes.contains a.name.written then
    { a with value := (Thickness.normalize? s.thicknessStyle a.value).getD a.value }
  else a

end Attribute

namespace Tag

def normalizeThickness (s : Settings) (t : Tag) : Tag :=
  { t with attributes := t.attributes.map (Attribute.normalizeThickness s) }

end Tag
end XamlFormat
