import XamlFormat.Settings.Basic

/-! White space in front of a line. -/
namespace XamlFormat

structure Indent where
  /-- Columns for each level of nesting. -/
  size : Nat
  tabs : Bool
  style : ContinuationStyle
deriving DecidableEq, Repr

namespace Indent

/-- A level of nesting is at least one column wide. -/
def make (size : Nat) (tabs : Bool) (style : ContinuationStyle) : Indent :=
  ⟨max size 1, tabs, style⟩

def ofSettings (s : Settings) : Indent :=
  make s.indentSize s.indentWithTabs s.continuationStyle

def level (i : Indent) (depth : Nat) : Chars :=
  if i.tabs then List.replicate depth '\t' else List.replicate (depth * i.size) ' '

/-- In front of a line that is aligned `extra` columns further right than its element. -/
def continuation (i : Indent) (depth extra : Nat) : Chars :=
  let total := depth * i.size + extra
  if i.tabs then
    match i.style with
    | .mixed => List.replicate (total / i.size) '\t' ++ List.replicate (total % i.size) ' '
    | .spaces => List.replicate depth '\t' ++ List.replicate extra ' '
  else List.replicate total ' '

/-- Whether the columns of `level` can be counted in 64 bits. -/
def levelInRange (i : Indent) (depth : Nat) : Bool :=
  i.tabs || depth * i.size < Settings.wordSize

def continuationInRange (i : Indent) (depth extra : Nat) : Bool :=
  (if i.tabs && i.style == .spaces then extra else depth * i.size + extra) < Settings.wordSize

end Indent
end XamlFormat
