import XamlFormat.Text.Basic

/-! Names of elements and attributes, with the namespace qualifier in front of the first colon. -/
namespace XamlFormat

/-- A name such as `x:Name`, `Grid.Row` or `Button`. -/
structure QName where
  qualifier : Option Chars
  base : Chars
deriving DecidableEq, Repr

namespace QName

/-- Splits a written name at its first colon. A colon in front of everything qualifies nothing. -/
def ofChars (written : Chars) : QName :=
  match Text.cutAt ':' written with
  | some (q :: qs, base) => ⟨some (q :: qs), base⟩
  | _ => ⟨none, written⟩

def written (n : QName) : Chars :=
  match n.qualifier with
  | some q => q ++ ':' :: n.base
  | none => n.base

@[simp] theorem written_ofChars (s : Chars) : (ofChars s).written = s := by
  unfold ofChars
  split
  · rename_i q qs base h
    simp [written, Text.eq_of_cutAt h]
  · rfl

def length (n : QName) : Nat := n.written.length

/-- Names such as `Grid.RowDefinitions` set a property of the owning element. -/
def isProperty (n : QName) : Bool := n.base.contains '.'

/-- `xmlns` and the names that it qualifies declare namespaces. -/
def isNamespaceDeclaration (n : QName) : Bool :=
  match n.qualifier with
  | some q => q == "xmlns".toList
  | none => n.base == "xmlns".toList

/-- The qualifier that a declaration `xmlns:q` introduces. -/
def declared? (n : QName) : Option Chars :=
  if n.qualifier = some "xmlns".toList then some n.base else none

end QName
end XamlFormat
