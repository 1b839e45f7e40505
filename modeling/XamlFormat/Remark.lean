import XamlFormat.Style
import XamlFormat.Text.Quoted

/-! Remarks on what styling decides without failing. They follow the work: first the extensions in
the order of the text, then the design-time attributes, then the children that stay where they
are. -/
namespace XamlFormat

inductive Remark where
  /-- A value that looks like an extension and is none. -/
  | keptValue (fault : Fault)
  /-- How many design-time attributes are gone, and the qualifiers that lose their declaration. -/
  | stripped (count : Nat) (qualifiers : List Chars)
  /-- Children whose position cannot be read. -/
  | keptOrder (fault : Fault)
deriving DecidableEq, Repr

namespace Remark

def message : Remark → String
  | keptValue fault => fault.message ++ "; keeping the value verbatim"
  | stripped count qualifiers =>
    let quoted := qualifiers.map fun q => String.ofList (Text.quoted q)
    "removed " ++ toString count ++ " design-time attributes; dropping declarations for \x7b" ++
      String.intercalate ", " quoted ++ "\x7d"
  | keptOrder fault => fault.message ++ "; leaving children in source order"

/-- The remarks on the attributes of a document, up to the first value that is nested too deep. -/
def onValues : List Attribute → List Remark
  | [] => []
  | a :: rest =>
    if Extension.looksLike a.value then
      match Extension.read a.value with
      | .error .tooDeep => []
      | .error reason =>
        keptValue (.unsupportedExtension (String.ofList a.value) reason.message) :: onValues rest
      | .ok _ => onValues rest
    else onValues rest

def onDesignTime (s : Settings) (d : Document) : List Remark :=
  let design := d.declaredQualifiers s.designTimeNamespaces
  if s.removeDesignTimeReferences && !design.isEmpty then
    [stripped (d.countQualified design) (d.unusedQualifiers design)]
  else []

def onText (s : Settings) (text : Chars) : List Remark :=
  if s.suppressProcessing then []
  else
    match Document.read (Text.unifyLineEnds text) with
    | .error _ => []
    | .ok d =>
      let values :=
        if s.formatExtensions then onValues (d.tags.flatMap Tag.attributes) else []
      let rest :=
        match Document.readWith s (Text.unifyLineEnds text) with
        | .error _ => []
        | .ok d =>
          onDesignTime s d ++ ((d.tidyAttributes s).arrangeFaults s).map keptOrder
      values ++ rest

end Remark
end XamlFormat
