import XamlFormat.DesignTime
import XamlFormat.Extension.Reader
import XamlFormat.Layout.Printer
import XamlFormat.Markup.Reader
import XamlFormat.Order.Attributes
import XamlFormat.Order.Children
import XamlFormat.Thickness

/-! Styling: a text is read as a document, its extensions are read, its attributes and children are
put in order, and it is written again. -/
namespace XamlFormat

/-- Reads the attribute values that are extensions. Values that are no extension stay as they are; a
value nested too deep ends the work, and the offset of its attribute is reported. -/
def annotateAttributes : List Attribute → List Attribute × Option Nat
  | [] => ([], none)
  | a :: rest =>
    if Extension.looksLike a.value then
      match Extension.read a.value with
      | .error .tooDeep => (a :: rest, some a.offset)
      | .error _ =>
        let more := annotateAttributes rest
        (a :: more.1, more.2)
      | .ok e =>
        let more := annotateAttributes rest
        ({ a with extension := some e } :: more.1, more.2)
    else
      let more := annotateAttributes rest
      (a :: more.1, more.2)

mutual

def Node.annotate : Node → Node × Option Nat
  | .element tag children =>
    let (attributes, fault) := annotateAttributes tag.attributes
    let tag := { tag with attributes }
    match fault with
    | some offset => (.element tag children, some offset)
    | none =>
      let (children, fault) := annotateList children
      (.element tag children, fault)
  | .text v sp => (.text v sp, none)
  | .raw k c sp => (.raw k c sp, none)

def annotateList : List Node → List Node × Option Nat
  | [] => ([], none)
  | n :: rest =>
    let (n, fault) := n.annotate
    match fault with
    | some offset => (n :: rest, some offset)
    | none =>
      let (rest, fault) := annotateList rest
      (n :: rest, fault)

end

namespace Document

/-- Reads the extensions of the document, in document order. Where one is nested too deep the result
says so, and holds the extensions read up to there. -/
def annotate (source : Chars) (d : Document) : Document × Option Fault :=
  let (nodes, fault) := annotateList d.nodes
  ({ d with nodes },
    fault.map fun offset => .tooDeep Extension.maxDepth (Place.ofOffset source offset))

def tidyAttributes (s : Settings) (d : Document) : Document :=
  let design := d.declaredQualifiers s.designTimeNamespaces
  let stripped := if s.removeDesignTimeReferences then d.stripDesignTime design else d
  let rules := OrderingRules.ofGroups s.attributeGroups
  stripped.mapTags fun t => (t.normalizeThickness s).orderAttributes rules s design

def applyRules (s : Settings) (d : Document) : Document := (d.tidyAttributes s).arrange s

/-- Reads a document, with its extensions if they are to be formatted. -/
def readWith (s : Settings) (source : Chars) : Except Fault Document :=
  match read source with
  | .error e => .error (Fault.ofDefect source e)
  | .ok d =>
    if s.formatExtensions then
      match d.annotate source with
      | (d, none) => .ok d
      | (_, some fault) => .error fault
    else .ok d

end Document

def style (s : Settings) (dialect : Dialect) (text : Chars) : Except Fault Chars :=
  if s.suppressProcessing then .ok text
  else
    let source := Text.unifyLineEnds text
    match Document.readWith s source with
    | .error e => .error e
    | .ok d =>
      let d := d.applyRules s
      if d.inRange source s dialect then .ok (d.print source s dialect) else .error .overflow

/-- Whether styling changes a text. -/
inductive Outcome where
  | unchanged
  | changed (styled : Chars)
deriving DecidableEq, Repr

def check (s : Settings) (dialect : Dialect) (text : Chars) : Except Fault Outcome :=
  match style s dialect text with
  | .error e => .error e
  | .ok styled => .ok (if styled = text then .unchanged else .changed styled)

end XamlFormat
