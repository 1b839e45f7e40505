import XamlFormat.Markup.Marker
import XamlFormat.Settings.Basic

/-! Design-time references: attributes that only designer tools read, the declarations of their
qualifiers, and the lists that tell other tools to ignore them. -/
namespace XamlFormat

namespace Document

/-- The qualifiers that are declared anywhere for one of the namespaces. -/
def declaredQualifiers (d : Document) (namespaces : List Chars) : List Chars :=
  (d.tags.flatMap fun t =>
    t.attributes.filterMap fun a =>
      if namespaces.contains a.value then a.name.declared? else none).eraseDups

end Document

mutual

/-- The qualifiers in the parts of a node that are copied from the source. -/
def Node.copiedQualifiers (copied : Bool) : Node → List Chars
  | .element tag children =>
    (if copied then tag.qualifiers else []) ++
      copiedQualifiersList (copied || tag.preserved?.isSome) false children
  | .text _ _ => []
  | .raw _ _ _ => []

/-- As above for siblings, of which those in a suppressed region are copied too. -/
def copiedQualifiersList (copied suppressed : Bool) : List Node → List Chars
  | [] => []
  | n :: rest =>
    let next := if suppressed then n.marker? != some .on else n.marker? == some .off
    n.copiedQualifiers (copied || suppressed) ++ copiedQualifiersList copied next rest

end

namespace QName

def isQualifiedBy (n : QName) (qualifiers : List Chars) : Bool :=
  match n.qualifier with
  | some q => qualifiers.contains q
  | none => false

def declares (n : QName) (qualifiers : List Chars) : Bool :=
  match n.declared? with
  | some q => qualifiers.contains q
  | none => false

end QName

namespace Tag

def filterAttributes (p : Attribute → Bool) (t : Tag) : Tag :=
  { t with attributes := t.attributes.filter p }

def dropQualified (qualifiers : List Chars) (t : Tag) : Tag :=
  t.filterAttributes fun a => !a.name.isQualifiedBy qualifiers

def dropDeclarations (qualifiers : List Chars) (t : Tag) : Tag :=
  t.filterAttributes fun a => !a.name.declares qualifiers

end Tag

/-- A list of qualifiers to ignore, without those that are not used; none where nothing is left. An
attribute that is no such list stays. -/
def Attribute.dropIgnored? (compatibility unused : List Chars) (a : Attribute) : Option Attribute :=
  if a.name.base == "Ignorable".toList && a.name.isQualifiedBy compatibility then
    let kept := (Text.words a.value).filter fun w => !unused.contains w
    if kept.isEmpty then none else some { a with value := Text.joinWith [' '] kept }
  else some a

namespace Tag

def dropIgnored (compatibility unused : List Chars) (t : Tag) : Tag :=
  { t with attributes := t.attributes.filterMap (Attribute.dropIgnored? compatibility unused) }

end Tag

namespace Document

def mapTags (f : Tag → Tag) (d : Document) : Document := { d with nodes := mapTagsList f d.nodes }

def copiedQualifiers (d : Document) : List Chars := copiedQualifiersList false false d.nodes

/-- The design-time qualifiers that nothing uses once the attributes are gone: no element and
nothing in a copied part. -/
def unusedQualifiers (design : List Chars) (d : Document) : List Chars :=
  let copied := d.copiedQualifiers
  let elements := d.tags.filterMap fun t => t.name.qualifier
  design.filter fun q => !copied.contains q && !elements.contains q

/-- Removes the attributes with the given qualifiers, and then every declaration that has lost its
use: those of the qualifiers themselves, their entries in lists of qualifiers to ignore, and the
declarations that only such lists needed. -/
def stripDesignTime (design : List Chars) (d : Document) : Document :=
  if design.isEmpty then d
  else
    let compatibility := d.declaredQualifiers [compatibilityNamespace]
    let copied := d.copiedQualifiers
    let unused := d.unusedQualifiers design
    let stripped := d.mapTags fun t =>
      ((t.dropQualified design).dropDeclarations unused).dropIgnored compatibility unused
    let used := copied ++ stripped.tags.flatMap Tag.qualifiers
    stripped.mapTags (Tag.dropDeclarations (compatibility.filter fun q => !used.contains q))

def countQualified (design : List Chars) (d : Document) : Nat :=
  (d.tags.flatMap Tag.attributes).countP fun a => a.name.isQualifiedBy design

end Document
end XamlFormat
