import XamlFormat.Markup.Name
import XamlFormat.Extension.Basic

/-! Documents as trees. Every node keeps the bytes of the source that it was read from, so that a
part of the document can be written again exactly as it stood. -/
namespace XamlFormat

structure Span where
  start : Nat
  stop : Nat
deriving DecidableEq, Repr

structure Attribute where
  name : QName
  /-- The value with its references replaced. -/
  value : Chars
  /-- Position among the attributes of the source tag. -/
  index : Nat
  /-- Byte offset of the name. -/
  offset : Nat
  /-- The ordering group that the name falls into. -/
  group : Nat := 0
  /-- The value read as a markup extension, where it is one. -/
  extension : Option Extension := none
deriving Repr

namespace Attribute

def text (a : Attribute) : Chars :=
  match a.extension with
  | some e => e.print
  | none => a.value

end Attribute

/-- What an element has besides its children. -/
structure Tag where
  name : QName
  attributes : List Attribute
  /-- Written as `<X/>` in the source. -/
  selfClosing : Bool
  /-- The attributes hold `xml:space="preserve"`. -/
  preserveSpace : Bool
  /-- Attributes before the first line break of the source tag. -/
  firstLine : Nat
  /-- Leading attributes that stay on the line of the name. -/
  pinned : Nat := 0
  span : Span
  /-- The source between the start tag and the end tag. -/
  content : Option Span := none
deriving Repr

/-- Markup that is kept as written. -/
inductive RawKind where
  | comment
  | cdata
  | instruction
  | doctype
deriving DecidableEq, Repr

inductive Node where
  | element (tag : Tag) (children : List Node)
  /-- Character data with its references replaced. -/
  | text (value : Chars) (span : Span)
  /-- For a comment and a CDATA section the text between the delimiters, otherwise all of it. -/
  | raw (kind : RawKind) (content : Chars) (span : Span)
deriving Repr

structure Document where
  nodes : List Node
  byteOrderMark : Bool
  trailingNewline : Bool
deriving Repr

namespace Tag

def attribute? (t : Tag) (name : Chars) : Option Attribute :=
  t.attributes.find? fun a => a.name.written == name

def value? (t : Tag) (name : Chars) : Option Chars :=
  (t.attribute? name).map Attribute.value

/-- The part of the source that is kept as it is because the element preserves its space. -/
def preserved? (t : Tag) : Option Span :=
  if t.preserveSpace then t.content.filter fun s => s.start < s.stop else none

def qualifiers (t : Tag) : List Chars :=
  (t.name :: t.attributes.map Attribute.name).filterMap QName.qualifier

end Tag

namespace Node

def span : Node → Span
  | element t _ => t.span
  | text _ s => s
  | raw _ _ s => s

def tag? : Node → Option Tag
  | element t _ => some t
  | _ => none

def isElement : Node → Bool
  | element _ _ => true
  | _ => false

/-- Text of XML blanks only. -/
def isBlank : Node → Bool
  | text value _ => value.all Text.isXmlBlank
  | _ => false

/-- Text that is more than blanks, or a CDATA section. -/
def isSignificant : Node → Bool
  | text value _ => !value.all Text.isXmlBlank
  | raw .cdata _ _ => true
  | _ => false

def lineBreaks : Node → Nat
  | text value _ => value.count '\n'
  | _ => 0

end Node

namespace Document

def mark : Char := '\ufeff'

/-- The root element: its tag and its children. -/
def root? (d : Document) : Option (Tag × List Node) :=
  d.nodes.findSome? fun
    | .element t children => some (t, children)
    | _ => none

end Document

mutual

def Node.mapTags (f : Tag → Tag) : Node → Node
  | .element t children => .element (f t) (mapTagsList f children)
  | .text v s => .text v s
  | .raw k c s => .raw k c s

def mapTagsList (f : Tag → Tag) : List Node → List Node
  | [] => []
  | n :: ns => n.mapTags f :: mapTagsList f ns

end

mutual

/-- The tags of an element and of everything inside it, in document order. -/
def Node.tags : Node → List Tag
  | .element t children => t :: tagsList children
  | .text _ _ => []
  | .raw _ _ _ => []

def tagsList : List Node → List Tag
  | [] => []
  | n :: ns => n.tags ++ tagsList ns

end

namespace Document

def tags (d : Document) : List Tag := tagsList d.nodes

end Document
end XamlFormat
