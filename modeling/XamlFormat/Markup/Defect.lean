import XamlFormat.Markup.Node
import XamlFormat.Text.Place

/-! What can be wrong with a document, and how it is reported. -/
namespace XamlFormat

inductive Defect.Cause where
  | textOutsideRoot
  | doctypeAfterRoot
  | cdataOutsideRoot
  | strayEndTag
  | secondRoot
  | missingRoot
  | missingElementName
  | unterminatedStartTag (name : Chars)
  | missingBlank
  | duplicateAttribute (name : Chars)
  | unclosedElement (name : Chars)
  | mismatchedEndTag (expected found : Chars)
  | unterminatedEndTag (name : Chars)
  | unexpectedDeclaration
  | unexpectedCharacter (found : Chars)
  | missingEquals (name : Chars)
  | missingQuote (name : Chars)
  | unterminatedValue (name : Chars)
  | invalidReference (text : Chars)
  | unterminatedRaw (kind : RawKind)
  | tooDeep (limit : Nat)
deriving DecidableEq, Repr

/-- A cause and the byte offset that it is reported at. -/
structure Defect where
  offset : Nat
  cause : Defect.Cause
deriving DecidableEq, Repr

def RawKind.describe : RawKind → String
  | .comment => "comment"
  | .cdata => "CDATA section"
  | .instruction => "processing instruction"
  | .doctype => "doctype"

namespace Defect

def Cause.message : Cause → String
  | textOutsideRoot => "text outside the root element"
  | doctypeAfterRoot => "doctype after the root element"
  | cdataOutsideRoot => "CDATA section outside the root element"
  | strayEndTag => "end tag without a matching start tag"
  | secondRoot => "multiple root elements"
  | missingRoot => "missing root element"
  | missingElementName => "expected an element name after '<'"
  | unterminatedStartTag name => "unterminated start tag <" ++ String.ofList name
  | missingBlank => "expected whitespace before attribute"
  | duplicateAttribute name => "duplicate attribute " ++ String.ofList name
  | unclosedElement name => "element <" ++ String.ofList name ++ "> is never closed"
  | mismatchedEndTag expected found =>
    "expected </" ++ String.ofList expected ++ ">, found </" ++ String.ofList found ++ ">"
  | unterminatedEndTag name => "unterminated end tag </" ++ String.ofList name
  | unexpectedDeclaration => "unexpected markup declaration"
  | unexpectedCharacter found => "unexpected character '" ++ String.ofList found ++ "' in tag"
  | missingEquals name => "expected '=' after attribute " ++ String.ofList name
  | missingQuote name => "expected a quoted value for attribute " ++ String.ofList name
  | unterminatedValue name => "unterminated value for attribute " ++ String.ofList name
  | invalidReference text => "invalid reference " ++ String.ofList text
  | unterminatedRaw kind => "unterminated " ++ kind.describe
  | tooDeep limit => "nesting depth exceeds limit of " ++ toString limit

end Defect

/-- Why a document, or a part of it, is not styled. The first two end the work on the document; the
next two concern a single value or the order of some siblings, and leave that part as it is. The
last one is not reported: it ends the program. -/
inductive Fault where
  | malformed (detail : String) (place : Place)
  | tooDeep (limit : Nat) (place : Place)
  | unsupportedExtension (value reason : String)
  | ambiguousOrder (element reason : String)
  | overflow
deriving DecidableEq, Repr

namespace Fault

def message : Fault → String
  | malformed detail place =>
    "malformed markup at line " ++ toString place.line ++ ", column " ++ toString place.column ++
      ": " ++ detail
  | tooDeep limit place =>
    "nesting depth exceeds limit of " ++ toString limit ++ " at line " ++ toString place.line ++
      ", column " ++ toString place.column
  | unsupportedExtension value reason =>
    "unsupported markup extension syntax in `" ++ value ++ "`: " ++ reason
  | ambiguousOrder element reason => "cannot reorder children of <" ++ element ++ ">: " ++ reason
  | overflow => "attempt to add with overflow"

def isRecoverable : Fault → Bool
  | unsupportedExtension _ _ => true
  | ambiguousOrder _ _ => true
  | _ => false

def ofDefect (source : Chars) (d : Defect) : Fault :=
  match d.cause with
  | .tooDeep limit => tooDeep limit (Place.ofOffset source d.offset)
  | cause => malformed cause.message (Place.ofOffset source d.offset)

end Fault
end XamlFormat
