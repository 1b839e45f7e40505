import XamlFormat.Style

/-! The contents of files. -/
namespace XamlFormat
namespace Contents

/-- The text that the bytes of a file encode in UTF-8. -/
def text? (bytes : ByteArray) : Option Chars := (String.fromUTF8? bytes).map String.toList

def ofText (text : Chars) : ByteArray := (String.ofList text).toUTF8

def notText : String := "stream did not contain valid UTF-8"

inductive Fault where
  | notText (name : String)
  | notStyled (name : String) (fault : XamlFormat.Fault)

def Fault.chain : Fault → List String
  | notText name => [name ++ ": input is not valid UTF-8", Contents.notText]
  | notStyled name fault => ["failed to style " ++ name, fault.message]

def Fault.message (f : Fault) : String := String.intercalate ": " f.chain

structure Formatted where
  output : ByteArray
  changed : Bool

def format (s : Settings) (dialect : Dialect) (name : String) (bytes : ByteArray) :
    Except Fault Formatted :=
  match text? bytes with
  | none => .error (.notText name)
  | some text =>
    match style s dialect text with
    | .error e => .error (.notStyled name e)
    | .ok styled => .ok ⟨ofText styled, styled ≠ text⟩

end Contents
end XamlFormat
