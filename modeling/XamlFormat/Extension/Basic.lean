import XamlFormat.Text.Blank

/-! Markup extensions: attribute values such as `{Binding Path, Mode={x:Static M}}`. -/
namespace XamlFormat

mutual

/-- The value of an argument: text kept as written, or an extension with a name and arguments. -/
inductive Value where
  | literal (text : Chars)
  | extension (name : Chars) (arguments : List Argument)
deriving BEq, Repr

/-- An argument, named by a key or given by its position. -/
inductive Argument where
  | mk (key : Option Chars) (value : Value)
deriving BEq, Repr

end

structure Extension where
  name : Chars
  arguments : List Argument
deriving BEq, Repr

namespace Argument

def key : Argument → Option Chars
  | mk k _ => k

def value : Argument → Value
  | mk _ v => v

/-- The key with its equals sign; nothing for an argument given by position. -/
def label (a : Argument) : Chars :=
  match a.key with
  | some k => k ++ ['=']
  | none => []

end Argument

mutual

def Value.print : Value → Chars
  | .literal text => text
  | .extension name arguments => '{' :: name ++ (printArguments [' '] arguments ++ ['}'])

def Argument.print : Argument → Chars
  | .mk (some k) v => k ++ '=' :: v.print
  | .mk none v => v.print

/-- The arguments, each behind a separator. The first one follows `lead`, the others a comma. -/
def printArguments (lead : Chars) : List Argument → Chars
  | [] => []
  | a :: rest => lead ++ (a.print ++ printArguments [',', ' '] rest)

end

namespace Extension

def toValue (e : Extension) : Value := .extension e.name e.arguments

/-- The one line form: a space after the name, a comma and a space between arguments. -/
def print (e : Extension) : Chars := e.toValue.print

end Extension
end XamlFormat
