import XamlFormat.Text.Blank

/-! Settings that take one of a few named values. -/
namespace XamlFormat

/-- One value of a choice: its name, the other spellings that settings files may use, and what it
stands for. -/
structure Choice (α : Type) where
  name : String
  aliases : List String
  value : α

namespace Choice

variable {α : Type}

/-- A word as the command line compares it: trimmed, in lower case, with underscores for hyphens. -/
def normalize (word : String) : String :=
  String.ofList ((Text.trim word.toList).map fun c => if c = '-' then '_' else c.toLower)

def ofWord? (choices : List (Choice α)) (word : String) : Option α :=
  (choices.find? fun c => c.name == normalize word).map Choice.value

/-- The value of a name or an alias in a settings file, which has to be spelled exactly. -/
def ofName? (choices : List (Choice α)) (name : String) : Option α :=
  (choices.find? fun c => c.name == name || c.aliases.contains name).map Choice.value

def nameOf [BEq α] (choices : List (Choice α)) (value : α) : String :=
  ((choices.find? fun c => c.value == value).map Choice.name).getD ""

def rejection (choices : List (Choice α)) (word : String) : String :=
  "invalid value '" ++ word ++ "', expected one of: " ++
    String.intercalate ", " (choices.map Choice.name)

end Choice

/-- How the lines of a wrapped start tag are indented where tabs are used. -/
inductive ContinuationStyle where
  /-- Tabs as far as they reach, then spaces. -/
  | mixed
  /-- Tabs for the depth of the element, spaces for the alignment. -/
  | spaces
deriving DecidableEq, Repr

namespace ContinuationStyle

def choices : List (Choice ContinuationStyle) :=
  [⟨"mixed", ["Mixed"], mixed⟩, ⟨"spaces", ["Spaces"], spaces⟩]

end ContinuationStyle

/-- Whether the attributes of the root element go on lines of their own. -/
inductive RootWrap where
  /-- As for every other element. -/
  | standard
  | always
  | never
deriving DecidableEq, Repr

namespace RootWrap

def choices : List (Choice RootWrap) :=
  [⟨"default", ["Default"], standard⟩, ⟨"always", ["Always"], always⟩,
    ⟨"never", ["Never"], never⟩]

end RootWrap

/-- Where the visual state groups go among their siblings. -/
inductive StateGroupPlace where
  | keep
  | first
  | last
deriving DecidableEq, Repr

namespace StateGroupPlace

def choices : List (Choice StateGroupPlace) :=
  [⟨"none", ["None"], keep⟩, ⟨"first", ["First"], first⟩, ⟨"last", ["Last"], last⟩]

end StateGroupPlace

inductive SetterOrder where
  | keep
  | property
  | targetName
  | targetNameThenProperty
deriving DecidableEq, Repr

namespace SetterOrder

def choices : List (Choice SetterOrder) :=
  [⟨"none", ["None"], keep⟩, ⟨"property", ["Property"], property⟩,
    ⟨"target_name", ["TargetName"], targetName⟩,
    ⟨"target_name_then_property", ["TargetNameThenProperty"], targetNameThenProperty⟩]

end SetterOrder

inductive ThicknessStyle where
  | keep
  | comma
  | space
deriving DecidableEq, Repr

namespace ThicknessStyle

def choices : List (Choice ThicknessStyle) :=
  [⟨"none", ["None"], keep⟩, ⟨"comma", ["Comma"], comma⟩, ⟨"space", ["Space"], space⟩]

end ThicknessStyle

inductive NewLineStyle where
  | system
  | unix
  | windows
deriving DecidableEq, Repr

namespace NewLineStyle

def choices : List (Choice NewLineStyle) :=
  [⟨"system", ["System", "Default"], system⟩, ⟨"unix", ["Unix"], unix⟩,
    ⟨"windows", ["Windows"], windows⟩]

/-- The characters that end a line. The system ends its lines with a line feed. -/
def chars : NewLineStyle → Chars
  | system => ['\n']
  | unix => ['\n']
  | windows => ['\r', '\n']

end NewLineStyle
end XamlFormat
