import XamlFormat.Text.Basic

/-! The values that settings files are made of. -/
namespace XamlFormat

/-- A value of a settings file. Tables keep all their entries in order, repeated ones too. -/
inductive Data where
  | null
  | flag (value : Bool)
  /-- A number that is whole and not negative. -/
  | natural (value : Nat)
  | text (value : String)
  | list (items : List Data)
  | table (entries : List (String × Data))
  /-- A value that no setting takes: any other number, a date, text that is not Unicode, or a table
  with such a key. -/
  | other
deriving BEq, Repr

namespace Data

def natural? : Data → Option Nat
  | natural n => some n
  | _ => none

def flag? : Data → Option Bool
  | flag b => some b
  | _ => none

def text? : Data → Option String
  | text s => some s
  | _ => none

def list? : Data → Option (List Data)
  | list items => some items
  | _ => none

def texts? (d : Data) : Option (List String) := d.list?.bind fun items => items.mapM text?

/-- The last entry of a table with this key. -/
def get? (d : Data) (key : String) : Option Data :=
  match d with
  | table entries => (entries.reverse.find? fun e => e.1 == key).map Prod.snd
  | _ => none

end Data
end XamlFormat
