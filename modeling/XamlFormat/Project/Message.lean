import XamlFormat.Text.Quoted

/-! Messages to the user. -/
namespace XamlFormat

inductive Level where
  | debug
  | info
  | warning
  | error
deriving DecidableEq, Repr

namespace Level

def rank : Level → Nat
  | debug => 0
  | info => 1
  | warning => 2
  | error => 3

/-- The name of a level, in five columns. -/
def label : Level → String
  | debug => "DEBUG"
  | info => " INFO"
  | warning => " WARN"
  | error => "ERROR"

end Level

structure Message where
  level : Level
  text : String
deriving DecidableEq, Repr

namespace Message

def debug (text : String) : Message := ⟨.debug, text⟩

def info (text : String) : Message := ⟨.info, text⟩

def warning (text : String) : Message := ⟨.warning, text⟩

def error (text : String) : Message := ⟨.error, text⟩

def line (m : Message) : String :=
  m.level.label ++ " " ++ String.ofList (Text.forTerminal m.text.toList) ++ "\n"

def isShown (threshold : Level) (m : Message) : Bool := threshold.rank ≤ m.level.rank

end Message
end XamlFormat
