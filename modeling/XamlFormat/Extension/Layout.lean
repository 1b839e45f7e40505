import XamlFormat.Extension.Basic
import XamlFormat.Settings.Basic

/-! Extensions over several lines, with one argument to a line. -/
namespace XamlFormat

structure ExtensionLine where
  /-- Columns to the right of the opening brace of the outermost extension. -/
  column : Nat
  text : Chars
deriving DecidableEq, Repr

namespace ExtensionLine

def shift (columns : Nat) (l : ExtensionLine) : ExtensionLine :=
  { l with column := columns + l.column }

/-- Puts `lead` in front of the first line. The other lines keep their columns. -/
def startWith (lead : Chars) : List ExtensionLine → List ExtensionLine
  | [] => []
  | l :: ls => { l with text := lead ++ l.text } :: ls

def endWith (c : Char) : List ExtensionLine → List ExtensionLine
  | [] => []
  | [l] => [{ l with text := l.text ++ [c] }]
  | l :: m :: ls => l :: endWith c (m :: ls)

def flushFirst : List ExtensionLine → List ExtensionLine
  | [] => []
  | l :: ls => { l with column := 0 } :: ls

/-- The lines behind a label, which moves all but the first of them to the right. -/
def labelled (label : Chars) : List ExtensionLine → List ExtensionLine
  | [] => []
  | l :: ls => { l with text := label ++ l.text } :: ls.map (shift label.length)

end ExtensionLine

namespace Extension

/-- Whether the extension is written with one argument to a line: it has several, its name is not
exempt, and there is either no limit on the characters of a line or it is too long for it. -/
def splits (s : Settings) (e : Extension) : Bool :=
  s.formatExtensions && e.arguments.length > 1 && !s.noNewLineExtensions.contains e.name &&
    (s.maxAttributeCharactersPerLine == 0 || e.print.length > s.maxAttributeCharactersPerLine)

end Extension

mutual

def Value.lines (s : Settings) : Value → List ExtensionLine
  | .literal text => [⟨0, text⟩]
  | .extension name arguments =>
    if Extension.splits s ⟨name, arguments⟩ then
      ExtensionLine.flushFirst
        (ExtensionLine.startWith ('{' :: name ++ [' '])
          (argumentLines s (name.length + 2) arguments))
    else [⟨0, (Value.extension name arguments).print⟩]

/-- The lines of an argument, with columns counted from its start. -/
def Argument.lines (s : Settings) : Argument → List ExtensionLine
  | .mk none v => v.lines s
  | .mk (some k) v => ExtensionLine.labelled (k ++ ['=']) (v.lines s)

/-- The lines of the arguments of a split extension, each argument starting at `column`. A comma
ends each but the last, which the closing brace ends. -/
def argumentLines (s : Settings) (column : Nat) : List Argument → List ExtensionLine
  | [] => []
  | a :: rest =>
    ExtensionLine.endWith (if rest.isEmpty then '}' else ',')
        ((a.lines s).map (ExtensionLine.shift column)) ++
      argumentLines s column rest

end

namespace Extension

def lines (s : Settings) (e : Extension) : List ExtensionLine := e.toValue.lines s

end Extension
end XamlFormat
