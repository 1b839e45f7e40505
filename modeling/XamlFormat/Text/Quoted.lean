import XamlFormat.Text.Visible

/-! Text in quotation marks, and text for a terminal. In both, characters that would not show are
written out by their code points. -/
namespace XamlFormat
namespace Text

def codeDigits (c : Char) : Chars := Nat.toDigits 16 c.toNat

def codeInBraces (c : Char) : Chars := "\\u\x7b".toList ++ codeDigits c ++ ['\x7d']

def quotedChar (c : Char) : Chars :=
  match c with
  | '\x00' => ['\\', '0']
  | '\t' => ['\\', 't']
  | '\r' => ['\\', 'r']
  | '\n' => ['\\', 'n']
  | '\\' => ['\\', '\\']
  | '"' => ['\\', '"']
  | c => if isVisible c then [c] else codeInBraces c

def quoted (s : Chars) : Chars := '"' :: s.flatMap quotedChar ++ ['"']

/-- Characters that could start a command to a terminal. -/
def isTerminalControl (c : Char) : Bool :=
  c == '\x07' || c == '\x08' || c == '\x0c' || c == '\x1b' || c == '\x7f' ||
    (0x80 ≤ c.toNat && c.toNat ≤ 0x9f)

/-- A character for a terminal: ASCII controls have two hexadecimal digits, others are in braces. -/
def terminalChar (c : Char) : Chars :=
  if !isTerminalControl c then [c]
  else if c.toNat < 0x80 then
    ['\\', 'x'] ++ Nat.toDigits 16 (c.toNat / 16) ++ Nat.toDigits 16 (c.toNat % 16)
  else codeInBraces c

def forTerminal (s : Chars) : Chars := s.flatMap terminalChar

end Text
end XamlFormat
