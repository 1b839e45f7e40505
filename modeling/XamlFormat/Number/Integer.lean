import XamlFormat.Text.Basic

/-! Whole numbers as attribute values hold them. -/
namespace XamlFormat
namespace Number

/-- The number that ASCII digits stand for; at least one is needed. -/
def ofDigits? (s : Chars) : Option Nat :=
  if !s.isEmpty && s.all Char.isDigit then
    some (s.foldl (fun n c => n * 10 + (c.toNat - '0'.toNat)) 0)
  else none

/-- Numbers of 64 bits without a sign are below this. -/
def unsignedLimit : Nat := 0x10000000000000000

/-- Numbers of 64 bits with a sign are below this, and at least its negative. -/
def signedLimit : Nat := 0x8000000000000000

def int64? (s : Chars) : Option Int :=
  match s with
  | '-' :: digits =>
    (ofDigits? digits).bind fun n => if n ≤ signedLimit then some (-(n : Int)) else none
  | '+' :: digits => (ofDigits? digits).bind fun n => if n < signedLimit then some (n : Int) else none
  | digits => (ofDigits? digits).bind fun n => if n < signedLimit then some (n : Int) else none

def word64? (s : Chars) : Option Nat :=
  let digits := match s with
    | '+' :: digits => digits
    | digits => digits
  (ofDigits? digits).bind fun n => if n < unsignedLimit then some n else none

end Number
end XamlFormat
