import XamlFormat.Number.Integer

/-! Decimal numbers in the order of binary floating point numbers of 64 bits.

A decimal is rounded to the nearest such number, to the even one of two. The numbers are represented
by whole numbers in the same order: the magnitude is the pattern of exponent and fraction bits, and
negative numbers, negative zero included, come before all others in reverse. -/
namespace XamlFormat
namespace Number

/-- The quotient rounded to the nearest whole number, to the even one of two. -/
def roundDiv (n d : Nat) : Nat :=
  let q := n / d
  let r := n % d
  if 2 * r < d then q
  else if d < 2 * r then q + 1
  else if q % 2 = 0 then q
  else q + 1

def fractionSize : Nat := 0x10000000000000

/-- The magnitude of infinity: all exponent bits set. -/
def infinity : Nat := 2047 * fractionSize

def notANumber : Nat := infinity + fractionSize / 2

/-- The largest power of two, as an exponent, that is not above `n / d`. -/
def floorLog (n d : Nat) : Int :=
  let guess : Int := (Nat.log2 n : Int) - (Nat.log2 d : Int)
  let reaches : Bool :=
    if 0 ≤ guess then d * Nat.pow 2 guess.toNat ≤ n else d ≤ n * Nat.pow 2 (-guess).toNat
  if reaches then guess else guess - 1

/-- The magnitude of the number nearest to `n / d`. The scale is the exponent of the last bit, at
least that of the smallest number. -/
def magnitudeOfQuotient (n d : Nat) : Nat :=
  let scale : Int := max (floorLog n d - 52) (-1074)
  let fraction :=
    if 0 ≤ scale then roundDiv n (d * Nat.pow 2 scale.toNat)
    else roundDiv (n * Nat.pow 2 (-scale).toNat) d
  min ((scale + 1074).toNat * fractionSize + fraction) infinity

/-- The magnitude of the number nearest to `m * 10 ^ e`. Exponents far outside the range are settled
by the number of digits. -/
def magnitude (m : Nat) (e : Int) : Nat :=
  if m = 0 then 0
  else
    let digits : Int := (Nat.toDigits 10 m).length
    if 400 < digits + e then infinity
    else if digits + e < -400 then 0
    else if 0 ≤ e then magnitudeOfQuotient (m * Nat.pow 10 e.toNat) 1
    else magnitudeOfQuotient m (Nat.pow 10 (-e).toNat)

/-- The exponent behind a mantissa, if the text is one; an empty text leaves the mantissa as it
is. -/
def exponent? (s : Chars) : Option Int :=
  match s with
  | [] => some 0
  | c :: rest =>
    if c = 'e' ∨ c = 'E' then
      match rest with
      | '-' :: digits => (ofDigits? digits).map fun n => -(n : Int)
      | '+' :: digits => (ofDigits? digits).map fun n => (n : Int)
      | digits => (ofDigits? digits).map fun n => (n : Int)
    else none

/-- The magnitude of an unsigned decimal: digits with an optional point on either side or between
them, and an optional exponent. -/
def decimal? (s : Chars) : Option Nat :=
  let whole := s.takeWhile Char.isDigit
  let rest := s.dropWhile Char.isDigit
  let fraction := match rest with
    | '.' :: t => t.takeWhile Char.isDigit
    | _ => []
  let rest := match rest with
    | '.' :: t => t.dropWhile Char.isDigit
    | t => t
  match ofDigits? (whole ++ fraction), exponent? rest with
  | some m, some e => some (magnitude m (e - fraction.length))
  | _, _ => none

def unsigned? (s : Chars) : Option Nat :=
  let word := s.map Char.toLower
  if word = "inf".toList ∨ word = "infinity".toList then some infinity
  else if word = "nan".toList then some notANumber
  else decimal? s

/-- The place of a written number in the order of binary floating point numbers. -/
def binary64? (s : Chars) : Option Int :=
  match s with
  | '-' :: rest => (unsigned? rest).map fun n => -(n : Int) - 1
  | '+' :: rest => (unsigned? rest).map fun n => (n : Int)
  | rest => (unsigned? rest).map fun n => (n : Int)

end Number
end XamlFormat
