/-! Where bytes stop being UTF-8. -/
namespace XamlFormat
namespace Utf8

/-- The first bytes that are no text: where they start, and how many they are if the bytes do not
just end too early. -/
structure Invalid where
  offset : Nat
  length : Option Nat
deriving DecidableEq, Repr

def Invalid.message (i : Invalid) : String :=
  match i.length with
  | some n =>
    "invalid utf-8 sequence of " ++ toString n ++ " bytes from index " ++ toString i.offset
  | none => "incomplete utf-8 byte sequence from index " ++ toString i.offset

def isContinuation (b : UInt8) : Bool := 0x80 ≤ b && b ≤ 0xbf

/-- The tests for the bytes behind a first byte; none for a byte that starts no character. The test
for the second byte rules out surrogates, numbers beyond the last character, and characters that
fit into fewer bytes. -/
def tests? (first : UInt8) : Option (List (UInt8 → Bool)) :=
  if first < 0x80 then some []
  else if 0xc2 ≤ first && first ≤ 0xdf then some [isContinuation]
  else if first == 0xe0 then some [fun b => 0xa0 ≤ b && b ≤ 0xbf, isContinuation]
  else if first == 0xed then some [fun b => 0x80 ≤ b && b ≤ 0x9f, isContinuation]
  else if 0xe1 ≤ first && first ≤ 0xef then some [isContinuation, isContinuation]
  else if first == 0xf0 then
    some [fun b => 0x90 ≤ b && b ≤ 0xbf, isContinuation, isContinuation]
  else if first == 0xf4 then
    some [fun b => 0x80 ≤ b && b ≤ 0x8f, isContinuation, isContinuation]
  else if 0xf1 ≤ first && first ≤ 0xf3 then
    some [isContinuation, isContinuation, isContinuation]
  else none

/-- How many bytes are wrong, where `length` bytes of a character are right so far; no number if the
bytes end. -/
def mismatch? (length : Nat) : List (UInt8 → Bool) → List UInt8 → Option (Option Nat)
  | [], _ => none
  | _ :: _, [] => some none
  | test :: tests, b :: rest =>
    if test b then mismatch? (length + 1) tests rest else some (some length)

/-- The first invalid bytes from `offset` on; every round takes a byte. -/
def invalidFrom : Nat → Nat → List UInt8 → Option Invalid
  | 0, _, _ => none
  | _ + 1, _, [] => none
  | fuel + 1, offset, first :: rest =>
    match tests? first with
    | none => some ⟨offset, some 1⟩
    | some tests =>
      match mismatch? 1 tests rest with
      | some length => some ⟨offset, length⟩
      | none => invalidFrom fuel (offset + 1 + tests.length) (rest.drop tests.length)

def invalid? (bytes : ByteArray) : Option Invalid :=
  invalidFrom bytes.size 0 bytes.toList

end Utf8
end XamlFormat
