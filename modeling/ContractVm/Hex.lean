import ContractVm.Bytes

/-! # Hexadecimal text

Printing writes two lower-case digits for every byte. Reading takes text as its UTF-8 bytes, accepts
digits of either case, and reports the first thing that is wrong: an odd number of bytes, or else
the first byte that is no digit. -/

namespace ContractVm

namespace Hex

inductive Malformed where
  | oddLength
  | invalidByte (byte : UInt8) (position : Nat)
  deriving Repr, DecidableEq

def digit (n : Nat) : Char :=
  if n < 10 then Char.ofNat (48 + n) else Char.ofNat (87 + n)

def encode (bs : Bytes) : String :=
  String.ofList (bs.flatMap fun b => [digit (b.toNat / 16), digit (b.toNat % 16)])

def digitValue? (b : UInt8) : Option Nat :=
  let n := b.toNat
  if 48 ≤ n ∧ n ≤ 57 then some (n - 48)
  else if 97 ≤ n ∧ n ≤ 102 then some (n - 87)
  else if 65 ≤ n ∧ n ≤ 70 then some (n - 55)
  else none

def readDigit (position : Nat) (b : UInt8) : Except Malformed Nat :=
  match digitValue? b with
  | some n => .ok n
  | none => .error (.invalidByte b position)

def readPairs (position : Nat) : Bytes → Except Malformed Bytes
  | [] => .ok []
  | [_] => .error .oddLength
  | high :: low :: rest => do
    let h ← readDigit position high
    let l ← readDigit (position + 1) low
    let tail ← readPairs (position + 2) rest
    return UInt8.ofNat (16 * h + l) :: tail

/-- The bytes written as `digits`. An odd number of digits is reported before a bad digit. -/
def decodeBytes (digits : Bytes) : Except Malformed Bytes :=
  if digits.length % 2 = 1 then .error .oddLength else readPairs 0 digits

def decode (text : String) : Except Malformed Bytes :=
  decodeBytes text.toUTF8.toList

/-- The UTF-8 bytes of a text without one leading `0x`. -/
def withoutMark (text : String) : Bytes :=
  match text.toUTF8.toList with
  | 0x30 :: 0x78 :: rest => rest
  | all => all

def ofNat (n : Nat) : String :=
  String.ofList (Nat.toDigits 16 n)

/-- How a byte is quoted in a complaint: as the character with that code, in single quotes, with
control characters, the no-break space and the soft hyphen escaped. -/
def quote (b : UInt8) : String :=
  let n := b.toNat
  let body :=
    if n = 0 then "\\0"
    else if n = 9 then "\\t"
    else if n = 10 then "\\n"
    else if n = 13 then "\\r"
    else if n = 39 then "\\'"
    else if n = 92 then "\\\\"
    else if n < 32 ∨ (127 ≤ n ∧ n ≤ 160) ∨ n = 173 then "\\u\x7b" ++ ofNat n ++ "\x7d"
    else String.singleton (Char.ofNat n)
  "'" ++ body ++ "'"

def Malformed.message : Malformed → String
  | .oddLength => "Odd number of digits"
  | .invalidByte byte position =>
    "Invalid character " ++ quote byte ++ " at position " ++ toString position

end Hex

end ContractVm
