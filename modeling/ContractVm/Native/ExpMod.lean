import ContractVm.Arithmetic
import ContractVm.Gas

/-! # Modular exponentiation as a contract

The input is three 32-byte lengths and then a base, an exponent and a modulus of those lengths, all
big-endian. The output is the power's remainder at the length of the modulus; a zero modulus gives
zero bytes. -/

namespace ContractVm

namespace ExpMod

def tooShort (available length : Nat) : Fault :=
  .native ("expmod: input of " ++ toString available ++ " bytes is shorter than "
    ++ toString length)

def lengthTooLarge : Fault :=
  .native "expmod: length does not fit in 64 bits"

def split (length : Nat) (bs : Bytes) : Except Fault (Bytes × Bytes) :=
  if bs.length < length then .error (tooShort bs.length length)
  else .ok (bs.take length, bs.drop length)

def lengthAt (index : Nat) (header : Bytes) : Except Fault Nat :=
  let n := Bytes.value ((header.drop (32 * index)).take 32)
  if n < bound64 then .ok n else .error lengthTooLarge

def basePrice : Nat := 1

/-- The price of each product of a word of the base, one of the exponent and one of the modulus. -/
def wordPrice : Nat := 1

/-- The price for operands of given lengths. Every step of it is cut off at the largest amount of
gas. -/
def price (base exponent modulus : Nat) : Nat :=
  let pairs := capGas (wordsFor base * wordsFor exponent)
  let products := capGas (pairs * wordsFor modulus)
  capGas (capGas (products * wordPrice) + basePrice)

/-- The output for given operands, at a given length: the remainder in as few bytes as it takes, at
the end of zero bytes. -/
def power (length : Nat) (base exponent modulus : Bytes) : Bytes :=
  let m := modulus.value
  if m = 0 then List.replicate length 0
  else Bytes.alignRight length (Bytes.shortest (powMod base.value exponent.value m))

def lengths (header : Bytes) : Except Fault (Nat × Nat × Nat) := do
  let base ← lengthAt 0 header
  let exponent ← lengthAt 1 header
  let modulus ← lengthAt 2 header
  return (base, exponent, modulus)

def operands (baseLength exponentLength modulusLength : Nat) (body : Bytes) :
    Except Fault (Bytes × Bytes × Bytes) := do
  let (base, body) ← split baseLength body
  let (exponent, body) ← split exponentLength body
  let (modulus, _) ← split modulusLength body
  return (base, exponent, modulus)

def run (input : Bytes) (gas : Nat) : Except Fault (Bytes × Nat) := do
  let (header, body) ← split 96 input
  let (baseLength, exponentLength, modulusLength) ← lengths header
  let required := price baseLength exponentLength modulusLength
  if gas < required then throw .insufficientGas
  let (base, exponent, modulus) ← operands baseLength exponentLength modulusLength body
  return (power modulusLength base exponent modulus, gas - required)

end ExpMod

end ContractVm
