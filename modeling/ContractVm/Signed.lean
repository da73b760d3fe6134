import ContractVm.Word

/-! # Signed numbers

A signed number is a sign and a magnitude below `2 ^ 256`; zero has no sign. Words encode signed
numbers in two's complement. `Signed.value` is the integer a signed number stands for. -/

namespace ContractVm

structure Signed where
  negative : Bool
  magnitude : Word
  /-- Zero is not negative. -/
  nonzero : negative = true → magnitude ≠ 0
  deriving DecidableEq

namespace Signed

/-- The number with a given sign and magnitude; a zero magnitude drops the sign. -/
def ofParts (negative : Bool) (magnitude : Word) : Signed :=
  { negative := negative && magnitude != 0
    magnitude
    nonzero := by
      intro h
      simp only [Bool.and_eq_true, bne_iff_ne, ne_eq] at h
      exact h.2 }

def value (s : Signed) : Int :=
  if s.negative then -(s.magnitude.toNat : Int) else s.magnitude.toNat

def ofWord (w : Word) : Signed :=
  if w.msb then ofParts true (-w) else ofParts false w

/-- The two's complement encoding, modulo `2 ^ 256`. -/
def toWord (s : Signed) : Word :=
  if s.negative then -s.magnitude else s.magnitude

/-- The quotient rounded toward zero; zero for a zero divisor. -/
def div (x y : Signed) : Signed :=
  if y.magnitude = 0 then ofParts false 0
  else ofParts (x.negative != y.negative) (x.magnitude / y.magnitude)

/-- The remainder with the sign of the dividend; zero for a zero divisor. -/
def rem (x y : Signed) : Signed :=
  if y.magnitude = 0 then ofParts false 0
  else ofParts x.negative (x.magnitude % y.magnitude)

/-- The order by sign first and then by magnitude, which counts downwards below zero. -/
def compare (x y : Signed) : Ordering :=
  match x.negative, y.negative with
  | false, true => .gt
  | true, false => .lt
  | false, false => Ord.compare x.magnitude y.magnitude
  | true, true => Ord.compare y.magnitude x.magnitude

end Signed

end ContractVm
