import ContractVm.Opcode
import ContractVm.Signed

/-! # Word functions

The functions of the arithmetic, comparison and bitwise instructions. Unsigned operations work
modulo `2 ^ 256` and give zero for a zero divisor; shift amounts of 256 and more move every bit
out. -/

namespace ContractVm

/-- The remainder of `base ^ exponent` by `modulus`, by repeated squaring. -/
def powMod (base exponent modulus : Nat) : Nat :=
  if exponent = 0 then 1 % modulus
  else
    let half := powMod (base * base % modulus) (exponent / 2) modulus
    if exponent % 2 = 1 then half * base % modulus else half
termination_by exponent

namespace Word

/-- A word as a number of 512 bits, in which no sum or product of two words wraps around. -/
def wide (w : Word) : BitVec 512 :=
  w.setWidth 512

def low (n : BitVec 512) : Word :=
  n.setWidth 256

def wideAddMod (x y m : Word) : BitVec 512 :=
  (wide x + wide y) % wide m

def wideMulMod (x y m : Word) : BitVec 512 :=
  wide x * wide y % wide m

/-- The remainder of `x + y` by `m`; zero when `m` is. -/
def addMod (x y m : Word) : Word :=
  if m = 0 then 0 else low (wideAddMod x y m)

def mulMod (x y m : Word) : Word :=
  if m = 0 then 0 else low (wideMulMod x y m)

def exp (x y : Word) : Word :=
  BitVec.ofNat 256 (powMod x.toNat y.toNat modulus)

/-- The remainder by `y`; zero when `y` is. -/
def mod (x y : Word) : Word :=
  if y = 0 then 0 else x % y

def shl (shift value : Word) : Word :=
  if shift.toNat < 256 then value <<< shift.toNat else 0

def shr (shift value : Word) : Word :=
  if shift.toNat < 256 then value >>> shift.toNat else 0

def sar (shift value : Word) : Word :=
  if shift.toNat < 256 then
    if value.msb then ~~~(~~~value >>> shift.toNat) else value >>> shift.toNat
  else if value.msb then BitVec.allOnes 256 else 0

/-- Copies bit `bits - 1` into all the bits above it. Where there is no such bit, or none above it, the
word stays as it is. -/
def signExtend (value : Word) (bits : Nat) : Word :=
  if bits = 0 ∨ 256 ≤ bits then value
  else
    let low := BitVec.allOnes 256 >>> (256 - bits)
    if value.getLsbD (bits - 1) then value ||| ~~~low else value &&& low

end Word

def Unary.eval : Unary → Word → Word
  | .isZero, x => Word.ofBool (x == 0)
  | .not, x => ~~~x

def Binary.eval : Binary → Word → Word → Word
  | .add, x, y => x + y
  | .mul, x, y => x * y
  | .sub, x, y => x - y
  | .div, x, y => x / y
  | .sdiv, x, y => ((Signed.ofWord x).div (Signed.ofWord y)).toWord
  | .mod, x, y => Word.mod x y
  | .smod, x, y => ((Signed.ofWord x).rem (Signed.ofWord y)).toWord
  | .exp, x, y => Word.exp x y
  | .lt, x, y => Word.ofBool (x.ult y)
  | .gt, x, y => Word.ofBool (y.ult x)
  | .slt, x, y => Word.ofBool ((Signed.ofWord x).compare (Signed.ofWord y) == .lt)
  | .sgt, x, y => Word.ofBool ((Signed.ofWord x).compare (Signed.ofWord y) == .gt)
  | .eq, x, y => Word.ofBool (x == y)
  | .and, x, y => x &&& y
  | .or, x, y => x ||| y
  | .xor, x, y => x ^^^ y
  | .shl, x, y => Word.shl x y
  | .shr, x, y => Word.shr x y
  | .sar, x, y => Word.sar x y

def Ternary.eval : Ternary → Word → Word → Word → Word
  | .addMod, x, y, z => Word.addMod x y z
  | .mulMod, x, y, z => Word.mulMod x y z

end ContractVm
