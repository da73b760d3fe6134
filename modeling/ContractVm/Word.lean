import ContractVm.Hex

/-! # Words and addresses

A word is a 256-bit number and an address a 160-bit number. Both are written as big-endian byte
strings of a fixed length and as hexadecimal text with a `0x` mark. -/

namespace ContractVm

/-- The 256-bit operand of the machine: stack items, storage keys and values, amounts, digests. -/
abbrev Word := BitVec 256

abbrev Address := BitVec 160

inductive Misspelled where
  | hex (reason : Hex.Malformed)
  | length (expected actual : Nat)
  deriving Repr, DecidableEq

def Misspelled.message (noun : String) : Misspelled → String
  | .hex reason => "invalid hex string: " ++ reason.message
  | .length expected actual =>
    "invalid " ++ noun ++ " length: expected " ++ toString expected ++ " bytes, got "
      ++ toString actual

def Misspelled.qualifiedMessage (noun : String) (reason : Misspelled) : String :=
  noun ++ " error: " ++ reason.message noun

def readExact (size : Nat) (bs : Bytes) : Except Misspelled Nat :=
  if bs.length = size then .ok bs.value else .error (.length size bs.length)

/-- The number spelled by the hexadecimal digits of exactly `size` bytes, with or without a mark. -/
def readHex (size : Nat) (text : String) : Except Misspelled Nat :=
  match Hex.decodeBytes (Hex.withoutMark text) with
  | .ok bs => readExact size bs
  | .error reason => .error (.hex reason)

def bound64 : Nat := 0x10000000000000000

def add64? (a b : Nat) : Option Nat :=
  if a + b < bound64 then some (a + b) else none

namespace Word

def modulus : Nat := 0x10000000000000000000000000000000000000000000000000000000000000000

/-- The number a byte string denotes, modulo `2 ^ 256`: short strings are filled up on the left and
long ones keep their last 32 bytes. -/
def ofBytes (bs : Bytes) : Word :=
  BitVec.ofNat 256 bs.value

def toBytes (w : Word) : Bytes :=
  Bytes.ofNat 32 w.toNat

@[simp] theorem length_toBytes (w : Word) : (toBytes w).length = 32 := by
  simp [toBytes]

def ofExact (bs : Bytes) : Except Misspelled Word :=
  (readExact 32 bs).map (BitVec.ofNat 256)

def ofHex (text : String) : Except Misspelled Word :=
  (readHex 32 text).map (BitVec.ofNat 256)

def toHex (w : Word) : String :=
  "0x" ++ Hex.encode (toBytes w)

def toNat64? (w : Word) : Option Nat :=
  if w.toNat < bound64 then some w.toNat else none

def ofNat64 (n : Nat) : Word :=
  BitVec.ofNat 256 n

def ofBool (b : Bool) : Word :=
  if b then 1 else 0

/-- The byte at `index`, counted from the most significant one; zero past the last. -/
def byteAt (index : Nat) (w : Word) : UInt8 :=
  (toBytes w).getD index 0

def debug (w : Word) : String :=
  "Word(" ++ toHex w ++ ")"

end Word

namespace Address

def toBytes (a : Address) : Bytes :=
  Bytes.ofNat 20 a.toNat

@[simp] theorem length_toBytes (a : Address) : (toBytes a).length = 20 := by
  simp [toBytes]

def ofBytes (bs : Bytes) : Address :=
  BitVec.ofNat 160 bs.value

def ofExact (bs : Bytes) : Except Misspelled Address :=
  (readExact 20 bs).map (BitVec.ofNat 160)

def ofHex (text : String) : Except Misspelled Address :=
  (readHex 20 text).map (BitVec.ofNat 160)

def toHex (a : Address) : String :=
  "0x" ++ Hex.encode (toBytes a)

/-- The low 160 bits of a word. -/
def ofWord (w : Word) : Address :=
  w.setWidth 160

def toWord (a : Address) : Word :=
  a.setWidth 256

def debug (a : Address) : String :=
  "Address(" ++ toHex a ++ ")"

end Address

end ContractVm
