import ContractVm.Bytes
import ContractVm.Opcode

/-! # Bytecode

Code is a byte string split from its start into instructions, each followed by the immediate bytes
it announces. `Code.isPushData` tells the offsets inside such immediate data and
`Code.isJumpDest` the offsets a jump may land on. -/

namespace ContractVm

/-- Analysed bytecode: the bytes for indexed access, and one bit for each of them, 64 to a limb, which
is set where an instruction starts. -/
structure Code where
  bytes : Array UInt8
  starts : Array UInt64
  deriving Repr

namespace Code

def bit (offset : Nat) : UInt64 :=
  1 <<< UInt64.ofNat (offset % 64)

def marked (limbs : Array UInt64) (offset : Nat) : Bool :=
  limbs.getD (offset / 64) 0 &&& bit offset != 0

def mark (limbs : Array UInt64) (offset : Nat) : Array UInt64 :=
  limbs.modify (offset / 64) fun limb => limb ||| bit offset

/-- Marks the instructions from an offset on, which starts one if the code reaches that far. -/
def markStarts (bytes : Array UInt8) (offset : Nat) (limbs : Array UInt64) : Array UInt64 :=
  if h : offset < bytes.size then
    markStarts bytes (offset + 1 + Opcode.immediateSize bytes[offset]) (mark limbs offset)
  else limbs
termination_by bytes.size - offset

def ofBytes (bs : Bytes) : Code :=
  { bytes := bs.toArray
    starts := markStarts bs.toArray 0 (Array.replicate ((bs.length + 63) / 64) 0) }

def toBytes (code : Code) : Bytes :=
  code.bytes.toList

def size (code : Code) : Nat :=
  code.bytes.size

/-- The byte at an offset; past the end it is zero, the byte that stops the machine. -/
def byteAt (code : Code) (offset : Nat) : UInt8 :=
  code.bytes.getD offset 0

/-- Whether an offset holds immediate data. Offsets past the end do not. -/
def isPushData (code : Code) (offset : Nat) : Bool :=
  decide (offset < code.size) && !marked code.starts offset

/-- Whether a jump may land on an offset: it holds a destination mark that is an instruction. -/
def isJumpDest (code : Code) (offset : Nat) : Bool :=
  code.byteAt offset == 0x5b && !code.isPushData offset

/-- The `size` bytes after an offset, with zeros past the end of the code. -/
def immediate (code : Code) (offset size : Nat) : Bytes :=
  (List.range size).map fun i => code.byteAt (offset + 1 + i)

end Code

end ContractVm
