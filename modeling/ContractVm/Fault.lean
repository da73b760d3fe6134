import ContractVm.Capability
import ContractVm.Word

/-! # Faults

The ways in which running code can fail, their wording, and the reason text that a revert may
carry: the selector of `Error(string)`, the offset of the text, its length and its UTF-8 bytes. -/

namespace ContractVm

/-- Why a run, or one operation of it, failed. -/
inductive Fault where
  | insufficientGas
  | stackOverflow
  | stackUnderflow
  | memoryOutOfBounds (reason : String)
  | invalidJump (destination : Nat)
  | unknownAddress (address : Address)
  | missingAccount (address : Address)
  | duplicateAccount (address : Address)
  | permissionDenied (address : Address) (capability : Capability)
  /-- A deliberate failure that hands `output` to the caller. -/
  | reverted (output : Bytes)
  | aborted
  | illegalWrite
  | integerOverflow
  | inputOutOfBounds
  | returnDataOutOfBounds
  | callDepthExceeded
  | invalidBlock (height : Nat)
  | blockOutOfRange (height : Nat)
  | insufficientBalance
  | unknownOpcode (byte : UInt8)
  /-- A native contract rejected its input. -/
  | native (reason : String)
  /-- A collaborator that holds state failed. -/
  | state (reason : String)
  deriving Repr, DecidableEq

namespace Fault

def message : Fault → String
  | .insufficientGas => "insufficient gas"
  | .stackOverflow => "data stack overflow"
  | .stackUnderflow => "data stack underflow"
  | .memoryOutOfBounds reason => "memory out of bounds: " ++ reason
  | .invalidJump destination => "invalid jump destination: " ++ toString destination
  | .unknownAddress address => "unknown address: " ++ Address.toHex address
  | .missingAccount address => "account " ++ Address.toHex address ++ " does not exist"
  | .duplicateAccount address => "account already exists at " ++ Address.toHex address
  | .permissionDenied address capability =>
    "account " ++ Address.toHex address ++ " does not have capability " ++ capability.name
  | .reverted _ => "execution reverted"
  | .aborted => "execution aborted"
  | .illegalWrite => "illegal write in read-only context"
  | .integerOverflow => "integer overflow"
  | .inputOutOfBounds => "input out of bounds"
  | .returnDataOutOfBounds => "return data out of bounds"
  | .callDepthExceeded => "call stack overflow"
  | .invalidBlock height => "invalid block number: " ++ toString height
  | .blockOutOfRange height => "block number " ++ toString height ++ " out of range"
  | .insufficientBalance => "insufficient balance"
  | .unknownOpcode byte => "unknown opcode: 0x" ++ Hex.encode [byte]
  | .native reason => "native contract error: " ++ reason
  | .state reason => "state error: " ++ reason

/-- What a fault hands to the caller; only a revert has any. -/
def output : Fault → Bytes
  | .reverted output => output
  | _ => []

def isRevert : Fault → Bool
  | .reverted _ => true
  | _ => false

def reasonSelector : Bytes := [0x08, 0xc3, 0x79, 0xa0]

/-- The number in the 32 bytes at `start`, if they are there and it fits in 64 bits. -/
def numberAt? (start : Nat) (data : Bytes) : Option Nat := do
  let stop ← add64? start 32
  let bytes ← Bytes.slice? start stop data
  if bytes.value < bound64 then some bytes.value else none

/-- The reason text in the output of a revert. Positions are numbers of 64 bits, and sums that do not
fit are refused like positions past the end. -/
def reasonIn? (output : Bytes) : Option String := do
  guard (output.take 4 = reasonSelector)
  let data := output.drop 4
  let offset ← numberAt? 0 data
  let length ← numberAt? offset data
  let start ← add64? offset 32
  let stop ← add64? start length
  let text ← Bytes.slice? start stop data
  String.fromUTF8? text.toByteArray

def reason? : Fault → Option String
  | .reverted output => reasonIn? output
  | _ => none

end Fault

end ContractVm
