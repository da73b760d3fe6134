/-! # Opcodes

The instructions of the machine, grouped by what they do with their operands: functions of one, two
or three words, queries that push one word, families indexed by a size or depth, and the rest one by
one. `Opcode.ofByte?` is the byte table and `Opcode.name` the mnemonics. -/

namespace ContractVm

inductive Unary where
  | isZero | not
  deriving Repr, DecidableEq

/-- Functions of two words; the first operand is the top of the stack. -/
inductive Binary where
  | add | mul | sub | div | sdiv | mod | smod | exp | lt | gt
  | slt | sgt | eq | and | or | xor | shl | shr | sar
  deriving Repr, DecidableEq

inductive Ternary where
  | addMod | mulMod
  deriving Repr, DecidableEq

inductive Query where
  | address | origin | caller | callValue | callDataSize | codeSize | gasPrice
  | returnDataSize | coinbase | timestamp | blockHeight | gasLimit | programCounter | memorySize | gas
  deriving Repr, DecidableEq

inductive CallVariant where
  | plain | code | delegate | static
  deriving Repr, DecidableEq

inductive CreateVariant where
  | sequenced | salted
  deriving Repr, DecidableEq

inductive Opcode where
  | unary (op : Unary)
  | binary (op : Binary)
  | ternary (op : Ternary)
  | query (op : Query)
  | stop | signExtend | byte | sha3 | balance | callDataLoad | callDataCopy | codeCopy
  | extCodeSize | extCodeCopy | returnDataCopy | extCodeHash | blockHash | pop | mload | mstore
  | mstore8 | sload | sstore | jump | jumpIf | jumpDest | ret | revert
  | invalid | selfDestruct
  /-- Pushes the `n + 1` bytes that follow. -/
  | push (n : Fin 32)
  /-- Copies item `n + 1`, counted from the top. -/
  | dup (n : Fin 16)
  /-- Exchanges the top with the item `n + 1` below it. -/
  | swap (n : Fin 16)
  /-- Emits a log with `n` topics. -/
  | log (n : Fin 5)
  | create (variant : CreateVariant)
  | call (variant : CallVariant)
  deriving Repr, DecidableEq

namespace Opcode

/-- The instruction a byte stands for outside the indexed families. -/
def ofTable? : Nat → Option Opcode
  | 0x00 => some .stop
  | 0x01 => some (.binary .add)
  | 0x02 => some (.binary .mul)
  | 0x03 => some (.binary .sub)
  | 0x04 => some (.binary .div)
  | 0x05 => some (.binary .sdiv)
  | 0x06 => some (.binary .mod)
  | 0x07 => some (.binary .smod)
  | 0x08 => some (.ternary .addMod)
  | 0x09 => some (.ternary .mulMod)
  | 0x0a => some (.binary .exp)
  | 0x0b => some .signExtend
  | 0x10 => some (.binary .lt)
  | 0x11 => some (.binary .gt)
  | 0x12 => some (.binary .slt)
  | 0x13 => some (.binary .sgt)
  | 0x14 => some (.binary .eq)
  | 0x15 => some (.unary .isZero)
  | 0x16 => some (.binary .and)
  | 0x17 => some (.binary .or)
  | 0x18 => some (.binary .xor)
  | 0x19 => some (.unary .not)
  | 0x1a => some .byte
  | 0x1b => some (.binary .shl)
  | 0x1c => some (.binary .shr)
  | 0x1d => some (.binary .sar)
  | 0x20 => some .sha3
  | 0x30 => some (.query .address)
  | 0x31 => some .balance
  | 0x32 => some (.query .origin)
  | 0x33 => some (.query .caller)
  | 0x34 => some (.query .callValue)
  | 0x35 => some .callDataLoad
  | 0x36 => some (.query .callDataSize)
  | 0x37 => some .callDataCopy
  | 0x38 => some (.query .codeSize)
  | 0x39 => some .codeCopy
  | 0x3a => some (.query .gasPrice)
  | 0x3b => some .extCodeSize
  | 0x3c => some .extCodeCopy
  | 0x3d => some (.query .returnDataSize)
  | 0x3e => some .returnDataCopy
  | 0x3f => some .extCodeHash
  | 0x40 => some .blockHash
  | 0x41 => some (.query .coinbase)
  | 0x42 => some (.query .timestamp)
  | 0x43 => some (.query .blockHeight)
  | 0x45 => some (.query .gasLimit)
  | 0x50 => some .pop
  | 0x51 => some .mload
  | 0x52 => some .mstore
  | 0x53 => some .mstore8
  | 0x54 => some .sload
  | 0x55 => some .sstore
  | 0x56 => some .jump
  | 0x57 => some .jumpIf
  | 0x58 => some (.query .programCounter)
  | 0x59 => some (.query .memorySize)
  | 0x5a => some (.query .gas)
  | 0x5b => some .jumpDest
  | 0xf0 => some (.create .sequenced)
  | 0xf1 => some (.call .plain)
  | 0xf2 => some (.call .code)
  | 0xf3 => some .ret
  | 0xf4 => some (.call .delegate)
  | 0xf5 => some (.create .salted)
  | 0xfa => some (.call .static)
  | 0xfd => some .revert
  | 0xfe => some .invalid
  | 0xff => some .selfDestruct
  | _ => none

def ofByte? (byte : UInt8) : Option Opcode :=
  let n := byte.toNat
  if h : 0x60 ≤ n ∧ n < 0x80 then some (.push ⟨n - 0x60, by omega⟩)
  else if h : 0x80 ≤ n ∧ n < 0x90 then some (.dup ⟨n - 0x80, by omega⟩)
  else if h : 0x90 ≤ n ∧ n < 0xa0 then some (.swap ⟨n - 0x90, by omega⟩)
  else if h : 0xa0 ≤ n ∧ n < 0xa5 then some (.log ⟨n - 0xa0, by omega⟩)
  else ofTable? n

def name : Opcode → String
  | .stop => "STOP"
  | .binary .add => "ADD"
  | .binary .mul => "MUL"
  | .binary .sub => "SUB"
  | .binary .div => "DIV"
  | .binary .sdiv => "SDIV"
  | .binary .mod => "MOD"
  | .binary .smod => "SMOD"
  | .ternary .addMod => "ADDMOD"
  | .ternary .mulMod => "MULMOD"
  | .binary .exp => "EXP"
  | .signExtend => "SIGNEXTEND"
  | .binary .lt => "LT"
  | .binary .gt => "GT"
  | .binary .slt => "SLT"
  | .binary .sgt => "SGT"
  | .binary .eq => "EQ"
  | .unary .isZero => "ISZERO"
  | .binary .and => "AND"
  | .binary .or => "OR"
  | .binary .xor => "XOR"
  | .unary .not => "NOT"
  | .byte => "BYTE"
  | .binary .shl => "SHL"
  | .binary .shr => "SHR"
  | .binary .sar => "SAR"
  | .sha3 => "SHA3"
  | .query .address => "ADDRESS"
  | .balance => "BALANCE"
  | .query .origin => "ORIGIN"
  | .query .caller => "CALLER"
  | .query .callValue => "CALLVALUE"
  | .callDataLoad => "CALLDATALOAD"
  | .query .callDataSize => "CALLDATASIZE"
  | .callDataCopy => "CALLDATACOPY"
  | .query .codeSize => "CODESIZE"
  | .codeCopy => "CODECOPY"
  | .query .gasPrice => "GASPRICE"
  | .extCodeSize => "EXTCODESIZE"
  | .extCodeCopy => "EXTCODECOPY"
  | .query .returnDataSize => "RETURNDATASIZE"
  | .returnDataCopy => "RETURNDATACOPY"
  | .extCodeHash => "EXTCODEHASH"
  | .blockHash => "BLOCKHASH"
  | .query .coinbase => "COINBASE"
  | .query .timestamp => "TIMESTAMP"
  | .query .blockHeight => "BLOCKHEIGHT"
  | .query .gasLimit => "GASLIMIT"
  | .pop => "POP"
  | .mload => "MLOAD"
  | .mstore => "MSTORE"
  | .mstore8 => "MSTORE8"
  | .sload => "SLOAD"
  | .sstore => "SSTORE"
  | .jump => "JUMP"
  | .jumpIf => "JUMPI"
  | .query .programCounter => "PC"
  | .query .memorySize => "MSIZE"
  | .query .gas => "GAS"
  | .jumpDest => "JUMPDEST"
  | .create .sequenced => "CREATE"
  | .call .plain => "CALL"
  | .call .code => "CALLCODE"
  | .ret => "RETURN"
  | .call .delegate => "DELEGATECALL"
  | .create .salted => "CREATE2"
  | .call .static => "STATICCALL"
  | .revert => "REVERT"
  | .invalid => "INVALID"
  | .selfDestruct => "SELFDESTRUCT"
  | .push n => "PUSH" ++ toString (n.val + 1)
  | .dup n => "DUP" ++ toString (n.val + 1)
  | .swap n => "SWAP" ++ toString (n.val + 1)
  | .log n => "LOG" ++ toString n.val

/-- How many bytes of immediate data a code byte announces, whether or not it is an instruction. -/
def immediateSize (byte : UInt8) : Nat :=
  if 0x60 ≤ byte.toNat ∧ byte.toNat < 0x80 then byte.toNat - 0x5f else 0

def pushSize : Opcode → Nat
  | .push n => n.val + 1
  | _ => 0

/-- Which item a copying instruction copies, counted from 1 at the top; 0 for the others. -/
def dupDepth : Opcode → Nat
  | .dup n => n.val + 1
  | _ => 0

/-- How far below the top an exchanging instruction reaches; 0 for the others. -/
def swapDepth : Opcode → Nat
  | .swap n => n.val + 1
  | _ => 0

def logTopics : Opcode → Nat
  | .log n => n.val
  | _ => 0

end Opcode

end ContractVm
