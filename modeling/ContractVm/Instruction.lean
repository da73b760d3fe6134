import ContractVm.Nested

/-! # Instructions

What each instruction does. Operands are taken from the top of the stack in the order in which they
are bound here. -/

namespace ContractVm

inductive Flow where
  /-- Goes on behind the instruction. -/
  | next
  /-- Goes on where the instruction put the program counter. -/
  | jumped
  /-- Stops with an output, or with the recorded fault if there is one. -/
  | halt (output : Bytes)
  /-- Runs a nested call and goes on behind the instruction. -/
  | invoke (invocation : Invocation)

/-- `length` bytes from an offset that does not lie past the end, with zeros past the end. -/
def copyWindow (data : Bytes) (offset length : Nat) : Except Fault Bytes :=
  if data.length < offset then .error .inputOutOfBounds
  else if indexLimit < length then
    .error (.memoryOutOfBounds ("cannot copy " ++ toString length ++ " bytes"))
  else .ok (Bytes.window offset length data)

def Query.eval (env : Env) (m : Machine) : Query → Word
  | .address => Address.toWord env.call.callee
  | .origin => Address.toWord env.call.origin
  | .caller => Address.toWord env.call.caller
  | .callValue => env.call.value
  | .callDataSize => Word.ofNat64 env.call.input.length
  | .codeSize => Word.ofNat64 env.code.size
  | .gasPrice => 0
  | .returnDataSize => Word.ofNat64 m.returnData.length
  | .coinbase => 0
  | .timestamp => Word.ofNat64 env.host.chain.time
  | .blockHeight => Word.ofNat64 env.host.chain.height
  | .gasLimit => Word.ofNat64 m.meter.gas
  | .programCounter => Word.ofNat64 m.pc
  | .memorySize => Word.ofNat64 m.memory.capacity
  | .gas => Word.ofNat64 m.meter.gas

namespace Exec

def jumpTo (env : Env) (destination : Nat) : Exec Flow := do
  if env.code.isJumpDest destination then
    modify fun m => { m with pc := destination }
  else fail (.invalidJump destination)
  return .jumped

/-- Copies a window of some data into memory. The room is made, and so the length bounded, before
the window is built. -/
def copyToMemory (env : Env) (data : Bytes) (memOffset : Word) (offset length : Nat) :
    Exec Unit := do
  charge (env.prices.copyGas length)
  if ← faulty then return
  if ← reserveMemory memOffset length then
    if let some window ← attempt (copyWindow data offset length) then
      writeMemory memOffset window

def copyData (env : Env) (data : Bytes) : Exec Unit := do
  let memOffset ← pop
  let offset ← pop64
  let length ← pop64
  copyToMemory env data memOffset offset length

/-- Copies a part of the return data, all of which must be there. -/
def copyReturnData (env : Env) : Exec Unit := do
  let memOffset ← pop
  let offset ← pop
  let length ← pop
  match Bytes.slice? offset.toNat (offset.toNat + length.toNat) (← get).returnData with
  | some data =>
    charge (env.prices.copyGas data.length)
    writeMemory memOffset data
  | none => fail .returnDataOutOfBounds

def popAccount (env : Env) (price : Nat) : Exec (Address × Option (Option Account)) := do
  let address ← popAddress
  charge price
  let account ← attempt (((← get).view env).account address)
  return (address, account)

def log (env : Env) (topicCount : Nat) : Exec Unit := do
  let offset ← pop
  let size ← pop
  let topics ← popMany topicCount
  let data ← readMemory offset size
  if ← faulty then return
  emit (.log { address := env.call.callee, topics, data })

def selfDestruct (env : Env) : Exec Unit := do
  let heir ← popAddress
  charge env.prices.getAccount
  let some present ← attempt (((← get).view env).exists? heir) | return
  if !present then
    charge env.prices.createAccount
    if ← faulty then return
    if !(← openAccount env heir) then return
  if ← faulty then return
  let _ ← updateFrame (Frame.bequeath env.below env.call.callee heir)

def flowOf : Option Invocation → Flow
  | some invocation => .invoke invocation
  | none => .next

def step (env : Env) : Opcode → Exec Flow
  | .stop => return .halt []
  | .unary op => do
    let x ← pop
    push (op.eval x)
    return .next
  | .binary op => do
    let x ← pop
    let y ← pop
    push (op.eval x y)
    return .next
  | .ternary op => do
    let x ← pop
    let y ← pop
    let z ← pop
    push (op.eval x y z)
    return .next
  | .query op => do
    push (op.eval env (← get))
    return .next
  | .signExtend => do
    let back ← pop
    if back.toNat < 31 then
      let value ← pop
      push (Word.signExtend value (8 * (back.toNat + 1)))
    return .next
  | .byte => do
    let index ← pop64
    let value ← pop
    pushNat (Word.byteAt index value).toNat
    return .next
  | .sha3 => do
    charge env.prices.sha3
    let offset ← pop
    let size ← pop
    let data ← readMemory offset size
    push (keccak256 data)
    return .next
  | .balance => do
    let address ← popAddress
    charge env.prices.getAccount
    if let some account ← attempt (((← get).view env).existing address) then
      push account.balance
    return .next
  | .callDataLoad => do
    let offset ← pop64
    if let some data ← attempt (copyWindow env.call.input offset 32) then
      push (Word.ofBytes data)
    return .next
  | .callDataCopy => do
    copyData env env.call.input
    return .next
  | .codeCopy => do
    copyData env env.code.toBytes
    return .next
  | .extCodeSize => do
    match ← popAccount env env.prices.getAccount with
    | (_, some (some account)) => pushNat account.code.length
    | (_, some none) => push 0
    | (_, none) => pure ()
    return .next
  | .extCodeCopy => do
    match ← popAccount env env.prices.getAccount with
    | (_, some (some account)) => copyData env account.code
    | (address, some none) => fail (.unknownAddress address)
    | (_, none) => pure ()
    return .next
  | .returnDataCopy => do
    copyReturnData env
    return .next
  | .extCodeHash => do
    let address ← popAddress
    match ← attempt (((← get).view env).account address) with
    | some (some account) => push account.codeHash
    | some none => push 0
    | none => pure ()
    return .next
  | .blockHash => do
    let height ← pop64
    if let some hash ← attempt (env.host.chain.recentHash height) then
      push (Word.ofBytes hash)
    return .next
  | .pop => do
    let _ ← pop
    return .next
  | .mload => do
    let offset ← pop
    let data ← readMemory offset 32
    push (Word.ofBytes data)
    return .next
  | .mstore => do
    let offset ← pop
    let value ← pop
    writeMemory offset (Word.toBytes value)
    return .next
  | .mstore8 => do
    let offset ← pop
    let value ← pop
    writeMemory offset [UInt8.ofNat value.toNat]
    return .next
  | .sload => do
    let key ← pop
    if let some value ← attempt (((← get).view env).slot env.call.callee key) then
      push value
    return .next
  | .sstore => do
    let key ← pop
    let value ← pop
    charge env.prices.storageUpdate
    if !(← faulty) then
      let _ ← updateFrame (·.write (.store env.call.callee key value))
    return .next
  | .jump => do
    let destination ← pop64
    jumpTo env destination
  | .jumpIf => do
    let destination ← pop64
    let condition ← pop
    if condition = 0 then return .next else jumpTo env destination
  | .jumpDest => return .next
  | .push n => do
    let size := n.val + 1
    push (Word.ofBytes (env.code.immediate (← get).pc size))
    modify fun m => { m with pc := m.pc + size }
    return .next
  | .dup n => do
    dup (n.val + 1)
    return .next
  | .swap n => do
    swap (n.val + 1)
    return .next
  | .log n => do
    log env n.val
    return .next
  | .create variant => return flowOf (← prepareCreate env variant)
  | .call variant => return flowOf (← prepareCall env variant)
  | .ret => do
    let offset ← pop
    let size ← pop
    return .halt (← readMemory offset size)
  | .revert => do
    let offset ← pop
    let size ← pop
    let output ← readMemory offset size
    fail (.reverted output)
    return .halt []
  | .invalid => do
    fail .aborted
    return .halt []
  | .selfDestruct => do
    selfDestruct env
    return .halt []

end Exec

end ContractVm
