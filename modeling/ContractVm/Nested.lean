import ContractVm.Machine
import ContractVm.Transfer

/-! # Nested calls

A calling or creating instruction runs in two halves. The first half checks permissions, takes its
operands and the gas to forward, and ends with an `Invocation`: a call together with the frame it is
to run in. The second half takes the call's outcome: it hands the frame of a successful call down to
the caller's, records the call, gives the unused gas back and delivers the result. -/

namespace ContractVm

inductive Target where
  | native (native : Native)
  | code (bytes : Bytes)

inductive Landing where
  /-- A new contract at an address. -/
  | create (address : Address)
  /-- A range of memory. -/
  | memory (offset : Word) (size : Nat)

/-- A nested call that is ready to run. -/
structure Invocation where
  call : Call
  target : Target
  frame : Frame
  landing : Landing

def CallVariant.kind : CallVariant → CallKind
  | .plain => .call
  | .code => .callCode
  | .delegate => .delegateCall
  | .static => .staticCall

def CallVariant.takesValue : CallVariant → Bool
  | .plain | .code => true
  | .delegate | .static => false

/-- Who calls whom: the caller and the callee of a nested call to `target`. -/
def CallVariant.parties (variant : CallVariant) (call : Call) (target : Address) :
    Address × Address :=
  match variant with
  | .plain | .static => (call.callee, target)
  | .code => (call.callee, call.callee)
  | .delegate => (call.caller, call.callee)

def Host.targetOf (host : Host) (account : Account) : Target :=
  match host.natives.dispatch account with
  | some native => .native native
  | none => .code account.code

namespace Exec

def openAccount (env : Env) (address : Address) : Exec Bool := do
  match ← attempt (env.host.permissions.ensure env.call.callee .createAccount) with
  | some () => updateFrame (Frame.openAccount env.below address)
  | none => return false

def popSalt : CreateVariant → Exec (Option Word)
  | .sequenced => return none
  | .salted => return some (← pop)

/-- The address of the next contract: from the salt if there is one, from the sequence if not. -/
def newAddress (creator : Address) (salt : Option Word) (initCode : Bytes) : Exec Address :=
  match salt with
  | some salt => return saltAddress creator salt initCode
  | none =>
    modifyGet fun m =>
      let (address, sequence) := m.sequence.next creator
      (address, { m with sequence })

/-- Writes exactly `size` bytes of an output into memory. -/
def writeOutput (offset : Word) (output : Bytes) (size : Nat) : Exec Unit := do
  if ← reserveMemory offset size then
    if indexLimit < size then
      fail (.memoryOutOfBounds ("cannot return " ++ toString size ++ " bytes"))
    else writeMemory offset (Bytes.fit size output)

def prepareCreate (env : Env) (variant : CreateVariant) : Exec (Option Invocation) := do
  setReturnData []
  let value ← pop
  let offset ← pop
  let size ← pop
  let input ← readMemory offset size
  charge env.prices.createAccount
  let salt ← popSalt variant
  if ← faulty then return none
  let address ← newAddress env.call.callee salt input
  let some () ← attempt (env.host.permissions.ensure env.call.callee .createContract)
    | return none
  let some child ← attempt (← get).frame.child | return none
  let some child ← attempt (child.openAccount ((← get).view env) address) | return none
  let gas := (← get).meter.gas
  charge gas
  return some
    { call :=
        { origin := env.call.origin, caller := env.call.callee, callee := address, input, value,
          gas, kind := .create }
      target := .code input
      frame := child
      landing := .create address }

/-- The account to call. Only a plain call may meet an address without an account, which it then
opens in the caller's frame. -/
def findTarget (env : Env) (variant : CallVariant) (target : Address) :
    Exec (Option Account) := do
  match ← attempt (((← get).view env).account target) with
  | none => return none
  | some (some account) => return some account
  | some none =>
    match variant with
    | .plain =>
      if ← openAccount env target then return some { address := target } else return none
    | _ =>
      fail (.unknownAddress target)
      return none

def prepareCall (env : Env) (variant : CallVariant) : Exec (Option Invocation) := do
  setReturnData []
  let some () ← attempt (env.host.permissions.ensure env.call.callee .call) | return none
  let gasLimit ← pop64
  let target ← popAddress
  let value ← if variant.takesValue then pop else pure env.call.value
  let inOffset ← pop
  let inSize ← pop
  let outOffset ← pop
  let outSize ← pop64
  charge env.prices.getAccount
  let some account ← findTarget env variant target | return none
  let input ← readMemory inOffset inSize
  if ← faulty then return none
  let some child ← attempt (← get).frame.child | return none
  let gas := (← get).meter.callGas gasLimit
  charge gas
  let (caller, callee) := variant.parties env.call target
  return some
    { call :=
        { origin := env.call.origin, caller, callee, input, value, gas, kind := variant.kind }
      target := env.host.targetOf account
      frame := { child with readOnly := child.readOnly || variant == .static }
      landing := .memory outOffset outSize }

/-- Hands the changes and events of a successful call down to the caller; a new contract gets its
code first. Tells whether that worked. -/
def settle (env : Env) (landing : Landing) (output : Bytes) (out : Outcome) : Exec Bool := do
  let caller := (← get).view env
  let installed := match landing with
    | .create address => out.frame.installCode caller address output
    | .memory _ _ => .ok out.frame
  let some child ← attempt installed | return false
  let (_, frame, result) := child.sync (← get).frame
  modify fun m => { m with frame }
  let some () ← attempt result | return false
  modify fun m => { m with trace := m.trace ++ out.trace }
  return true

def land (landing : Landing) (result : Except Fault Bytes) : Exec Unit := do
  match landing, result with
  | .create address, .ok _ => push (Address.toWord address)
  | .create _, .error fault =>
    push 0
    setReturnData fault.output
  | .memory offset size, .ok output =>
    push 1
    writeOutput offset output size
    setReturnData output
  | .memory offset size, .error fault =>
    push 0
    if fault.isRevert then writeOutput offset fault.output size
    setReturnData fault.output

/-- The second half of a nested call. If the caller's frame refuses the callee's changes, the caller
is left with that fault and nothing else happens. -/
def resume (env : Env) (inv : Invocation) (out : Outcome) : Exec Unit := do
  modify fun m => { m with sequence := out.sequence }
  let settled ← match out.result with
    | .ok output => settle env inv.landing output out
    | .error _ => pure true
  if settled then
    emit (.call { call := inv.call, depth := inv.frame.depth, result := out.result })
    refund out.gas
    land inv.landing out.result

end Exec

/-- The beginning of a call: it is over already, or code starts to run. -/
inductive Beginning where
  | over (outcome : Outcome)
  | running (env : Env) (machine : Machine)

/-- Begins a call in its frame. Value moves first; then a native contract runs to its end at once,
and so does empty code. -/
def Host.begin (host : Host) (below : View) (frame : Frame) (call : Call) (target : Target)
    (sequence : CreateSequence) : Beginning :=
  let moved :=
    if call.kind.movesValue then frame.transfer below call.caller call.callee call.value
    else .ok frame
  match moved with
  | .error fault => .over { result := .error fault, gas := call.gas, frame, sequence }
  | .ok frame =>
    match target with
    | .native native =>
      match native.run call.input call.gas with
      | .ok (output, gas) => .over { result := .ok output, gas, frame, sequence }
      | .error fault => .over { result := .error fault, gas := call.gas, frame, sequence }
    | .code bytes =>
      if bytes.isEmpty then .over { result := .ok [], gas := call.gas, frame, sequence }
      else
        .running { host, call, code := Code.ofBytes bytes, below }
          (Machine.start host.options call.gas frame sequence)

end ContractVm
