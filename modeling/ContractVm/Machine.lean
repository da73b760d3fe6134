import ContractVm.Arithmetic
import ContractVm.Chain
import ContractVm.Code
import ContractVm.ContractAddress
import ContractVm.Event
import ContractVm.Frame
import ContractVm.Memory
import ContractVm.Native
import ContractVm.Options
import ContractVm.Permission
import ContractVm.Stack

/-! # The machine

The state of one running piece of code, what it runs against, and the small operations that
instructions are made of. An operation that fails records its fault in the meter and the machine goes
on to the end of the instruction. -/

namespace ContractVm

structure Host where
  options : Options
  natives : Natives
  permissions : Permissions
  chain : Chain

/-- What one run is given: the host, its call, its code, and what lies below its frame. -/
structure Env where
  host : Host
  call : Call
  code : Code
  below : View

def Env.prices (env : Env) : Schedule :=
  env.host.options.gas

structure Machine where
  /-- The offset of the current instruction. -/
  pc : Nat := 0
  meter : Meter
  stack : Stack
  memory : Memory
  /-- What the latest nested call handed back. -/
  returnData : Bytes := []
  frame : Frame
  trace : Trace := #[]
  sequence : CreateSequence

structure Outcome where
  result : Except Fault Bytes
  /-- The gas left over. -/
  gas : Nat
  frame : Frame
  trace : Trace := #[]
  sequence : CreateSequence

namespace Machine

def start (options : Options) (gas : Nat) (frame : Frame) (sequence : CreateSequence) : Machine :=
  { meter := { gas }
    stack := Stack.empty options.gas.stackOp options.stackMaxDepth
    memory := Memory.empty options.gas.memoryWord options.memoryInitialCapacity
      options.memoryMaximumCapacity
    frame
    sequence }

def finish (m : Machine) (result : Except Fault Bytes) : Outcome :=
  { result, gas := m.meter.gas, frame := m.frame, trace := m.trace, sequence := m.sequence }

def view (m : Machine) (env : Env) : View :=
  m.frame.view env.below

end Machine

/-- A part of an instruction: it yields a value and changes the machine. -/
abbrev Exec := StateM Machine

namespace Exec

def charge (amount : Nat) : Exec Unit :=
  modify fun m => { m with meter := m.meter.charge amount }

def refund (amount : Nat) : Exec Unit :=
  modify fun m => { m with meter := m.meter.refund amount }

def fail (fault : Fault) : Exec Unit :=
  modify fun m => { m with meter := m.meter.record fault }

/-- The value of a result, or nothing once its fault is recorded. -/
def attempt {α : Type} (result : Except Fault α) : Exec (Option α) :=
  modifyGet fun m =>
    let (value, meter) := m.meter.attempt result
    (value, { m with meter })

def faulty : Exec Bool :=
  return (← get).meter.faulty

def push (w : Word) : Exec Unit :=
  modify fun m =>
    let (stack, meter) := m.stack.push w m.meter
    { m with stack, meter }

def pushNat (n : Nat) : Exec Unit :=
  push (Word.ofNat64 n)

def pop : Exec Word :=
  modifyGet fun m =>
    let (w, stack, meter) := m.stack.pop m.meter
    (w, { m with stack, meter })

def pop64 : Exec Nat :=
  modifyGet fun m =>
    let (n, stack, meter) := m.stack.pop64 m.meter
    (n, { m with stack, meter })

def popAddress : Exec Address :=
  modifyGet fun m =>
    let (address, stack, meter) := m.stack.popAddress m.meter
    (address, { m with stack, meter })

/-- Pops `n` words, the top first. -/
def popMany : Nat → Exec (List Word)
  | 0 => return []
  | n + 1 => do
    let w ← pop
    let rest ← popMany n
    return w :: rest

def dup (n : Nat) : Exec Unit :=
  modify fun m =>
    let (stack, meter) := m.stack.dup n m.meter
    { m with stack, meter }

def swap (n : Nat) : Exec Unit :=
  modify fun m =>
    let (stack, meter) := m.stack.swap n m.meter
    { m with stack, meter }

def readMemory (offset length : Word) : Exec Bytes :=
  modifyGet fun m =>
    let (bs, memory, meter) := m.memory.read offset length m.meter
    (bs, { m with memory, meter })

def writeMemory (offset : Word) (bs : Bytes) : Exec Unit :=
  modify fun m =>
    let (memory, meter) := m.memory.write offset bs m.meter
    { m with memory, meter }

def reserveMemory (offset : Word) (length : Nat) : Exec Bool :=
  modifyGet fun m =>
    let (done, memory, meter) := m.memory.reserve offset length m.meter
    (done, { m with memory, meter })

/-- Replaces the frame by what a step on it gives; tells whether that worked. -/
def updateFrame (f : Frame → Except Fault Frame) : Exec Bool := do
  match ← attempt (f (← get).frame) with
  | some frame =>
    modify fun m => { m with frame }
    return true
  | none => return false

def setReturnData (bs : Bytes) : Exec Unit :=
  modify fun m => { m with returnData := bs }

/-- Adds an event to the trace. A read-only frame refuses logs. -/
def emit (event : Event) : Exec Unit := do
  if event.isLog && (← get).frame.readOnly then fail .illegalWrite
  else modify fun m => { m with trace := m.trace.push event }

end Exec

end ContractVm
