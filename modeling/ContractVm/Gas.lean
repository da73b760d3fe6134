import ContractVm.Fault

/-! # Gas

Prices, and the meter that a run's stack, memory and instructions charge. The meter also keeps the
first fault that was recorded; later ones are dropped. -/

namespace ContractVm

def gasLimit : Nat := 0xffffffffffffffff

/-- A price, cut off at the largest amount of gas. -/
def capGas (amount : Nat) : Nat :=
  min amount gasLimit

def wordsFor (length : Nat) : Nat :=
  (length + 31) / 32

structure Schedule where
  /-- Every instruction. -/
  baseOp : Nat := 0
  /-- Every push, pop, copy and exchange on the stack. -/
  stackOp : Nat := 1
  /-- A digest. -/
  sha3 : Nat := 1
  /-- An account look-up. -/
  getAccount : Nat := 1
  /-- A storage write. -/
  storageUpdate : Nat := 1
  /-- A new account. -/
  createAccount : Nat := 1
  /-- Each 32-byte word by which memory grows. -/
  memoryWord : Nat := 0
  /-- Each 32-byte word that is copied. -/
  copyWord : Nat := 0
  deriving Repr, DecidableEq

def Schedule.copyGas (prices : Schedule) (length : Nat) : Nat :=
  capGas (wordsFor length * prices.copyWord)

/-- The gas a run has left and the first fault it recorded. -/
structure Meter where
  gas : Nat
  fault : Option Fault := none
  deriving Repr, DecidableEq

namespace Meter

def consume (amount : Nat) (m : Meter) : Except Fault Meter :=
  if m.gas < amount then .error .insufficientGas else .ok { m with gas := m.gas - amount }

/-- Gives gas back, up to the largest amount there can be. -/
def refund (amount : Nat) (m : Meter) : Meter :=
  { m with gas := capGas (m.gas + amount) }

/-- What a nested call gets: the amount asked for, or all but one part in 64 if there is less. -/
def callGas (requested : Nat) (m : Meter) : Nat :=
  if m.gas < requested then m.gas - m.gas / 64 else requested

/-- Records a fault unless there is one already. -/
def record (fault : Fault) (m : Meter) : Meter :=
  match m.fault with
  | none => { m with fault := some fault }
  | some _ => m

def faulty (m : Meter) : Bool :=
  m.fault.isSome

/-- Takes `amount` of gas, or takes none and records the lack of it. -/
def charge (amount : Nat) (m : Meter) : Meter :=
  match m.consume amount with
  | .ok m' => m'
  | .error fault => m.record fault

/-- The value of a result, or nothing once its fault is recorded. -/
def attempt {α : Type} (result : Except Fault α) (m : Meter) : Option α × Meter :=
  match result with
  | .ok a => (some a, m)
  | .error fault => (none, m.record fault)

def takeFault (m : Meter) : Option Fault × Meter :=
  (m.fault, { m with fault := none })

@[simp] theorem record_gas (fault : Fault) (m : Meter) : (m.record fault).gas = m.gas := by
  unfold record
  split <;> rfl

/-- The first fault wins. -/
theorem record_fault (fault : Fault) (m : Meter) :
    (m.record fault).fault = some (m.fault.getD fault) := by
  unfold record
  split
  · next h => simp [h]
  · next h => simp [h]

theorem consume_of_lt {amount : Nat} {m : Meter} (h : m.gas < amount) :
    m.consume amount = .error .insufficientGas := by
  simp [consume, h]

theorem consume_of_le {amount : Nat} {m : Meter} (h : amount ≤ m.gas) :
    m.consume amount = .ok { m with gas := m.gas - amount } := by
  simp [consume, Nat.not_lt.2 h]

end Meter

/-- The largest index into a stack or a memory. -/
def indexLimit : Nat := 0x7fffffff

end ContractVm
