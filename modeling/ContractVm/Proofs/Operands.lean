import Mathlib
import ContractVm.Proofs.StackRoom

/-! # Taking operands

What an instruction finds on the stack it gets, as long as it can pay for it. The lemmas here
perform pops, charges and pushes that work; the machine `m.popped` is `m` after a pop. A machine that
is ready for some operations on the stack (`Machine.Ready`) has an instruction that computes a word
from its operands leave that word in their place (`Leaves`). -/

namespace ContractVm

namespace Machine

/-- The machine without the top of its stack, which it has paid for. -/
def popped (m : Machine) : Machine :=
  { m with
    stack := m.stack.discard
    meter := { m.meter with gas := m.meter.gas - m.stack.price } }

@[simp] theorem popped_items (m : Machine) : m.popped.stack.items = m.stack.items.tail := rfl

@[simp] theorem popped_price (m : Machine) : m.popped.stack.price = m.stack.price := rfl

@[simp] theorem popped_gas (m : Machine) : m.popped.meter.gas = m.meter.gas - m.stack.price := rfl

@[simp] theorem popped_fault (m : Machine) : m.popped.meter.fault = m.meter.fault := rfl

def paying (m : Machine) (amount : Nat) : Machine :=
  { m with meter := { m.meter with gas := m.meter.gas - amount } }

@[simp] theorem paying_stack (m : Machine) (amount : Nat) : (m.paying amount).stack = m.stack := rfl

@[simp] theorem paying_gas (m : Machine) (amount : Nat) :
    (m.paying amount).meter.gas = m.meter.gas - amount := rfl

end Machine

theorem Stack.discard_lower (s : Stack) : s.discard.Lower s :=
  ⟨Nat.sub_le s.depth 1, rfl⟩

section Operand

variable {m : Machine} {w : Word} {rest : List Word}

theorem Machine.pop_stack (hitems : m.stack.items = w :: rest)
    (hgas : m.stack.price ≤ m.meter.gas) :
    m.stack.pop m.meter = (w, m.popped.stack, m.popped.meter) := by
  simp only [Stack.pop, Meter.consume_of_le hgas, hitems]
  rfl

namespace Exec

theorem run_pop (hitems : m.stack.items = w :: rest) (hgas : m.stack.price ≤ m.meter.gas) :
    pop.run m = (w, m.popped) := by
  show ((m.stack.pop m.meter).1, { m with
    stack := (m.stack.pop m.meter).2.1, meter := (m.stack.pop m.meter).2.2 }) = _
  rw [Machine.pop_stack hitems hgas]
  rfl

theorem run_pop64 (hitems : m.stack.items = w :: rest) (hgas : m.stack.price ≤ m.meter.gas)
    (hw : w.toNat < bound64) : pop64.run m = (w.toNat, m.popped) := by
  have hpop := Machine.pop_stack hitems hgas
  have hpop64 : m.stack.pop64 m.meter = (w.toNat, m.popped.stack, m.popped.meter) := by
    simp only [Stack.pop64, hpop, Word.toNat64?, if_pos hw]
  show ((m.stack.pop64 m.meter).1, { m with
    stack := (m.stack.pop64 m.meter).2.1, meter := (m.stack.pop64 m.meter).2.2 }) = _
  rw [hpop64]
  rfl

theorem run_popAddress (hitems : m.stack.items = w :: rest) (hgas : m.stack.price ≤ m.meter.gas) :
    popAddress.run m = (Address.ofWord w, m.popped) := by
  have hpop := run_pop hitems hgas
  exact congrArg (fun r : Word × Machine => (Address.ofWord r.1, r.2)) hpop

end Exec

end Operand

namespace Exec

theorem run_charge {m : Machine} {amount : Nat} (h : amount ≤ m.meter.gas) :
    (charge amount).run m = ((), m.paying amount) := by
  show ((), { m with meter := m.meter.charge amount }) = _
  rw [Meter.charge_of_le h]
  rfl

theorem run_push (w : Word) {m : Machine} (hgas : m.stack.price ≤ m.meter.gas)
    (hroom : m.stack.HasRoom) :
    ((push w).run m).2.stack.items = w :: m.stack.items ∧
      ((push w).run m).2.meter.fault = m.meter.fault := by
  have hplace : ¬m.stack.exceeds (m.stack.depth + 1) = true := Bool.eq_false_iff.1 hroom
  have hpush : m.stack.push w m.meter =
      m.stack.place w { m.meter with gas := m.meter.gas - m.stack.price } := by
    rw [Stack.push, Meter.consume_of_le hgas]
  show (m.stack.push w m.meter).1.items = _ ∧ (m.stack.push w m.meter).2.fault = _
  rw [hpush, Stack.place, if_neg hplace]
  exact ⟨rfl, rfl⟩

end Exec

/-! ### Instructions that compute a word -/

/-- The machine has these items on its stack, no fault, and gas for some operations on the stack. -/
structure Machine.Ready (m : Machine) (items : List Word) (operations : Nat) : Prop where
  items : m.stack.items = items
  fault : m.meter.fault = none
  gas : operations * m.stack.price ≤ m.meter.gas
  within : m.stack.Within

/-- The instruction is followed by the next one, with these items on the stack and no fault. -/
def Leaves (env : Env) (m : Machine) (op : Opcode) (items : List Word) : Prop :=
  ((Exec.step env op).run m).1 = .next ∧ ((Exec.step env op).run m).2.meter.fault = none ∧
    ((Exec.step env op).run m).2.stack.items = items

section Ready

variable {m k : Machine} {x y z w : Word} {rest : List Word} {n : Nat} {env : Env} {op : Opcode}

theorem Machine.Ready.pop (h : m.Ready (x :: rest) (n + 1)) :
    Exec.pop.run m = (x, m.popped) ∧ m.popped.Ready rest n ∧ m.popped.stack.HasRoom := by
  have hgas := h.gas
  rw [Nat.succ_mul] at hgas
  refine ⟨Exec.run_pop h.items (by omega), ⟨?_, h.fault, ?_, ?_⟩,
    Stack.discard_hasRoom h.items h.within⟩
  · rw [Machine.popped_items, h.items]
    rfl
  · rw [Machine.popped_gas, Machine.popped_price]
    omega
  · exact m.stack.discard_lower.within h.within

theorem Machine.Ready.leaves (h : k.Ready rest (n + 1)) (hroom : k.stack.HasRoom)
    (hrun : (Exec.step env op).run m = (.next, ((Exec.push w).run k).2)) :
    Leaves env m op (w :: rest) := by
  have hgas := h.gas
  rw [Nat.succ_mul] at hgas
  obtain ⟨hpushed, hkept⟩ := Exec.run_push w (by omega) hroom
  unfold Leaves
  rw [hrun, ← h.items]
  exact ⟨rfl, hkept.trans h.fault, hpushed⟩

theorem Machine.Ready.leaves_binary (h : m.Ready (x :: y :: rest) (n + 3)) (env : Env)
    (op : Binary) : Leaves env m (.binary op) (op.eval x y :: rest) := by
  obtain ⟨hfirst, h₁, -⟩ := h.pop
  obtain ⟨hsecond, h₂, hroom⟩ := h₁.pop
  have hrun : (Exec.step env (.binary op)).run m =
      (.next, ((Exec.push (op.eval (Exec.pop.run m).1 (Exec.pop.run (Exec.pop.run m).2).1)).run
        (Exec.pop.run (Exec.pop.run m).2).2).2) := rfl
  rw [hfirst, hsecond] at hrun
  exact h₂.leaves hroom hrun

theorem Machine.Ready.leaves_ternary (h : m.Ready (x :: y :: z :: rest) (n + 4)) (env : Env)
    (op : Ternary) : Leaves env m (.ternary op) (op.eval x y z :: rest) := by
  obtain ⟨hfirst, h₁, -⟩ := h.pop
  obtain ⟨hsecond, h₂, -⟩ := h₁.pop
  obtain ⟨hthird, h₃, hroom⟩ := h₂.pop
  have hrun : (Exec.step env (.ternary op)).run m =
      (.next, ((Exec.push (op.eval (Exec.pop.run m).1 (Exec.pop.run (Exec.pop.run m).2).1
        (Exec.pop.run (Exec.pop.run (Exec.pop.run m).2).2).1)).run
        (Exec.pop.run (Exec.pop.run (Exec.pop.run m).2).2).2).2) := rfl
  rw [hfirst, hsecond, hthird] at hrun
  exact h₃.leaves hroom hrun

end Ready

end ContractVm
