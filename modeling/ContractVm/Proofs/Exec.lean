import Mathlib
import ContractVm.Instruction

/-! # Parts of instructions

Most parts of an instruction work on the machine's own stack, memory and meter: they use up gas, they
may record a fault, and they leave alone what outlives the machine, its `World`. Here is a small
program logic for instructions: `Exec.Inward` for such parts, `Exec.Ensures` for the others. -/

namespace ContractVm

namespace Meter

/-- The meter `m'` comes after `m`: gas is only used up, and the first fault stays. -/
structure Spends (m m' : Meter) : Prop where
  gas : m'.gas ≤ m.gas
  fault : ∀ fault, m.fault = some fault → m'.fault = some fault

theorem Spends.refl (m : Meter) : m.Spends m :=
  ⟨le_rfl, fun _ h => h⟩

theorem Spends.trans {m₁ m₂ m₃ : Meter} (h₁ : m₁.Spends m₂) (h₂ : m₂.Spends m₃) : m₁.Spends m₃ :=
  ⟨h₂.gas.trans h₁.gas, fun fault h => h₂.fault fault (h₁.fault fault h)⟩

theorem Spends.unfaulted {m m' : Meter} (h : m.Spends m') (h' : m'.fault = none) :
    m.fault = none := by
  cases hf : m.fault with
  | none => rfl
  | some fault =>
    rw [h.fault fault hf] at h'
    cases h'

theorem spends_record (fault : Fault) (m : Meter) : m.Spends (m.record fault) := by
  refine ⟨(record_gas fault m).le, fun f hf => ?_⟩
  rw [record_fault, hf, Option.getD_some]

theorem record_faulty (fault : Fault) (m : Meter) : (m.record fault).fault ≠ none := by
  rw [record_fault]
  exact Option.some_ne_none _

theorem spends_consume {amount : Nat} {m m' : Meter} (h : m.consume amount = .ok m') :
    m.Spends m' := by
  unfold consume at h
  split at h
  · cases h
  · cases h
    exact ⟨Nat.sub_le m.gas amount, fun _ hf => hf⟩

theorem spends_charge (amount : Nat) (m : Meter) : m.Spends (m.charge amount) := by
  unfold charge
  split
  · next h => exact spends_consume h
  · exact spends_record _ m

theorem charge_of_le {amount : Nat} {m : Meter} (h : amount ≤ m.gas) :
    m.charge amount = { m with gas := m.gas - amount } := by
  simp [charge, consume_of_le h]

theorem callGas_le (requested : Nat) (m : Meter) : m.callGas requested ≤ m.gas := by
  unfold callGas
  split
  · exact Nat.sub_le _ _
  · omega

end Meter

namespace Stack

theorem place_spends (w : Word) (s : Stack) (m : Meter) : m.Spends (s.place w m).2 := by
  unfold place
  split
  · exact Meter.spends_record _ m
  · exact .refl m

theorem push_spends (w : Word) (s : Stack) (m : Meter) : m.Spends (s.push w m).2 := by
  unfold push
  split
  · next h => exact (Meter.spends_consume h).trans (place_spends w s _)
  · exact Meter.spends_record _ m

theorem pop_spends (s : Stack) (m : Meter) : m.Spends (s.pop m).2.2 := by
  unfold pop
  split
  · exact Meter.spends_record _ m
  · next h =>
    split
    · exact (Meter.spends_consume h).trans (Meter.spends_record _ _)
    · exact Meter.spends_consume h

theorem pop64_spends (s : Stack) (m : Meter) : m.Spends (s.pop64 m).2.2 := by
  unfold pop64
  have hp := pop_spends s m
  dsimp only
  split
  · exact hp
  · exact hp.trans (Meter.spends_record _ _)

theorem dup_spends (n : Nat) (s : Stack) (m : Meter) : m.Spends (s.dup n m).2 := by
  unfold dup
  split
  · exact Meter.spends_record _ m
  · next h =>
    have hc := Meter.spends_consume h
    split
    · exact hc.trans (Meter.spends_record _ _)
    · split
      · exact hc.trans (push_spends _ s _)
      · exact hc.trans (Meter.spends_record _ _)

theorem swap_spends (n : Nat) (s : Stack) (m : Meter) : m.Spends (s.swap n m).2 := by
  unfold swap
  split
  · exact Meter.spends_record _ m
  · next h =>
    have hc := Meter.spends_consume h
    split
    · exact hc
    · exact hc.trans (Meter.spends_record _ _)

end Stack

namespace Memory

theorem cover_spends {offset length : Nat} {mem mem' : Memory} {m m' : Meter}
    (h : mem.cover offset length m = .ok (mem', m')) : m.Spends m' := by
  unfold cover at h
  dsimp only at h
  split at h
  · cases h
  · split at h
    · cases h
      exact .refl m
    · split at h
      · cases h
      · split at h
        · next hc =>
          cases h
          exact Meter.spends_consume hc
        · cases h

theorem read_spends (offset length : Word) (mem : Memory) (m : Meter) :
    m.Spends (mem.read offset length m).2.2 := by
  unfold read
  split
  · split
    · exact .refl m
    · split
      · next h => exact cover_spends h
      · exact Meter.spends_record _ m
  · exact Meter.spends_record _ m

theorem write_spends (offset : Word) (bs : Bytes) (mem : Memory) (m : Meter) :
    m.Spends (mem.write offset bs m).2 := by
  unfold write
  split
  · split
    · exact .refl m
    · split
      · next h => exact cover_spends h
      · exact Meter.spends_record _ m
  · exact Meter.spends_record _ m

theorem reserve_spends (offset : Word) (length : Nat) (mem : Memory) (m : Meter) :
    m.Spends (mem.reserve offset length m).2.2 := by
  unfold reserve
  split
  · split
    · exact .refl m
    · split
      · next h => exact cover_spends h
      · exact Meter.spends_record _ m
  · exact Meter.spends_record _ m

end Memory

/-- What outlives a machine: its frame, its trace and the sequence of new addresses. -/
structure World where
  frame : Frame
  trace : Trace
  sequence : CreateSequence

namespace Machine

def world (m : Machine) : World :=
  { frame := m.frame, trace := m.trace, sequence := m.sequence }

/-- The machine `m'` comes after `m` and has the world `w`. -/
structure Turns (m : Machine) (w : World) (m' : Machine) : Prop where
  world : m'.world = w
  meter : m.meter.Spends m'.meter

theorem Turns.refl (m : Machine) : m.Turns m.world m :=
  ⟨rfl, .refl m.meter⟩

theorem Turns.trans {m₁ m₂ m₃ : Machine} {w w' : World} (h₁ : m₁.Turns w m₂) (h₂ : m₂.Turns w' m₃) :
    m₁.Turns w' m₃ :=
  ⟨h₂.world, h₁.meter.trans h₂.meter⟩

theorem Turns.frame {m m' : Machine} {w : World} (h : m.Turns w m') : m'.frame = w.frame :=
  congrArg World.frame h.world

theorem Turns.trace {m m' : Machine} {w : World} (h : m.Turns w m') : m'.trace = w.trace :=
  congrArg World.trace h.world

theorem Turns.sequence {m m' : Machine} {w : World} (h : m.Turns w m') : m'.sequence = w.sequence :=
  congrArg World.sequence h.world

theorem Turns.view {m m' : Machine} {w : World} (h : m.Turns w m') (env : Env) :
    m'.view env = w.frame.view env.below := by
  rw [Machine.view, h.frame]

theorem Turns.withFrame {m m' : Machine} {w : World} (h : m.Turns w m') (frame : Frame) :
    m.Turns ⟨frame, w.trace, w.sequence⟩ { m' with frame } :=
  ⟨by rw [← h.world]; rfl, h.meter⟩

theorem Turns.withTrace {m m' : Machine} {w : World} (h : m.Turns w m') (trace : Trace) :
    m.Turns ⟨w.frame, trace, w.sequence⟩ { m' with trace } :=
  ⟨by rw [← h.world]; rfl, h.meter⟩

theorem Turns.withSequence {m m' : Machine} {w : World} (h : m.Turns w m')
    (sequence : CreateSequence) : m.Turns ⟨w.frame, w.trace, sequence⟩ { m' with sequence } :=
  ⟨by rw [← h.world]; rfl, h.meter⟩

def recorded (m : Machine) (fault : Fault) : Machine :=
  { m with meter := m.meter.record fault }

theorem turns_recorded (m : Machine) (fault : Fault) : m.Turns m.world (m.recorded fault) :=
  ⟨rfl, Meter.spends_record fault m.meter⟩

theorem Turns.recorded {m m' : Machine} {w : World} (h : m.Turns w m') (fault : Fault) :
    m.Turns w (m'.recorded fault) :=
  ⟨h.world, h.meter.trans (Meter.spends_record fault m'.meter)⟩

theorem recorded_faulty (m : Machine) (fault : Fault) : (m.recorded fault).meter.fault ≠ none :=
  Meter.record_faulty fault m.meter

end Machine

namespace Exec

variable {α β : Type}

theorem run_bind (p : Exec α) (f : α → Exec β) (m : Machine) :
    (p >>= f).run m = (f (p.run m).1).run (p.run m).2 := rfl

theorem run_bind_congr {p : Exec α} {f g : α → Exec β} {m : Machine}
    (h : (f (p.run m).1).run (p.run m).2 = (g (p.run m).1).run (p.run m).2) :
    (p >>= f).run m = (p >>= g).run m :=
  h

theorem run_bind_left {p q : Exec α} {m : Machine} (h : p.run m = q.run m) (f : α → Exec β) :
    (p >>= f).run m = (q >>= f).run m :=
  congrArg (fun r : α × Machine => (f r.1).run r.2) h

/-- From machines that satisfy `P`, the part yields a value and a machine that satisfy `Q`. -/
def Ensures (P : Machine → Prop) (p : Exec α) (Q : α → Machine → Prop) : Prop :=
  ∀ m, P m → Q (p.run m).1 (p.run m).2

/-- The part keeps the machine's world and yields a value that satisfies `Φ`. -/
def Inward (Φ : α → Prop) (p : Exec α) : Prop :=
  ∀ m, m.Turns m.world (p.run m).2 ∧ Φ (p.run m).1

section Rules

variable {P : Machine → Prop} {Q : β → Machine → Prop} {Φ : β → Prop} {Ψ : α → Prop}

theorem Ensures.bind {p : Exec α} {f : α → Exec β} {R : α → Machine → Prop} (hp : Ensures P p R)
    (hf : ∀ a, Ensures (R a) (f a) Q) : Ensures P (p >>= f) Q :=
  fun m hm => hf (p.run m).1 (p.run m).2 (hp m hm)

theorem Ensures.pure {b : β} (h : ∀ m, P m → Q b m) : Ensures P (pure b) Q :=
  h

theorem Ensures.get_bind {f : Machine → Exec β} (h : ∀ m, P m → Ensures (· = m) (f m) Q) :
    Ensures P (get >>= f) Q :=
  fun m hm => h m hm m rfl

theorem Ensures.of_eq {p : Exec β} (h : ∀ m, P m → Ensures (· = m) p Q) : Ensures P p Q :=
  fun m hm => h m hm m rfl

theorem Ensures.at {p : Exec β} {m : Machine} (h : Ensures P p Q) (hm : P m) : Ensures (· = m) p Q :=
  fun m' hm' => h m' (hm' ▸ hm)

theorem Ensures.faulty_bind {f : Bool → Exec β}
    (faulted : ∀ m, P m → m.meter.fault ≠ none → Ensures (· = m) (f true) Q)
    (clear : ∀ m, P m → m.meter.fault = none → Ensures (· = m) (f false) Q) :
    Ensures P (faulty >>= f) Q := by
  intro m hm
  have hrun : (faulty >>= f).run m = (f m.meter.fault.isSome).run m := rfl
  rw [hrun]
  cases hf : m.meter.fault with
  | none => exact clear m hm hf m rfl
  | some fault => exact faulted m hm (by simp [hf]) m rfl

theorem Ensures.check {p q : Exec β}
    (faulted : ∀ m, P m → m.meter.fault ≠ none → Ensures (· = m) p Q)
    (clear : ∀ m, P m → m.meter.fault = none → Ensures (· = m) q Q) :
    Ensures P (faulty >>= fun b => if b = true then p else q) Q :=
  .faulty_bind faulted clear

/-- A result is tried: its value goes on with the machine as it is, its fault is recorded. -/
theorem Ensures.attempt_bind {r : Except Fault α} {f : Option α → Exec β}
    (ok : ∀ a, r = .ok a → Ensures P (f (some a)) Q)
    (error : ∀ fault, r = .error fault → ∀ m, P m → Ensures (· = m.recorded fault) (f none) Q) :
    Ensures P (attempt r >>= f) Q := by
  intro m hm
  cases hr : r with
  | ok a => exact ok a hr m hm
  | error fault => exact error fault hr m hm (m.recorded fault) rfl

theorem Inward.bind_ensures {p : Exec α} {f : α → Exec β} {m : Machine} {w : World} (hp : Inward Ψ p)
    (hf : ∀ a, Ψ a → Ensures (m.Turns w) (f a) Q) : Ensures (m.Turns w) (p >>= f) Q := by
  intro m₁ hm
  obtain ⟨ht, ha⟩ := hp m₁
  exact hf _ ha _ ⟨ht.world.trans hm.world, hm.meter.trans ht.meter⟩

theorem Inward.bind {p : Exec α} {f : α → Exec β} (hp : Inward Ψ p) (hf : ∀ a, Inward Φ (f a)) :
    Inward Φ (p >>= f) := by
  intro m
  obtain ⟨ht, -⟩ := hp m
  obtain ⟨ht', hb⟩ := hf (p.run m).1 (p.run m).2
  exact ⟨⟨ht'.world.trans ht.world, ht.meter.trans ht'.meter⟩, hb⟩

theorem Inward.pure {b : β} (h : Φ b) : Inward Φ (pure b) :=
  fun m => ⟨.refl m, h⟩

theorem Inward.get_bind {f : Machine → Exec β} (hf : ∀ m, Inward Φ (f m)) : Inward Φ (get >>= f) :=
  fun m => hf m m

theorem Inward.ite {c : Prop} [Decidable c] {p q : Exec β} (hp : Inward Φ p) (hq : Inward Φ q) :
    Inward Φ (if c then p else q) := by
  split
  · exact hp
  · exact hq

end Rules

/-! ### Inward operations -/

abbrev Quiet (p : Exec α) : Prop :=
  Inward (fun _ => True) p

theorem quiet_charge (amount : Nat) : Quiet (charge amount) :=
  fun m => ⟨⟨rfl, Meter.spends_charge amount m.meter⟩, trivial⟩

theorem quiet_fail (fault : Fault) : Quiet (fail fault) :=
  fun m => ⟨⟨rfl, Meter.spends_record fault m.meter⟩, trivial⟩

theorem quiet_attempt (r : Except Fault α) : Quiet (attempt r) := by
  intro m
  cases r with
  | ok a => exact ⟨.refl m, trivial⟩
  | error fault => exact ⟨m.turns_recorded fault, trivial⟩

theorem quiet_faulty : Quiet faulty :=
  fun m => ⟨.refl m, trivial⟩

theorem quiet_push (w : Word) : Quiet (push w) :=
  fun m => ⟨⟨rfl, m.stack.push_spends w m.meter⟩, trivial⟩

theorem quiet_pushNat (n : Nat) : Quiet (pushNat n) :=
  quiet_push _

theorem quiet_pop : Quiet pop :=
  fun m => ⟨⟨rfl, m.stack.pop_spends m.meter⟩, trivial⟩

theorem quiet_pop64 : Quiet pop64 :=
  fun m => ⟨⟨rfl, m.stack.pop64_spends m.meter⟩, trivial⟩

theorem quiet_popAddress : Quiet popAddress :=
  fun m => ⟨⟨rfl, m.stack.pop_spends m.meter⟩, trivial⟩

theorem quiet_popMany (n : Nat) : Quiet (popMany n) := by
  induction n with
  | zero => exact .pure trivial
  | succ n ih => exact quiet_pop.bind fun w => ih.bind fun rest => .pure trivial

theorem quiet_dup (n : Nat) : Quiet (dup n) :=
  fun m => ⟨⟨rfl, m.stack.dup_spends n m.meter⟩, trivial⟩

theorem quiet_swap (n : Nat) : Quiet (swap n) :=
  fun m => ⟨⟨rfl, m.stack.swap_spends n m.meter⟩, trivial⟩

theorem quiet_readMemory (offset length : Word) : Quiet (readMemory offset length) :=
  fun m => ⟨⟨rfl, m.memory.read_spends offset length m.meter⟩, trivial⟩

theorem quiet_writeMemory (offset : Word) (bs : Bytes) : Quiet (writeMemory offset bs) :=
  fun m => ⟨⟨rfl, m.memory.write_spends offset bs m.meter⟩, trivial⟩

theorem quiet_reserveMemory (offset : Word) (length : Nat) : Quiet (reserveMemory offset length) :=
  fun m => ⟨⟨rfl, m.memory.reserve_spends offset length m.meter⟩, trivial⟩

theorem quiet_setReturnData (bs : Bytes) : Quiet (setReturnData bs) :=
  fun m => ⟨⟨rfl, .refl m.meter⟩, trivial⟩

theorem quiet_popSalt (variant : CreateVariant) : Quiet (popSalt variant) := by
  cases variant with
  | sequenced => exact .pure trivial
  | salted => exact quiet_pop.bind fun salt => .pure trivial

theorem quiet_writeOutput (offset : Word) (output : Bytes) (size : Nat) :
    Quiet (writeOutput offset output size) :=
  (quiet_reserveMemory offset size).bind fun _ =>
    .ite (.ite (quiet_fail _) (quiet_writeMemory offset _)) (.pure trivial)

theorem quiet_copyToMemory (env : Env) (data : Bytes) (memOffset : Word) (offset length : Nat) :
    Quiet (copyToMemory env data memOffset offset length) := by
  refine (quiet_charge _).bind fun _ => quiet_faulty.bind fun _ => .ite (.pure trivial) ?_
  refine (quiet_reserveMemory memOffset length).bind fun _ => .ite ?_ (.pure trivial)
  refine (quiet_attempt _).bind fun window => ?_
  cases window with
  | none => exact .pure trivial
  | some window => exact quiet_writeMemory memOffset window

theorem quiet_copyData (env : Env) (data : Bytes) : Quiet (copyData env data) :=
  quiet_pop.bind fun memOffset => quiet_pop64.bind fun offset => quiet_pop64.bind fun length =>
    quiet_copyToMemory env data memOffset offset length

theorem quiet_copyReturnData (env : Env) : Quiet (copyReturnData env) := by
  refine quiet_pop.bind fun memOffset => quiet_pop.bind fun offset => quiet_pop.bind fun length => ?_
  refine .get_bind fun m => ?_
  split
  · exact (quiet_charge _).bind fun _ => quiet_writeMemory memOffset _
  · exact quiet_fail _

theorem quiet_popAccount (env : Env) (price : Nat) : Quiet (popAccount env price) :=
  quiet_popAddress.bind fun _ => (quiet_charge price).bind fun _ => .get_bind fun _ =>
    (quiet_attempt _).bind fun _ => .pure trivial

end Exec

end ContractVm
