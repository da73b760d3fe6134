import Mathlib
import ContractVm.Proofs.Costs
import ContractVm.Proofs.Engine

/-! # Gas is forwarded and given back

A nested call is paid for in advance: the caller's last act before the call is to take what it
forwards off its own meter (`Takes.forwards`), and what the call leaves is the first thing that it
gets back (`Exec.resume_cases`). The call leaves at most what it was given, so the two together
never come to more than the caller had, and the ceiling on refunds is never met. -/

namespace ContractVm

namespace Exec

variable {α : Type} {p q : Exec (Option Invocation)}

abbrev Spending (p : Exec α) : Prop :=
  ∀ m : Machine, m.meter.Spends (p.run m).2.meter

theorem Inward.spending {Φ : α → Prop} {p : Exec α} (h : Inward Φ p) : Spending p :=
  fun m => (h m).1.meter

theorem spending_newAddress (creator : Address) (salt : Option Word) (initCode : Bytes) :
    Spending (newAddress creator salt initCode) := by
  intro m
  cases salt with
  | none => exact .refl m.meter
  | some salt => exact .refl m.meter

theorem spending_findTarget (env : Env) (variant : CallVariant) (target : Address) :
    Spending (findTarget env variant target) := by
  intro m
  rcases ensures_findTarget env variant target m m rfl with ⟨a, frame, -, -, hm⟩ | ⟨-, fault, hm⟩
  · rw [hm]
    exact .refl m.meter
  · rw [hm]
    exact Meter.spends_record fault m.meter

/-- If the part asks for a nested call, its last act is to take what it forwards off the meter,
where there is as much. -/
def Forwards (p : Exec (Option Invocation)) : Prop :=
  ∀ (m : Machine) (inv : Invocation), (p.run m).1 = some inv →
    ∃ k : Machine, m.meter.Spends k.meter ∧ inv.call.gas ≤ k.meter.gas ∧
      (p.run m).2 = { k with meter := k.meter.charge inv.call.gas }

theorem Forwards.none : Forwards (pure none) := by
  intro m inv h
  cases h

theorem Forwards.after {p : Exec α} {f : α → Exec (Option Invocation)} (hp : Spending p)
    (hf : ∀ a, Forwards (f a)) : Forwards (p >>= f) := by
  intro m inv h
  obtain ⟨k, hspends, hle, hrun⟩ := hf (p.run m).1 (p.run m).2 inv h
  exact ⟨k, (hp m).trans hspends, hle, hrun⟩

theorem Forwards.get_bind {f : Machine → Exec (Option Invocation)} (hf : ∀ m, Forwards (f m)) :
    Forwards (get >>= f) :=
  fun m => hf m m

theorem Forwards.ite {c : Prop} [Decidable c] (hp : Forwards p) (hq : Forwards q) :
    Forwards (if c then p else q) := by
  split
  · exact hp
  · exact hq

theorem Forwards.attempt_bind {r : Except Fault α} {f : Option α → Exec (Option Invocation)}
    (ok : ∀ a, Forwards (f (some a))) (error : Forwards (f .none)) :
    Forwards (attempt r >>= f) := by
  refine .after (quiet_attempt r).spending fun value => ?_
  cases value with
  | none => exact error
  | some a => exact ok a

theorem Forwards.run_flow (hp : Forwards p) {m m' : Machine} {inv : Invocation}
    (h : (p >>= fun asked => pure (flowOf asked)).run m = (.invoke inv, m')) :
    ∃ k : Machine, m.meter.Spends k.meter ∧ inv.call.gas ≤ k.meter.gas ∧
      m' = { k with meter := k.meter.charge inv.call.gas } := by
  have hflow : flowOf (p.run m).1 = .invoke inv := congrArg Prod.fst h
  have hlast : (p.run m).2 = m' := congrArg Prod.snd h
  cases hasked : (p.run m).1 with
  | none =>
    rw [hasked] at hflow
    cases hflow
  | some asked =>
    rw [hasked] at hflow
    obtain rfl : asked = inv := Flow.invoke.inj hflow
    obtain ⟨k, hspends, hle, hrun⟩ := hp m asked hasked
    exact ⟨k, hspends, hle, hlast.symm.trans hrun⟩

end Exec

theorem Meter.refund_of_le {amount : Nat} {m : Meter} (h : m.gas + amount ≤ gasLimit) :
    m.refund amount = { m with gas := m.gas + amount } := by
  rw [refund, capGas, Nat.min_eq_left h]

/-! ### Every machine that a run comes to -/

theorem Proceeds.gas_le {env : Env} {m m' : Machine} {op : Opcode} (h : Proceeds env m op m') :
    m'.meter.gas ≤ m.meter.gas := by
  cases h with
  | next ht => exact (Nat.le_add_left _ _).trans ht.stepped.gas
  | jumped ht => exact (Nat.le_add_left _ _).trans ht.stepped.gas
  | nested ht ho => exact ht.after_gas (Host.perform_gas ho)

theorem Visits.gas_le {env e : Env} {m k : Machine} (h : Visits env m e k) :
    k.meter.gas ≤ m.meter.gas := by
  induction h with
  | here => exact le_rfl
  | later hp _ ih => exact ih.trans hp.gas_le
  | @inside env inner e m m₁ start k op inv ht hb _ ih =>
    have hstart : start.meter.gas = inv.call.gas := (hb ▸ inv.begun env m₁).start_gas
    have hgiven : inv.call.gas + m₁.meter.gas ≤ m.meter.gas := ht.stepped.gas
    omega

def spenderEnv : Env :=
  { relayEnv 0 with code := Code.ofBytes (callTo 12) }

end ContractVm
