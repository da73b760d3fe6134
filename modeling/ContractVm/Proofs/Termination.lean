import Mathlib
import ContractVm.Proofs.Costs
import ContractVm.Proofs.Engine

/-! # Executions terminate

A machine is followed by the machine behind its instruction and by the first machine of a nested call
(`Follows`). If instructions cost something, each of these has less gas, or as much gas and less code
ahead of it, so there is no endless chain of them (`acc_follows`). Then every run comes to its end
(`exists_runs`), and with it every execution. -/

namespace ContractVm

/-- The first machine comes right after the second one: behind its instruction, or in the nested call
that the instruction makes. -/
inductive Follows : Env × Machine → Env × Machine → Prop where
  | later {env : Env} {m m' : Machine} {op : Opcode} (h : Proceeds env m op m') :
      Follows (env, m') (env, m)
  | inside {env inner : Env} {m m₁ start : Machine} {op : Opcode} {inv : Invocation}
      (h : Takes env m op (.invoke inv) m₁) (hb : inv.begin env m₁ = .running inner start) :
      Follows (inner, start) (env, m)

/-! ### A run exists -/

/-- If no chain of machines is endless, the run comes to its end. -/
theorem exists_runs {s : Env × Machine} (h : Acc Follows s) : ∃ out, Runs s.1 s.2 out := by
  induction h with
  | intro s _ ih =>
    obtain ⟨env, m⟩ := s
    rcases hfetch : m.fetch env with ⟨m₁, fault | op⟩
    · exact ⟨_, .stopped hfetch⟩
    · rcases hstep : (Exec.step env op).run m₁ with ⟨flow, m₂⟩
      have ht : Takes env m op flow m₂ := ⟨m₁, hfetch, hstep⟩
      cases flow with
      | halt output => exact ⟨_, .halted ht⟩
      | next =>
        obtain ⟨out, hrest⟩ := ih _ (.later (.next ht))
        exact ⟨out, .next ht hrest⟩
      | jumped =>
        obtain ⟨out, hrest⟩ := ih _ (.later (.jumped ht))
        exact ⟨out, .jumped ht hrest⟩
      | invoke inv =>
        rcases hb : inv.begin env m₂ with o | ⟨inner, start⟩
        · obtain ⟨out, hrest⟩ := ih _ (.later (.of_ended ht hb))
          exact ⟨out, .ended ht hb hrest⟩
        · -- the nested call comes first, and what follows it depends on how it ended
          obtain ⟨o, hcall⟩ := ih _ (.inside ht hb)
          obtain ⟨out, hrest⟩ := ih _ (.later (.of_runs ht hb hcall))
          exact ⟨out, .nested ht hb hcall hrest⟩

/-! ### What a machine has left -/

/-- The gas of a machine that can go on, and nothing once there is a fault. -/
def Machine.budget (m : Machine) : Nat :=
  if m.meter.fault = none then m.meter.gas + 1 else 0

theorem Machine.budget_of_unfaulted {m : Machine} (h : m.meter.fault = none) :
    m.budget = m.meter.gas + 1 :=
  if_pos h

theorem Machine.Bills.budget_add_le {m m' : Machine} {cost : Nat} (h : m.Bills cost m')
    (hf : m.meter.fault = none) : m'.budget = 0 ∨ cost + m'.budget ≤ m.budget := by
  by_cases hf' : m'.meter.fault = none
  · obtain ⟨-, hgas⟩ := h.meter hf'
    rw [budget_of_unfaulted hf, budget_of_unfaulted hf']
    omega
  · exact Or.inl (if_neg hf')

/-- Instructions cost something, and the machine's stack asks the price that it should. -/
structure Charging (s : Env × Machine) : Prop where
  price : s.2.stack.price = s.1.prices.stackOp
  positive : 0 < s.1.prices.baseOp ∨ 0 < s.1.prices.stackOp

theorem Begun.charging {host : Host} {below : View} {frame : Frame} {call : Call}
    {sequence : CreateSequence} {inner : Env} {start : Machine}
    (h : Begun host below frame call sequence (.running inner start))
    (hpos : 0 < host.options.gas.baseOp ∨ 0 < host.options.gas.stackOp) :
    Charging (inner, start) := by
  cases h with
  | running _ => exact ⟨rfl, hpos⟩

theorem Begun.start_budget {host : Host} {below : View} {frame : Frame} {call : Call}
    {sequence : CreateSequence} {inner : Env} {start : Machine}
    (h : Begun host below frame call sequence (.running inner start)) :
    start.budget = call.gas + 1 := by
  cases h with
  | running _ => rfl

/-- What a machine has left: its budget, and for each amount of it the code ahead. -/
def rank (s : Env × Machine) : Nat × Nat :=
  (s.2.budget, s.1.code.size - s.2.pc)

theorem Follows.rank_lt {k s : Env × Machine} (h : Follows k s) (hs : Charging s) :
    Prod.Lex (· < ·) (· < ·) (rank k) (rank s) := by
  have hcost := hs.positive
  have hprice := hs.price
  cases h with
  | @later env m m' op hp =>
    have hbudget := Machine.budget_of_unfaulted hp.unfaulted
    dsimp only at hcost hprice
    rcases hp.bills with hbills | ⟨hbills, hpc, hinside⟩
    · have hle := hbills.budget_add_le hp.unfaulted
      have hlt : m'.budget < m.budget := by omega
      exact Prod.Lex.left _ _ hlt
    · -- a mark may be free, but the machine has passed it
      have hle := hbills.budget_add_le hp.unfaulted
      have hahead : env.code.size - m'.pc < env.code.size - m.pc := by omega
      rcases Nat.lt_or_ge m'.budget m.budget with hlt | hge
      · exact Prod.Lex.left _ _ hlt
      · have hsame : m'.budget = m.budget := by omega
        unfold rank
        dsimp only
        rw [hsame]
        exact Prod.Lex.right _ hahead
  | @inside env inner m m₁ start op inv ht hb =>
    have hbudget := Machine.budget_of_unfaulted ht.unfaulted
    have hstart := (hb ▸ inv.begun env m₁).start_budget
    obtain ⟨-, hgas⟩ := ht.invoke_bills.meter ht.stepped.invoke_unfaulted
    dsimp only at hcost hprice
    have hlt : start.budget < m.budget := by omega
    exact Prod.Lex.left _ _ hlt

theorem Follows.charging {k s : Env × Machine} (h : Follows k s) (hs : Charging s) : Charging k := by
  cases h with
  | @later env m m' op hp =>
    have hprice : m'.stack.price = m.stack.price := by
      rcases hp.bills with hbills | ⟨hbills, -⟩
      · exact hbills.price
      · exact hbills.price
    exact ⟨hprice.trans hs.price, hs.positive⟩
  | @inside env inner m m₁ start op inv ht hb => exact (hb ▸ inv.begun env m₁).charging hs.positive

theorem acc_follows (s : Env × Machine) (hs : Charging s) : Acc Follows s :=
  ⟨s, fun k hk => acc_follows k (hk.charging hs)⟩
termination_by rank s
decreasing_by exact hk.rank_lt hs

/-! ### Executions -/

theorem Host.perform_terminates (host : Host) (below : View) (frame : Frame) (call : Call)
    (target : Target) (sequence : CreateSequence)
    (hpos : 0 < host.options.gas.baseOp ∨ 0 < host.options.gas.stackOp) :
    ∃ out bound, ∀ fuel, bound ≤ fuel →
      host.perform fuel below frame call target sequence = some out := by
  have hbegun := host.begun below frame call target sequence
  unfold perform
  rcases hb : host.begin below frame call target sequence with o | ⟨inner, start⟩
  · exact ⟨o, 0, fun _ _ => rfl⟩
  · rw [hb] at hbegun
    obtain ⟨out, hruns⟩ := exists_runs (acc_follows (inner, start) (hbegun.charging hpos))
    obtain ⟨bound, hrun⟩ := hruns.run_eq
    refine ⟨out, bound + 1, fun fuel hfuel => ?_⟩
    obtain ⟨k, rfl⟩ := Nat.exists_eq_add_of_le' (Nat.le_of_add_left_le hfuel)
    exact hrun k (by omega)

/-- If every instruction or every use of the stack costs something, then an execution comes to its
end, whatever it is given: no chain of instructions and nested calls is endless, and there is a report
that all bounds on the run give, from some bound on. -/
theorem priced_execution_terminates {σ κ : Type} [Store σ] [EventSink κ] (engine : Engine)
    (chain : Chain) (store : σ) (sink : κ) (call : Call) (code : Bytes)
    (hcost : 1 ≤ engine.options.gas.baseOp ∨ 1 ≤ engine.options.gas.stackOp) :
    (∀ env m, (engine.host chain).begin (Store.view store) (Frame.root engine.options.callMaxDepth)
      call (.code code) engine.sequence = .running env m → Acc Follows (env, m)) ∧
    ∃ (report : Report σ κ) (bound : Nat), ∀ fuel, bound ≤ fuel →
      engine.execute fuel chain store sink call code = some report := by
  constructor
  · intro env m hb
    exact acc_follows (env, m) ((hb ▸ Host.begun _ _ _ _ _ _).charging hcost)
  · obtain ⟨out, bound, hperform⟩ := (engine.host chain).perform_terminates (Store.view store)
      (Frame.root engine.options.callMaxDepth) call (.code code) engine.sequence hcost
    cases hbound : engine.execute bound chain store sink call code with
    | none =>
      unfold Engine.execute at hbound
      rw [hperform bound le_rfl] at hbound
      cases hbound
    | some report =>
      refine ⟨report, bound, fun fuel hfuel => ?_⟩
      unfold Engine.execute at hbound ⊢
      rw [hperform bound le_rfl] at hbound
      rw [hperform fuel hfuel]
      exact hbound

def callingLoop : Bytes :=
  0x5b :: callTo 11 ++ [0x60, 0, 0x56]

theorem calling_loop_runs_out_of_gas :
    1 ≤ (Engine.new {}).options.gas.stackOp ∧ (Engine.new {}).options.callMaxDepth = 0 ∧
    (∃ (report : Report Ledger Trace) (bound : Nat), ∀ fuel, bound ≤ fuel →
      (Engine.new {}).execute fuel (Chain.withHashes 1 0 ∅) relayLedger (#[] : Trace)
        { relayCall with gas := 100 } callingLoop = some report) ∧
    ((Engine.new {}).execute 40 (Chain.withHashes 1 0 ∅) relayLedger (#[] : Trace)
      { relayCall with gas := 100 } callingLoop).map (·.result) = some (.error .insufficientGas) := by
  have hcost : 1 ≤ (Engine.new {}).options.gas.stackOp := by decide
  have hends := (priced_execution_terminates (Engine.new {}) (Chain.withHashes 1 0 ∅) relayLedger
    (#[] : Trace) { relayCall with gas := 100 } callingLoop (Or.inr hcost)).2
  exact ⟨hcost, rfl, hends, by decide +kernel⟩

end ContractVm
