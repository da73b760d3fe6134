import Mathlib
import ContractVm.Proofs.Engine
import ContractVm.Proofs.Fetch
import ContractVm.Proofs.Metering

/-! # Extra gas is left over

Code that never looks at its gas does the same on a larger budget, and has the difference left. The
argument follows two meters side by side: an operation leaves them alike (`Meter.Alike`), which
means that it did the same on both, or recorded the same fault on both, or ran short on the poorer
one. An instruction goes on after its first fault, and then the two may part; what stays is that
fault, and the run ends with it. -/

namespace ContractVm

/-! ### Two meters -/

namespace Meter

variable {γ δ : Type}

/-- What an operation gave for the meter `m`, and for the one with `extra` more gas. -/
inductive Alike (extra : Nat) (m : Meter) : γ × Meter → γ × Meter → Prop where
  | together {a : γ} {m₁ : Meter} (h : m.Spends m₁) : Alike extra m (a, m₁) (a, m₁.richer extra)
  | faulted {r r' : γ × Meter} {fault : Fault} (hm : ∀ f, m.fault = some f → f = fault)
      (h : r.2.fault = some fault) (h' : r'.2.fault = some fault) : Alike extra m r r'
  | short {r r' : γ × Meter} (hm : m.fault = none) (h : r.2.fault = some .insufficientGas) :
      Alike extra m r r'

def Steady (extra : Nat) (F : Meter → γ × Meter) : Prop :=
  ∀ m, Alike extra m (F m) (F (m.richer extra))

variable {extra : Nat} {m m₁ : Meter}

theorem Alike.after {r r' : γ × Meter} (h : Alike extra m₁ r r') (hs : m.Spends m₁) :
    Alike extra m r r' := by
  cases h with
  | together h => exact .together (hs.trans h)
  | faulted hm h h' => exact .faulted (fun f hf => hm f (hs.fault f hf)) h h'
  | short hm h => exact .short (hs.unfaulted hm) h

theorem Alike.keeps {r r' : γ × Meter} {fault : Fault} (h : Alike extra m r r')
    (hf : m.fault = some fault) : r.2.fault = some fault := by
  cases h with
  | together h => exact h.fault fault hf
  | faulted hm h _ => rw [h, hm fault hf]
  | short hm _ =>
    rw [hm] at hf
    cases hf

section Rules

variable {F G : Meter → γ × Meter}

theorem Steady.pure (a : γ) : Steady extra fun m => (a, m) :=
  fun m => .together (.refl m)

theorem Steady.record (a : γ) (fault : Fault) : Steady extra fun m => (a, m.record fault) := by
  intro m
  refine .faulted ?_ (record_fault fault m) (record_fault fault (m.richer extra))
  intro f hf
  rw [hf, Option.getD_some]

theorem Steady.bind {K : γ → Meter → δ × Meter} (hF : Steady extra F)
    (hK : ∀ a, Steady extra (K a)) : Steady extra fun m => K (F m).1 (F m).2 := by
  intro m
  have h := hF m
  dsimp only
  generalize F m = r, F (m.richer extra) = r' at h
  cases h with
  | together hs => exact (hK _ _).after hs
  | faulted hm h h' => exact .faulted hm ((hK _ _).keeps h) ((hK _ _).keeps h')
  | short hm h => exact .short hm ((hK _ _).keeps h)

theorem Steady.consume (amount : Nat) (a : γ) (hG : Steady extra G)
    (h : ∀ m, F m =
      match m.consume amount with
      | .ok m => G m
      | .error fault => (a, m.record fault)) : Steady extra F := by
  intro m
  rw [h, h]
  rcases Nat.lt_or_ge m.gas amount with hlt | hle
  · rw [consume_of_lt hlt]
    cases hf : m.fault with
    | none =>
      refine .short hf ?_
      rw [record_fault, hf, Option.getD_none]
    | some fault =>
      have hsame : ∀ f, m.fault = some f → f = fault := by
        intro f hf'
        rw [hf] at hf'
        exact (Option.some.inj hf').symm
      refine .faulted hsame ((spends_record _ m).fault fault hf) ?_
      -- the richer meter may pay, but it has the fault as well
      split
      · next m₁ hc => exact (hG m₁).keeps ((spends_consume hc).fault fault hf)
      · exact (spends_record _ (m.richer extra)).fault fault hf
  · have hpaid := consume_of_le hle
    rw [hpaid, consume_richer hle]
    exact (hG _).after (spends_consume hpaid)

end Rules

theorem Metered.steady {F : Meter → γ × Meter} (h : Metered F) (extra : Nat) : Steady extra F := by
  induction h with
  | pure a => exact .pure a
  | record a fault => exact .record a fault
  | faulty => exact fun m => .together (.refl m)
  | paid amount a _ ih => exact .consume amount a ih fun _ => rfl
  | bind _ _ ihF ihK => exact ihF.bind ihK

end Meter

/-! ### One instruction -/

theorem Exec.Metered.run_cases {α : Type} {p : Exec α} (hp : Metered p) (extra : Nat)
    (m : Machine) :
    p.run (m.richer extra) = ((p.run m).1, (p.run m).2.richer extra) ∨
    (∃ fault, (p.run m).2.meter.fault = some fault ∧
      (p.run (m.richer extra)).2.meter.fault = some fault) ∨
    (p.run m).2.meter.fault = some .insufficientGas := by
  have h := (hp m).steady extra m.meter
  have hrun : p.run m = ((p.onMeter m m.meter).1.1,
      { (p.onMeter m m.meter).1.2 with meter := (p.onMeter m m.meter).2 }) := rfl
  have hrun' : p.run (m.richer extra) = ((p.onMeter m (m.meter.richer extra)).1.1,
      { (p.onMeter m (m.meter.richer extra)).1.2 with
        meter := (p.onMeter m (m.meter.richer extra)).2 }) := rfl
  rw [hrun, hrun']
  generalize p.onMeter m m.meter = r, p.onMeter m (m.meter.richer extra) = r' at h
  cases h with
  | together _ => exact Or.inl rfl
  | faulted _ h h' => exact Or.inr (Or.inl ⟨_, h, h'⟩)
  | short _ h => exact Or.inr (Or.inr h)

theorem Machine.fetch_of_le {env : Env} {m : Machine} (hm : m.meter.fault = none)
    (hle : env.prices.baseOp ≤ m.meter.gas) :
    m.fetch env = ({ m with meter := { m.meter with gas := m.meter.gas - env.prices.baseOp } },
      match Opcode.ofByte? (env.code.byteAt m.pc) with
      | some op => .ok op
      | none => .error (.unknownOpcode (env.code.byteAt m.pc))) := by
  simp only [fetch, hm, Meter.charge_of_le hle]
  cases Opcode.ofByte? (env.code.byteAt m.pc) <;> rfl

theorem Machine.fetch_richer (env : Env) (m : Machine) (extra : Nat) :
    (m.fetch env).2 = .error .insufficientGas ∨
      (m.richer extra).fetch env = ((m.fetch env).1.richer extra, (m.fetch env).2) := by
  cases hf : m.meter.fault with
  | some fault =>
    rw [fetch_of_fault hf, fetch_of_fault (m := m.richer extra) hf]
    exact Or.inr rfl
  | none =>
    rcases Nat.lt_or_ge m.meter.gas env.prices.baseOp with hlt | hle
    · have hcharge : m.meter.charge env.prices.baseOp = m.meter.record .insufficientGas := by
        rw [Meter.charge, Meter.consume_of_lt hlt]
      have hfault : (m.meter.record .insufficientGas).fault = some .insufficientGas := by
        rw [Meter.record_fault, hf, Option.getD_none]
      left
      simp only [fetch, hf, hcharge, hfault]
    · have hle' : env.prices.baseOp ≤ (m.richer extra).meter.gas := Nat.le_add_right_of_le hle
      have hgas : m.meter.gas + extra - env.prices.baseOp =
          m.meter.gas - env.prices.baseOp + extra := by
        omega
      right
      rw [fetch_of_le hf hle, fetch_of_le (m := m.richer extra) hf hle']
      simp only [richer, Meter.richer, hgas]

/-- No instruction of the code depends on how much gas is left. -/
def Code.IgnoresGas (code : Code) : Prop :=
  ∀ offset < code.size, code.isPushData offset = false →
    (Opcode.ofByte? (code.byteAt offset)).all (fun op => !op.readsGas) = true

instance (code : Code) : Decidable code.IgnoresGas :=
  inferInstanceAs (Decidable (∀ offset < code.size, code.isPushData offset = false →
    (Opcode.ofByte? (code.byteAt offset)).all (fun op => !op.readsGas) = true))

theorem InStep.readsGas {env : Env} {m m₁ : Machine} {op : Opcode} (h : InStep env m)
    (hcode : env.code.IgnoresGas) (hfetch : m.fetch env = (m₁, .ok op)) : op.readsGas = false := by
  obtain ⟨-, -, hbyte⟩ := Machine.fetch_bills hfetch
  rcases Nat.lt_or_ge m.pc env.code.size with hlt | hge
  · have hall := hcode m.pc hlt h.instruction
    rw [hbyte, Option.all_some] at hall
    simpa using hall
  · rw [Code.byteAt_of_size_le hge] at hbyte
    cases hbyte
    rfl

theorem Exec.step_halts (env : Env) (op : Opcode) (m : Machine) :
    ((step env op).run m).1.halts = op.halts := by
  cases hop : op.moves with
  | false => exact ((built_step env op hop).stays m).2.halts
  | true =>
    cases op with
    | push n => rfl
    | jump =>
      rw [step_jump env (Or.inl rfl)]
      rfl
    | jumpIf =>
      rw [step_jump env (Or.inr rfl)]
      rcases (jumpOperands .jumpIf).run m with ⟨_ | destination, k⟩
      · rfl
      · rfl
    | _ => cases hop

theorem Takes.invocation_eq_none {env : Env} {m m' : Machine} {op : Opcode} {flow : Flow}
    (h : Takes env m op flow m') (hop : op.readsGas = false) : flow.invocation? = none := by
  cases flow with
  | invoke inv =>
    rcases h.stepped.invoke_cases with ⟨variant, rfl, -⟩ | ⟨variant, rfl, -⟩
    · cases hop
    · cases hop
  | _ => rfl

/-- An instruction that does not look at the gas, on a machine and on a richer one. -/
theorem Takes.richer {env : Env} {m m' : Machine} {op : Opcode} {flow : Flow}
    (h : Takes env m op flow m') (hop : op.readsGas = false) (extra : Nat) :
    ∃ (flow₁ : Flow) (m₁ : Machine), Takes env (m.richer extra) op flow₁ m₁ ∧
      flow₁.halts = flow.halts ∧
      (flow₁ = flow ∧ m₁ = m'.richer extra ∨
        (∃ fault, m'.meter.fault = some fault ∧ m₁.meter.fault = some fault) ∨
        m'.meter.fault = some .insufficientGas) := by
  obtain ⟨k, hfetch, hstep⟩ := h
  have hfetched : (m.richer extra).fetch env = (k.richer extra, .ok op) := by
    rcases m.fetch_richer env extra with hshort | hsame
    · rw [hfetch] at hshort
      cases hshort
    · rw [hsame, hfetch]
  rcases hstep₁ : (Exec.step env op).run (k.richer extra) with ⟨flow₁, m₁⟩
  refine ⟨flow₁, m₁, ⟨_, hfetched, hstep₁⟩, ?_, ?_⟩
  · have hhalts := Exec.step_halts env op k
    have hhalts₁ := Exec.step_halts env op (k.richer extra)
    rw [hstep] at hhalts
    rw [hstep₁] at hhalts₁
    exact hhalts₁.trans hhalts.symm
  · have hcases := (Exec.metered_step env hop).run_cases extra k
    rw [hstep, hstep₁] at hcases
    rcases hcases with hsame | hfaults
    · exact Or.inl (Prod.mk.inj hsame)
    · exact Or.inr hfaults

/-! ### Whole runs -/

inductive Outcome.Alike (extra : Nat) (out : Outcome) : Option Outcome → Prop where
  | together : Alike extra out (some { out with gas := out.gas + extra })
  | faulted {fault : Fault} {out' : Outcome} (h : out.result = .error fault)
      (h' : out'.result = .error fault) : Alike extra out (some out')
  | short {out' : Option Outcome} (h : out.result = .error .insufficientGas) : Alike extra out out'

theorem Machine.halt_richer (m : Machine) (output : Bytes) (extra : Nat) :
    (m.richer extra).halt output =
      { m.halt output with gas := (m.halt output).gas + extra } := by
  have hfault : (m.richer extra).meter.fault = m.meter.fault := rfl
  unfold halt
  rw [hfault]
  cases m.meter.fault <;> rfl

theorem Takes.halts_or_fuel {env : Env} {m m' : Machine} {op : Opcode} {flow : Flow} {fuel : Nat}
    {out : Outcome} (h : Takes env m op flow m') (hasks : flow.invocation? = none)
    (hrun : run (fuel + 1) env m = some out) : flow.halts = true ∨ 0 < fuel := by
  cases fuel with
  | succ fuel => exact Or.inr (Nat.succ_pos fuel)
  | zero =>
    cases flow with
    | halt output => exact Or.inl rfl
    | invoke inv => cases hasks
    | next =>
      rw [h.run_next] at hrun
      cases hrun
    | jumped =>
      rw [h.run_jumped] at hrun
      cases hrun

theorem Takes.run_faulted {env : Env} {m m' : Machine} {op : Opcode} {flow : Flow} {fuel : Nat}
    {fault : Fault} (h : Takes env m op flow m') (hasks : flow.invocation? = none)
    (hfuel : flow.halts = true ∨ 0 < fuel) (hf : m'.meter.fault = some fault) :
    run (fuel + 1) env m = some (m'.finish (.error fault)) := by
  cases flow with
  | invoke inv => cases hasks
  | halt output =>
    rw [h.run_halt, Machine.halt, hf]
  | next =>
    obtain ⟨k, rfl⟩ := Nat.exists_eq_add_of_le' (hfuel.resolve_left Bool.noConfusion)
    rw [h.run_next, run_of_fault (m := m'.advance) hf]
    rfl
  | jumped =>
    obtain ⟨k, rfl⟩ := Nat.exists_eq_add_of_le' (hfuel.resolve_left Bool.noConfusion)
    rw [h.run_jumped, run_of_fault hf]

/-- The step of `run_richer`: an instruction, and what comes behind it. -/
theorem Takes.run_richer {env : Env} {m m' : Machine} {op : Opcode} {flow : Flow} {fuel extra : Nat}
    {out : Outcome} (ht : Takes env m op flow m') (hop : op.readsGas = false)
    (h : run (fuel + 1) env m = some out)
    (rest : ∀ k, Proceeds env m op k → run fuel env k = some out →
      out.Alike extra (run fuel env (k.richer extra))) :
    out.Alike extra (run (fuel + 1) env (m.richer extra)) := by
  have hasks := ht.invocation_eq_none hop
  have hfuel := ht.halts_or_fuel hasks h
  obtain ⟨flow₁, m₁, ht₁, hhalts, hcases⟩ := ht.richer hop extra
  rcases hcases with ⟨rfl, rfl⟩ | ⟨fault, hfault, hfault₁⟩ | hshort
  · cases flow₁ with
    | invoke inv => cases hasks
    | next =>
      rw [ht.run_next] at h
      rw [ht₁.run_next]
      exact rest _ (.next ht) h
    | jumped =>
      rw [ht.run_jumped] at h
      rw [ht₁.run_jumped]
      exact rest _ (.jumped ht) h
    | halt output =>
      rw [ht.run_halt] at h
      cases h
      rw [ht₁.run_halt, Machine.halt_richer]
      exact .together
  · rw [ht.run_faulted hasks hfuel hfault] at h
    cases h
    rw [← hhalts] at hfuel
    rw [ht₁.run_faulted (ht₁.invocation_eq_none hop) hfuel hfault₁]
    exact .faulted rfl rfl
  · rw [ht.run_faulted hasks hfuel hshort] at h
    cases h
    exact .short rfl

theorem run_richer {fuel : Nat} {env : Env} {m : Machine} {out : Outcome}
    (h : run fuel env m = some out) (hm : InStep env m) (hcode : env.code.IgnoresGas)
    (extra : Nat) : out.Alike extra (run fuel env (m.richer extra)) := by
  induction fuel generalizing m with
  | zero => cases h
  | succ fuel ih =>
    rcases hfetch : m.fetch env with ⟨m₁, fault | op⟩
    · rw [run_of_fetch_error hfetch] at h
      cases h
      rcases m.fetch_richer env extra with hshort | hsame
      · rw [hfetch] at hshort
        cases hshort
        exact .short rfl
      · rw [hfetch] at hsame
        rw [run_of_fetch_error hsame]
        exact .together
    · rcases hstep : (Exec.step env op).run m₁ with ⟨flow, m₂⟩
      have ht : Takes env m op flow m₂ := ⟨m₁, hfetch, hstep⟩
      exact ht.run_richer (hm.readsGas hcode hfetch) h fun k hp hrest => ih hrest (hm.proceeds hp)

/-! ### The budget of a call

A run is not told its budget but by the meter. -/

def Env.budgeted (env : Env) (gas : Nat) : Env :=
  { env with call := { env.call with gas } }

theorem Exec.step_budgeted (env : Env) (gas : Nat) (op : Opcode) :
    step (env.budgeted gas) op = step env op := by
  cases op with
  | call variant => cases variant <;> rfl
  | query op => cases op <;> rfl
  | _ => rfl

theorem run_budgeted (fuel : Nat) (env : Env) (gas : Nat) (m : Machine) :
    run fuel (env.budgeted gas) m = run fuel env m := by
  induction fuel generalizing m with
  | zero => rfl
  | succ fuel ih =>
    have hfetch : m.fetch (env.budgeted gas) = m.fetch env := rfl
    simp only [run, hfetch, Exec.step_budgeted, ih]
    rfl

theorem Host.begin_code (host : Host) (below : View) (frame : Frame) (call : Call) (code : Bytes)
    (sequence : CreateSequence) (gas : Nat) :
    host.begin below frame { call with gas } (.code code) sequence =
      match call.move below frame with
      | .error fault => .over { result := .error fault, gas, frame, sequence }
      | .ok frame =>
        if code.isEmpty then .over { result := .ok [], gas, frame, sequence }
        else
          .running { host, call := { call with gas }, code := Code.ofBytes code, below }
            (Machine.start host.options gas frame sequence) := rfl

theorem Host.perform_richer {host : Host} {fuel : Nat} {below : View} {frame : Frame} {call : Call}
    {code : Bytes} {sequence : CreateSequence} {out : Outcome}
    (h : host.perform fuel below frame call (.code code) sequence = some out)
    (hcode : (Code.ofBytes code).IgnoresGas) (extra : Nat) :
    out.Alike extra (host.perform fuel below frame { call with gas := call.gas + extra }
      (.code code) sequence) := by
  have hbegin := host.begin_code below frame call code sequence call.gas
  have hbegin' := host.begin_code below frame call code sequence (call.gas + extra)
  unfold perform at h ⊢
  rw [hbegin] at h
  rw [hbegin']
  cases hmove : call.move below frame with
  | error fault =>
    rw [hmove] at h
    cases h
    exact .together
  | ok frame' =>
    rw [hmove] at h
    dsimp only at h ⊢
    by_cases hempty : code.isEmpty = true
    · rw [if_pos hempty] at h ⊢
      cases h
      exact .together
    · rw [if_neg hempty] at h ⊢
      have hrich := run_richer h (.of_start rfl rfl) hcode extra
      rw [← run_budgeted fuel _ (call.gas + extra)] at hrich
      exact hrich

/-! ### Executions -/

/-- Let no instruction of some code depend on how much gas is left, and let an execution of it on
some budget come to its end. If it succeeds, then on a larger budget it succeeds with the same
output and leaves the same ledger and the same events, but for the budget in the record of the call
itself; the difference of the budgets is left over. If it fails with a fault that is not the lack of
gas, it fails with that fault on a larger budget. -/
theorem extra_gas_is_left_over (engine : Engine) (fuel : Nat) (chain : Chain) (ledger : Ledger)
    (sink : Trace) (call : Call) (code : Bytes) (budget : Nat) (report : Report Ledger Trace)
    (hcode : (Code.ofBytes code).IgnoresGas) (hbudget : call.gas ≤ budget)
    (hreport : engine.execute fuel chain ledger sink call code = some report) :
    (∀ output, report.result = .ok output → ∃ events : Trace,
      report.sink = events.push (.call ⟨call, 0, .ok output⟩) ∧
      engine.execute fuel chain ledger sink { call with gas := budget } code =
        some { report with
          gas := report.gas + (budget - call.gas)
          sink := events.push (.call ⟨{ call with gas := budget }, 0, .ok output⟩) }) ∧
    ∀ fault, report.result = .error fault → fault ≠ .insufficientGas →
      ∃ report' : Report Ledger Trace,
        engine.execute fuel chain ledger sink { call with gas := budget } code = some report' ∧
        report'.result = .error fault := by
  obtain ⟨extra, rfl⟩ := Nat.exists_eq_add_of_le hbudget
  obtain ⟨out, hout, -⟩ := Option.bind_eq_some_iff.1 hreport
  have halike := Host.perform_richer hout hcode extra
  generalize hrich : (engine.host chain).perform fuel (Store.view ledger)
    (Frame.root engine.options.callMaxDepth) { call with gas := call.gas + extra } (.code code)
    engine.sequence = performed at halike
  cases hr : out.result with
  | ok output =>
    rw [Engine.execute_ok hout hr] at hreport
    cases hreport
    constructor
    · rintro _ ⟨⟩
      refine ⟨sink ++ out.trace, rfl, ?_⟩
      rw [Nat.add_sub_cancel_left]
      cases halike with
      | together => exact Engine.execute_ok hrich hr sink
      | faulted h _ =>
        rw [hr] at h
        cases h
      | short h =>
        rw [hr] at h
        cases h
    · intro fault h
      cases h
  | error fault =>
    rw [Engine.execute_error hout hr] at hreport
    cases hreport
    constructor
    · intro output h
      cases h
    · rintro _ ⟨⟩ hgas
      cases halike with
      | together => exact ⟨_, Engine.execute_error hrich hr sink, rfl⟩
      | faulted h h' =>
        rw [hr] at h
        cases h
        exact ⟨_, Engine.execute_error hrich h' sink, rfl⟩
      | short h =>
        rw [hr] at h
        cases h
        exact absurd rfl hgas

/-- Code that pushes the byte of an instruction that asks for gas, and stores it. -/
def storeByte : Bytes :=
  [0x60, 0x5a, 0x60, 1, 0x55, 0]

def abortByte : Bytes :=
  [0x60, 0x5a, 0xfe]

theorem larger_budget_leaves_the_difference :
    (Code.ofBytes storeByte).IgnoresGas ∧ (Code.ofBytes abortByte).IgnoresGas ∧
    (∃ report report' : Report Ledger Trace,
      (Engine.new {}).execute 40 (Chain.withHashes 1 0 ∅) relayLedger (#[] : Trace)
        { relayCall with gas := 10 } storeByte = some report ∧
      (Engine.new {}).execute 40 (Chain.withHashes 1 0 ∅) relayLedger (#[] : Trace)
        { relayCall with gas := 50 } storeByte = some report' ∧
      report.result = .ok [] ∧ report'.result = .ok [] ∧ report'.store = report.store ∧
      report.gas = 5 ∧ report'.gas = 45) ∧
    ∃ report' : Report Ledger Trace,
      (Engine.new {}).execute 40 (Chain.withHashes 1 0 ∅) relayLedger (#[] : Trace)
        { relayCall with gas := 50 } abortByte = some report' ∧
      report'.result = .error .aborted := by
  have hstore : (Code.ofBytes storeByte).IgnoresGas := by decide +kernel
  have habort : (Code.ofBytes abortByte).IgnoresGas := by decide +kernel
  have hstored : ((Engine.new {}).execute 40 (Chain.withHashes 1 0 ∅) relayLedger (#[] : Trace)
      { relayCall with gas := 10 } storeByte).map (fun report => (report.result, report.gas)) =
      some (.ok [], 5) := by
    decide +kernel
  have haborted : ((Engine.new {}).execute 40 (Chain.withHashes 1 0 ∅) relayLedger (#[] : Trace)
      { relayCall with gas := 10 } abortByte).map (fun report => report.result) =
      some (.error .aborted) := by
    decide +kernel
  obtain ⟨report, hreport, hvalues⟩ := Option.map_eq_some_iff.1 hstored
  obtain ⟨hresult, hgas⟩ := Prod.mk.inj hvalues
  obtain ⟨failed, hfailed, hfault⟩ := Option.map_eq_some_iff.1 haborted
  have hmore := (extra_gas_is_left_over _ _ _ _ _ _ _ 50 report hstore (by decide) hreport).1
  have hfails := (extra_gas_is_left_over _ _ _ _ _ _ _ 50 failed habort (by decide) hfailed).2
  obtain ⟨events, -, hreport'⟩ := hmore [] hresult
  have hleft : report.gas + (50 - 10) = 45 := by omega
  exact ⟨hstore, habort, ⟨report, _, hreport, hreport', hresult, hresult, rfl, hgas, hleft⟩,
    hfails .aborted hfault (by decide)⟩

end ContractVm
