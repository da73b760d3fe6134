import Mathlib
import ContractVm.Run
import ContractVm.Proofs.Nested

/-! # Runs

`Runs env m out` says that the machine `m` runs to its end and gives `out`. It is `run` without the
bound (`runs_iff`), and it is what to do an induction on: one case for each way a run can go on.
`Visits` lists the machines that a run comes to, at any depth. -/

namespace ContractVm

/-! ### Reading an instruction -/

/-- The machine `m` reads the instruction `op` and performs it up to its flow. -/
def Takes (env : Env) (m : Machine) (op : Opcode) (flow : Flow) (m' : Machine) : Prop :=
  ∃ m₁, m.fetch env = (m₁, .ok op) ∧ (Exec.step env op).run m₁ = (flow, m')

namespace Machine

theorem fetch_meter {env : Env} {m m₁ : Machine} {result : Except Fault Opcode}
    (h : m.fetch env = (m₁, result)) :
    ∃ meter, m₁ = { m with meter } ∧ m.meter.Spends meter := by
  have hcharge := Meter.spends_charge env.prices.baseOp m.meter
  unfold fetch at h
  split at h
  · cases h
    exact ⟨m.meter, rfl, .refl m.meter⟩
  · dsimp only at h
    split at h
    · cases h
      exact ⟨_, rfl, hcharge⟩
    · split at h
      · cases h
        exact ⟨_, rfl, hcharge⟩
      · cases h
        exact ⟨_, rfl, hcharge⟩

theorem fetch_of_fault {m : Machine} {fault : Fault} (h : m.meter.fault = some fault) (env : Env) :
    m.fetch env = (m, .error fault) := by
  unfold fetch
  rw [h]

end Machine

theorem Stepped.of_turns {env : Env} {m m₁ m' : Machine} {op : Opcode} {flow : Flow}
    (h : Stepped env m₁ op flow m') (hm : m.Turns m.world m₁) (hstack : m₁.stack = m.stack) :
    Stepped env m op flow m' := by
  have hframe : m₁.frame = m.frame := hm.frame
  have htrace : m₁.trace = m.trace := hm.trace
  have hsequence : m₁.sequence = m.sequence := hm.sequence
  have hview : m₁.view env = m.view env := hm.view env
  have hworld : m₁.world = m.world := hm.world
  cases h with
  | inward hflow h => exact .inward hflow (hm.trans (hworld ▸ h))
  | stored hw h => exact .stored (hframe ▸ hw) (hm.trans (htrace ▸ hsequence ▸ h))
  | logged hro hlog h =>
    exact .logged (hframe ▸ hro) hlog (hm.trans (hframe ▸ htrace ▸ hsequence ▸ h))
  | opened hop hflow ho h hf =>
    exact .opened hop hflow (ho.of_frame hframe) (hm.trans (htrace ▸ hsequence ▸ h)) hf
  | destroyed hheir ho hb h =>
    refine .destroyed (hstack ▸ hheir) ?_ hb (hm.trans (htrace ▸ hsequence ▸ h))
    exact ho.imp (fun hs => hs.trans hframe) fun ho => ho.of_frame hframe
  | sequenced h hf => exact .sequenced (hm.trans (hframe ▸ htrace ▸ hsequence ▸ h)) hf
  | creates h =>
    exact .creates
      { h with
        turns := hm.trans (hframe ▸ htrace ▸ h.turns)
        gas := h.gas.trans hm.meter.gas
        address := hsequence ▸ h.address
        frame := hframe ▸ hview ▸ h.frame }
  | calls h =>
    obtain ⟨target, account, hfound, hrest⟩ := h.found
    exact .calls
      { h with
        turns := hm.trans (htrace ▸ hsequence ▸ h.turns)
        gas := h.gas.trans hm.meter.gas
        found := ⟨target, account, hfound.of_turns hm, hrest⟩ }

theorem Takes.stepped {env : Env} {m m' : Machine} {op : Opcode} {flow : Flow}
    (h : Takes env m op flow m') : Stepped env m op flow m' := by
  obtain ⟨m₁, hfetch, hstep⟩ := h
  obtain ⟨meter, rfl, hspends⟩ := Machine.fetch_meter hfetch
  exact (Stepped.of_run hstep).of_turns ⟨rfl, hspends⟩ rfl

def Invocation.begin (inv : Invocation) (env : Env) (m : Machine) : Beginning :=
  env.host.begin (m.view env) inv.frame inv.call inv.target m.sequence

def Invocation.perform (inv : Invocation) (fuel : Nat) (env : Env) (m : Machine) : Option Outcome :=
  env.host.perform fuel (m.view env) inv.frame inv.call inv.target m.sequence

theorem Invocation.perform_over {inv : Invocation} {env : Env} {m : Machine} {o : Outcome}
    (h : inv.begin env m = .over o) (fuel : Nat) : inv.perform fuel env m = some o := by
  unfold Invocation.begin at h
  simp only [perform, Host.perform, h]

theorem Invocation.perform_running {inv : Invocation} {env inner : Env} {m start : Machine}
    (h : inv.begin env m = .running inner start) (fuel : Nat) :
    inv.perform fuel env m = run fuel inner start := by
  unfold Invocation.begin at h
  simp only [perform, Host.perform, h]

theorem Takes.of_fetch {env : Env} {m : Machine} {op : Opcode} (h : (m.fetch env).2 = .ok op) :
    Takes env m op ((Exec.step env op).run (m.fetch env).1).1
      ((Exec.step env op).run (m.fetch env).1).2 :=
  ⟨(m.fetch env).1, Prod.ext rfl h, rfl⟩

/-! ### Runs without a bound -/

/-- The machine behind the instruction that asked for a nested call. -/
def Machine.after (m : Machine) (env : Env) (inv : Invocation) (out : Outcome) : Machine :=
  ((Exec.resume env inv out).run m).2.advance

inductive Runs : Env → Machine → Outcome → Prop where
  | stopped {env : Env} {m m₁ : Machine} {fault : Fault} (h : m.fetch env = (m₁, .error fault)) :
      Runs env m (m₁.finish (.error fault))
  | halted {env : Env} {m m₁ : Machine} {op : Opcode} {output : Bytes}
      (h : Takes env m op (.halt output) m₁) : Runs env m (m₁.halt output)
  | next {env : Env} {m m₁ : Machine} {op : Opcode} {out : Outcome} (h : Takes env m op .next m₁)
      (rest : Runs env m₁.advance out) : Runs env m out
  | jumped {env : Env} {m m₁ : Machine} {op : Opcode} {out : Outcome}
      (h : Takes env m op .jumped m₁) (rest : Runs env m₁ out) : Runs env m out
  | ended {env : Env} {m m₁ : Machine} {op : Opcode} {inv : Invocation} {o out : Outcome}
      (h : Takes env m op (.invoke inv) m₁) (hb : inv.begin env m₁ = .over o)
      (rest : Runs env (m₁.after env inv o) out) : Runs env m out
  | nested {env inner : Env} {m m₁ start : Machine} {op : Opcode} {inv : Invocation}
      {o out : Outcome} (h : Takes env m op (.invoke inv) m₁)
      (hb : inv.begin env m₁ = .running inner start) (call : Runs inner start o)
      (rest : Runs env (m₁.after env inv o) out) : Runs env m out

theorem runs_of_run {fuel : Nat} {env : Env} {m : Machine} {out : Outcome}
    (h : run fuel env m = some out) : Runs env m out := by
  induction fuel generalizing env m out with
  | zero => cases h
  | succ fuel ih =>
    unfold run at h
    split at h
    · next m₁ fault hfetch =>
      cases h
      exact .stopped hfetch
    · next m₁ op hfetch =>
      split at h
      · next m₂ hstep => exact .next ⟨m₁, hfetch, hstep⟩ (ih h)
      · next m₂ hstep => exact .jumped ⟨m₁, hfetch, hstep⟩ (ih h)
      · next output m₂ hstep =>
        cases h
        exact .halted ⟨m₁, hfetch, hstep⟩
      · next inv m₂ hstep =>
        have htakes : Takes env m op (.invoke inv) m₂ := ⟨m₁, hfetch, hstep⟩
        dsimp only at h
        rcases hb : inv.begin env m₂ with o | ⟨inner, start⟩
        · rw [Invocation.begin] at hb
          rw [hb] at h
          exact .ended htakes hb (ih h)
        · rw [Invocation.begin] at hb
          rw [hb] at h
          cases ho : run fuel inner start with
          | none => simp [ho] at h
          | some o =>
            simp only [ho] at h
            exact .nested htakes hb (ih ho) (ih h)

section Bound

variable {env : Env} {m m' : Machine} {op : Opcode}

theorem Takes.run_halt {output : Bytes} (h : Takes env m op (.halt output) m') (fuel : Nat) :
    run (fuel + 1) env m = some (m'.halt output) := by
  obtain ⟨m₁, hfetch, hstep⟩ := h
  simp only [run, hfetch, hstep]

theorem Takes.run_next (h : Takes env m op .next m') (fuel : Nat) :
    run (fuel + 1) env m = run fuel env m'.advance := by
  obtain ⟨m₁, hfetch, hstep⟩ := h
  simp only [run, hfetch, hstep]

theorem Takes.run_jumped (h : Takes env m op .jumped m') (fuel : Nat) :
    run (fuel + 1) env m = run fuel env m' := by
  obtain ⟨m₁, hfetch, hstep⟩ := h
  simp only [run, hfetch, hstep]

theorem Takes.run_invoke {inv : Invocation} {o : Outcome} (h : Takes env m op (.invoke inv) m')
    {fuel : Nat} (ho : inv.perform fuel env m' = some o) :
    run (fuel + 1) env m = run fuel env (m'.after env inv o) := by
  obtain ⟨m₁, hfetch, hstep⟩ := h
  unfold Invocation.perform Host.perform at ho
  simp only [run, hfetch, hstep, ho]
  rfl

end Bound

/-- A run needs some fuel, and more does not change it. -/
theorem Runs.run_eq {env : Env} {m : Machine} {out : Outcome} (h : Runs env m out) :
    ∃ bound, ∀ fuel, bound ≤ fuel → run (fuel + 1) env m = some out := by
  induction h with
  | stopped hfetch => exact ⟨0, fun fuel _ => by simp only [run, hfetch]⟩
  | halted ht => exact ⟨0, fun fuel _ => ht.run_halt fuel⟩
  | next ht _ ih =>
    obtain ⟨bound, hrest⟩ := ih
    refine ⟨bound + 1, fun fuel hfuel => ?_⟩
    obtain ⟨k, rfl⟩ := Nat.exists_eq_add_of_le' (Nat.le_of_add_left_le hfuel)
    rw [ht.run_next]
    exact hrest k (by omega)
  | jumped ht _ ih =>
    obtain ⟨bound, hrest⟩ := ih
    refine ⟨bound + 1, fun fuel hfuel => ?_⟩
    obtain ⟨k, rfl⟩ := Nat.exists_eq_add_of_le' (Nat.le_of_add_left_le hfuel)
    rw [ht.run_jumped]
    exact hrest k (by omega)
  | ended ht hb _ ih =>
    obtain ⟨bound, hrest⟩ := ih
    refine ⟨bound + 1, fun fuel hfuel => ?_⟩
    obtain ⟨k, rfl⟩ := Nat.exists_eq_add_of_le' (Nat.le_of_add_left_le hfuel)
    rw [ht.run_invoke (Invocation.perform_over hb (k + 1))]
    exact hrest k (by omega)
  | nested ht hb _ _ ihCall ihRest =>
    obtain ⟨bound, hrest⟩ := ihRest
    obtain ⟨bound', hcall⟩ := ihCall
    refine ⟨max bound bound' + 1, fun fuel hfuel => ?_⟩
    obtain ⟨k, rfl⟩ := Nat.exists_eq_add_of_le' (Nat.le_of_add_left_le hfuel)
    have hperform := (Invocation.perform_running hb (k + 1)).trans (hcall k (by omega))
    rw [ht.run_invoke hperform]
    exact hrest k (by omega)

theorem runs_iff {env : Env} {m : Machine} {out : Outcome} :
    Runs env m out ↔ ∃ fuel, run fuel env m = some out := by
  constructor
  · intro h
    obtain ⟨bound, hrun⟩ := h.run_eq
    exact ⟨bound + 1, hrun bound le_rfl⟩
  · rintro ⟨fuel, h⟩
    exact runs_of_run h

/-! ### Where a run comes to -/

/-- The machine performs the instruction `op` to its end, and is then `m'`. -/
inductive Proceeds (env : Env) (m : Machine) (op : Opcode) : Machine → Prop where
  | next {m₁ : Machine} (h : Takes env m op .next m₁) : Proceeds env m op m₁.advance
  | jumped {m₁ : Machine} (h : Takes env m op .jumped m₁) : Proceeds env m op m₁
  | nested {m₁ : Machine} {inv : Invocation} {fuel : Nat} {o : Outcome}
      (h : Takes env m op (.invoke inv) m₁) (ho : inv.perform fuel env m₁ = some o) :
      Proceeds env m op (m₁.after env inv o)

/-- The run of `m` comes to the machine `k`, itself or in a nested call. -/
inductive Visits : Env → Machine → Env → Machine → Prop where
  | here {env : Env} {m : Machine} : Visits env m env m
  | later {env e : Env} {m m' k : Machine} {op : Opcode} (h : Proceeds env m op m')
      (rest : Visits env m' e k) : Visits env m e k
  | inside {env inner e : Env} {m m₁ start k : Machine} {op : Opcode} {inv : Invocation}
      (h : Takes env m op (.invoke inv) m₁) (hb : inv.begin env m₁ = .running inner start)
      (rest : Visits inner start e k) : Visits env m e k

theorem Proceeds.of_ended {env : Env} {m m₁ : Machine} {op : Opcode} {inv : Invocation}
    {o : Outcome} (h : Takes env m op (.invoke inv) m₁) (hb : inv.begin env m₁ = .over o) :
    Proceeds env m op (m₁.after env inv o) :=
  .nested h (Invocation.perform_over hb 0)

theorem Proceeds.of_runs {env inner : Env} {m m₁ start : Machine} {op : Opcode} {inv : Invocation}
    {o : Outcome} (h : Takes env m op (.invoke inv) m₁)
    (hb : inv.begin env m₁ = .running inner start) (call : Runs inner start o) :
    Proceeds env m op (m₁.after env inv o) := by
  obtain ⟨fuel, hrun⟩ := runs_iff.1 call
  exact .nested h ((Invocation.perform_running hb fuel).trans hrun)

theorem Takes.unique {env : Env} {m m₁ m₂ : Machine} {op op' : Opcode} {flow flow' : Flow}
    (h : Takes env m op flow m₁) (h' : Takes env m op' flow' m₂) : flow = flow' ∧ m₁ = m₂ := by
  obtain ⟨k, hfetch, hstep⟩ := h
  obtain ⟨k', hfetch', hstep'⟩ := h'
  rw [hfetch] at hfetch'
  cases hfetch'
  rw [hstep] at hstep'
  exact Prod.mk.inj hstep'

theorem Visits.of_halt {env e : Env} {m m₁ k : Machine} {op : Opcode} {output : Bytes}
    (h : Visits env m e k) (ht : Takes env m op (.halt output) m₁) : e = env ∧ k = m := by
  have hnone : ∀ {op' flow m'}, Takes env m op' flow m' → flow = .halt output :=
    fun ht' => (ht.unique ht').1.symm
  cases h with
  | here => exact ⟨rfl, rfl⟩
  | later hp _ =>
    cases hp with
    | next ht' => cases hnone ht'
    | jumped ht' => cases hnone ht'
    | nested ht' _ => cases hnone ht'
  | inside ht' _ _ => cases hnone ht'

theorem Visits.of_next {env e : Env} {m m₁ k : Machine} {op : Opcode}
    (h : Visits env m e k) (ht : Takes env m op .next m₁) :
    (e = env ∧ k = m) ∨ Visits env m₁.advance e k := by
  have hnone : ∀ {op' flow m'}, Takes env m op' flow m' → flow = .next :=
    fun ht' => (ht.unique ht').1.symm
  cases h with
  | here => exact Or.inl ⟨rfl, rfl⟩
  | later hp hv =>
    cases hp with
    | next ht' =>
      rw [(ht.unique ht').2]
      exact Or.inr hv
    | jumped ht' => cases hnone ht'
    | nested ht' _ => cases hnone ht'
  | inside ht' _ _ => cases hnone ht'

/-- The machine some instructions later, if none of them jumps, stops or makes a call. -/
def Machine.walk (env : Env) : Nat → Machine → Option Machine
  | 0, m => some m
  | n + 1, m =>
    match m.fetch env with
    | (_, .error _) => none
    | (m₁, .ok op) =>
      match (Exec.step env op).run m₁ with
      | (.next, m₂) => walk env n m₂.advance
      | _ => none

theorem visits_of_walk {env : Env} {n : Nat} {m k : Machine} (h : m.walk env n = some k) :
    Visits env m env k := by
  induction n generalizing m with
  | zero =>
    cases h
    exact .here
  | succ n ih =>
    unfold Machine.walk at h
    split at h
    · cases h
    · next m₁ op hfetch =>
      split at h
      · next m₂ hstep => exact .later (.next ⟨m₁, hfetch, hstep⟩) (ih h)
      · cases h

/-! ### What a run keeps -/

theorem Takes.unfaulted {env : Env} {m m' : Machine} {op : Opcode} {flow : Flow}
    (h : Takes env m op flow m') : m.meter.fault = none := by
  obtain ⟨m₁, hfetch, -⟩ := h
  cases hf : m.meter.fault with
  | none => rfl
  | some fault =>
    rw [Machine.fetch_of_fault hf env] at hfetch
    cases hfetch

theorem Runs.of_fault {env : Env} {m : Machine} {out : Outcome} (h : Runs env m out) {fault : Fault}
    (hf : m.meter.fault = some fault) : out = m.finish (.error fault) := by
  have hnone : ∀ {op flow m'}, ¬ Takes env m op flow m' := by
    intro op flow m' ht
    rw [ht.unfaulted] at hf
    cases hf
  cases h with
  | stopped hfetch =>
    rw [Machine.fetch_of_fault hf env] at hfetch
    cases hfetch
    rfl
  | halted ht => exact absurd ht hnone
  | next ht _ => exact absurd ht hnone
  | jumped ht _ => exact absurd ht hnone
  | ended ht _ _ => exact absurd ht hnone
  | nested ht _ _ _ => exact absurd ht hnone

theorem Runs.unfaulted {env : Env} {m : Machine} {out : Outcome} (h : Runs env m out)
    {output : Bytes} (hr : out.result = .ok output) : m.meter.fault = none := by
  cases hf : m.meter.fault with
  | none => rfl
  | some fault =>
    rw [h.of_fault hf] at hr
    cases hr

theorem Takes.after_writes {env : Env} {m m₁ : Machine} {op : Opcode} {inv : Invocation}
    (h : Takes env m op (.invoke inv) m₁) (out : Outcome) :
    Frame.Writes m.frame (m₁.after env inv out).frame :=
  h.stepped.writes.trans (Exec.resumed env inv out m₁).writes

theorem Machine.halt_finish (m : Machine) (output : Bytes) :
    ∃ result, m.halt output = m.finish result := by
  unfold halt
  split
  · exact ⟨_, rfl⟩
  · exact ⟨_, rfl⟩

theorem Runs.writes {env : Env} {m : Machine} {out : Outcome} (h : Runs env m out) :
    Frame.Writes m.frame out.frame := by
  induction h with
  | stopped hfetch =>
    obtain ⟨meter, rfl, -⟩ := Machine.fetch_meter hfetch
    exact .refl
  | @halted env m m₁ op output ht =>
    obtain ⟨result, hhalt⟩ := m₁.halt_finish output
    rw [hhalt]
    exact ht.stepped.writes
  | next ht _ ih => exact ht.stepped.writes.trans ih
  | jumped ht _ ih => exact ht.stepped.writes.trans ih
  | ended ht _ _ ih => exact (ht.after_writes _).trans ih
  | nested ht _ _ _ _ ih => exact (ht.after_writes _).trans ih

/-! ### The frame and the outcome of a call -/

theorem Begun.writes {host : Host} {below : View} {frame : Frame} {call : Call}
    {sequence : CreateSequence} {inner : Env} {start : Machine}
    (h : Begun host below frame call sequence (.running inner start)) :
    Frame.Writes frame start.frame := by
  cases h with
  | running hm => exact Call.move_writes hm

theorem Invocation.begun (inv : Invocation) (env : Env) (m : Machine) :
    Begun env.host (m.view env) inv.frame inv.call m.sequence (inv.begin env m) :=
  env.host.begun (m.view env) inv.frame inv.call inv.target m.sequence

inductive Performed (host : Host) (below : View) (frame : Frame) (call : Call)
    (sequence : CreateSequence) : Outcome → Prop where
  | refused {fault : Fault} (h : call.move below frame = .error fault) :
      Performed host below frame call sequence
        { result := .error fault, gas := call.gas, frame, sequence }
  | ended {frame' : Frame} {result : Except Fault Bytes} {gas : Nat}
      (h : call.move below frame = .ok frame') :
      Performed host below frame call sequence { result, gas, frame := frame', sequence }
  | ran {frame' : Frame} {bytes : Bytes} {out : Outcome} (h : call.move below frame = .ok frame')
      (hrun : Runs { host, call, code := Code.ofBytes bytes, below }
        (Machine.start host.options call.gas frame' sequence) out) :
      Performed host below frame call sequence out

theorem Begun.performed {host : Host} {below : View} {frame : Frame} {call : Call}
    {sequence : CreateSequence} {out : Outcome}
    (h : Begun host below frame call sequence (.over out)) :
    Performed host below frame call sequence out := by
  cases h with
  | refused hm => exact .refused hm
  | ended hm => exact .ended hm

theorem Begun.performed_of_runs {host : Host} {below : View} {frame : Frame} {call : Call}
    {sequence : CreateSequence} {inner : Env} {start : Machine} {out : Outcome}
    (h : Begun host below frame call sequence (.running inner start)) (hr : Runs inner start out) :
    Performed host below frame call sequence out := by
  cases h with
  | running hm => exact .ran hm hr

theorem Host.performed {host : Host} {fuel : Nat} {below : View} {frame : Frame} {call : Call}
    {target : Target} {sequence : CreateSequence} {out : Outcome}
    (h : host.perform fuel below frame call target sequence = some out) :
    Performed host below frame call sequence out := by
  have hbegun := host.begun below frame call target sequence
  unfold perform at h
  rcases hb : host.begin below frame call target sequence with o | ⟨inner, start⟩
  · rw [hb] at h hbegun
    cases h
    exact hbegun.performed
  · rw [hb] at h hbegun
    exact hbegun.performed_of_runs (runs_of_run h)

theorem Performed.writes {host : Host} {below : View} {frame : Frame} {call : Call}
    {sequence : CreateSequence} {out : Outcome}
    (h : Performed host below frame call sequence out) : Frame.Writes frame out.frame := by
  cases h with
  | refused _ => exact .refl
  | ended hm => exact Call.move_writes hm
  | ran hm hr => exact (Call.move_writes hm).trans hr.writes

end ContractVm
