import Mathlib
import ContractVm.Proofs.Engine

/-! # What fails leaves only its record

A call that fails has worked in a frame of its own, and so have the calls below it: what they handed
down went no further than that frame, which is dropped. Its caller is left with the record of the
call, and so is the ledger of an execution that fails. -/

namespace ContractVm

theorem Resumed.world_of_error {env : Env} {inv : Invocation} {out : Outcome} {m m' : Machine}
    {fault : Fault} (h : Resumed env inv out m m') (hr : out.result = .error fault) :
    m'.frame = m.frame ∧ m'.trace = m.trace.push (inv.record out) := by
  cases h with
  | failed _ h => exact ⟨h.frame, h.trace⟩
  | settled hok _ _ _ => rw [hr] at hok; cases hok
  | uninstalled hok _ _ _ => rw [hr] at hok; cases hok
  | refused hok _ _ _ _ => rw [hr] at hok; cases hok

theorem Stored.of_error {ledger ledger' : Ledger} {out : Outcome} {fault : Fault}
    (h : Stored ledger out ledger') (hr : out.result = .error fault) : ledger' = ledger := by
  cases h with
  | failed _ => rfl
  | committed hok => rw [hr] at hok; cases hok

theorem Traced.of_error {call : Call} {sink sink' : Trace} {out : Outcome} {fault : Fault}
    (h : Traced call sink out sink') (hr : out.result = .error fault) :
    sink' = sink.push (.call { call, depth := 0, result := .error fault }) := by
  cases h with
  | failed _ => rw [hr]
  | committed hok => rw [hr] at hok; cases hok

/-! ### The frame of a failed call

A step on a frame may have written something before it fails. That stays in the frame of the call
that fails with it, which neither its caller nor an execution ever reads: a run in which every failed
call leaves a frame of another choice is the same run. -/

/-- The outcome with another frame, if the call has failed. -/
def Outcome.leaving (left : Outcome → Frame) (out : Outcome) : Outcome :=
  match out.result with
  | .ok _ => out
  | .error _ => { out with frame := left out }

theorem Exec.resume_leaving (left : Outcome → Frame) (env : Env) (inv : Invocation)
    (out : Outcome) : resume env inv (out.leaving left) = resume env inv out := by
  unfold Outcome.leaving
  cases hr : out.result with
  | ok output => rfl
  | error fault => simp only [resume, hr]

theorem Engine.commit_leaving {σ κ : Type} [Store σ] [EventSink κ] (left : Outcome → Frame)
    (out : Outcome) (store : σ) (sink : κ) :
    commit (out.leaving left) store sink = commit out store sink := by
  unfold Outcome.leaving
  cases hr : out.result with
  | ok output => rfl
  | error fault => simp only [commit, hr]

/-- Runs code as `run` does, where calls that fail leave the frames that `left` gives. -/
def runLeaving (left : Outcome → Frame) : Nat → Env → Machine → Option Outcome
  | 0, _, _ => none
  | fuel + 1, env, m =>
    match m.fetch env with
    | (m, .error fault) => some ((m.finish (.error fault)).leaving left)
    | (m, .ok op) =>
      match (Exec.step env op).run m with
      | (.next, m) => runLeaving left fuel env m.advance
      | (.jumped, m) => runLeaving left fuel env m
      | (.halt output, m) => some ((m.halt output).leaving left)
      | (.invoke inv, m) =>
        let outcome := match inv.begin env m with
          | .over outcome => some (outcome.leaving left)
          | .running inner start => runLeaving left fuel inner start
        match outcome with
        | none => none
        | some outcome => runLeaving left fuel env ((Exec.resume env inv outcome).run m).2.advance

theorem runLeaving_eq (left : Outcome → Frame) (fuel : Nat) (env : Env) (m : Machine) :
    runLeaving left fuel env m = (run fuel env m).map (Outcome.leaving left) := by
  induction fuel generalizing env m with
  | zero => rfl
  | succ fuel ih =>
    unfold runLeaving run
    rcases m.fetch env with ⟨m₁, fault | op⟩
    · rfl
    · dsimp only
      rcases (Exec.step env op).run m₁ with ⟨flow, m₂⟩
      cases flow with
      | next => exact ih env m₂.advance
      | jumped => exact ih env m₂
      | halt output => rfl
      | invoke inv =>
        have hrest : ∀ out : Outcome,
            runLeaving left fuel env ((Exec.resume env inv (out.leaving left)).run m₂).2.advance =
              (run fuel env ((Exec.resume env inv out).run m₂).2.advance).map
                (Outcome.leaving left) := by
          intro out
          rw [Exec.resume_leaving]
          exact ih env _
        have hbegin : env.host.begin (m₂.view env) inv.frame inv.call inv.target m₂.sequence =
            inv.begin env m₂ := rfl
        dsimp only
        rw [hbegin]
        rcases inv.begin env m₂ with out | ⟨inner, start⟩
        · exact hrest out
        · dsimp only
          rw [ih inner start]
          cases run fuel inner start with
          | none => rfl
          | some out => exact hrest out

/-! ### What a failure leaves -/

/-- An execution that fails leaves its ledger alone and adds the record of its call to the sink. A
nested call that fails, from which its caller goes on, leaves the caller what it could read before and
adds the record of the call to the caller's trace. -/
theorem failure_leaves_only_its_record :
    (∀ (engine : Engine) (fuel : Nat) (chain : Chain) (ledger : Ledger) (sink : Trace) (call : Call)
        (code : Bytes) (report : Report Ledger Trace) (fault : Fault),
      engine.execute fuel chain ledger sink call code = some report →
      report.result = .error fault →
        report.store = ledger ∧
        report.sink = sink.push (.call { call, depth := 0, result := .error fault })) ∧
    ∀ (fuel : Nat) (env : Env) (m m₁ : Machine) (op : Opcode) (inv : Invocation) (out : Outcome)
        (fault : Fault),
      Takes env m op (.invoke inv) m₁ →
      inv.perform fuel env m₁ = some out →
      out.result = .error fault →
      (op = .call .plain → ∃ account, (m.view env).account inv.call.callee = .ok (some account)) →
        run (fuel + 1) env m = run fuel env (m₁.after env inv out) ∧
        (m₁.after env inv out).view env = m.view env ∧
        (m₁.after env inv out).trace =
          m.trace.push
            (.call { call := inv.call, depth := m.frame.depth + 1, result := .error fault }) := by
  constructor
  · intro engine fuel chain ledger sink call code report fault h hr
    obtain ⟨out, -, hresult, hstored, htraced⟩ := Engine.execute_traced h
    rw [hresult] at hr
    exact ⟨hstored.of_error hr, htraced.of_error hr⟩
  · intro fuel env m m₁ op inv out fault htakes hout hr hplain
    have hstepped := htakes.stepped
    have hframe : m₁.frame = m.frame := hstepped.invoke_frame hplain
    obtain ⟨hafter, htrace⟩ := (Exec.resumed env inv out m₁).world_of_error hr
    refine ⟨htakes.run_invoke hout, ?_, ?_⟩
    · have hkept : (m₁.after env inv out).frame = m.frame := hafter.trans hframe
      rw [Machine.view, hkept, Machine.view]
    · have hadded : (m₁.after env inv out).trace = m₁.trace.push (inv.record out) := htrace
      rw [hadded, hstepped.invoke_trace, Invocation.record, hr, hstepped.invoke_depth]

/-! ### A nested call that fails after a deeper one has succeeded -/

/-- A machine that is about to call the contract at 11. -/
def relayMachine : Machine :=
  { Machine.start {} 1000 (Frame.root 0) {} with
    stack := { items := [255, 11, 0, 0, 0, 0, 0], depth := 7 } }

def relayStep : Flow × Machine :=
  (Exec.step (relayEnv 0xf1) (.call .plain)).run (relayMachine.fetch (relayEnv 0xf1)).1

theorem relayed_failure_leaves_only_its_record :
    (∃ report, (Engine.new {}).execute 40 (Chain.withHashes 1 0 ∅) relayLedger (#[] : Trace)
        relayCall (callTo 12 ++ [0xfe]) = some report ∧
      report.result = .error .aborted ∧ report.store = relayLedger ∧
      report.sink = #[.call { call := relayCall, depth := 0, result := .error .aborted }]) ∧
    ∃ m₁ inv out, Takes (relayEnv 0xf1) relayMachine (.call .plain) (.invoke inv) m₁ ∧
      inv.perform 40 (relayEnv 0xf1) m₁ = some out ∧ out.result = .error .aborted ∧
      out.trace.size = 1 ∧
      (m₁.after (relayEnv 0xf1) inv out).view (relayEnv 0xf1) = relayMachine.view (relayEnv 0xf1) ∧
      (m₁.after (relayEnv 0xf1) inv out).trace =
        #[.call { call := inv.call, depth := 1, result := .error .aborted }] := by
  constructor
  · have hrun : ((Engine.new {}).execute 40 (Chain.withHashes 1 0 ∅) relayLedger (#[] : Trace)
        relayCall (callTo 12 ++ [0xfe])).map (·.result) = some (.error .aborted) := by
      decide +kernel
    obtain ⟨report, hreport, hresult⟩ := Option.map_eq_some_iff.1 hrun
    obtain ⟨hstore, hsink⟩ := failure_leaves_only_its_record.1 _ _ _ _ _ _ _ _ _ hreport hresult
    exact ⟨report, hreport, hresult, hstore, hsink⟩
  · have htakes : Takes (relayEnv 0xf1) relayMachine (.call .plain) relayStep.1 relayStep.2 :=
      Takes.of_fetch (by decide +kernel)
    have hrun : (relayStep.1.invocation?.bind fun inv =>
        (inv.perform 40 (relayEnv 0xf1) relayStep.2).map
          fun out => (inv.call.callee, out.result, out.trace.size)) =
        some (11, .error .aborted, 1) := by
      decide +kernel
    obtain ⟨inv, hinv, hperform⟩ := Option.bind_eq_some_iff.1 hrun
    obtain ⟨out, hout, hvalues⟩ := Option.map_eq_some_iff.1 hperform
    obtain ⟨hcallee, hresult, hsize⟩ : inv.call.callee = 11 ∧ out.result = .error .aborted ∧
        out.trace.size = 1 := by
      simpa using hvalues
    have hexists : (relayMachine.view (relayEnv 0xf1)).account inv.call.callee =
        .ok (some { address := 11, code := callTo 12 ++ [0xfe] }) := by
      rw [hcallee]
      decide +kernel
    rw [Flow.eq_invoke hinv] at htakes
    obtain ⟨-, hview, htrace⟩ :=
      failure_leaves_only_its_record.2 _ _ _ _ _ _ _ _ htakes hout hresult fun _ => ⟨_, hexists⟩
    exact ⟨relayStep.2, inv, out, htakes, hout, hresult, hsize, hview, htrace⟩

end ContractVm
