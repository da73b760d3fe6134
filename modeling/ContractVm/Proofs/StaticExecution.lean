import Mathlib
import ContractVm.Proofs.ReadOnly
import ContractVm.Proofs.Residue

/-! # Executions of a static call

The kind of a call tells whether value moves, and stands in its record; running code does not look
at it. What keeps a static call from writing is its read-only frame, and that is opened by the
instruction that makes the call. An execution opens a frame that takes changes whatever the kind of
its call, so that a static one hands down its changes and delivers its logs. -/

namespace ContractVm

def Env.withKind (env : Env) (kind : CallKind) : Env :=
  { env with call := { env.call with kind } }

theorem Exec.step_withKind (env : Env) (kind : CallKind) (op : Opcode) :
    Exec.step (env.withKind kind) op = Exec.step env op := by
  cases op <;> rfl

theorem run_withKind (fuel : Nat) (env : Env) (kind : CallKind) (m : Machine) :
    run fuel (env.withKind kind) m = run fuel env m := by
  induction fuel generalizing m with
  | zero => rfl
  | succ fuel ih =>
    have hfetch : m.fetch (env.withKind kind) = m.fetch env := rfl
    have hresume : ∀ inv out, Exec.resume (env.withKind kind) inv out = Exec.resume env inv out :=
      fun _ _ => rfl
    simp only [run, hfetch, Exec.step_withKind, hresume, ih]
    rfl

/-- No value changes hands: the kind does not ask for it, or there is none to move. -/
def Call.MovesNothing (call : Call) : Prop :=
  call.kind.movesValue = false ∨ call.value = 0

theorem Call.MovesNothing.move {call : Call} (h : call.MovesNothing) (below : View)
    (frame : Frame) : call.move below frame = .ok frame := by
  unfold Call.move
  rcases h with hkind | hvalue
  · simp [hkind]
  · simp [Frame.transfer, hvalue]

theorem Host.perform_withKind (host : Host) (fuel : Nat) (below : View) (frame : Frame)
    {call : Call} {kind : CallKind} (target : Target) (sequence : CreateSequence)
    (h : call.MovesNothing) (hkind : Call.MovesNothing { call with kind }) :
    host.perform fuel below frame { call with kind } target sequence =
      host.perform fuel below frame call target sequence := by
  have hmoved : (if kind.movesValue then
      frame.transfer below call.caller call.callee call.value else .ok frame) = .ok frame :=
    hkind.move below frame
  have hmoved' : (if call.kind.movesValue then
      frame.transfer below call.caller call.callee call.value else .ok frame) = .ok frame :=
    h.move below frame
  unfold perform begin
  dsimp only
  rw [hmoved, hmoved']
  dsimp only
  cases target with
  | native native => rfl
  | code bytes =>
    cases bytes with
    | nil => rfl
    | cons b rest =>
      exact run_withKind fuel { host, call, code := Code.ofBytes (b :: rest), below } kind _

theorem Engine.execute_sink {engine : Engine} {fuel : Nat} {chain : Chain} {ledger : Ledger}
    {sink : Trace} {call : Call} {code : Bytes} {report : Report Ledger Trace}
    (h : engine.execute fuel chain ledger sink call code = some report) :
    ∃ delivered : Trace,
      report.sink = delivered.push (.call { call, depth := 0, result := report.result }) ∧
      ∀ call', engine.perform fuel chain ledger call' code =
          engine.perform fuel chain ledger call code →
        engine.execute fuel chain ledger sink call' code =
          some { report with
            sink := delivered.push
              (.call { call := call', depth := 0, result := report.result }) } := by
  obtain ⟨out, hout, -⟩ := execute_traced h
  cases hr : out.result with
  | error fault =>
    rw [execute_error hout hr] at h
    cases h
    exact ⟨sink, rfl, fun call' hsame => execute_error (hsame.trans hout) hr sink⟩
  | ok output =>
    rw [execute_ok hout hr] at h
    cases h
    exact ⟨sink ++ out.trace, rfl, fun call' hsame => execute_ok (hsame.trans hout) hr sink⟩

/-- A static execution is the same as one of any other kind that moves no value, apart from the kind
in its record: it leaves the ledger and delivers the logs that a plain call without value does. The
same call in a read-only frame would have no changes and no logs. -/
theorem static_execution_is_not_confined (engine : Engine) (fuel : Nat) (chain : Chain)
    (ledger : Ledger) (sink : Trace) (call : Call) (code : Bytes) (report : Report Ledger Trace)
    (hstatic : call.kind = .staticCall)
    (h : engine.execute fuel chain ledger sink call code = some report) :
    (∃ delivered : Trace,
      report.sink = delivered.push (.call { call, depth := 0, result := report.result }) ∧
      ∀ kind, Call.MovesNothing { call with kind } →
        engine.execute fuel chain ledger sink { call with kind } code =
          some { report with
            sink := delivered.push
              (.call { call := { call with kind }, depth := 0, result := report.result }) }) ∧
    ∀ fuel out, (engine.host chain).perform fuel ledger.view
        { Frame.root engine.options.callMaxDepth with readOnly := true } call (.code code)
        engine.sequence = some out →
      ledger.commit out.frame = ledger ∧ out.trace.logs = #[] := by
  have hnothing : call.MovesNothing := Or.inl (by rw [hstatic]; rfl)
  constructor
  · obtain ⟨delivered, hsink, hsame⟩ := Engine.execute_sink h
    refine ⟨delivered, hsink, fun kind hkind => hsame _ ?_⟩
    exact Host.perform_withKind _ fuel _ _ _ _ hnothing hkind
  · intro fuel out hout
    have hperformed := Host.performed hout
    have hframe := hperformed.writes.eq_of_readOnly rfl
    refine ⟨?_, hperformed.logs_of_readOnly rfl⟩
    rw [hframe]
    rfl

/-! ### A static execution that writes -/

/-- The call of an account by itself as a static one. -/
def staticCall : Call :=
  { relayCall with kind := .staticCall }

def staticReport : Option (Report Ledger Trace) :=
  (Engine.new {}).execute 40 (Chain.withHashes 1 0 ∅) relayLedger #[] staticCall storeAndLog

theorem staticReport_writes :
    ∃ report, staticReport = some report ∧ report.result = .ok [] ∧ report.store.slot 10 1 = 1 ∧
      Array.size (Trace.logs report.sink) = 1 := by
  have hrun : staticReport.map (fun report =>
      (report.result, report.store.slot 10 1, Array.size (Trace.logs report.sink))) =
      some (.ok [], 1, 1) := by
    decide +kernel
  obtain ⟨report, hreport, hvalues⟩ := Option.map_eq_some_iff.1 hrun
  obtain ⟨hresult, hvalues⟩ := Prod.mk.inj hvalues
  obtain ⟨hslot, hlogs⟩ := Prod.mk.inj hvalues
  exact ⟨report, hreport, hresult, hslot, hlogs⟩

theorem static_execution_runs_as_a_plain_one :
    ∃ (report : Report Ledger Trace) (out : Outcome) (delivered : Trace),
      staticReport = some report ∧ staticCall.kind = .staticCall ∧ report.result = .ok [] ∧
      (Engine.new {}).execute 40 (Chain.withHashes 1 0 ∅) relayLedger #[] relayCall storeAndLog =
        some { report with
          sink := delivered.push
            (.call { call := relayCall, depth := 0, result := report.result }) } ∧
      ((Engine.new {}).host (Chain.withHashes 1 0 ∅)).perform 40 relayLedger.view
        { Frame.root 0 with readOnly := true } staticCall (.code storeAndLog) {} = some out ∧
      out.result = .error .illegalWrite ∧ relayLedger.commit out.frame = relayLedger ∧
      out.trace.logs = #[] := by
  obtain ⟨report, hreport, hresult, -, -⟩ := staticReport_writes
  have hfrozen : (((Engine.new {}).host (Chain.withHashes 1 0 ∅)).perform 40 relayLedger.view
      { Frame.root 0 with readOnly := true } staticCall (.code storeAndLog) {}).map (·.result) =
      some (.error .illegalWrite) := by
    decide +kernel
  obtain ⟨out, hout, hfails⟩ := Option.map_eq_some_iff.1 hfrozen
  obtain ⟨⟨delivered, -, hsame⟩, hkept⟩ :=
    static_execution_is_not_confined _ _ _ _ _ _ _ _ rfl hreport
  have hplain := hsame .call (Or.inr rfl)
  obtain ⟨hcommit, hlogs⟩ := hkept 40 out hout
  exact ⟨report, out, delivered, hreport, rfl, hresult, hplain, hout, hfails, hcommit, hlogs⟩

theorem static_execution_can_write :
    ∃ report, staticCall.kind = .staticCall ∧ staticReport = some report ∧
      report.store ≠ relayLedger ∧ Trace.logs report.sink ≠ #[] := by
  obtain ⟨report, hreport, -, hslot, hlogs⟩ := staticReport_writes
  refine ⟨report, rfl, hreport, fun hstore => ?_, fun hnone => ?_⟩
  · have hbefore : relayLedger.slot 10 1 = 0 := by decide +kernel
    rw [hstore, hbefore] at hslot
    cases hslot
  · rw [hnone] at hlogs
    cases hlogs

end ContractVm
