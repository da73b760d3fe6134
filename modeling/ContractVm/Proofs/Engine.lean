import Mathlib
import ContractVm.Engine
import ContractVm.Proofs.Runs

/-! # Executions

What an execution over a ledger leaves behind. A ledger takes every change and a trace takes every
event, so such an execution ends as its call does (`Executed`). -/

namespace ContractVm

def Ledger.commit (l : Ledger) (f : Frame) : Ledger :=
  f.changes.foldl Ledger.apply l

theorem Ledger.sync_commit (f : Frame) (l : Ledger) : (f.sync l).2 = (l.commit f, .ok ()) := by
  rw [Frame.sync_snd, Ledger.applyAll_write, Ledger.commit]

theorem Ledger.view_commit {f : Frame} (hf : f.Coherent) (l : Ledger) :
    (l.commit f).view = f.view l.view := by
  rw [commit, view_foldl, hf.foldl_changes]

theorem Trace.deliver_trace (trace sink : Trace) : trace.deliver sink = (sink ++ trace, .ok ()) := by
  obtain ⟨events⟩ := trace
  unfold deliver
  induction events generalizing sink with
  | nil => simp [applyAll]
  | cons event rest ih =>
    have hstep : applyAll EventSink.emit (event :: rest) sink =
        applyAll EventSink.emit rest (sink.push event) := rfl
    rw [hstep, ih (sink.push event)]
    simp

def Trace.untilLog (trace : Trace) : Trace :=
  (trace.toList.takeWhile fun event => !event.isLog).toArray

theorem applyAll_emit_logFree (events : List Event) (sink : LogFree Trace) :
    applyAll EventSink.emit events sink =
      (⟨sink.inner ++ (events.takeWhile fun event => !event.isLog).toArray⟩,
        if events.any Event.isLog then .error .illegalWrite else .ok ()) := by
  induction events generalizing sink with
  | nil => simp [applyAll]
  | cons event rest ih =>
    cases event with
    | log log => simp [applyAll, EventSink.emit, Event.isLog]
    | call record =>
      have hstep : applyAll EventSink.emit (.call record :: rest) sink =
          applyAll EventSink.emit rest (⟨sink.inner.push (.call record)⟩ : LogFree Trace) := rfl
      rw [hstep, ih]
      simp [Event.isLog]

theorem Trace.any_isLog {trace : Trace} :
    trace.toList.any Event.isLog = true ↔ trace.logs ≠ #[] := by
  rw [List.any_eq_true, logs, Ne, Array.filter_eq_empty_iff]
  simp

theorem Trace.deliver_logFree (trace : Trace) (sink : LogFree Trace) :
    (trace.deliver sink).1 = ⟨sink.inner ++ trace.untilLog⟩ ∧
      (trace.logs = #[] → (trace.deliver sink).2 = .ok ()) ∧
      (trace.logs ≠ #[] → (trace.deliver sink).2 = .error .illegalWrite) := by
  have hdeliver : trace.deliver sink = _ := applyAll_emit_logFree trace.toList sink
  rw [hdeliver]
  refine ⟨rfl, fun hnone => if_neg ?_, fun hsome => if_pos ?_⟩
  · rw [any_isLog]
    exact not_not_intro hnone
  · exact any_isLog.2 hsome

theorem Trace.deliver_logFree_of_logs {trace : Trace} (h : trace.logs = #[])
    (sink : LogFree Trace) : trace.deliver sink = (⟨sink.inner ++ trace⟩, .ok ()) := by
  obtain ⟨htaken, hresult, -⟩ := trace.deliver_logFree sink
  have hall : trace.untilLog = trace := by
    have hcalls : ∀ event ∈ trace.toList, (!event.isLog) = true := by
      intro event hevent
      have hlog := Array.filter_eq_empty_iff.1 h event (Array.mem_toList_iff.1 hevent)
      simpa using hlog
    rw [untilLog, List.takeWhile_eq_self_iff.2 hcalls]
  rw [hall] at htaken
  exact Prod.ext htaken (hresult h)

namespace Engine

def perform (engine : Engine) (fuel : Nat) (chain : Chain) (ledger : Ledger) (call : Call)
    (code : Bytes) : Option Outcome :=
  (engine.host chain).perform fuel ledger.view (Frame.root engine.options.callMaxDepth) call
    (.code code) engine.sequence

theorem commit_error {κ : Type} [EventSink κ] {out : Outcome} {fault : Fault}
    (hr : out.result = .error fault) (ledger : Ledger) (sink : κ) :
    commit out ledger sink = (ledger, sink, .error fault) := by
  unfold commit
  rw [hr]

theorem commit_ok {κ : Type} [EventSink κ] {out : Outcome} {output : Bytes}
    (hr : out.result = .ok output) (ledger : Ledger) (sink : κ) :
    commit out ledger sink = (ledger.commit out.frame, (out.trace.deliver sink).1,
      (out.trace.deliver sink).2.map fun _ => output) := by
  have hsync := Ledger.sync_commit out.frame ledger
  rcases hs : out.frame.sync ledger with ⟨kept, store, result⟩
  rw [hs] at hsync
  cases hsync
  unfold commit
  rw [hr]
  simp only [hs]
  rcases out.trace.deliver sink with ⟨sink', _ | _⟩
  · rfl
  · rfl

theorem commit_fst {κ : Type} [EventSink κ] {out : Outcome} {output : Bytes}
    (hr : out.result = .ok output) (ledger : Ledger) (sink : κ) :
    (commit out ledger sink).1 = ledger.commit out.frame := by
  rw [commit_ok hr]

theorem commit_trace {out : Outcome} {output : Bytes} (hr : out.result = .ok output)
    (ledger : Ledger) (sink : Trace) :
    commit out ledger sink = (ledger.commit out.frame, sink ++ out.trace, .ok output) := by
  rw [commit_ok hr, Trace.deliver_trace]
  rfl

end Engine

inductive Stored (ledger : Ledger) (out : Outcome) : Ledger → Prop where
  | failed {fault : Fault} (hr : out.result = .error fault) : Stored ledger out ledger
  | committed {output : Bytes} (hr : out.result = .ok output) :
      Stored ledger out (ledger.commit out.frame)

inductive Traced (call : Call) (sink : Trace) (out : Outcome) : Trace → Prop where
  | failed {fault : Fault} (hr : out.result = .error fault) :
      Traced call sink out (sink.push (.call ⟨call, 0, out.result⟩))
  | committed {output : Bytes} (hr : out.result = .ok output) :
      Traced call sink out ((sink ++ out.trace).push (.call ⟨call, 0, out.result⟩))

namespace Engine

theorem execute_stored {κ : Type} [EventSink κ] {engine : Engine} {fuel : Nat} {chain : Chain}
    {ledger : Ledger} {sink : κ} {call : Call} {code : Bytes} {report : Report Ledger κ}
    (h : engine.execute fuel chain ledger sink call code = some report) :
    ∃ out, engine.perform fuel chain ledger call code = some out ∧
      Stored ledger out report.store := by
  unfold execute at h
  obtain ⟨out, hout, h⟩ := Option.bind_eq_some_iff.1 h
  have hstore : (commit out ledger sink).1 = report.store := congrArg Report.store (Option.some.inj h)
  refine ⟨out, hout, ?_⟩
  rw [← hstore]
  cases hr : out.result with
  | error fault =>
    rw [commit_error hr]
    exact .failed hr
  | ok output =>
    rw [commit_fst hr]
    exact .committed hr

theorem execute_traced {engine : Engine} {fuel : Nat} {chain : Chain} {ledger : Ledger}
    {sink : Trace} {call : Call} {code : Bytes} {report : Report Ledger Trace}
    (h : engine.execute fuel chain ledger sink call code = some report) :
    ∃ out, engine.perform fuel chain ledger call code = some out ∧ report.result = out.result ∧
      Stored ledger out report.store ∧ Traced call sink out report.sink := by
  unfold execute at h
  obtain ⟨out, hout, h⟩ := Option.bind_eq_some_iff.1 h
  refine ⟨out, hout, ?_⟩
  cases hr : out.result with
  | error fault =>
    rw [commit_error hr] at h
    cases h
    exact ⟨rfl, .failed hr, hr ▸ .failed hr⟩
  | ok output =>
    rw [commit_trace hr] at h
    cases h
    exact ⟨rfl, .committed hr, hr ▸ .committed hr⟩

theorem execute_ok {engine : Engine} {fuel : Nat} {chain : Chain} {ledger : Ledger} {call : Call}
    {code : Bytes} {out : Outcome} {output : Bytes}
    (h : engine.perform fuel chain ledger call code = some out) (hr : out.result = .ok output)
    (sink : Trace) :
    engine.execute fuel chain ledger sink call code =
      some { result := .ok output, gas := out.gas, store := ledger.commit out.frame
             sink := (sink ++ out.trace).push (.call ⟨call, 0, .ok output⟩)
             engine := { engine with sequence := out.sequence } } := by
  refine Option.bind_eq_some_iff.2 ⟨out, h, ?_⟩
  rw [commit_trace hr]
  rfl

theorem execute_error {engine : Engine} {fuel : Nat} {chain : Chain} {ledger : Ledger} {call : Call}
    {code : Bytes} {out : Outcome} {fault : Fault}
    (h : engine.perform fuel chain ledger call code = some out) (hr : out.result = .error fault)
    (sink : Trace) :
    engine.execute fuel chain ledger sink call code =
      some { result := .error fault, gas := out.gas, store := ledger
             sink := sink.push (.call ⟨call, 0, .error fault⟩)
             engine := { engine with sequence := out.sequence } } := by
  refine Option.bind_eq_some_iff.2 ⟨out, h, ?_⟩
  rw [commit_error hr]
  rfl

end Engine

theorem Engine.perform_coherent {engine : Engine} {fuel : Nat} {chain : Chain} {ledger : Ledger}
    {call : Call} {code : Bytes} {out : Outcome}
    (h : engine.perform fuel chain ledger call code = some out) : out.frame.Coherent :=
  (Host.performed h).writes.coherent (Frame.coherent_of_empty rfl)

/-! ### A small ledger -/

/-- Code that calls the contract at an address with 255 of gas, no value and no input. -/
def callTo (target : UInt8) : Bytes :=
  [0x60, 0, 0x60, 0, 0x60, 0, 0x60, 0, 0x60, 0, 0x60, target, 0x60, 0xff, 0xf1]

/-- The contract at 12 sets a slot. The one at 11 calls it and then aborts. -/
def relayLedger : Ledger :=
  [({ address := 10, balance := 5 } : Account),
    { address := 11, code := callTo 12 ++ [0xfe] },
    { address := 12, code := [0x60, 1, 0x60, 1, 0x55, 0] }].foldl Ledger.put {}

def relayCall : Call :=
  { origin := 10, caller := 10, callee := 10, gas := 1000 }

/-- What a single instruction of that call runs against. -/
def relayEnv (byte : UInt8) : Env :=
  { host := (Engine.new {}).host (Chain.withHashes 1 0 ∅)
    call := relayCall
    code := Code.ofBytes [byte]
    below := relayLedger.view }

def Stack.ofList (items : List Word) : Stack :=
  { items, depth := items.length }

end ContractVm
