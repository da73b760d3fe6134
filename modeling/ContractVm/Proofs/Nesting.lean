import Mathlib
import ContractVm.Proofs.Atomicity
import ContractVm.Proofs.Effects

/-! # The shape of a trace

A call is recorded when it ends, behind everything it recorded itself; what a call that failed had
recorded is dropped with it. So a trace is a sequence of trees written in post-order, one level of
depth for each level of nesting. `CallTrace` and `ItemTrace` are the grammar, and every execution
delivers a word of it. -/

namespace ContractVm

mutual

/-- What a call at a depth leaves in a trace: its record alone if it failed, and otherwise the items
of its run with its record behind them. -/
inductive CallTrace : Nat → Trace → Prop where
  | failed {depth : Nat} {record : CallRecord} (hd : record.depth = depth)
      (hf : record.fault? ≠ none) : CallTrace depth #[.call record]
  | succeeded {depth : Nat} {items : Trace} {record : CallRecord} (h : ItemTrace (depth + 1) items)
      (hd : record.depth = depth) (hf : record.fault? = none) :
      CallTrace depth (items.push (.call record))

inductive ItemTrace : Nat → Trace → Prop where
  | nil {depth : Nat} : ItemTrace depth #[]
  | log {depth : Nat} {items : Trace} {log : Log} (h : ItemTrace depth items) :
      ItemTrace depth (items.push (.log log))
  | call {depth : Nat} {items events : Trace} (h : ItemTrace depth items)
      (hc : CallTrace depth events) : ItemTrace depth (items ++ events)

end

theorem ItemTrace.single {depth : Nat} {events : Trace} (h : CallTrace depth events) :
    ItemTrace depth events := by
  have hcall := ItemTrace.nil.call h
  rwa [Array.empty_append] at hcall

theorem ItemTrace.append {depth : Nat} {s : Trace} (hs : ItemTrace depth s) :
    ∀ {t : Trace}, ItemTrace depth t → ItemTrace depth (s ++ t)
  | _, .nil => by rwa [Array.append_empty]
  | _, .log ht => by
    rw [Array.append_push]
    exact (hs.append ht).log
  | _, .call ht hc => by
    rw [← Array.append_assoc]
    exact (hs.append ht).call hc

/-! ### Nested calls -/

/-- A nested call runs one level deeper, on behalf of the same origin and under the same bound. -/
structure Invocation.Under (inv : Invocation) (env : Env) (f : Frame) : Prop where
  depth : inv.frame.depth = f.depth + 1
  maxDepth : inv.frame.maxDepth = f.maxDepth
  bound : 0 < f.maxDepth → inv.frame.depth ≤ f.maxDepth
  origin : inv.call.origin = env.call.origin

theorem Frame.child_bound {f g : Frame} (h : f.child = .ok g) :
    g.depth = f.depth + 1 ∧ g.maxDepth = f.maxDepth ∧ (0 < f.maxDepth → g.depth ≤ f.maxDepth) := by
  unfold child at h
  split at h
  · cases h
  · next hbound =>
    cases h
    refine ⟨rfl, rfl, fun hpos => ?_⟩
    have hle : ¬ f.maxDepth < f.depth + 1 := fun hlt => hbound ⟨hpos, hlt⟩
    exact Nat.not_lt.1 hle

theorem Stepped.invoke_under {env : Env} {m m' : Machine} {op : Opcode} {inv : Invocation}
    (h : Stepped env m op (.invoke inv) m') : inv.Under env m'.frame := by
  rcases h.invoke_cases with ⟨variant, -, hasks⟩ | ⟨variant, -, hasks⟩
  · obtain ⟨child, hchild, hopen⟩ := hasks.frame
    obtain ⟨hdepth, hmax, hbound⟩ := Frame.child_bound hchild
    obtain ⟨-, hkeepsDepth, hkeepsMax⟩ := (Frame.openAccount_writes hopen).keeps
    have hframe : m'.frame = m.frame := hasks.turns.frame
    rw [hframe]
    exact
      { depth := hkeepsDepth.trans hdepth
        maxDepth := hkeepsMax.trans hmax
        bound := fun hpos => hkeepsDepth.le.trans (hbound hpos)
        origin := hasks.origin }
  · obtain ⟨child, hchild, hframe⟩ := hasks.frame
    obtain ⟨hdepth, hmax, hbound⟩ := Frame.child_bound hchild
    have hkeepsDepth : inv.frame.depth = child.depth := by rw [hframe]
    have hkeepsMax : inv.frame.maxDepth = child.maxDepth := by rw [hframe]
    exact
      { depth := hkeepsDepth.trans hdepth
        maxDepth := hkeepsMax.trans hmax
        bound := fun hpos => hkeepsDepth.le.trans (hbound hpos)
        origin := hasks.origin }

/-! ### Effects -/

theorem Effects.items {env : Env} {f g : Frame} {events : Trace} (h : Effects env f events g) :
    ItemTrace (f.depth + 1) events := by
  induction h with
  | refl => exact .nil
  | trans h₁ _ ih₁ ih₂ =>
    -- a frame stays at its depth
    rw [h₁.writes.keeps.2.1] at ih₂
    exact ih₁.append ih₂
  | stored _ => exact .nil
  | logged _ _ => exact ItemTrace.nil.log
  | opened _ => exact .nil
  | bequeathed _ => exact .nil
  | failed h => exact .single (.failed h.invoke_under.depth (Option.some_ne_none _))
  | settled h hm _ _ _ ih =>
    -- the items of the nested call are one level below its record
    rw [(Call.move_writes hm).keeps.2.1, h.invoke_under.depth] at ih
    exact .single (.succeeded ih h.invoke_under.depth rfl)

theorem Effects.calls_within {env : Env} {f g : Frame} {events : Trace}
    (h : Effects env f events g) {record : CallRecord} (hrecord : .call record ∈ events) :
    record.call.origin = env.call.origin ∧ (0 < f.maxDepth → record.depth ≤ f.maxDepth) := by
  induction h with
  | refl => cases Array.not_mem_empty _ hrecord
  | trans h₁ _ ih₁ ih₂ =>
    rcases Array.mem_append.1 hrecord with hmem | hmem
    · exact ih₁ hmem
    · rw [← h₁.writes.keeps.2.2]
      exact ih₂ hmem
  | stored _ => cases Array.not_mem_empty _ hrecord
  | logged _ _ => simp at hrecord
  | opened _ => cases Array.not_mem_empty _ hrecord
  | bequeathed _ => cases Array.not_mem_empty _ hrecord
  | failed h =>
    obtain rfl : record = ⟨_, _, _⟩ := Event.call.inj (Array.mem_singleton.1 hrecord)
    exact ⟨h.invoke_under.origin, h.invoke_under.bound⟩
  | settled h hm _ _ _ ih =>
    have hunder := h.invoke_under
    rcases Array.mem_push.1 hrecord with hmem | hmem
    · have hinner := ih hmem
      rw [(Call.move_writes hm).keeps.2.2, hunder.maxDepth] at hinner
      exact ⟨hinner.1.trans hunder.origin, hinner.2⟩
    · obtain rfl := Event.call.inj hmem
      exact ⟨hunder.origin, hunder.bound⟩

/-! ### Executions -/

/-- The events that an execution delivers are the trace of one call at depth zero. The last of them
reports the result of the execution, all of them have its origin, and none is deeper than allowed. -/
theorem delivered_events_are_nested (engine : Engine) (fuel : Nat) (chain : Chain) (ledger : Ledger)
    (sink : Trace) (call : Call) (code : Bytes) (report : Report Ledger Trace)
    (h : engine.execute fuel chain ledger sink call code = some report) :
    ∃ added : Trace, report.sink = sink ++ added ∧
      CallTrace 0 added ∧
      added.back? = some (.call { call, depth := 0, result := report.result }) ∧
      ∀ record, .call record ∈ added →
        record.call.origin = call.origin ∧
        (0 < engine.options.callMaxDepth → record.depth ≤ engine.options.callMaxDepth) := by
  cases hr : report.result with
  | error fault =>
    obtain ⟨out, -, hresult, -, htraced⟩ := Engine.execute_traced h
    rw [hresult] at hr
    refine ⟨#[.call { call, depth := 0, result := .error fault }], ?_, ?_, rfl, ?_⟩
    · rw [htraced.of_error hr, Array.push_eq_append]
    · exact .failed rfl (Option.some_ne_none _)
    · intro record hrecord
      obtain rfl := Event.call.inj (Array.mem_singleton.1 hrecord)
      exact ⟨rfl, fun _ => Nat.zero_le _⟩
  | ok output =>
    obtain ⟨w, ⟨start, _, hm, heffects⟩, -, hsink⟩ := Engine.execute_affects h hr
    obtain ⟨-, hdepth, hmax⟩ := (Call.move_writes hm).keeps
    refine ⟨w.trace.push (.call { call, depth := 0, result := .ok output }), hsink, ?_, ?_, ?_⟩
    · have hitems := heffects.items
      rw [hdepth] at hitems
      exact .succeeded hitems rfl rfl
    · exact Array.back?_push
    · intro record hrecord
      rcases Array.mem_push.1 hrecord with hmem | hmem
      · have hwithin := heffects.calls_within hmem
        rw [hmax] at hwithin
        exact hwithin
      · obtain rfl := Event.call.inj hmem
        exact ⟨rfl, fun _ => Nat.zero_le _⟩

/-! ### Calls that succeed and fail side by side -/

/-- Code that calls the contracts at 12 and 11 and then writes a log. -/
def mixedCode : Bytes :=
  callTo 12 ++ callTo 11 ++ [0x60, 0, 0x60, 0, 0xa0]

/-- An engine that allows one level of nesting, so that the contract at 11 cannot make its call. -/
def shallowEngine : Engine :=
  Engine.new { callMaxDepth := 1 }

theorem mixed_events_are_nested :
    ∃ report, shallowEngine.execute 40 (Chain.withHashes 1 0 ∅) relayLedger (#[] : Trace) relayCall
        mixedCode = some report ∧
      report.result = .ok [] ∧ report.sink.map Event.isLog = #[false, false, true, false] ∧
      ∃ added : Trace, report.sink = #[] ++ added ∧ CallTrace 0 added ∧
        added.back? = some (.call { call := relayCall, depth := 0, result := report.result }) ∧
        ∀ record, .call record ∈ added → record.call.origin = 10 ∧ (0 < 1 → record.depth ≤ 1) := by
  have hrun : (shallowEngine.execute 40 (Chain.withHashes 1 0 ∅) relayLedger (#[] : Trace) relayCall
      mixedCode).map (fun report => (report.result, report.sink.map Event.isLog)) =
      some (.ok [], #[false, false, true, false]) := by
    decide +kernel
  obtain ⟨report, hreport, hvalues⟩ := Option.map_eq_some_iff.1 hrun
  obtain ⟨hresult, hlogs⟩ := Prod.mk.inj hvalues
  exact ⟨report, hreport, hresult, hlogs, delivered_events_are_nested _ _ _ _ _ _ _ _ hreport⟩

end ContractVm
