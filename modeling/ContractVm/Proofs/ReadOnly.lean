import Mathlib
import ContractVm.Proofs.Engine

/-! # Read-only calls

A read-only frame takes no change, and the frames above it are read-only too. So whatever runs in one
leaves it as it was, and since it also refuses logs, the calls made on the way are all that a run
there can record. A sink that refuses logs is then never asked to take one from a callee
(`Takes.settleBySink`). -/

namespace ContractVm

namespace Trace

theorem logs_push_call (trace : Trace) (record : CallRecord) :
    logs (trace.push (.call record)) = trace.logs := by
  simp [logs, Event.isLog]

theorem logs_append (trace trace' : Trace) : logs (trace ++ trace') = trace.logs ++ trace'.logs :=
  Array.filter_append Array.size_append

end Trace

theorem Stepped.invoke_readOnly {env : Env} {m m' : Machine} {op : Opcode} {inv : Invocation}
    (h : Stepped env m op (.invoke inv) m')
    (hro : m.frame.readOnly = true ∨ op = .call .static) : inv.frame.readOnly = true := by
  obtain ⟨child, habove, hstatic, hwrites⟩ := h.above
  rw [hwrites.keeps.1]
  exact hro.elim habove.readOnly hstatic

theorem Stepped.logs_of_readOnly {env : Env} {m m' : Machine} {op : Opcode} {flow : Flow}
    (h : Stepped env m op flow m') (hro : m.frame.readOnly = true) :
    m'.trace.logs = m.trace.logs := by
  cases h with
  | logged hwritable _ _ => rw [hro] at hwritable; cases hwritable
  | inward _ h => rw [h.trace]; rfl
  | stored _ h => rw [h.trace]
  | opened _ _ _ h _ => rw [h.trace]
  | destroyed _ _ _ h => rw [h.trace]
  | sequenced h _ => rw [h.trace]
  | creates h => rw [h.turns.trace]
  | calls h => rw [h.turns.trace]

theorem Resumed.logs {env : Env} {inv : Invocation} {out : Outcome} {m m' : Machine}
    (h : Resumed env inv out m m') (hlogs : out.trace.logs = #[]) : m'.trace.logs = m.trace.logs := by
  cases h with
  | failed _ h =>
    rw [h.trace]
    exact Trace.logs_push_call m.trace _
  | settled _ _ _ h =>
    rw [h.trace]
    calc Trace.logs ((m.trace ++ out.trace).push (inv.record out))
        = Trace.logs (m.trace ++ out.trace) := Trace.logs_push_call _ _
      _ = m.trace.logs ++ out.trace.logs := Trace.logs_append m.trace out.trace
      _ = m.trace.logs := by rw [hlogs, Array.append_empty]
  | uninstalled _ _ h _ => rw [h.trace]
  | refused _ _ _ h _ => rw [h.trace]

theorem Begun.trace_over {host : Host} {below : View} {frame : Frame} {call : Call}
    {sequence : CreateSequence} {out : Outcome}
    (h : Begun host below frame call sequence (.over out)) : out.trace = #[] := by
  cases h with
  | refused _ => rfl
  | ended _ => rfl

theorem Begun.start_trace {host : Host} {below : View} {frame : Frame} {call : Call}
    {sequence : CreateSequence} {inner : Env} {start : Machine}
    (h : Begun host below frame call sequence (.running inner start)) : start.trace = #[] := by
  cases h with
  | running _ => rfl

theorem Takes.logs_after {env : Env} {m m₁ : Machine} {op : Opcode} {inv : Invocation} {o : Outcome}
    (h : Takes env m op (.invoke inv) m₁) (hro : m.frame.readOnly = true)
    (hlogs : o.trace.logs = #[]) : (m₁.after env inv o).trace.logs = m.trace.logs := by
  have hafter : (m₁.after env inv o).trace.logs = m₁.trace.logs :=
    (Exec.resumed env inv o m₁).logs hlogs
  exact hafter.trans (h.stepped.logs_of_readOnly hro)

/-- A run in a read-only frame emits no log, and neither do the calls it makes. -/
theorem Runs.logs_of_readOnly {env : Env} {m : Machine} {out : Outcome} (h : Runs env m out)
    (hro : m.frame.readOnly = true) : out.trace.logs = m.trace.logs := by
  induction h with
  | stopped hfetch =>
    obtain ⟨meter, rfl, -⟩ := Machine.fetch_meter hfetch
    rfl
  | @halted env m m₁ op output ht =>
    obtain ⟨result, hhalt⟩ := m₁.halt_finish output
    rw [hhalt]
    exact ht.stepped.logs_of_readOnly hro
  | next ht _ ih =>
    have hkept := ht.stepped.writes.keeps.1.trans hro
    exact (ih hkept).trans (ht.stepped.logs_of_readOnly hro)
  | jumped ht _ ih =>
    have hkept := ht.stepped.writes.keeps.1.trans hro
    exact (ih hkept).trans (ht.stepped.logs_of_readOnly hro)
  | @ended env m m₁ op inv o out ht hb _ ih =>
    have hbegun := hb ▸ inv.begun env m₁
    have hnone : o.trace.logs = #[] := by rw [hbegun.trace_over]; rfl
    have hkept := (ht.after_writes o).keeps.1.trans hro
    exact (ih hkept).trans (ht.logs_after hro hnone)
  | @nested env inner m m₁ start op inv o out ht hb _ _ ihCall ihRest =>
    have hbegun := hb ▸ inv.begun env m₁
    -- the call's own frame is read-only because the caller's is
    have hstart : start.frame.readOnly = true :=
      hbegun.writes.keeps.1.trans (ht.stepped.invoke_readOnly (Or.inl hro))
    have hnone : o.trace.logs = #[] := by rw [ihCall hstart, hbegun.start_trace]; rfl
    have hkept := (ht.after_writes o).keeps.1.trans hro
    exact (ihRest hkept).trans (ht.logs_after hro hnone)

theorem Performed.logs_of_readOnly {host : Host} {below : View} {frame : Frame} {call : Call}
    {sequence : CreateSequence} {out : Outcome} (h : Performed host below frame call sequence out)
    (hro : frame.readOnly = true) : out.trace.logs = #[] := by
  cases h with
  | refused _ => rfl
  | ended _ => rfl
  | ran hm hrun =>
    have hstart := (Call.move_writes hm).keeps.1.trans hro
    rw [hrun.logs_of_readOnly hstart]
    rfl

/-! ### The events of a callee -/

/-- Hands a callee's events to the sink behind a machine; behind a read-only frame it refuses logs. -/
def Machine.flush (m : Machine) (events : Trace) : Trace × Except Fault Unit :=
  if m.frame.readOnly then
    let (sink, result) := events.deliver (LogFree.mk m.trace)
    (sink.inner, result)
  else events.deliver m.trace

theorem Machine.flush_of_logs {m : Machine} {events : Trace}
    (h : m.frame.readOnly = true → events.logs = #[]) :
    m.flush events = (m.trace ++ events, .ok ()) := by
  unfold flush
  split
  · next hro => rw [Trace.deliver_logFree_of_logs (h hro)]
  · exact Trace.deliver_trace events m.trace

namespace Exec

/-- Takes a callee's events as far as the sink does. -/
def takeEvents (events : Trace) : Exec Unit := do
  let (trace, taken) := (← get).flush events
  modify fun m => { m with trace }
  let _ ← attempt taken

theorem run_takeEvents {m : Machine} {events : Trace}
    (h : m.frame.readOnly = true → events.logs = #[]) :
    (takeEvents events).run m = ((), { m with trace := m.trace ++ events }) := by
  have hrun : (takeEvents events).run m = ((), ((attempt (m.flush events).2).run
      { m with trace := (m.flush events).1 }).2) := rfl
  rw [hrun, Machine.flush_of_logs h]
  rfl

/-- Settles a call as `settle` does, but with a sink that may refuse the callee's events. -/
def settleBySink (env : Env) (landing : Landing) (output : Bytes) (out : Outcome) : Exec Bool := do
  let caller := (← get).view env
  let some child ← attempt (landing.install caller output out.frame) | return false
  let (_, frame, result) := child.sync (← get).frame
  modify fun m => { m with frame }
  let some () ← attempt result | return false
  takeEvents out.trace
  return true

theorem ensures_settleBySink (env : Env) (landing : Landing) (output : Bytes) {out : Outcome}
    {m : Machine} (h : m.frame.readOnly = true → out.trace.logs = #[]) :
    Ensures (· = m) (settleBySink env landing output out) (Settled env landing output out m) := by
  refine .get_bind fun m₁ hm₁ => ?_
  subst hm₁
  refine .attempt_bind (fun child hchild => ?_) fun fault hfault m₂ hm₂ => ?_
  · refine .get_bind fun m₂ hm₂ => ?_
    subst hm₂
    rintro m₂ rfl
    rcases hsync : child.sync m₂.frame with ⟨kept, frame, result⟩
    have hs := congrArg Prod.snd hsync
    cases result with
    | ok u =>
      have hro : frame.readOnly = m₂.frame.readOnly := (Frame.sync_writes hs).keeps.1
      have htaken : (takeEvents out.trace).run { m₂ with frame } =
          ((), { m₂ with frame, trace := m₂.trace ++ out.trace }) :=
        run_takeEvents fun hframe => h (hro.symm.trans hframe)
      show Settled env landing output out m₂ true ((takeEvents out.trace).run { m₂ with frame }).2
      rw [htaken]
      exact .done hchild hs
    | error fault => exact .refused hchild hs
  · subst hm₂
    rintro _ rfl
    exact .uninstalled hfault

end Exec

theorem Settled.unique {env : Env} {landing : Landing} {output : Bytes} {out : Outcome}
    {m m₁ m₂ : Machine} {done done' : Bool} (h : Settled env landing output out m done m₁)
    (h' : Settled env landing output out m done' m₂) : done = done' ∧ m₁ = m₂ := by
  cases h with
  | done hi hs =>
    cases h' with
    | done hi' hs' =>
      cases hi.symm.trans hi'
      cases hs.symm.trans hs'
      exact ⟨rfl, rfl⟩
    | uninstalled hi' => cases hi.symm.trans hi'
    | refused hi' hs' =>
      cases hi.symm.trans hi'
      cases hs.symm.trans hs'
  | uninstalled hi =>
    cases h' with
    | done hi' _ => cases hi.symm.trans hi'
    | uninstalled hi' =>
      cases hi.symm.trans hi'
      exact ⟨rfl, rfl⟩
    | refused hi' _ => cases hi.symm.trans hi'
  | refused hi hs =>
    cases h' with
    | done hi' hs' =>
      cases hi.symm.trans hi'
      cases hs.symm.trans hs'
    | uninstalled hi' => cases hi.symm.trans hi'
    | refused hi' hs' =>
      cases hi.symm.trans hi'
      cases hs.symm.trans hs'
      exact ⟨rfl, rfl⟩

/-- The sink of a caller takes all that its callee hands down, so that `settle` need not ask it: no
log reaches a sink that refuses logs, because the callee of a read-only frame emits none. -/
theorem Takes.settleBySink {env : Env} {m m₁ : Machine} {op : Opcode} {inv : Invocation}
    {fuel : Nat} {out : Outcome} (ht : Takes env m op (.invoke inv) m₁)
    (ho : inv.perform fuel env m₁ = some out) (output : Bytes) :
    (Exec.settleBySink env inv.landing output out).run { m₁ with sequence := out.sequence } =
      (Exec.settle env inv.landing output out).run { m₁ with sequence := out.sequence } := by
  have hlogs : m₁.frame.readOnly = true → out.trace.logs = #[] := by
    intro hro
    have hcaller : m.frame.readOnly = true := ht.stepped.writes.keeps.1.symm.trans hro
    exact (Host.performed ho).logs_of_readOnly (ht.stepped.invoke_readOnly (Or.inl hcaller))
  have hasked := Exec.ensures_settleBySink env inv.landing output
    (m := { m₁ with sequence := out.sequence }) hlogs _ rfl
  have hsettled := Exec.ensures_settle env inv.landing output out
    { m₁ with sequence := out.sequence } _ rfl
  obtain ⟨hdone, hmachine⟩ := hasked.unique hsettled
  exact Prod.ext hdone hmachine

theorem Stepped.static_invoke {env : Env} {m m' : Machine} {inv : Invocation}
    (h : Stepped env m (.call .static) (.invoke inv) m') :
    m'.frame = m.frame ∧ inv.frame.changes = [] ∧
      ∀ caller output frame, inv.landing.install caller output frame = .ok frame := by
  obtain ⟨child, habove, hstatic, hwrites⟩ := h.above
  have hchild : inv.frame = child := hwrites.eq_of_readOnly (hstatic rfl)
  refine ⟨h.invoke_frame fun hop => (by cases hop), ?_, ?_⟩
  · rw [hchild]
    exact Frame.changes_of_empty habove.accounts habove.slots
  · rcases h.invoke_cases with ⟨variant, hop, -⟩ | ⟨variant, -, hasks⟩
    · cases hop
    · obtain ⟨offset, size, hlanding⟩ := hasks.landing
      rw [hlanding]
      exact fun _ _ _ => rfl

theorem Resumed.of_no_changes {env : Env} {inv : Invocation} {out : Outcome} {m m' : Machine}
    (h : Resumed env inv out m m') (hnone : out.frame.changes = [])
    (hlanding : ∀ caller output frame, inv.landing.install caller output frame = .ok frame)
    (hlogs : out.trace.logs = #[]) :
    m'.frame = m.frame ∧ ∃ added : Trace, m'.trace = m.trace ++ added ∧ added.logs = #[] := by
  cases h with
  | failed _ h =>
    refine ⟨h.frame, #[inv.record out], ?_, rfl⟩
    rw [h.trace, Array.push_eq_append]
  | @settled output child frame _ _ hi hs h =>
    obtain rfl : out.frame = child := Except.ok.inj ((hlanding _ _ _).symm.trans hi)
    rw [Frame.sync_snd, hnone] at hs
    obtain rfl : m.frame = frame := congrArg Prod.fst hs
    refine ⟨h.frame, out.trace.push (inv.record out), ?_, ?_⟩
    · rw [h.trace, Array.append_push]
    · exact (Trace.logs_push_call out.trace _).trans hlogs
  | uninstalled _ hi _ _ => rw [hlanding] at hi; cases hi
  | @refused output child frame _ _ _ hi hs _ _ =>
    obtain rfl : out.frame = child := Except.ok.inj ((hlanding _ _ _).symm.trans hi)
    rw [Frame.sync_snd, hnone] at hs
    cases hs

theorem Proceeds.static {env : Env} {m m' : Machine} (h : Proceeds env m (.call .static) m') :
    m'.frame = m.frame ∧ ∃ added : Trace, m'.trace = m.trace ++ added ∧ added.logs = #[] := by
  have hkept : ∀ {flow m₁}, flow.invocation? = none → Takes env m (.call .static) flow m₁ →
      m₁.frame = m.frame ∧ ∃ added : Trace, m₁.trace = m.trace ++ added ∧ added.logs = #[] := by
    intro flow m₁ hflow ht
    cases ht.stepped with
    | inward _ h => exact ⟨h.frame, #[], h.trace.trans (Array.append_empty).symm, rfl⟩
    | opened hop _ _ _ _ => rcases hop with hop | hop <;> cases hop
    | calls _ => cases hflow
  cases h with
  | next ht =>
    have hnext := hkept rfl ht
    exact hnext
  | jumped ht => exact hkept rfl ht
  | @nested m₁ inv fuel o ht ho =>
    have hstepped := ht.stepped
    obtain ⟨hframe, hnone, hlanding⟩ := hstepped.static_invoke
    have hro := hstepped.invoke_readOnly (Or.inr rfl)
    have hperformed := Host.performed ho
    have hsame : o.frame = inv.frame := hperformed.writes.eq_of_readOnly hro
    obtain ⟨hafter, added, htrace, hlogs⟩ := (Exec.resumed env inv o m₁).of_no_changes
      (hsame ▸ hnone) hlanding (hperformed.logs_of_readOnly hro)
    refine ⟨hafter.trans hframe, added, ?_, hlogs⟩
    rw [← hstepped.invoke_trace]
    exact htrace

/-- A call in a read-only frame leaves the frame as it was and emits no log, whatever it runs and
however it ends. So a caller's view is the same after a call that may not write, and only calls were
added to its trace. -/
theorem read_only_calls_write_nothing :
    (∀ (host : Host) (fuel : Nat) (below : View) (frame : Frame) (call : Call) (target : Target)
        (sequence : CreateSequence) (out : Outcome),
      frame.readOnly = true →
      host.perform fuel below frame call target sequence = some out →
        out.frame = frame ∧ out.trace.logs = #[]) ∧
    ∀ (env : Env) (m m' : Machine), Proceeds env m (.call .static) m' →
      m'.view env = m.view env ∧
      ∃ added : Trace, m'.trace = m.trace ++ added ∧ added.logs = #[] := by
  constructor
  · intro host fuel below frame call target sequence out hro h
    have hperformed := Host.performed h
    exact ⟨hperformed.writes.eq_of_readOnly hro, hperformed.logs_of_readOnly hro⟩
  · intro env m m' h
    obtain ⟨hframe, hadded⟩ := h.static
    refine ⟨?_, hadded⟩
    rw [Machine.view, hframe, Machine.view]

/-! ### A call that tries to write where it may not -/

/-- A frame with a pending change that takes no more of them. -/
def frozenFrame : Frame :=
  { accounts := Std.TreeMap.empty.insert 10 (some { address := 10, balance := 7 }), readOnly := true }

/-- A machine that is about to call the contract at 12, which may not write. -/
def staticMachine : Machine :=
  { Machine.start {} 1000 (Frame.root 0) {} with
    stack := { items := [255, 12, 0, 0, 0, 0], depth := 6 } }

def staticStep : Flow × Machine :=
  (Exec.step (relayEnv 0xfa) (.call .static)).run (staticMachine.fetch (relayEnv 0xfa)).1

theorem refused_writes_leave_no_trace :
    (∃ out, (relayEnv 0).host.perform 60 relayLedger.view frozenFrame relayCall
        (.code (callTo 11 ++ [0])) {} = some out ∧
      out.result = .ok [] ∧ out.trace.size = 1 ∧ out.frame = frozenFrame ∧ out.trace.logs = #[]) ∧
    ∃ inv out, Takes (relayEnv 0xfa) staticMachine (.call .static) (.invoke inv) staticStep.2 ∧
      inv.perform 40 (relayEnv 0xfa) staticStep.2 = some out ∧ out.result = .error .illegalWrite ∧
      (staticStep.2.after (relayEnv 0xfa) inv out).view (relayEnv 0xfa) =
        staticMachine.view (relayEnv 0xfa) ∧
      ∃ added : Trace, (staticStep.2.after (relayEnv 0xfa) inv out).trace = #[] ++ added ∧
        added.logs = #[] := by
  constructor
  · have hrun : ((relayEnv 0).host.perform 60 relayLedger.view frozenFrame relayCall
        (.code (callTo 11 ++ [0])) {}).map (fun out => (out.result, out.trace.size)) =
        some (.ok [], 1) := by
      decide +kernel
    obtain ⟨out, hout, hvalues⟩ := Option.map_eq_some_iff.1 hrun
    obtain ⟨hresult, hsize⟩ := Prod.mk.inj hvalues
    obtain ⟨hframe, hlogs⟩ := read_only_calls_write_nothing.1 _ _ _ _ _ _ _ _ rfl hout
    exact ⟨out, hout, hresult, hsize, hframe, hlogs⟩
  · have htakes : Takes (relayEnv 0xfa) staticMachine (.call .static) staticStep.1 staticStep.2 :=
      Takes.of_fetch (by decide +kernel)
    have hrun : (staticStep.1.invocation?.bind fun inv =>
        (inv.perform 40 (relayEnv 0xfa) staticStep.2).map (·.result)) =
        some (.error .illegalWrite) := by
      decide +kernel
    obtain ⟨inv, hinv, hperform⟩ := Option.bind_eq_some_iff.1 hrun
    obtain ⟨out, hout, hresult⟩ := Option.map_eq_some_iff.1 hperform
    rw [Flow.eq_invoke hinv] at htakes
    obtain ⟨hview, hadded⟩ := read_only_calls_write_nothing.2 _ _ _ (.nested htakes hout)
    exact ⟨inv, out, htakes, hout, hresult, hview, hadded⟩

end ContractVm
