import Mathlib
import ContractVm.Proofs.Step
import ContractVm.Proofs.Transfer

/-! # The two ends of a nested call

A nested call gets a new frame (`Stepped.above`) and begins by moving its value (`Begun`). When it has
ended, the caller keeps nothing of it but a record if it failed, and otherwise takes its changes and
events or refuses them: `Resumed` lists what can happen. Along the way the caller's frame only takes
changes that it accepts. -/

namespace ContractVm

/-! ### The beginning of a call -/

def Call.move (call : Call) (below : View) (frame : Frame) : Except Fault Frame :=
  if call.kind.movesValue then frame.transfer below call.caller call.callee call.value
  else .ok frame

theorem Call.move_writes {call : Call} {below : View} {frame frame' : Frame}
    (h : call.move below frame = .ok frame') : Frame.Writes frame frame' := by
  unfold move at h
  split at h
  · exact Frame.transfer_writes h
  · cases h
    exact .refl

inductive Begun (host : Host) (below : View) (frame : Frame) (call : Call)
    (sequence : CreateSequence) : Beginning → Prop where
  | refused {fault : Fault} (h : call.move below frame = .error fault) :
      Begun host below frame call sequence
        (.over { result := .error fault, gas := call.gas, frame, sequence })
  | ended {frame' : Frame} {result : Except Fault Bytes} {gas : Nat}
      (h : call.move below frame = .ok frame') :
      Begun host below frame call sequence (.over { result, gas, frame := frame', sequence })
  | running {frame' : Frame} {bytes : Bytes} (h : call.move below frame = .ok frame') :
      Begun host below frame call sequence
        (.running { host, call, code := Code.ofBytes bytes, below }
          (Machine.start host.options call.gas frame' sequence))

theorem Host.begun (host : Host) (below : View) (frame : Frame) (call : Call) (target : Target)
    (sequence : CreateSequence) :
    Begun host below frame call sequence (host.begin below frame call target sequence) := by
  have hmoved : (if call.kind.movesValue then
      frame.transfer below call.caller call.callee call.value else .ok frame) =
      call.move below frame := rfl
  unfold begin
  rw [hmoved]
  cases h : call.move below frame with
  | error fault => exact .refused h
  | ok frame' =>
    cases target with
    | native native =>
      dsimp only
      split
      · exact .ended h
      · exact .ended h
    | code bytes =>
      dsimp only
      split
      · exact .ended h
      · exact .running h

/-! ### After a nested call -/

def Invocation.record (inv : Invocation) (out : Outcome) : Event :=
  .call { call := inv.call, depth := inv.frame.depth, result := out.result }

/-- The frame of a successful call as it is handed down: a new contract has its code by then. -/
def Landing.install (landing : Landing) (caller : View) (output : Bytes) (frame : Frame) :
    Except Fault Frame :=
  match landing with
  | .create address => frame.installCode caller address output
  | .memory _ _ => .ok frame

theorem Landing.install_writes {landing : Landing} {caller : View} {output : Bytes}
    {frame child : Frame} (h : landing.install caller output frame = .ok child) :
    Frame.Writes frame child := by
  cases landing with
  | create address => exact Frame.installCode_writes h
  | memory offset size =>
    cases h
    exact .refl

/-- The machine that has heard of a nested call, before its result is delivered. -/
def Machine.received (m : Machine) (inv : Invocation) (out : Outcome) (frame : Frame)
    (trace : Trace) : Machine :=
  { m with
    frame
    trace := trace.push (inv.record out)
    sequence := out.sequence
    meter := m.meter.refund out.gas }

/-- What the second half of a nested call can do. -/
inductive Resumed (env : Env) (inv : Invocation) (out : Outcome) (m : Machine) : Machine → Prop where
  | failed {fault : Fault} {m' : Machine} (hr : out.result = .error fault)
      (h : (m.received inv out m.frame m.trace).Turns
        ⟨m.frame, m.trace.push (inv.record out), out.sequence⟩ m') : Resumed env inv out m m'
  | settled {output : Bytes} {child frame : Frame} {m' : Machine} (hr : out.result = .ok output)
      (hi : inv.landing.install (m.view env) output out.frame = .ok child)
      (hs : (child.sync m.frame).2 = (frame, .ok ()))
      (h : (m.received inv out frame (m.trace ++ out.trace)).Turns
        ⟨frame, (m.trace ++ out.trace).push (inv.record out), out.sequence⟩ m') :
      Resumed env inv out m m'
  -- the call succeeded, and its output could not be made the code of a contract
  | uninstalled {output : Bytes} {fault : Fault} {m' : Machine} (hr : out.result = .ok output)
      (hi : inv.landing.install (m.view env) output out.frame = .error fault)
      (h : m.Turns ⟨m.frame, m.trace, out.sequence⟩ m') (hf : m'.meter.fault ≠ none) :
      Resumed env inv out m m'
  | refused {output : Bytes} {child frame : Frame} {fault : Fault} {m' : Machine}
      (hr : out.result = .ok output)
      (hi : inv.landing.install (m.view env) output out.frame = .ok child)
      (hs : (child.sync m.frame).2 = (frame, .error fault))
      (h : m.Turns ⟨frame, m.trace, out.sequence⟩ m') (hf : m'.meter.fault ≠ none) :
      Resumed env inv out m m'

inductive Settled (env : Env) (landing : Landing) (output : Bytes) (out : Outcome) (m : Machine) :
    Bool → Machine → Prop where
  | done {child frame : Frame} (hi : landing.install (m.view env) output out.frame = .ok child)
      (hs : (child.sync m.frame).2 = (frame, .ok ())) :
      Settled env landing output out m true { m with frame, trace := m.trace ++ out.trace }
  | uninstalled {fault : Fault}
      (hi : landing.install (m.view env) output out.frame = .error fault) :
      Settled env landing output out m false (m.recorded fault)
  | refused {child frame : Frame} {fault : Fault}
      (hi : landing.install (m.view env) output out.frame = .ok child)
      (hs : (child.sync m.frame).2 = (frame, .error fault)) :
      Settled env landing output out m false ({ m with frame }.recorded fault)

namespace Exec

theorem quiet_land (landing : Landing) (result : Except Fault Bytes) :
    Quiet (land landing result) := by
  cases landing with
  | create address =>
    cases result with
    | ok output => exact quiet_push _
    | error fault => exact (quiet_push 0).bind fun _ => quiet_setReturnData _
  | memory offset size =>
    cases result with
    | ok output =>
      exact (quiet_push 1).bind fun _ => (quiet_writeOutput offset output size).bind fun _ =>
        quiet_setReturnData output
    | error fault =>
      refine (quiet_push 0).bind fun _ => .ite ?_ (quiet_setReturnData _)
      exact (quiet_writeOutput offset _ size).bind fun _ => quiet_setReturnData _

theorem ensures_settle (env : Env) (landing : Landing) (output : Bytes) (out : Outcome)
    (m : Machine) :
    Ensures (· = m) (settle env landing output out) (Settled env landing output out m) := by
  refine .get_bind fun m₁ hm₁ => ?_
  subst hm₁
  refine .attempt_bind (fun child hchild => ?_) fun fault hfault m₂ hm₂ => ?_
  · refine .get_bind fun m₂ hm₂ => ?_
    subst hm₂
    rintro m₂ rfl
    rcases hsync : child.sync m₂.frame with ⟨kept, frame, result⟩
    cases result with
    | ok u => exact .done hchild (congrArg Prod.snd hsync)
    | error fault => exact .refused hchild (congrArg Prod.snd hsync)
  · subst hm₂
    rintro _ rfl
    exact .uninstalled hfault

def deliver (inv : Invocation) (out : Outcome) : Exec Unit := do
  emit (inv.record out)
  refund out.gas
  land inv.landing out.result

theorem deliver_turns (inv : Invocation) (out : Outcome) (m : Machine) (frame : Frame)
    (trace : Trace) :
    (m.received inv out frame trace).Turns ⟨frame, trace.push (inv.record out), out.sequence⟩
      ((deliver inv out).run { m with frame, trace, sequence := out.sequence }).2 :=
  (quiet_land inv.landing out.result (m.received inv out frame trace)).1

theorem resume_error (env : Env) (inv : Invocation) {out : Outcome} {fault : Fault}
    (hr : out.result = .error fault) (m : Machine) :
    (resume env inv out).run m = (deliver inv out).run { m with sequence := out.sequence } := by
  unfold resume deliver Invocation.record
  rw [hr]
  rfl

theorem resume_ok (env : Env) (inv : Invocation) {out : Outcome} {output : Bytes}
    (hr : out.result = .ok output) (m : Machine) :
    (resume env inv out).run m =
      let settled := (settle env inv.landing output out).run { m with sequence := out.sequence }
      (if settled.1 = true then deliver inv out else pure ()).run settled.2 := by
  unfold resume deliver Invocation.record
  rw [hr]
  rfl

theorem resume_settled (env : Env) (inv : Invocation) {out : Outcome} {output : Bytes}
    (hr : out.result = .ok output) (m : Machine) :
    ∃ done m₁, Settled env inv.landing output out { m with sequence := out.sequence } done m₁ ∧
      (resume env inv out).run m = (if done = true then deliver inv out else pure ()).run m₁ :=
  ⟨_, _, ensures_settle env inv.landing output out _ _ rfl, resume_ok env inv hr m⟩

theorem resume_cases (env : Env) (inv : Invocation) (out : Outcome) (m : Machine) :
    (∃ frame fault, ((resume env inv out).run m).2 =
      ({ m with frame, sequence := out.sequence } : Machine).recorded fault) ∨
    ∃ frame trace, (resume env inv out).run m =
      (land inv.landing out.result).run (m.received inv out frame trace) := by
  have hdeliver : ∀ frame trace,
      (deliver inv out).run { m with frame, trace, sequence := out.sequence } =
        (land inv.landing out.result).run (m.received inv out frame trace) := fun _ _ => rfl
  cases hr : out.result with
  | error fault =>
    rw [resume_error env inv hr, ← hr]
    exact Or.inr ⟨m.frame, m.trace, hdeliver _ _⟩
  | ok output =>
    obtain ⟨done, m₁, hsettled, hrun⟩ := resume_settled env inv hr m
    rw [hrun, ← hr]
    cases hsettled with
    | done hi hs => exact Or.inr ⟨_, _, hdeliver _ _⟩
    | uninstalled hi => exact Or.inl ⟨_, _, rfl⟩
    | refused hi hs => exact Or.inl ⟨_, _, rfl⟩

theorem resumed (env : Env) (inv : Invocation) (out : Outcome) (m : Machine) :
    Resumed env inv out m ((resume env inv out).run m).2 := by
  cases hr : out.result with
  | error fault =>
    rw [resume_error env inv hr]
    exact .failed hr (deliver_turns inv out m m.frame m.trace)
  | ok output =>
    obtain ⟨done, m₁, hsettled, hrun⟩ := resume_settled env inv hr m
    rw [hrun]
    cases hsettled with
    | done hi hs => exact .settled hr hi hs (deliver_turns inv out m _ _)
    | uninstalled hi =>
      have hturn := (Machine.Turns.refl m).withSequence out.sequence
      exact .uninstalled hr hi (hturn.recorded _) (Machine.recorded_faulty _ _)
    | @refused child frame fault hi hs =>
      have hturn := ((Machine.Turns.refl m).withSequence out.sequence).withFrame frame
      exact .refused hr hi hs (hturn.recorded _) (Machine.recorded_faulty _ _)

end Exec

/-! ### The caller's frame -/

theorem Found.writes {env : Env} {variant : CallVariant} {m : Machine} {target : Address}
    {account : Account} {frame : Frame} (h : Found env variant m target account frame) :
    Frame.Writes m.frame frame := by
  cases h with
  | present _ => exact .refl
  | opened _ ho => exact Frame.openAccount_writes ho.opened

theorem Stepped.writes {env : Env} {m m' : Machine} {op : Opcode} {flow : Flow}
    (h : Stepped env m op flow m') : Frame.Writes m.frame m'.frame := by
  cases h with
  | inward _ h => rw [h.frame]; exact .refl
  | stored hw h => rw [h.frame]; exact .single hw
  | logged _ _ h => rw [h.frame]; exact .refl
  | opened _ _ ho h _ => rw [h.frame]; exact Frame.openAccount_writes ho.opened
  | destroyed _ ho hb h =>
    rw [h.frame]
    rcases ho with rfl | ho
    · exact Frame.bequeath_writes hb
    · exact (Frame.openAccount_writes ho.opened).trans (Frame.bequeath_writes hb)
  | sequenced h _ => rw [h.frame]; exact .refl
  | creates h => rw [h.turns.frame]; exact .refl
  | calls h =>
    obtain ⟨target, account, hfound, -⟩ := h.found
    exact hfound.writes

theorem Resumed.writes {env : Env} {inv : Invocation} {out : Outcome} {m m' : Machine}
    (h : Resumed env inv out m m') : Frame.Writes m.frame m'.frame := by
  cases h with
  | failed _ h => rw [h.frame]; exact .refl
  | settled _ _ hs h => rw [h.frame]; exact Frame.sync_writes hs
  | uninstalled _ _ h _ => rw [h.frame]; exact .refl
  | refused _ _ hs h _ => rw [h.frame]; exact Frame.sync_writes hs

/-- The frame `g` is new: it has no changes and lies on top of `f`. -/
structure Frame.Above (g f : Frame) : Prop where
  accounts : g.accounts = ∅
  slots : g.slots = ∅
  depth : g.depth = f.depth + 1
  readOnly : f.readOnly = true → g.readOnly = true

theorem Frame.child_above {f g : Frame} (h : f.child = .ok g) : g.Above f := by
  unfold child at h
  split at h
  · cases h
  · cases h
    exact ⟨rfl, rfl, rfl, fun hro => hro⟩

/-- A nested call gets a new frame, which may have taken the account of a new contract. -/
theorem Stepped.above {env : Env} {m m' : Machine} {op : Opcode} {inv : Invocation}
    (h : Stepped env m op (.invoke inv) m') :
    ∃ child : Frame, child.Above m.frame ∧ (op = .call .static → child.readOnly = true) ∧
      Frame.Writes child inv.frame := by
  obtain ⟨hro, hdepth, -⟩ := h.writes.keeps
  rcases h.invoke_cases with ⟨variant, rfl, hasks⟩ | ⟨variant, rfl, hasks⟩
  · obtain ⟨child, hchild, hopen⟩ := hasks.frame
    exact ⟨child, Frame.child_above hchild, fun hop => (by cases hop), Frame.openAccount_writes hopen⟩
  · obtain ⟨child, hchild, hframe⟩ := hasks.frame
    have habove := Frame.child_above hchild
    refine ⟨inv.frame, ?_, fun hop => ?_, .refl⟩
    · rw [hframe]
      -- the call may have opened an account in the caller's frame, which still stands where it stood
      exact
        { accounts := habove.accounts
          slots := habove.slots
          depth := habove.depth.trans (congrArg (· + 1) hdepth)
          readOnly := fun h => by simp [habove.readOnly (hro.trans h)] }
    · cases hop
      rw [hframe]
      exact Bool.or_true _

theorem Stepped.invoke_unfaulted {env : Env} {m m' : Machine} {op : Opcode} {inv : Invocation}
    (h : Stepped env m op (.invoke inv) m') : m'.meter.fault = none := by
  rcases h.invoke_cases with ⟨variant, -, hasks⟩ | ⟨variant, -, hasks⟩
  · exact hasks.unfaulted
  · exact hasks.unfaulted

theorem Stepped.invoke_trace {env : Env} {m m' : Machine} {op : Opcode} {inv : Invocation}
    (h : Stepped env m op (.invoke inv) m') : m'.trace = m.trace := by
  rcases h.invoke_cases with ⟨variant, -, hasks⟩ | ⟨variant, -, hasks⟩
  · exact hasks.turns.trace
  · exact hasks.turns.trace

/-- Asking for a nested call changes the caller's frame only if it is a plain call that opens the
account it calls. -/
theorem Stepped.invoke_frame {env : Env} {m m' : Machine} {op : Opcode} {inv : Invocation}
    (h : Stepped env m op (.invoke inv) m')
    (hplain : op = .call .plain → ∃ a, (m.view env).account inv.call.callee = .ok (some a)) :
    m'.frame = m.frame := by
  rcases h.invoke_cases with ⟨variant, -, hasks⟩ | ⟨variant, rfl, hasks⟩
  · exact hasks.turns.frame
  · obtain ⟨target, account, hfound, -, hparties⟩ := hasks.found
    generalize hframe : m'.frame = frame at hfound
    cases hfound with
    | present _ => rfl
    | opened hv ho =>
      subst hv
      -- the account that the call opened was missing, but the one it calls is there
      obtain ⟨a, ha⟩ := hplain rfl
      obtain ⟨hnone, -⟩ := Frame.openAccount_eq_ok.1 ho.opened
      have hcallee : inv.call.callee = target := congrArg Prod.snd hparties
      rw [hcallee, Machine.view, hnone] at ha
      cases ha

theorem Stepped.invoke_depth {env : Env} {m m' : Machine} {op : Opcode} {inv : Invocation}
    (h : Stepped env m op (.invoke inv) m') : inv.frame.depth = m.frame.depth + 1 := by
  obtain ⟨child, habove, -, hwrites⟩ := h.above
  exact hwrites.keeps.2.1.trans habove.depth

theorem Stepped.invoke_coherent {env : Env} {m m' : Machine} {op : Opcode} {inv : Invocation}
    (h : Stepped env m op (.invoke inv) m') : inv.frame.Coherent := by
  obtain ⟨child, habove, -, hwrites⟩ := h.above
  exact hwrites.coherent (Frame.coherent_of_empty habove.accounts)

end ContractVm
