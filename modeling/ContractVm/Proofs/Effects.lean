import Mathlib
import ContractVm.Proofs.Engine

/-! # Effects

A run that succeeds never has a fault, so what it does to its frame and its trace is made of few
things: it writes slots of its own contract, emits logs, opens accounts, destroys its contract, and
records nested calls that failed or whose changes its frame took. `Effects` lists them, with the
effects of a nested call inside those of its caller, and `Runs.affects` shows that the list is
complete. Facts about executions that succeed are proved by induction on it. -/

namespace ContractVm

/-- Code that runs in `env` can take the frame `f` to `g` and emit the events in between. -/
inductive Effects : Env → Frame → Trace → Frame → Prop where
  | refl {env : Env} {f : Frame} : Effects env f #[] f
  | trans {env : Env} {f g h : Frame} {s t : Trace} (h₁ : Effects env f s g)
      (h₂ : Effects env g t h) : Effects env f (s ++ t) h
  | stored {env : Env} {f g : Frame} {key value : Word}
      (hw : f.write (.store env.call.callee key value) = .ok g) : Effects env f #[] g
  | logged {env : Env} {f : Frame} {log : Log} (hro : f.readOnly = false)
      (hlog : log.address = env.call.callee) : Effects env f #[.log log] f
  | opened {env : Env} {m : Machine} {x : Address} {g : Frame} (ho : Opened env m x g) :
      Effects env m.frame #[] g
  | bequeathed {env : Env} {f g : Frame} {heir : Address}
      (hb : f.bequeath env.below env.call.callee heir = .ok g) : Effects env f #[] g
  | failed {env : Env} {m m₁ : Machine} {op : Opcode} {inv : Invocation} {fault : Fault}
      (h : Stepped env m op (.invoke inv) m₁) :
      Effects env m₁.frame #[.call ⟨inv.call, inv.frame.depth, .error fault⟩] m₁.frame
  -- value moves, the callee has its effects, and the caller's frame takes what they led to
  | settled {env : Env} {m m₁ : Machine} {op : Opcode} {inv : Invocation} {code : Code}
      {start last child g : Frame} {inner : Trace} {output : Bytes}
      (h : Stepped env m op (.invoke inv) m₁)
      (hm : inv.call.move (m₁.view env) inv.frame = .ok start)
      (hin : Effects ⟨env.host, inv.call, code, m₁.view env⟩ start inner last)
      (hi : inv.landing.install (m₁.view env) output last = .ok child)
      (hs : (child.sync m₁.frame).2 = (g, .ok ())) :
      Effects env m₁.frame (inner.push (.call ⟨inv.call, inv.frame.depth, .ok output⟩)) g

def Affects (env : Env) (w w' : World) : Prop :=
  ∃ added, w'.trace = w.trace ++ added ∧ Effects env w.frame added w'.frame

theorem Affects.refl (env : Env) (w : World) : Affects env w w :=
  ⟨#[], Array.append_empty.symm, .refl⟩

theorem Affects.trans {env : Env} {w₁ w₂ w₃ : World} (h₁ : Affects env w₁ w₂)
    (h₂ : Affects env w₂ w₃) : Affects env w₁ w₃ := by
  obtain ⟨s, hs, he₁⟩ := h₁
  obtain ⟨t, ht, he₂⟩ := h₂
  refine ⟨s ++ t, ?_, he₁.trans he₂⟩
  rw [ht, hs, Array.append_assoc]

theorem Affects.of_frame {env : Env} {w w' : World} (htrace : w'.trace = w.trace)
    (h : Effects env w.frame #[] w'.frame) : Affects env w w' :=
  ⟨#[], htrace.trans Array.append_empty.symm, h⟩

def Outcome.world (out : Outcome) : World :=
  { frame := out.frame, trace := out.trace, sequence := out.sequence }

/-! ### Instructions -/

theorem Found.effects {env : Env} {variant : CallVariant} {m : Machine} {target : Address}
    {account : Account} {frame : Frame} (h : Found env variant m target account frame) :
    Effects env m.frame #[] frame := by
  cases h with
  | present _ => exact .refl
  | opened _ ho => exact .opened ho

theorem Stepped.affects {env : Env} {m m' : Machine} {op : Opcode} {flow : Flow}
    (h : Stepped env m op flow m') (hf : m'.meter.fault = none) :
    Affects env m.world m'.world := by
  cases h with
  | inward _ h =>
    rw [h.world]
    exact .refl env m.world
  | stored hw h =>
    rw [h.world]
    exact .of_frame rfl (.stored hw)
  | logged hro hlog h =>
    rw [h.world]
    exact ⟨_, Array.push_eq_append, .logged hro hlog⟩
  -- an instruction that opened an account and left no fault has destroyed the contract or made a call
  | opened _ _ _ _ hfault => exact absurd hf hfault
  | @destroyed heir frame₁ frame _ _ ho hb h =>
    have hopened : Effects env m.frame #[] frame₁ := by
      rcases ho with rfl | ho
      · exact .refl
      · exact .opened ho
    rw [h.world]
    exact .of_frame rfl (hopened.trans (.bequeathed hb))
  | sequenced _ hfault => exact absurd hf hfault
  | creates h =>
    rw [h.turns.world]
    exact .of_frame rfl .refl
  | calls h =>
    obtain ⟨target, account, hfound, -⟩ := h.found
    exact .of_frame h.turns.trace hfound.effects

/-! ### Calls -/

/-- A call that was given `frame` moved its value and ended in `w` by effects of its code. -/
def Call.Affects (call : Call) (host : Host) (below : View) (frame : Frame) (w : World) : Prop :=
  ∃ start code, call.move below frame = .ok start ∧
    Effects ⟨host, call, code, below⟩ start w.trace w.frame

theorem Begun.affects_over {host : Host} {below : View} {frame : Frame} {call : Call}
    {sequence : CreateSequence} {o : Outcome} {output : Bytes}
    (h : Begun host below frame call sequence (.over o)) (hr : o.result = .ok output) :
    call.Affects host below frame o.world := by
  cases h with
  | refused _ => cases hr
  | @ended frame' _ _ hm => exact ⟨frame', Code.ofBytes [], hm, .refl⟩

theorem Begun.affects_running {host : Host} {below : View} {frame : Frame} {call : Call}
    {sequence : CreateSequence} {inner : Env} {start : Machine} {o : Outcome}
    (h : Begun host below frame call sequence (.running inner start))
    (hrun : Affects inner start.world o.world) : call.Affects host below frame o.world := by
  cases h with
  | @running frame' bytes hm =>
    obtain ⟨added, htrace, heffects⟩ := hrun
    have hadded : o.world.trace = added := htrace.trans Array.empty_append
    exact ⟨frame', Code.ofBytes bytes, hm, hadded ▸ heffects⟩

/-- A caller that goes on has recorded the call and taken its effects, if it succeeded. -/
theorem Resumed.affects {env : Env} {m m₁ m' : Machine} {op : Opcode} {inv : Invocation}
    {o : Outcome} (h : Resumed env inv o m₁ m') (hasks : Stepped env m op (.invoke inv) m₁)
    (hf : m'.meter.fault = none)
    (hcall : ∀ output, o.result = .ok output →
      inv.call.Affects env.host (m₁.view env) inv.frame o.world) :
    Affects env m₁.world m'.world := by
  cases h with
  | failed hr h =>
    rw [h.world]
    refine ⟨#[inv.record o], Array.push_eq_append, ?_⟩
    rw [Invocation.record, hr]
    exact .failed hasks
  | @settled output child frame _ hr hi hs h =>
    obtain ⟨start, code, hm, hin⟩ := hcall output hr
    rw [h.world]
    refine ⟨o.trace.push (inv.record o), Array.append_push.symm, ?_⟩
    rw [Invocation.record, hr]
    exact .settled hasks hm hin hi hs
  | uninstalled _ _ _ hfault => exact absurd hf hfault
  | refused _ _ _ _ hfault => exact absurd hf hfault

theorem Takes.affects_after {env : Env} {m m₁ : Machine} {op : Opcode} {inv : Invocation}
    {o : Outcome} (h : Takes env m op (.invoke inv) m₁)
    (hf : (m₁.after env inv o).meter.fault = none)
    (hcall : ∀ output, o.result = .ok output →
      inv.call.Affects env.host (m₁.view env) inv.frame o.world) :
    Affects env m.world (m₁.after env inv o).world := by
  have hstep := h.stepped.affects h.stepped.invoke_unfaulted
  exact hstep.trans ((Exec.resumed env inv o m₁).affects h.stepped hf hcall)

/-! ### Runs -/

theorem Machine.halt_ok {m : Machine} {given output : Bytes}
    (h : (m.halt given).result = .ok output) :
    m.meter.fault = none ∧ m.halt given = m.finish (.ok given) := by
  unfold halt at h ⊢
  split at h
  · cases h
  · next hf => exact ⟨hf, rfl⟩

/-- A run that succeeds does nothing but what `Effects` lists. -/
theorem Runs.affects {env : Env} {m : Machine} {out : Outcome} (h : Runs env m out)
    {output : Bytes} (hr : out.result = .ok output) : Affects env m.world out.world := by
  induction h generalizing output with
  | stopped _ => cases hr
  | @halted env m m₁ op given ht =>
    obtain ⟨hf, hhalt⟩ := Machine.halt_ok hr
    rw [hhalt]
    exact ht.stepped.affects hf
  | next ht rest ih =>
    have hstep := ht.stepped.affects (rest.unfaulted hr)
    exact hstep.trans (ih hr)
  | jumped ht rest ih =>
    have hstep := ht.stepped.affects (rest.unfaulted hr)
    exact hstep.trans (ih hr)
  | @ended env m m₁ op inv o out ht hb rest ih =>
    have hbegun := hb ▸ inv.begun env m₁
    have hstep := ht.affects_after (rest.unfaulted hr) fun _ ho => hbegun.affects_over ho
    exact hstep.trans (ih hr)
  | @nested env inner m m₁ start op inv o out ht hb call rest ihCall ihRest =>
    have hbegun := hb ▸ inv.begun env m₁
    have hstep := ht.affects_after (rest.unfaulted hr)
      fun _ ho => hbegun.affects_running (ihCall ho)
    exact hstep.trans (ihRest hr)

theorem Performed.affects {host : Host} {below : View} {frame : Frame} {call : Call}
    {sequence : CreateSequence} {o : Outcome} {output : Bytes}
    (h : Performed host below frame call sequence o) (hr : o.result = .ok output) :
    call.Affects host below frame o.world := by
  cases h with
  | refused _ => cases hr
  | @ended frame' _ _ hm => exact ⟨frame', Code.ofBytes [], hm, .refl⟩
  | ran hm hrun => exact (Begun.running hm).affects_running (hrun.affects hr)

theorem Proceeds.affects {env : Env} {m m' : Machine} {op : Opcode} (h : Proceeds env m op m')
    (hf : m'.meter.fault = none) : Affects env m.world m'.world := by
  cases h with
  | next ht => exact ht.stepped.affects hf
  | jumped ht => exact ht.stepped.affects hf
  | nested ht ho => exact ht.affects_after hf fun _ hr => (Host.performed ho).affects hr

/-! ### What effects keep -/

theorem Effects.writes {env : Env} {f g : Frame} {events : Trace} (h : Effects env f events g) :
    Frame.Writes f g := by
  induction h with
  | refl => exact .refl
  | trans _ _ ih₁ ih₂ => exact ih₁.trans ih₂
  | stored hw => exact .single hw
  | logged _ _ => exact .refl
  | opened ho => exact Frame.openAccount_writes ho.opened
  | bequeathed hb => exact Frame.bequeath_writes hb
  | failed _ => exact .refl
  | settled _ _ _ _ hs _ => exact Frame.sync_writes hs

theorem Effects.view_settled {env : Env} {m m₁ : Machine} {op : Opcode} {inv : Invocation}
    {code : Code} {start last child g : Frame} {inner : Trace} {output : Bytes}
    (h : Stepped env m op (.invoke inv) m₁)
    (hm : inv.call.move (m₁.view env) inv.frame = .ok start)
    (hin : Effects ⟨env.host, inv.call, code, m₁.view env⟩ start inner last)
    (hi : inv.landing.install (m₁.view env) output last = .ok child)
    (hs : (child.sync m₁.frame).2 = (g, .ok ())) :
    child.Coherent ∧ g.view env.below = child.view (m₁.view env) := by
  have hwrites := ((Call.move_writes hm).trans hin.writes).trans (Landing.install_writes hi)
  have hcoherent := hwrites.coherent h.invoke_coherent
  exact ⟨hcoherent, hcoherent.view_sync hs env.below⟩

/-! ### Executions -/

/-- An execution over a ledger that succeeds: its call had its effects on an empty frame, the ledger
reads afterwards as that frame does, and the sink has the events of the call and its record. -/
theorem Engine.execute_affects {engine : Engine} {fuel : Nat} {chain : Chain} {ledger : Ledger}
    {sink : Trace} {call : Call} {code : Bytes} {report : Report Ledger Trace} {output : Bytes}
    (h : engine.execute fuel chain ledger sink call code = some report)
    (hr : report.result = .ok output) :
    ∃ w : World,
      call.Affects (engine.host chain) ledger.view (Frame.root engine.options.callMaxDepth) w ∧
      report.store.view = w.frame.view ledger.view ∧
      report.sink = sink ++ w.trace.push (.call { call, depth := 0, result := .ok output }) := by
  obtain ⟨out, hout, hresult, hstored, htraced⟩ := execute_traced h
  rw [hresult] at hr
  refine ⟨out.world, (Host.performed hout).affects hr, ?_, ?_⟩
  · generalize report.store = store at hstored
    cases hstored with
    | failed hfault => rw [hr] at hfault; cases hfault
    | committed _ => exact Ledger.view_commit (perform_coherent hout) ledger
  · generalize report.sink = delivered at htraced
    cases htraced with
    | failed hfault => rw [hr] at hfault; cases hfault
    | committed _ =>
      rw [hr]
      exact Array.append_push.symm

end ContractVm
