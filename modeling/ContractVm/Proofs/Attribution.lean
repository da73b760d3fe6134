import Mathlib
import ContractVm.Proofs.Effects

/-! # Storage changes are on record

Code writes only the slots of its own callee, moving value and opening accounts write none, and what a
nested call wrote is taken over together with its record. So a slot that an execution changed belongs
to its callee or to the callee of a call on record that succeeded. -/

namespace ContractVm

/-- A call with this callee is on record and succeeded. -/
def Trace.Credits (events : Trace) (x : Address) : Prop :=
  ∃ record, .call record ∈ events ∧ record.fault? = none ∧ record.call.callee = x

theorem Trace.Credits.append_left {s : Trace} {x : Address} (h : s.Credits x) (t : Trace) :
    Credits (s ++ t) x := by
  obtain ⟨record, hmem, hrest⟩ := h
  exact ⟨record, Array.mem_append_left t hmem, hrest⟩

theorem Trace.Credits.append_right {t : Trace} {x : Address} (h : t.Credits x) (s : Trace) :
    Credits (s ++ t) x := by
  obtain ⟨record, hmem, hrest⟩ := h
  exact ⟨record, Array.mem_append_right s hmem, hrest⟩

theorem Trace.Credits.push {s : Trace} {x : Address} (h : s.Credits x) (event : Event) :
    Credits (s.push event) x := by
  rw [Array.push_eq_append]
  exact h.append_left #[event]

theorem Trace.credits_push_ok (s : Trace) (call : Call) (depth : Nat) (output : Bytes) :
    Credits (s.push (.call ⟨call, depth, .ok output⟩)) call.callee :=
  ⟨_, Array.mem_push_self, rfl, rfl⟩

/-! ### Steps that write no slot -/

namespace Frame

variable {below : View} {f g : Frame}

theorem slot_put {a : Account} (h : f.write (.put a) = .ok g) :
    (g.view below).slot = (f.view below).slot := by
  rw [view_write h]
  rfl

theorem openAccount_slot {x : Address} (h : f.openAccount below x = .ok g) :
    (g.view below).slot = (f.view below).slot :=
  slot_put (openAccount_eq_ok.1 h).2

theorem installCode_slot {x : Address} {code : Bytes} (h : f.installCode below x code = .ok g) :
    (g.view below).slot = (f.view below).slot := by
  obtain ⟨a, -, -, hw⟩ := installCode_eq_ok.1 h
  exact slot_put hw

theorem transfer_slot {sender receiver : Address} {amount : Word}
    (h : f.transfer below sender receiver amount = .ok g) :
    (g.view below).slot = (f.view below).slot := by
  by_cases hz : amount = 0
  · rw [transfer, if_pos hz] at h
    cases h
    rfl
  · obtain ⟨a, f₁, b, -, -, hf₁, -, -, hg⟩ := (transfer_eq_ok hz).1 h
    exact (slot_put hg).trans (slot_put hf₁)

theorem bequeath_slot {x heir : Address} (h : f.bequeath below x heir = .ok g) {y : Address}
    (hy : y ≠ x) (key : Word) : (g.view below).slot y key = (f.view below).slot y key := by
  obtain ⟨a, b, f₁, -, -, -, hf₁, hg⟩ := bequeath_eq_ok.1 h
  have hremoved : (g.view below).slot y key = (f₁.view below).slot y key := by
    rw [view_write hg]
    exact if_neg (Ne.symm hy)
  rw [hremoved, slot_put hf₁]

theorem store_slot {x : Address} {key value : Word} (h : f.write (.store x key value) = .ok g)
    {y : Address} (hy : y ≠ x) (k : Word) :
    (g.view below).slot y k = (f.view below).slot y k := by
  rw [view_write h]
  exact if_neg fun hxy => hy hxy.1.symm

end Frame

theorem Call.move_slot {call : Call} {below : View} {frame frame' : Frame}
    (h : call.move below frame = .ok frame') :
    (frame'.view below).slot = (frame.view below).slot := by
  unfold move at h
  split at h
  · exact Frame.transfer_slot h
  · cases h
    rfl

theorem Landing.install_slot {landing : Landing} {caller : View} {output : Bytes}
    {frame child : Frame} (h : landing.install caller output frame = .ok child) :
    (child.view caller).slot = (frame.view caller).slot := by
  cases landing with
  | create address => exact Frame.installCode_slot h
  | memory offset size =>
    cases h
    rfl

/-- A nested call starts from the slots that its caller sees. -/
theorem Stepped.invoke_slot {env : Env} {m m' : Machine} {op : Opcode} {inv : Invocation}
    (h : Stepped env m op (.invoke inv) m') :
    (inv.frame.view (m'.view env)).slot = (m'.view env).slot := by
  rcases h.invoke_cases with ⟨variant, -, hasks⟩ | ⟨variant, -, hasks⟩
  · obtain ⟨child, hchild, hopen⟩ := hasks.frame
    have habove := Frame.child_above hchild
    have hview : m'.view env = m.view env := hasks.turns.view env
    rw [hview, Frame.openAccount_slot hopen, Frame.view_of_empty habove.accounts habove.slots]
  · obtain ⟨child, hchild, hframe⟩ := hasks.frame
    have habove := Frame.child_above hchild
    rw [hframe]
    exact congrArg View.slot (Frame.view_of_empty habove.accounts habove.slots _)

/-! ### Effects -/

/-- The slots that changed from `f` to `g` belong to `x`, or to the callee of a call in `events`. -/
def Attributed (below : View) (f g : Frame) (x : Address) (events : Trace) : Prop :=
  ∀ y key, (g.view below).slot y key ≠ (f.view below).slot y key → y = x ∨ events.Credits y

theorem Attributed.of_eq {below : View} {f g : Frame}
    (h : (g.view below).slot = (f.view below).slot) (x : Address) (events : Trace) :
    Attributed below f g x events :=
  fun y key hne => absurd (by rw [h]) hne

theorem Attributed.trans {below : View} {f g h : Frame} {x : Address} {s t : Trace}
    (h₁ : Attributed below f g x s) (h₂ : Attributed below g h x t) :
    Attributed below f h x (s ++ t) := by
  intro y key hne
  by_cases hmid : (g.view below).slot y key = (f.view below).slot y key
  · rw [← hmid] at hne
    exact (h₂ y key hne).imp_right fun hc => hc.append_right s
  · exact (h₁ y key hmid).imp_right fun hc => hc.append_left t

/-- What a nested call changed in its caller's view is its own callee's or that of a call inside. -/
theorem attributed_settled {env : Env} {m m₁ : Machine} {op : Opcode} {inv : Invocation}
    {code : Code} {start last child g : Frame} {inner : Trace} {output : Bytes}
    (h : Stepped env m op (.invoke inv) m₁)
    (hm : inv.call.move (m₁.view env) inv.frame = .ok start)
    (hin : Effects ⟨env.host, inv.call, code, m₁.view env⟩ start inner last)
    (hi : inv.landing.install (m₁.view env) output last = .ok child)
    (hs : (child.sync m₁.frame).2 = (g, .ok ()))
    (hinner : Attributed (m₁.view env) start last inv.call.callee inner) :
    Attributed env.below m₁.frame g inv.call.callee inner := by
  intro y key hne
  -- the call started from what its caller sees, and its caller sees what it ended with
  have hbefore : (m₁.view env).slot = (start.view (m₁.view env)).slot := by
    rw [Call.move_slot hm, h.invoke_slot]
  have hafter : (g.view env.below).slot = (last.view (m₁.view env)).slot := by
    rw [(Effects.view_settled h hm hin hi hs).2, Landing.install_slot hi]
  rw [hafter] at hne
  refine hinner y key ?_
  rw [← hbefore]
  exact hne

theorem Effects.attributed {env : Env} {f g : Frame} {events : Trace} (h : Effects env f events g) :
    Attributed env.below f g env.call.callee events := by
  induction h with
  | refl => exact .of_eq rfl _ _
  | trans _ _ ih₁ ih₂ => exact ih₁.trans ih₂
  | stored hw =>
    intro y key hne
    by_contra hother
    rw [not_or] at hother
    exact hne (Frame.store_slot hw hother.1 key)
  | logged _ _ => exact .of_eq rfl _ _
  | opened ho => exact .of_eq (Frame.openAccount_slot ho.opened) _ _
  | bequeathed hb =>
    intro y key hne
    by_contra hother
    rw [not_or] at hother
    exact hne (Frame.bequeath_slot hb hother.1 key)
  | failed _ => exact .of_eq rfl _ _
  | settled h hm hin hi hs ih =>
    intro y key hne
    rcases attributed_settled h hm hin hi hs ih y key hne with rfl | hcredits
    · exact Or.inr (Trace.credits_push_ok _ _ _ _)
    · exact Or.inr (hcredits.push _)

/-! ### Calls that run code of another contract -/

def CallVariant.borrows : CallVariant → Bool
  | .code | .delegate => true
  | .plain | .static => false

theorem Stepped.borrow_invoke {env : Env} {m m' : Machine} {variant : CallVariant}
    {inv : Invocation} (h : Stepped env m (.call variant) (.invoke inv) m')
    (hv : variant.borrows = true) : m'.frame = m.frame ∧ inv.call.callee = env.call.callee := by
  refine ⟨h.invoke_frame fun hop => ?_, ?_⟩
  · cases hop
    cases hv
  · rcases h.invoke_cases with ⟨_, hop, -⟩ | ⟨variant', hop, hasks⟩
    · cases hop
    · obtain rfl := Opcode.call.inj hop
      obtain ⟨target, account, -, -, hparties⟩ := hasks.found
      cases variant with
      | code => exact congrArg Prod.snd hparties
      | delegate => exact congrArg Prod.snd hparties
      | plain => cases hv
      | static => cases hv

/-- What changed from `m` to `m'` is due to a call in between that succeeded, and if it is not the
storage of `x`, to another call than the last. -/
def Machine.Credits (env : Env) (m : Machine) (x : Address) (m' : Machine) : Prop :=
  ∃ added : Trace, m'.trace = m.trace ++ added ∧
    ∀ y key, (m'.view env).slot y key ≠ (m.view env).slot y key →
      added.Credits y ∧ (y ≠ x → Trace.Credits added.pop y)

theorem Machine.Credits.of_world {env : Env} {m m' : Machine} (h : m'.world = m.world)
    (x : Address) : m.Credits env x m' := by
  have htrace : m'.trace = m.trace := congrArg World.trace h
  have hframe : m'.frame = m.frame := congrArg World.frame h
  refine ⟨#[], htrace.trans Array.append_empty.symm, fun y key hne => absurd ?_ hne⟩
  rw [Machine.view, hframe, Machine.view]

theorem Resumed.credits {env : Env} {m m₁ m' : Machine} {op : Opcode} {inv : Invocation}
    {o : Outcome} (h : Resumed env inv o m₁ m') (hasks : Stepped env m op (.invoke inv) m₁)
    (hf : m'.meter.fault = none)
    (hcall : ∀ output, o.result = .ok output →
      inv.call.Affects env.host (m₁.view env) inv.frame o.world) :
    m₁.Credits env inv.call.callee m' := by
  cases h with
  | failed _ h =>
    refine ⟨#[inv.record o], h.trace.trans Array.push_eq_append, fun y key hne => absurd ?_ hne⟩
    rw [h.view]
    rfl
  | @settled output child frame _ hr hi hs h =>
    obtain ⟨start, code, hm, hin⟩ := hcall output hr
    refine ⟨o.trace.push (inv.record o), h.trace.trans Array.append_push.symm, fun y key hne => ?_⟩
    rw [h.view] at hne
    rw [Invocation.record, hr, Array.pop_push]
    rcases attributed_settled hasks hm hin hi hs hin.attributed y key hne with rfl | hcredits
    · exact ⟨Trace.credits_push_ok _ _ _ _, fun hself => absurd rfl hself⟩
    · exact ⟨hcredits.push _, fun _ => hcredits⟩
  | uninstalled _ _ _ hfault => exact absurd hf hfault
  | refused _ _ _ _ hfault => exact absurd hf hfault

theorem Proceeds.borrow_credits {env : Env} {m m' : Machine} {variant : CallVariant}
    (h : Proceeds env m (.call variant) m') (hv : variant.borrows = true)
    (hf : m'.meter.fault = none) : m.Credits env env.call.callee m' := by
  -- without a nested call there is a fault, or nothing has changed
  have hworld : ∀ {flow m₁}, Takes env m (.call variant) flow m₁ → flow.invocation? = none →
      m₁.meter.fault = none → m₁.world = m.world := by
    intro flow m₁ ht hflow hf₁
    cases ht.stepped with
    | inward _ h => exact h.world
    | opened _ _ _ _ hfault => exact absurd hf₁ hfault
    | calls _ => cases hflow
  cases h with
  | next ht => exact .of_world (hworld ht rfl hf) _
  | jumped ht => exact .of_world (hworld ht rfl hf) _
  | @nested m₁ inv fuel o ht ho =>
    obtain ⟨hframe, hcallee⟩ := ht.stepped.borrow_invoke hv
    have hcredits := (Exec.resumed env inv o m₁).credits ht.stepped hf
      fun _ hr => (Host.performed ho).affects hr
    rw [hcallee] at hcredits
    obtain ⟨added, htrace, hslots⟩ := hcredits
    refine ⟨added, ?_, ?_⟩
    · rw [← ht.stepped.invoke_trace]
      exact htrace
    · have hview : m₁.view env = m.view env := by rw [Machine.view, hframe, Machine.view]
      rw [← hview]
      exact hslots

/-! ### Executions -/

/-- If an execution over a ledger succeeds, every slot that it changed belongs to its callee or to the
callee of a delivered call that succeeded. A call that runs the code of its target on the storage of
the running contract changes slots only through calls on record that succeeded, and the slots of
another contract, such as the target, only through calls inside it. -/
theorem storage_changes_are_recorded :
    (∀ (engine : Engine) (fuel : Nat) (chain : Chain) (ledger : Ledger) (sink : Trace) (call : Call)
        (code : Bytes) (report : Report Ledger Trace) (output : Bytes),
      engine.execute fuel chain ledger sink call code = some report →
      report.result = .ok output →
        ∃ added : Trace, report.sink = sink ++ added ∧
          ∀ x key, report.store.slot x key ≠ ledger.slot x key →
            x = call.callee ∨ added.Credits x) ∧
    ∀ (env : Env) (m m' : Machine) (variant : CallVariant), variant.borrows = true →
      Proceeds env m (.call variant) m' → m'.meter.fault = none →
        ∃ added : Trace, m'.trace = m.trace ++ added ∧
          ∀ x key, (m'.view env).slot x key ≠ (m.view env).slot x key →
            added.Credits x ∧ (x ≠ env.call.callee → Trace.Credits added.pop x) := by
  constructor
  · intro engine fuel chain ledger sink call code report output h hr
    obtain ⟨w, ⟨start, _, hm, heffects⟩, hstore, hsink⟩ := Engine.execute_affects h hr
    refine ⟨w.trace.push (.call { call, depth := 0, result := .ok output }), hsink, ?_⟩
    intro x key hne
    have hbefore : (start.view ledger.view).slot = ledger.view.slot := by
      rw [Call.move_slot hm, Frame.view_of_empty rfl rfl]
    have hchanged : (w.frame.view ledger.view).slot x key ≠ (start.view ledger.view).slot x key := by
      rw [hbefore, ← hstore]
      exact fun heq => hne (Except.ok.inj heq)
    exact (heffects.attributed x key hchanged).imp_right fun hcredits => hcredits.push _
  · intro env m m' variant hv h hf
    exact h.borrow_credits hv hf

/-! ### A contract that is called and whose code is borrowed -/

/-- A machine that is about to run the code of the contract at 12 on its own storage. -/
def borrowMachine : Machine :=
  { Machine.start {} 1000 (Frame.root 0) {} with stack := .ofList [255, 12, 0, 0, 0, 0, 0] }

def borrowStep : Flow × Machine :=
  (Exec.step (relayEnv 0xf2) (.call .code)).run (borrowMachine.fetch (relayEnv 0xf2)).1

/-- The contract at 12 sets a slot: its own if it is called, the borrower's if its code is borrowed. -/
theorem called_and_borrowed_code_is_recorded :
    (∃ report, (Engine.new {}).execute 40 (Chain.withHashes 1 0 ∅) relayLedger (#[] : Trace)
        relayCall (callTo 12) = some report ∧
      report.result = .ok [] ∧ report.store.slot 12 1 = 1 ∧ relayLedger.slot 12 1 = 0 ∧
      ∃ added : Trace, report.sink = #[] ++ added ∧ added.Credits 12) ∧
    ∃ m', Proceeds (relayEnv 0xf2) borrowMachine (.call .code) m' ∧ m'.meter.fault = none ∧
      (m'.view (relayEnv 0xf2)).slot 10 1 = .ok 1 ∧ (m'.view (relayEnv 0xf2)).slot 12 1 = .ok 0 ∧
      ∃ added : Trace, m'.trace = #[] ++ added ∧ added.Credits 10 := by
  constructor
  · have hrun : ((Engine.new {}).execute 40 (Chain.withHashes 1 0 ∅) relayLedger (#[] : Trace)
        relayCall (callTo 12)).map (fun report => (report.result, report.store.slot 12 1)) =
        some (.ok [], 1) := by
      decide +kernel
    obtain ⟨report, hreport, hvalues⟩ := Option.map_eq_some_iff.1 hrun
    obtain ⟨hresult, hslot⟩ := Prod.mk.inj hvalues
    have hbefore : relayLedger.slot 12 1 = 0 := by decide +kernel
    obtain ⟨added, hsink, hrecorded⟩ :=
      storage_changes_are_recorded.1 _ _ _ _ _ _ _ _ _ hreport hresult
    have hchanged : report.store.slot 12 1 ≠ relayLedger.slot 12 1 := by
      rw [hslot, hbefore]
      decide
    have hother : (12 : Address) ≠ relayCall.callee := by decide
    exact ⟨report, hreport, hresult, hslot, hbefore, added, hsink,
      (hrecorded 12 1 hchanged).resolve_left hother⟩
  · have htakes : Takes (relayEnv 0xf2) borrowMachine (.call .code) borrowStep.1 borrowStep.2 :=
      Takes.of_fetch (by decide +kernel)
    have hrun : (borrowStep.1.invocation?.bind fun inv =>
        (inv.perform 40 (relayEnv 0xf2) borrowStep.2).map fun out =>
          let m' := borrowStep.2.after (relayEnv 0xf2) inv out
          (m'.meter.fault, (m'.view (relayEnv 0xf2)).slot 10 1,
            (m'.view (relayEnv 0xf2)).slot 12 1)) =
        some (none, .ok 1, .ok 0) := by
      decide +kernel
    obtain ⟨inv, hinv, hperform⟩ := Option.bind_eq_some_iff.1 hrun
    obtain ⟨out, hout, hvalues⟩ := Option.map_eq_some_iff.1 hperform
    obtain ⟨hfault, hslots⟩ := Prod.mk.inj hvalues
    obtain ⟨hslot, htarget⟩ := Prod.mk.inj hslots
    rw [Flow.eq_invoke hinv] at htakes
    have hproceeds : Proceeds (relayEnv 0xf2) borrowMachine (.call .code) _ := .nested htakes hout
    obtain ⟨added, htrace, hrecorded⟩ :=
      storage_changes_are_recorded.2 _ _ _ .code rfl hproceeds hfault
    have hchanged : ((borrowStep.2.after (relayEnv 0xf2) inv out).view (relayEnv 0xf2)).slot 10 1 ≠
        (borrowMachine.view (relayEnv 0xf2)).slot 10 1 := by
      rw [hslot]
      decide +kernel
    exact ⟨_, hproceeds, hfault, hslot, htarget, added, htrace, (hrecorded 10 1 hchanged).1⟩

end ContractVm
