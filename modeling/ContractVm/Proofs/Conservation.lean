import Mathlib
import ContractVm.Proofs.Engine
import ContractVm.Proofs.Totals

/-! # Value is conserved

A run sees the balances below it through its frame. No instruction adds to what a run sees, a nested
call starts from what its caller sees, and the caller then takes over what the call has left or goes
on with what it had. So no execution ends with more value than it began with, and it loses some only
where a contract that destroys itself is its own heir. -/

namespace ContractVm

/-! ### Instructions -/

/-- The machine is about to destroy its contract, which it names as the heir. -/
structure SelfBequest (env : Env) (m : Machine) : Prop where
  op : (m.fetch env).2 = .ok .selfDestruct
  heir : m.stack.items.head?.map Address.ofWord = some env.call.callee

theorem Found.total {env : Env} {variant : CallVariant} {m : Machine} {target : Address}
    {account : Account} {frame : Frame} (h : Found env variant m target account frame) :
    (frame.view env.below).total = (m.view env).total := by
  cases h with
  | present _ => rfl
  | opened _ ho => exact Frame.openAccount_total ho.opened

/-- Up to a nested call, only a contract that is its own heir loses value. -/
theorem Takes.total {env : Env} {m m' : Machine} {op : Opcode} {flow : Flow}
    (h : Takes env m op flow m') (hk : (m.view env).Keyed) :
    Kept (¬ SelfBequest env m) (m.view env).total (m'.view env).total := by
  have hop : (m.fetch env).2 = .ok op := by
    obtain ⟨m₁, hfetch, -⟩ := h
    exact congrArg Prod.snd hfetch
  cases h.stepped with
  | inward _ h => rw [h.view]; exact .of_eq rfl
  | logged _ _ h => rw [h.view]; exact .of_eq rfl
  | sequenced h _ => rw [h.view]; exact .of_eq rfl
  | creates h => rw [h.turns.view]; exact .of_eq rfl
  | stored hw h =>
    rw [h.view, Frame.view_write hw]
    exact .of_eq (View.total_store _ _ _ _)
  | opened _ _ ho h _ =>
    rw [h.view]
    exact .of_eq (Frame.openAccount_total ho.opened)
  | calls h =>
    obtain ⟨target, account, hfound, -⟩ := h.found
    exact .of_eq hfound.total
  | @destroyed heir frame₁ frame _ hheir ho hb h =>
    obtain ⟨hopened, hk₁⟩ : (frame₁.view env.below).total = (m.view env).total ∧
        (frame₁.view env.below).Keyed := by
      rcases ho with rfl | ho
      · exact ⟨rfl, hk⟩
      · exact ⟨Frame.openAccount_total ho.opened, (Frame.openAccount_writes ho.opened).keyed hk⟩
    rw [h.view, ← hopened]
    refine (Frame.bequeath_total hk₁ hb).imp fun hnot hself => hnot ⟨hop, ?_⟩
    rw [hheir, hself]

/-! ### Nested calls -/

theorem Stepped.invoke_total {env : Env} {m m' : Machine} {op : Opcode} {inv : Invocation}
    (h : Stepped env m op (.invoke inv) m') :
    (inv.frame.view (m'.view env)).total = (m'.view env).total := by
  rcases h.invoke_cases with ⟨variant, -, hasks⟩ | ⟨variant, -, hasks⟩
  · obtain ⟨child, hchild, hopen⟩ := hasks.frame
    have habove := Frame.child_above hchild
    have hview : m'.view env = m.view env := hasks.turns.view env
    rw [hview, Frame.openAccount_total hopen, Frame.view_of_empty habove.accounts habove.slots]
  · obtain ⟨child, hchild, hframe⟩ := hasks.frame
    have habove := Frame.child_above hchild
    have hempty : inv.frame.view (m'.view env) = m'.view env := by
      rw [hframe]
      exact Frame.view_of_empty habove.accounts habove.slots _
    rw [hempty]

/-- A caller that goes on has taken what the call left, or nothing of it. -/
theorem Resumed.total {env : Env} {inv : Invocation} {o : Outcome} {m m' : Machine} {p : Prop}
    (h : Resumed env inv o m m') (hf : m'.meter.fault = none) (hcoherent : o.frame.Coherent)
    (hk : (o.frame.view (m.view env)).Keyed)
    (hnested : ∀ output, o.result = .ok output →
      Kept p (m.view env).total (o.frame.view (m.view env)).total) :
    Kept p (m.view env).total (m'.view env).total := by
  cases h with
  | failed _ h => rw [h.view]; exact .of_eq rfl
  | @settled output child frame _ hr hi hs h =>
    have hchild : child.Coherent := (Landing.install_writes hi).coherent hcoherent
    rw [h.view]
    dsimp only
    rw [hchild.view_sync hs, ← Machine.view]
    exact (hnested output hr).trans (.of_eq (Landing.install_total hk hi))
  | uninstalled _ _ _ hfault => exact absurd hf hfault
  | refused _ _ _ _ hfault => exact absurd hf hfault

theorem Begun.total_over {host : Host} {below : View} {frame : Frame} {call : Call}
    {sequence : CreateSequence} {o : Outcome} {output : Bytes}
    (h : Begun host below frame call sequence (.over o)) (hk : (frame.view below).Keyed)
    (hr : o.result = .ok output) : (o.frame.view below).total = (frame.view below).total := by
  cases h with
  | refused _ => cases hr
  | ended hm => exact Call.move_total hk hm

theorem Begun.total_running {host : Host} {below : View} {frame : Frame} {call : Call}
    {sequence : CreateSequence} {inner : Env} {start : Machine}
    (h : Begun host below frame call sequence (.running inner start))
    (hk : (frame.view below).Keyed) :
    inner.below = below ∧ (start.view inner).Keyed ∧
      (start.view inner).total = (frame.view below).total := by
  cases h with
  | running hm => exact ⟨rfl, (Call.move_writes hm).keyed hk, Call.move_total hk hm⟩

/-! ### Runs -/

/-- No contract that the run comes to is its own heir. -/
def Thrifty (env : Env) (m : Machine) : Prop :=
  ∀ e k, Visits env m e k → ¬ SelfBequest e k

theorem Thrifty.here {env : Env} {m : Machine} (h : Thrifty env m) : ¬ SelfBequest env m :=
  h env m .here

theorem Thrifty.later {env : Env} {m m' : Machine} {op : Opcode} (h : Thrifty env m)
    (hp : Proceeds env m op m') : Thrifty env m' :=
  fun e k hv => h e k (.later hp hv)

theorem Thrifty.inside {env inner : Env} {m m₁ start : Machine} {op : Opcode} {inv : Invocation}
    (h : Thrifty env m) (ht : Takes env m op (.invoke inv) m₁)
    (hb : inv.begin env m₁ = .running inner start) : Thrifty inner start :=
  fun e k hv => h e k (.inside ht hb hv)

theorem Takes.total_after {env : Env} {m m₁ : Machine} {op : Opcode} {inv : Invocation} {o : Outcome}
    (h : Takes env m op (.invoke inv) m₁) (hk : (m.view env).Keyed)
    (hp : Performed env.host (m₁.view env) inv.frame inv.call m₁.sequence o)
    (hf : (m₁.after env inv o).meter.fault = none)
    (hnested : ∀ output, o.result = .ok output →
      Kept (Thrifty env m) (inv.frame.view (m₁.view env)).total
        (o.frame.view (m₁.view env)).total) :
    Kept (Thrifty env m) (m.view env).total ((m₁.after env inv o).view env).total := by
  have hk₁ : (m₁.view env).Keyed := h.stepped.writes.keyed hk
  rw [h.stepped.invoke_total] at hnested
  have hstep := (h.total hk).imp Thrifty.here
  have hcoherent := hp.writes.coherent h.stepped.invoke_coherent
  have hkeyed := hp.writes.keyed (h.stepped.invoke_keyed hk₁)
  exact hstep.trans ((Exec.resumed env inv o m₁).total hf hcoherent hkeyed hnested)

theorem Runs.total {env : Env} {m : Machine} {out : Outcome} (h : Runs env m out)
    (hk : (m.view env).Keyed) {output : Bytes} (hr : out.result = .ok output) :
    Kept (Thrifty env m) (m.view env).total (out.frame.view env.below).total := by
  induction h generalizing output with
  | stopped _ => cases hr
  | @halted env m m₁ op given ht =>
    obtain ⟨result, hhalt⟩ := m₁.halt_finish given
    rw [hhalt]
    exact (ht.total hk).imp Thrifty.here
  | next ht _ ih =>
    have hstep := (ht.total hk).imp Thrifty.here
    have hrest := ih (ht.stepped.writes.keyed hk) hr
    exact hstep.trans (hrest.imp fun hthrifty => hthrifty.later (.next ht))
  | jumped ht _ ih =>
    have hstep := (ht.total hk).imp Thrifty.here
    have hrest := ih (ht.stepped.writes.keyed hk) hr
    exact hstep.trans (hrest.imp fun hthrifty => hthrifty.later (.jumped ht))
  | @ended env m m₁ op inv o out ht hb rest ih =>
    have hbegun := hb ▸ inv.begun env m₁
    have hkeyed := ht.stepped.invoke_keyed (ht.stepped.writes.keyed hk)
    have hstep := ht.total_after hk hbegun.performed (rest.unfaulted hr) fun output ho =>
      .of_eq (hbegun.total_over hkeyed ho)
    have hrest := ih ((ht.after_writes o).keyed hk) hr
    exact hstep.trans (hrest.imp fun hthrifty => hthrifty.later (.of_ended ht hb))
  | @nested env inner m m₁ start op inv o out ht hb call rest ihCall ihRest =>
    have hbegun := hb ▸ inv.begun env m₁
    have hkeyed := ht.stepped.invoke_keyed (ht.stepped.writes.keyed hk)
    obtain ⟨hbelow, hstart, htotal⟩ := hbegun.total_running hkeyed
    -- the call keeps the total of what it sees, which is what its caller sees
    have hcall : ∀ output, o.result = .ok output →
        Kept (Thrifty env m) (inv.frame.view (m₁.view env)).total
          (o.frame.view (m₁.view env)).total := by
      intro output ho
      rw [← htotal, ← hbelow]
      exact (ihCall hstart ho).imp fun hthrifty => hthrifty.inside ht hb
    have hstep := ht.total_after hk (hbegun.performed_of_runs call) (rest.unfaulted hr) hcall
    have hrest := ihRest ((ht.after_writes o).keyed hk) hr
    exact hstep.trans (hrest.imp fun hthrifty => hthrifty.later (.of_runs ht hb call))

/-! ### Executions -/

/-- The execution comes to the machine `k`, in its own code or in a nested call. -/
def Engine.Visits (engine : Engine) (chain : Chain) (ledger : Ledger) (call : Call) (code : Bytes)
    (e : Env) (k : Machine) : Prop :=
  ∃ env m, (engine.host chain).begin ledger.view (Frame.root engine.options.callMaxDepth) call
    (.code code) engine.sequence = .running env m ∧ ContractVm.Visits env m e k

theorem Engine.perform_total {engine : Engine} {fuel : Nat} {chain : Chain} {ledger : Ledger}
    {call : Call} {code : Bytes} {out : Outcome} {output : Bytes} (hk : ledger.Keyed)
    (h : engine.perform fuel chain ledger call code = some out) (hr : out.result = .ok output) :
    Kept (∀ e k, engine.Visits chain ledger call code e k → ¬ SelfBequest e k) ledger.view.total
      (out.frame.view ledger.view).total := by
  have hroot : (Frame.root engine.options.callMaxDepth).view ledger.view = ledger.view :=
    Frame.view_of_empty rfl rfl _
  have hkeyed : ((Frame.root engine.options.callMaxDepth).view ledger.view).Keyed := by
    rw [hroot]
    exact (Ledger.keyed_iff ledger).1 hk
  have hbegun := (engine.host chain).begun ledger.view (Frame.root engine.options.callMaxDepth) call
    (.code code) engine.sequence
  unfold perform Host.perform at h
  rcases hb : (engine.host chain).begin ledger.view (Frame.root engine.options.callMaxDepth) call
    (.code code) engine.sequence with o | ⟨env, m⟩
  · rw [hb] at h hbegun
    cases h
    have htotal := hbegun.total_over hkeyed hr
    rw [hroot] at htotal
    exact .of_eq htotal
  · rw [hb] at h hbegun
    obtain ⟨hbelow, hstart, htotal⟩ := hbegun.total_running hkeyed
    have hrun := (runs_of_run h).total hstart hr
    rw [htotal, hbelow, hroot] at hrun
    exact hrun.imp fun hthrifty e k hv => hthrifty e k ⟨env, m, hb, hv⟩

/-- No execution over a ledger leaves more value in it than there was, and it leaves as much unless
some contract that it comes to destroys itself and is its own heir. -/
theorem no_value_is_minted {κ : Type} [EventSink κ] (engine : Engine) (fuel : Nat) (chain : Chain)
    (ledger : Ledger) (sink : κ) (call : Call) (code : Bytes) (report : Report Ledger κ)
    (hkeyed : ledger.Keyed)
    (h : engine.execute fuel chain ledger sink call code = some report) :
    report.store.total ≤ ledger.total ∧
    ((∀ e k, engine.Visits chain ledger call code e k → ¬ SelfBequest e k) →
      report.store.total = ledger.total) ∧
    report.store.Keyed := by
  obtain ⟨out, hout, hstored⟩ := Engine.execute_stored h
  generalize report.store = store at hstored
  cases hstored with
  | failed _ => exact ⟨le_rfl, fun _ => rfl, hkeyed⟩
  | committed hr =>
    have hkept := Engine.perform_total hkeyed hout hr
    have hcommit := Ledger.view_commit (Engine.perform_coherent hout) ledger
    rw [← hcommit, Ledger.total_view, Ledger.total_view] at hkept
    exact ⟨hkept.le, hkept.eq, hkeyed.foldl out.frame.changes⟩

/-! ### A contract that is paid and then destroyed -/

/-- The account at 10 pays 3 to the contract at 12. -/
def paidCall : Call :=
  { origin := 10, caller := 10, callee := 12, value := 3, gas := 1000 }

def destroyFor (heir : UInt8) : Bytes :=
  [0x60, heir, 0xff]

def paidEnv : Env :=
  { host := (Engine.new {}).host (Chain.withHashes 1 0 ∅)
    call := paidCall
    code := Code.ofBytes (destroyFor 11)
    below := relayLedger.view }

def paidFrame : Frame :=
  match paidCall.move relayLedger.view (Frame.root 0) with
  | .ok frame => frame
  | .error _ => Frame.root 0

def paidMachine : Machine :=
  Machine.start {} 1000 paidFrame {}

def willingMachine : Machine :=
  ((Exec.step paidEnv (.push 0)).run (paidMachine.fetch paidEnv).1).2.advance

/-- Nothing is lost if the heir is another contract, while a contract that is its own heir takes what
it was paid with it. -/
theorem bequest_to_another_keeps_total :
    relayLedger.Keyed ∧
    (∀ e k, (Engine.new {}).Visits (Chain.withHashes 1 0 ∅) relayLedger paidCall (destroyFor 11) e k →
      ¬ SelfBequest e k) ∧
    (∃ report, (Engine.new {}).execute 40 (Chain.withHashes 1 0 ∅) relayLedger (#[] : Trace) paidCall
        (destroyFor 11) = some report ∧
      report.result = .ok [] ∧ report.store.account? 12 = none ∧
      report.store.total = relayLedger.total) ∧
    ((Engine.new {}).execute 40 (Chain.withHashes 1 0 ∅) relayLedger (#[] : Trace) paidCall
        (destroyFor 12)).map (fun report => (relayLedger.total, report.store.total)) =
      some (5, 2) := by
  have hkeyed : relayLedger.Keyed := Ledger.keyed_empty.foldl
    [.put { address := 10, balance := 5 }, .put { address := 11, code := callTo 12 ++ [0xfe] },
      .put { address := 12, code := [0x60, 1, 0x60, 1, 0x55, 0] }]
  have hothers : ∀ e k,
      (Engine.new {}).Visits (Chain.withHashes 1 0 ∅) relayLedger paidCall (destroyFor 11) e k →
      ¬ SelfBequest e k := by
    rintro e k ⟨env, m, hb, hv⟩ hself
    have hbegin : ((Engine.new {}).host (Chain.withHashes 1 0 ∅)).begin relayLedger.view
        (Frame.root 0) paidCall (.code (destroyFor 11)) {} = .running paidEnv paidMachine := rfl
    obtain ⟨rfl, rfl⟩ : paidEnv = env ∧ paidMachine = m := by
      cases hbegin.symm.trans hb
      exact ⟨rfl, rfl⟩
    have hpush : Takes paidEnv paidMachine (.push 0) .next
        ((Exec.step paidEnv (.push 0)).run (paidMachine.fetch paidEnv).1).2 := ⟨_, rfl, rfl⟩
    have hdestroy : Takes paidEnv willingMachine .selfDestruct (.halt [])
        ((Exec.step paidEnv .selfDestruct).run (willingMachine.fetch paidEnv).1).2 := ⟨_, rfl, rfl⟩
    rcases hv.of_next hpush with ⟨rfl, rfl⟩ | hv
    · exact absurd hself.op (by decide +kernel)
    · obtain ⟨rfl, rfl⟩ := hv.of_halt hdestroy
      exact absurd hself.heir (by decide +kernel)
  have hrun : ((Engine.new {}).execute 40 (Chain.withHashes 1 0 ∅) relayLedger (#[] : Trace) paidCall
      (destroyFor 11)).map (fun report => (report.result, report.store.account? 12)) =
      some (.ok [], none) := by
    decide +kernel
  obtain ⟨report, hreport, hvalues⟩ := Option.map_eq_some_iff.1 hrun
  obtain ⟨hresult, hgone⟩ := Prod.mk.inj hvalues
  obtain ⟨-, hsame, -⟩ := no_value_is_minted _ _ _ _ _ _ _ report hkeyed hreport
  exact ⟨hkeyed, hothers, ⟨report, hreport, hresult, hgone, hsame hothers⟩, by decide +kernel⟩

end ContractVm
