import Mathlib
import ContractVm.Proofs.Atomicity

/-! # What outlives a failure

Two things do. An execution hands its changes down to the ledger before it hands its events to the
sink, so that one whose logs are refused fails with its changes in place. And a plain call to an
address without an account opens one in the frame of its caller rather than in its own, so that the
account stays there when the call fails, as it does if its value cannot be paid. -/

namespace ContractVm

/-! ### Logs that a sink refuses -/

/-- An execution that ends with a failed call reports the failure and leaves its ledger alone. If the
call succeeds, its changes are in the ledger, whatever the sink makes of its events: with a sink that
refuses logs the execution then fails as soon as there is one, and the sink keeps the events before
it. -/
theorem refused_logs_follow_the_commit (engine : Engine) (fuel : Nat) (chain : Chain)
    (ledger : Ledger) (sink : LogFree Trace) (call : Call) (code : Bytes)
    (report : Report Ledger (LogFree Trace))
    (h : engine.execute fuel chain ledger sink call code = some report) :
    ∃ out, engine.perform fuel chain ledger call code = some out ∧
      (∀ fault, out.result = .error fault →
        report.result = .error fault ∧ report.store = ledger ∧
        report.sink = ⟨sink.inner.push (.call { call, depth := 0, result := .error fault })⟩) ∧
      ∀ output, out.result = .ok output →
        report.store = ledger.commit out.frame ∧
        (out.trace.logs = #[] → report.result = .ok output) ∧
        (out.trace.logs ≠ #[] → report.result = .error .illegalWrite) ∧
        report.sink = ⟨(sink.inner ++ out.trace.untilLog).push
          (.call { call, depth := 0, result := report.result })⟩ := by
  obtain ⟨out, hout, h⟩ := Option.bind_eq_some_iff.1 h
  refine ⟨out, hout, fun fault hr => ?_, fun output hr => ?_⟩
  · rw [Engine.commit_error hr] at h
    cases h
    exact ⟨rfl, rfl, rfl⟩
  · obtain ⟨hsink, hnone, hsome⟩ := out.trace.deliver_logFree sink
    rw [Engine.commit_ok hr, hsink] at h
    cases h
    refine ⟨rfl, fun hlogs => ?_, fun hlogs => ?_, rfl⟩
    · exact congrArg (Except.map _) (hnone hlogs)
    · exact congrArg (Except.map _) (hsome hlogs)

/-- Code that sets a slot and then writes a log. -/
def storeAndLog : Bytes :=
  [0x60, 1, 0x60, 1, 0x55, 0x60, 0, 0x60, 0, 0xa0, 0]

def storeAndLogReport : Option (Report Ledger (LogFree Trace)) :=
  (Engine.new {}).execute 40 (Chain.withHashes 1 0 ∅) relayLedger ⟨#[]⟩ relayCall storeAndLog

theorem refused_log_leaves_the_slot :
    ∃ report out, storeAndLogReport = some report ∧
      (Engine.new {}).perform 40 (Chain.withHashes 1 0 ∅) relayLedger relayCall storeAndLog =
        some out ∧
      out.result = .ok [] ∧ report.result = .error .illegalWrite ∧
      report.store = relayLedger.commit out.frame ∧ report.store.slot 10 1 = 1 ∧
      report.sink.inner =
        #[.call { call := relayCall, depth := 0, result := .error .illegalWrite }] := by
  have hrun : ((Engine.new {}).perform 40 (Chain.withHashes 1 0 ∅) relayLedger relayCall
      storeAndLog).map (fun out => (out.result, out.trace.untilLog.size, out.trace.logs.size,
        (relayLedger.commit out.frame).slot 10 1)) = some (.ok [], 0, 1, 1) := by
    decide +kernel
  have hends : storeAndLogReport.isSome = true := by decide +kernel
  obtain ⟨report, hreport⟩ := Option.isSome_iff_exists.1 hends
  obtain ⟨out, hout, -, hok⟩ := refused_logs_follow_the_commit _ _ _ _ _ _ _ _ hreport
  rw [hout] at hrun
  obtain ⟨hr, hvalues⟩ := Prod.mk.inj (Option.some.inj hrun)
  obtain ⟨huntil, hvalues⟩ := Prod.mk.inj hvalues
  obtain ⟨hsize, hslot⟩ := Prod.mk.inj hvalues
  obtain ⟨hstore, -, hfails, hsink⟩ := hok [] hr
  have hlogs : out.trace.logs ≠ #[] := by
    intro hnone
    rw [hnone] at hsize
    cases hsize
  have hresult := hfails hlogs
  rw [Array.eq_empty_of_size_eq_zero huntil, hresult] at hsink
  exact ⟨report, out, hreport, hout, hr, hresult, hstore, hstore ▸ hslot, congrArg LogFree.inner hsink⟩

theorem failed_execution_can_change_the_ledger :
    ¬ ∀ (engine : Engine) (fuel : Nat) (chain : Chain) (ledger : Ledger) (sink : LogFree Trace)
        (call : Call) (code : Bytes) (report : Report Ledger (LogFree Trace)) (fault : Fault),
      engine.execute fuel chain ledger sink call code = some report →
      report.result = .error fault → report.store = ledger := by
  intro hkeeps
  have hrun : storeAndLogReport.map (fun report => (report.result, report.store.slot 10 1)) =
      some (.error .illegalWrite, 1) := by
    decide +kernel
  obtain ⟨report, hreport, hvalues⟩ := Option.map_eq_some_iff.1 hrun
  obtain ⟨hresult, hslot⟩ := Prod.mk.inj hvalues
  rw [hkeeps _ _ _ _ _ _ _ _ _ hreport hresult] at hslot
  have hbefore : relayLedger.slot 10 1 = 0 := by decide +kernel
  rw [hbefore] at hslot
  cases hslot

/-! ### Accounts opened for a call -/

theorem Host.perform_empty (host : Host) (fuel : Nat) (below : View) (frame : Frame) (call : Call)
    (sequence : CreateSequence) :
    host.perform fuel below frame call (.code []) sequence =
      match call.move below frame with
      | .ok frame => some { result := .ok [], gas := call.gas, frame, sequence }
      | .error fault => some { result := .error fault, gas := call.gas, frame, sequence } := by
  have hmoved : (if call.kind.movesValue then
      frame.transfer below call.caller call.callee call.value else .ok frame) =
      call.move below frame := rfl
  unfold perform begin
  rw [hmoved]
  cases call.move below frame with
  | ok frame => rfl
  | error fault => rfl

/-- Takes an amount off the account at an address, which must exist and have as much. -/
def View.pay (v : View) (x : Address) (amount : Word) : Except Fault Account :=
  v.existing x >>= Account.debit amount

theorem Frame.transfer_eq_error {below : View} {f : Frame} {sender receiver : Address}
    {amount : Word} {fault : Fault} {b : Account} (hro : f.readOnly = false)
    (hempty : f.accounts = ∅) (hb : (f.view below).account receiver = .ok (some b))
    (hbalance : b.balance = 0) (h : f.transfer below sender receiver amount = .error fault) :
    amount ≠ 0 ∧ (f.view below).pay sender amount = .error fault := by
  have hne : amount ≠ 0 := by
    rintro rfl
    cases h
  refine ⟨hne, ?_⟩
  have hpays : f.transfer below sender receiver amount =
      ((f.view below).pay sender amount >>= fun a => do
        let f ← f.write (.put a)
        let b ← (f.view below).existing receiver
        let b ← b.credit amount
        f.write (.put b)) := by
    rw [transfer, if_neg hne, View.pay, bind_assoc]
  cases hpaid : (f.view below).pay sender amount with
  | error e =>
    rw [hpays, hpaid] at h
    cases h
    rfl
  | ok paid =>
    -- the sender can pay, and nothing else stands in the way
    exfalso
    obtain ⟨a, ha, hdebit⟩ := bind_eq_ok.1 hpaid
    obtain ⟨hle, rfl⟩ := Account.debit_eq_ok.1 hdebit
    have hremoved : ∀ x, f.removed x = false := by
      intro x
      simp [removed, hempty]
    obtain ⟨f₁, hf₁⟩ : ∃ f₁, f.write (.put { a with balance := a.balance - amount }) = .ok f₁ :=
      ⟨_, write_put.2 ⟨hro, hremoved _, rfl⟩⟩
    have hremoved₁ : ∀ x, f₁.removed x = false := by
      intro x
      rw [Bool.eq_false_iff, Ne, removed_write hf₁, hremoved x]
      simp
    obtain ⟨b', hb', hroom⟩ : ∃ b', (f₁.view below).account receiver = .ok (some b') ∧
        b'.balance.toNat + amount.toNat < Word.modulus := by
      have hread := account_write_put hf₁ below receiver
      split at hread
      · refine ⟨_, hread, ?_⟩
        have hlt : a.balance.toNat < Word.modulus := a.balance.isLt
        rw [BitVec.toNat_sub_of_le hle]
        omega
      · refine ⟨b, hread.trans hb, ?_⟩
        have hlt : amount.toNat < Word.modulus := amount.isLt
        rw [hbalance]
        simpa using hlt
    have hf₂ : f₁.write (.put { b' with balance := b'.balance + amount }) = .ok _ :=
      write_put.2 ⟨(write_keeps hf₁).2.1.trans hro, hremoved₁ _, rfl⟩
    have hok := (transfer_eq_ok hne).2
      ⟨a, f₁, b', View.existing_eq_ok.1 ha, hle, hf₁, hb', hroom, hf₂⟩
    rw [hok] at h
    cases h

/-- A plain call to an address without an account opens it in the caller's frame, and runs no code. -/
theorem Stepped.invoke_missing {env : Env} {m m' : Machine} {inv : Invocation}
    (h : Stepped env m (.call .plain) (.invoke inv) m')
    (hmissing : (m.view env).account inv.call.callee = .ok none) :
    m.frame.write (.put { address := inv.call.callee }) = .ok m'.frame ∧
      inv.call.caller = env.call.callee ∧ inv.target = .code [] ∧
      inv.frame.Above m'.frame ∧ inv.frame.readOnly = false ∧ inv.call.kind = .call := by
  obtain ⟨variant, hop, -⟩ | ⟨variant, hop, hasks⟩ := h.invoke_cases
  · cases hop
  · cases hop
    obtain ⟨target, account, hfound, htarget, hparties⟩ := hasks.found
    obtain ⟨hcaller, hcallee⟩ := Prod.mk.inj hparties
    obtain ⟨child, hchild, hframe⟩ := hasks.frame
    rw [hcallee] at hmissing ⊢
    have hwrote : m.frame.write (.put { address := target }) = .ok m'.frame ∧
        account = { address := target } := by
      generalize m'.frame = frame at hfound
      cases hfound with
      | present hpresent =>
        rw [hmissing] at hpresent
        cases hpresent
      | opened _ ho => exact ⟨(Frame.openAccount_eq_ok.1 ho.opened).2, rfl⟩
    obtain ⟨hwrite, rfl⟩ := hwrote
    obtain ⟨hopen, hsame, -⟩ := Frame.write_keeps hwrite
    have hplain : child.readOnly = m'.frame.readOnly := by
      unfold Frame.child at hchild
      split at hchild
      · cases hchild
      · cases hchild
        rfl
    have habove := Frame.child_above hchild
    refine ⟨hwrite, hcaller, htarget, ?_, ?_, hasks.kind⟩
    · rw [hframe]
      exact ⟨habove.accounts, habove.slots, habove.depth, fun hro => by simp [habove.readOnly hro]⟩
    · rw [hframe]
      simp [hplain, hsame, hopen]

/-- A plain call to an address without an account fails only if its caller cannot pay the value that
it sends. The caller goes on from there, and what it can read has changed by the account that it
opened, which has no balance and no code. -/
theorem unpaid_call_leaves_an_account (fuel : Nat) (env : Env) (m m₁ : Machine) (inv : Invocation)
    (out : Outcome) (fault : Fault)
    (htakes : Takes env m (.call .plain) (.invoke inv) m₁)
    (hmissing : (m.view env).account inv.call.callee = .ok none)
    (hout : inv.perform fuel env m₁ = some out) (hr : out.result = .error fault) :
    inv.call.value ≠ 0 ∧ (m₁.view env).pay env.call.callee inv.call.value = .error fault ∧
      run (fuel + 1) env m = run fuel env (m₁.after env inv out) ∧
      (m₁.after env inv out).view env =
        (m.view env).apply (.put { address := inv.call.callee }) := by
  obtain ⟨hwrite, hcaller, htarget, habove, hro, hkind⟩ := htakes.stepped.invoke_missing hmissing
  have hview : m₁.view env = (m.view env).apply (.put { address := inv.call.callee }) :=
    Frame.view_write hwrite env.below
  have hreads : inv.frame.view (m₁.view env) = m₁.view env :=
    Frame.view_of_empty habove.accounts habove.slots _
  have hmove : inv.call.move (m₁.view env) inv.frame = .error fault := by
    unfold Invocation.perform at hout
    rw [htarget, Host.perform_empty] at hout
    split at hout
    · cases hout
      cases hr
    · next hmove =>
      cases hout
      cases hr
      exact hmove
  rw [Call.move, hkind] at hmove
  have hopened : (inv.frame.view (m₁.view env)).account inv.call.callee =
      .ok (some { address := inv.call.callee }) := by
    rw [hreads, hview]
    exact if_pos rfl
  obtain ⟨hvalue, hpay⟩ := Frame.transfer_eq_error hro habove.accounts hopened rfl hmove
  rw [hreads, hcaller] at hpay
  refine ⟨hvalue, hpay, htakes.run_invoke hout, ?_⟩
  obtain ⟨hkept, -⟩ := (Exec.resumed env inv out m₁).world_of_error hr
  have hafter : (m₁.after env inv out).frame = m₁.frame := hkept
  rw [Machine.view, hafter, ← hview, Machine.view]

/-! ### A call that sends more than there is -/

def Stack.ofWords (words : List Word) : Stack :=
  words.foldr (fun w s => (s.place w { gas := 0 }).1) (.empty 1 0)

/-- A machine that is about to send 6 to the address 13, which has no account. -/
def unpaidMachine : Machine :=
  { relayMachine with stack := .ofWords [255, 13, 6, 0, 0, 0, 0] }

def unpaidStep : Flow × Machine :=
  (Exec.step (relayEnv 0xf1) (.call .plain)).run (unpaidMachine.fetch (relayEnv 0xf1)).1

theorem unpaidStep_fails :
    ∃ inv out, Takes (relayEnv 0xf1) unpaidMachine (.call .plain) (.invoke inv) unpaidStep.2 ∧
      inv.call.callee = 13 ∧ inv.perform 40 (relayEnv 0xf1) unpaidStep.2 = some out ∧
      out.result = .error .insufficientBalance := by
  have htakes : Takes (relayEnv 0xf1) unpaidMachine (.call .plain) unpaidStep.1 unpaidStep.2 :=
    Takes.of_fetch (by decide +kernel)
  have hrun : (unpaidStep.1.invocation?.bind fun inv =>
      (inv.perform 40 (relayEnv 0xf1) unpaidStep.2).map
        fun out => (inv.call.callee, out.result)) = some (13, .error .insufficientBalance) := by
    decide +kernel
  obtain ⟨inv, hinv, hperform⟩ := Option.bind_eq_some_iff.1 hrun
  obtain ⟨out, hout, hvalues⟩ := Option.map_eq_some_iff.1 hperform
  obtain ⟨hcallee, hresult⟩ := Prod.mk.inj hvalues
  rw [Flow.eq_invoke hinv] at htakes
  exact ⟨inv, out, htakes, hcallee, hout, hresult⟩

theorem unpaidMachine_missing :
    (unpaidMachine.view (relayEnv 0xf1)).account 13 = .ok none := by
  decide +kernel

theorem unpaid_call_opens_its_target :
    ∃ m₁ inv out, Takes (relayEnv 0xf1) unpaidMachine (.call .plain) (.invoke inv) m₁ ∧
      (unpaidMachine.view (relayEnv 0xf1)).account 13 = .ok none ∧
      inv.perform 40 (relayEnv 0xf1) m₁ = some out ∧ out.result = .error .insufficientBalance ∧
      (m₁.after (relayEnv 0xf1) inv out).view (relayEnv 0xf1) =
        (unpaidMachine.view (relayEnv 0xf1)).apply (.put { address := 13 }) := by
  obtain ⟨inv, out, htakes, hcallee, hout, hr⟩ := unpaidStep_fails
  have hmissing := unpaidMachine_missing
  rw [← hcallee] at hmissing
  obtain ⟨-, -, -, hview⟩ :=
    unpaid_call_leaves_an_account _ _ _ _ _ _ _ htakes hmissing hout hr
  rw [hcallee] at hview hmissing
  exact ⟨_, inv, out, htakes, hmissing, hout, hr, hview⟩

theorem failed_call_can_change_the_view :
    ¬ ∀ (fuel : Nat) (env : Env) (m m₁ : Machine) (inv : Invocation) (out : Outcome)
        (fault : Fault),
      Takes env m (.call .plain) (.invoke inv) m₁ →
      (m.view env).account inv.call.callee = .ok none →
      inv.perform fuel env m₁ = some out → out.result = .error fault →
        (m₁.after env inv out).view env = m.view env := by
  intro hkeeps
  obtain ⟨inv, out, htakes, hcallee, hout, hr⟩ := unpaidStep_fails
  have hmissing := unpaidMachine_missing
  rw [← hcallee] at hmissing
  have hview := hkeeps _ _ _ _ _ _ _ htakes hmissing hout hr
  have hkept : (unpaidStep.2.after (relayEnv 0xf1) inv out).frame = unpaidStep.2.frame :=
    ((Exec.resumed (relayEnv 0xf1) inv out unpaidStep.2).world_of_error hr).1
  have hopened : (unpaidStep.2.frame.view (relayEnv 0xf1).below).account 13 =
      .ok (some { address := 13 }) := by
    decide +kernel
  rw [Machine.view, hkept] at hview
  rw [hview, unpaidMachine_missing] at hopened
  cases hopened

end ContractVm
