import Mathlib
import ContractVm.Proofs.Atomicity
import ContractVm.Proofs.Attribution
import ContractVm.Proofs.Identity

/-! # Calls and new accounts are authorised

A nested call is asked for by the contract that runs, which must hold a capability for it: the
record of the call names that contract, as the callee if the call was delegated and as the caller
otherwise. Accounts come into being where a contract is created, and where a running contract that
may open accounts calls or benefits an address without one. What was opened on the way is handed
down only together with the record of the call that opened it. -/

namespace ContractVm

/-! ### Who asked for a call -/

/-- The contract that asked for a nested call. -/
def CallRecord.issuer (record : CallRecord) : Address :=
  match record.call.kind with
  | .delegateCall => record.call.callee
  | .call | .callCode | .staticCall | .create => record.call.caller

def CallKind.needs : CallKind → Capability
  | .create => .createContract
  | .call | .callCode | .delegateCall | .staticCall => .call

theorem Permissions.ensure_eq_ok {p : Permissions} {x : Address} {c : Capability} :
    p.ensure x c = .ok () ↔ p x c = .ok true := by
  unfold ensure
  rw [bind_eq_ok]
  constructor
  · rintro ⟨held, hheld, h⟩
    cases held with
    | true => exact hheld
    | false => cases h
  · exact fun h => ⟨true, h, rfl⟩

theorem Stepped.invoke_issued {env : Env} {m m' : Machine} {op : Opcode} {inv : Invocation}
    (h : Stepped env m op (.invoke inv) m') (depth : Nat) (result : Except Fault Bytes) :
    CallRecord.issuer ⟨inv.call, depth, result⟩ = env.call.callee ∧
      env.host.permissions env.call.callee inv.call.kind.needs = .ok true := by
  rcases h.invoke_cases with ⟨variant, -, hasks⟩ | ⟨variant, -, hasks⟩
  · rw [CallRecord.issuer, hasks.kind]
    exact ⟨hasks.caller, Permissions.ensure_eq_ok.1 hasks.permitted⟩
  · have hpermitted := Permissions.ensure_eq_ok.1 hasks.permitted
    obtain ⟨target, account, -, -, hparties⟩ := hasks.found
    rw [CallRecord.issuer, hasks.kind]
    cases variant with
    | plain => exact ⟨congrArg Prod.fst hparties, hpermitted⟩
    | code => exact ⟨congrArg Prod.fst hparties, hpermitted⟩
    | static => exact ⟨congrArg Prod.fst hparties, hpermitted⟩
    | delegate => exact ⟨congrArg Prod.snd hparties, hpermitted⟩

/-- `y` is `x`, or the callee of a call on record that succeeded. -/
def Trace.Acts (events : Trace) (x y : Address) : Prop :=
  y = x ∨ events.Credits y

theorem Trace.Acts.append_left {s : Trace} {x y : Address} (h : s.Acts x y) (t : Trace) :
    Acts (s ++ t) x y :=
  h.imp_right fun hcredits => hcredits.append_left t

theorem Trace.Acts.append_right {t : Trace} {x y : Address} (h : t.Acts x y) (s : Trace) :
    Acts (s ++ t) x y :=
  h.imp_right fun hcredits => hcredits.append_right s

/-- What acts in a call that succeeded acts in its caller's run, which has the call on record. -/
theorem Trace.Acts.settled {inner : Trace} {call : Call} {y : Address}
    (h : inner.Acts call.callee y) (x : Address) (depth : Nat) (output : Bytes) :
    Acts (inner.push (.call ⟨call, depth, .ok output⟩)) x y := by
  rcases h with rfl | hcredits
  · exact Or.inr (Trace.credits_push_ok inner call depth output)
  · exact Or.inr (hcredits.push _)

theorem Effects.issued {env : Env} {f g : Frame} {events : Trace} (h : Effects env f events g)
    {record : CallRecord} (hrecord : .call record ∈ events) :
    events.Acts env.call.callee record.issuer ∧
      env.host.permissions record.issuer record.call.kind.needs = .ok true := by
  induction h with
  | refl => cases Array.not_mem_empty _ hrecord
  | trans _ _ ih₁ ih₂ =>
    rcases Array.mem_append.1 hrecord with hmem | hmem
    · obtain ⟨hacts, hheld⟩ := ih₁ hmem
      exact ⟨hacts.append_left _, hheld⟩
    · obtain ⟨hacts, hheld⟩ := ih₂ hmem
      exact ⟨hacts.append_right _, hheld⟩
  | stored _ => cases Array.not_mem_empty _ hrecord
  | logged _ _ => simp at hrecord
  | opened _ => cases Array.not_mem_empty _ hrecord
  | bequeathed _ => cases Array.not_mem_empty _ hrecord
  | @failed env m m₁ op inv fault h =>
    obtain rfl := Event.call.inj (Array.mem_singleton.1 hrecord)
    obtain ⟨hissuer, hheld⟩ := h.invoke_issued inv.frame.depth (.error fault)
    rw [hissuer]
    exact ⟨Or.inl rfl, hheld⟩
  | @settled env m m₁ op inv code start last child g inner output h hm hin hi hs ih =>
    -- the record is of a call inside this one, or of this one
    rcases Array.mem_push.1 hrecord with hmem | hmem
    · obtain ⟨hacts, hheld⟩ := ih hmem
      exact ⟨hacts.settled _ _ _, hheld⟩
    · obtain rfl := Event.call.inj hmem
      obtain ⟨hissuer, hheld⟩ := h.invoke_issued inv.frame.depth (.ok output)
      rw [hissuer]
      exact ⟨Or.inl rfl, hheld⟩

/-! ### Where there is an account -/

def View.Has (v : View) (x : Address) : Prop :=
  ∃ a, v.account x = .ok (some a)

theorem View.has_of_apply {v : View} {c : Change} {x : Address} (h : (v.apply c).Has x) :
    v.Has x ∨ ∃ a, c = .put a ∧ a.address = x := by
  obtain ⟨b, hb⟩ := h
  cases c with
  | put a =>
    by_cases hx : a.address = x
    · exact Or.inr ⟨a, rfl, hx⟩
    · exact Or.inl ⟨b, by simpa [apply, hx] using hb⟩
  | remove r =>
    by_cases hx : r = x
    · simp [apply, hx] at hb
    · exact Or.inl ⟨b, by simpa [apply, hx] using hb⟩
  | store r key value => exact Or.inl ⟨b, hb⟩

namespace Frame

variable {below : View} {f g : Frame} {x : Address}

theorem has_of_replace (hk : (f.view below).Keyed) {y : Address} {a b : Account}
    (ha : (f.view below).account y = .ok (some a)) (hb : b.address = a.address)
    (hw : f.write (.put b) = .ok g) (h : (g.view below).Has x) : (f.view below).Has x := by
  rw [view_write hw] at h
  rcases View.has_of_apply h with hbefore | ⟨c, hc, rfl⟩
  · exact hbefore
  · cases hc
    rw [hb, hk y a ha]
    exact ⟨a, ha⟩

theorem has_of_openAccount {y : Address} (ho : f.openAccount below y = .ok g)
    (h : (g.view below).Has x) : (f.view below).Has x ∨ x = y := by
  rw [view_write (openAccount_eq_ok.1 ho).2] at h
  refine (View.has_of_apply h).imp_right ?_
  rintro ⟨a, ha, rfl⟩
  cases ha
  rfl

theorem has_of_installCode (hk : (f.view below).Keyed) {y : Address} {code : Bytes}
    (hi : f.installCode below y code = .ok g) (h : (g.view below).Has x) :
    (f.view below).Has x := by
  obtain ⟨a, ha, -, hw⟩ := installCode_eq_ok.1 hi
  exact has_of_replace hk ha (b := { a with code }) rfl hw h

theorem has_of_transfer (hk : (f.view below).Keyed) {sender receiver : Address} {amount : Word}
    (ht : f.transfer below sender receiver amount = .ok g) (h : (g.view below).Has x) :
    (f.view below).Has x := by
  by_cases hz : amount = 0
  · rw [transfer, if_pos hz] at ht
    cases ht
    exact h
  · obtain ⟨a, f₁, b, ha, -, hf₁, hb, -, hg⟩ := (transfer_eq_ok hz).1 ht
    have hk₁ : (f₁.view below).Keyed := (Writes.single hf₁).keyed hk
    have hmid : (f₁.view below).Has x := has_of_replace hk₁ hb (by rfl) hg h
    exact has_of_replace hk ha (by rfl) hf₁ hmid

theorem has_of_bequeath (hk : (f.view below).Keyed) {y heir : Address}
    (hb : f.bequeath below y heir = .ok g) (h : (g.view below).Has x) : (f.view below).Has x := by
  obtain ⟨a, b, f₁, -, hheir, -, hf₁, hg⟩ := bequeath_eq_ok.1 hb
  rw [view_write hg] at h
  rcases View.has_of_apply h with hmid | ⟨c, hc, -⟩
  · exact has_of_replace hk hheir (by rfl) hf₁ hmid
  · cases hc

end Frame

theorem Call.has_of_move {call : Call} {below : View} {frame frame' : Frame} {x : Address}
    (hk : (frame.view below).Keyed) (hm : call.move below frame = .ok frame')
    (h : (frame'.view below).Has x) : (frame.view below).Has x := by
  unfold move at hm
  split at hm
  · exact Frame.has_of_transfer hk hm h
  · cases hm
    exact h

theorem Landing.has_of_install {landing : Landing} {caller : View} {output : Bytes}
    {frame child : Frame} {x : Address} (hk : (frame.view caller).Keyed)
    (hi : landing.install caller output frame = .ok child) (h : (child.view caller).Has x) :
    (frame.view caller).Has x := by
  cases landing with
  | create address => exact Frame.has_of_installCode hk hi h
  | memory offset size =>
    cases hi
    exact h

theorem Stepped.has_of_invoke {env : Env} {m m' : Machine} {op : Opcode} {inv : Invocation}
    {x : Address} (h : Stepped env m op (.invoke inv) m')
    (hx : (inv.frame.view (m'.view env)).Has x) :
    (m'.view env).Has x ∨ inv.call.kind = .create ∧ inv.call.callee = x := by
  rcases h.invoke_cases with ⟨variant, -, hasks⟩ | ⟨variant, -, hasks⟩
  · obtain ⟨child, hchild, hopen⟩ := hasks.frame
    have habove := Frame.child_above hchild
    have hview : m'.view env = m.view env := hasks.turns.view env
    rw [hview] at hx ⊢
    have hopened := Frame.has_of_openAccount hopen hx
    rw [Frame.view_of_empty habove.accounts habove.slots] at hopened
    exact hopened.imp_right fun hx => ⟨hasks.kind, hx.symm⟩
  · obtain ⟨child, hchild, hframe⟩ := hasks.frame
    have habove := Frame.child_above hchild
    rw [hframe] at hx
    exact Or.inl (Frame.view_of_empty habove.accounts habove.slots (m'.view env) ▸ hx)

/-! ### Who may have opened an account -/

/-- The creation of a contract at this address is on record and succeeded. -/
def Trace.Creates (events : Trace) (x : Address) : Prop :=
  ∃ record, .call record ∈ events ∧ record.call.kind = .create ∧ record.fault? = none ∧
    record.call.callee = x

/-- There is a reason for a new account at `x`: it is that of a contract that was created, or one of
the contracts that act for `callee` may open accounts. -/
def Trace.Licenses (events : Trace) (p : Permissions) (callee x : Address) : Prop :=
  events.Creates x ∨ ∃ y, events.Acts callee y ∧ p y .createAccount = .ok true

theorem Trace.Creates.of_subset {s t : Trace} {x : Address} (h : s.Creates x)
    (hst : ∀ event ∈ s, event ∈ t) : t.Creates x := by
  obtain ⟨record, hmem, hrest⟩ := h
  exact ⟨record, hst _ hmem, hrest⟩

theorem Trace.Licenses.append_left {s : Trace} {p : Permissions} {callee x : Address}
    (h : s.Licenses p callee x) (t : Trace) : Licenses (s ++ t) p callee x := by
  rcases h with hcreates | ⟨y, hacts, hheld⟩
  · exact Or.inl (hcreates.of_subset fun _ hmem => Array.mem_append_left t hmem)
  · exact Or.inr ⟨y, hacts.append_left t, hheld⟩

theorem Trace.Licenses.append_right {t : Trace} {p : Permissions} {callee x : Address}
    (h : t.Licenses p callee x) (s : Trace) : Licenses (s ++ t) p callee x := by
  rcases h with hcreates | ⟨y, hacts, hheld⟩
  · exact Or.inl (hcreates.of_subset fun _ hmem => Array.mem_append_right s hmem)
  · exact Or.inr ⟨y, hacts.append_right s, hheld⟩

theorem Trace.Licenses.settled {inner : Trace} {p : Permissions} {call : Call} {x : Address}
    (h : inner.Licenses p call.callee x) (callee : Address) (depth : Nat) (output : Bytes) :
    Licenses (inner.push (.call ⟨call, depth, .ok output⟩)) p callee x := by
  rcases h with hcreates | ⟨y, hacts, hheld⟩
  · exact Or.inl (hcreates.of_subset fun _ hmem => Array.mem_push.2 (Or.inl hmem))
  · exact Or.inr ⟨y, hacts.settled callee depth output, hheld⟩

theorem Effects.licensed {env : Env} {f g : Frame} {events : Trace} (h : Effects env f events g)
    (hk : (f.view env.below).Keyed) {x : Address} (hx : (g.view env.below).Has x) :
    (f.view env.below).Has x ∨ events.Licenses env.host.permissions env.call.callee x := by
  induction h with
  | refl => exact Or.inl hx
  | trans h₁ _ ih₁ ih₂ =>
    rcases ih₂ (h₁.writes.keyed hk) hx with hmid | hlicensed
    · exact (ih₁ hk hmid).imp_right fun hlicensed => hlicensed.append_left _
    · exact Or.inr (hlicensed.append_right _)
  | stored hw =>
    rw [Frame.view_write hw] at hx
    rcases View.has_of_apply hx with hbefore | ⟨a, ha, -⟩
    · exact Or.inl hbefore
    · cases ha
  | logged _ _ => exact Or.inl hx
  | @opened env m y g ho =>
    rcases Frame.has_of_openAccount ho.opened hx with hbefore | rfl
    · exact Or.inl hbefore
    · have hheld := Permissions.ensure_eq_ok.1 ho.permitted
      exact Or.inr (Or.inr ⟨env.call.callee, Or.inl rfl, hheld⟩)
  | bequeathed hb => exact Or.inl (Frame.has_of_bequeath hk hb hx)
  | failed _ => exact Or.inl hx
  | @settled env m m₁ op inv code start last child g inner output h hm hin hi hs ih =>
    have hkframe := h.invoke_keyed hk
    have hkstart := (Call.move_writes hm).keyed hkframe
    have hklast := hin.writes.keyed hkstart
    -- back through the code of the call to what its caller saw
    rw [(Effects.view_settled h hm hin hi hs).2] at hx
    have hlast := Landing.has_of_install hklast hi hx
    rcases ih hkstart hlast with hstart | hlicensed
    · rcases h.has_of_invoke (Call.has_of_move hkframe hm hstart) with hbefore | ⟨hkind, hcallee⟩
      · exact Or.inl hbefore
      · exact Or.inr (Or.inl ⟨_, Array.mem_push_self, hkind, rfl, hcallee⟩)
    · exact Or.inr (hlicensed.settled _ _ _)

/-! ### Executions -/

/-- Every nested call that an execution delivers was asked for by the execution's callee or by the
callee of a delivered call that succeeded, and that contract holds what the call needs. If the
execution succeeds, an account that was not there before is that of a contract whose creation was
delivered, or one of these contracts may open accounts. -/
theorem calls_and_accounts_are_authorised (engine : Engine) (fuel : Nat) (chain : Chain)
    (ledger : Ledger) (sink : Trace) (call : Call) (code : Bytes) (report : Report Ledger Trace)
    (h : engine.execute fuel chain ledger sink call code = some report) :
    ∃ added : Trace, report.sink = sink ++ added ∧
      (∀ record, .call record ∈ added → 1 ≤ record.depth →
        added.Acts call.callee record.issuer ∧
        engine.permissions record.issuer record.call.kind.needs = .ok true) ∧
      ∀ output, report.result = .ok output → ledger.Keyed → ∀ x, ledger.account? x = none →
        report.store.account? x ≠ none →
          added.Licenses engine.permissions call.callee x := by
  cases hr : report.result with
  | error fault =>
    obtain ⟨out, -, hresult, -, htraced⟩ := Engine.execute_traced h
    rw [hresult] at hr
    refine ⟨#[.call { call, depth := 0, result := .error fault }], ?_, ?_, ?_⟩
    · rw [htraced.of_error hr, Array.push_eq_append]
    · intro record hrecord hdepth
      obtain rfl := Event.call.inj (Array.mem_singleton.1 hrecord)
      exact absurd hdepth (Nat.not_succ_le_zero 0)
    · intro output hok
      cases hok
  | ok output =>
    obtain ⟨w, ⟨start, _, hm, heffects⟩, hstore, hsink⟩ := Engine.execute_affects h hr
    refine ⟨w.trace.push (.call { call, depth := 0, result := .ok output }), hsink, ?_, ?_⟩
    · intro record hrecord hdepth
      rcases Array.mem_push.1 hrecord with hmem | hmem
      · obtain ⟨hacts, hheld⟩ := heffects.issued hmem
        exact ⟨hacts.settled _ _ _, hheld⟩
      · obtain rfl := Event.call.inj hmem
        exact absurd hdepth (Nat.not_succ_le_zero 0)
    · intro _ _ hkeyed x hnone hnew
      have hroot : (Frame.root engine.options.callMaxDepth).view ledger.view = ledger.view :=
        Frame.view_of_empty rfl rfl _
      have hkroot : ((Frame.root engine.options.callMaxDepth).view ledger.view).Keyed := by
        rw [hroot]
        exact (Ledger.keyed_iff ledger).1 hkeyed
      have hafter : (w.frame.view ledger.view).Has x := by
        obtain ⟨a, ha⟩ := Option.ne_none_iff_exists'.1 hnew
        rw [← hstore]
        exact ⟨a, congrArg Except.ok ha⟩
      rcases heffects.licensed ((Call.move_writes hm).keyed hkroot) hafter with hstart | hlicensed
      · obtain ⟨a, ha⟩ := hroot ▸ Call.has_of_move hkroot hm hstart
        have hbefore : ledger.account? x = some a := Except.ok.inj ha
        rw [hnone] at hbefore
        cases hbefore
      · exact hlicensed.settled _ _ _

/-! ### A contract that opens an account and creates another -/

/-- Only the account at 10 may do anything. -/
def guardedEngine : Engine :=
  { Engine.new {} with
    permissions := ([.call, .createContract, .createAccount].foldl
      (fun table capability => table.grant 10 capability) ({} : CapabilityTable)).permissions }

/-- The account at 10 calls the contract at 11, which may not go on, opens an account at 13, and
creates a contract. -/
theorem opened_account_has_a_reason :
    relayLedger.Keyed ∧ relayLedger.account? 13 = none ∧
    ∃ report, guardedEngine.execute 60 (Chain.withHashes 1 0 ∅) relayLedger (#[] : Trace) relayCall
        (callTo 11 ++ callTo 13 ++ createContract) = some report ∧
      report.result = .ok [] ∧ report.store.account? 13 ≠ none ∧ report.sink.size = 4 ∧
      ∃ added : Trace, report.sink = #[] ++ added ∧
        added.Licenses guardedEngine.permissions 10 13 ∧
        ∀ record, .call record ∈ added → 1 ≤ record.depth →
          added.Acts 10 record.issuer ∧
          guardedEngine.permissions record.issuer record.call.kind.needs = .ok true := by
  have hnone : relayLedger.account? 13 = none := by decide +kernel
  have hrun : (guardedEngine.execute 60 (Chain.withHashes 1 0 ∅) relayLedger (#[] : Trace) relayCall
      (callTo 11 ++ callTo 13 ++ createContract)).map (fun report =>
        (report.result, (report.store.account? 13).isSome, report.sink.size)) =
      some (.ok [], true, 4) := by
    decide +kernel
  obtain ⟨report, hreport, hvalues⟩ := Option.map_eq_some_iff.1 hrun
  obtain ⟨hresult, hseen⟩ := Prod.mk.inj hvalues
  obtain ⟨hthere, hsize⟩ := Prod.mk.inj hseen
  have hnew : report.store.account? 13 ≠ none := Option.isSome_iff_ne_none.1 hthere
  obtain ⟨added, hsink, hissued, hlicensed⟩ :=
    calls_and_accounts_are_authorised _ _ _ _ _ _ _ report hreport
  exact ⟨relayLedger_keyed, hnone, report, hreport, hresult, hnew, hsize, added, hsink,
    hlicensed [] hresult relayLedger_keyed 13 hnone hnew, hissued⟩

end ContractVm
