import Mathlib
import ContractVm.Proofs.Effects
import ContractVm.Proofs.Totals

/-! # Accounts keep their code

An account changes its balance and nothing else until it is removed. A frame keeps the mark of a
removed account, and takes no account in its place: one that was opened above it, where the mark is
seen as an empty place, is refused when it is handed down. So code is set once, where a contract is
created, and what a record of a creation says is true as long as the contract is there. -/

namespace ContractVm

/-- The account `b` is the account `a`, up to its balance. -/
structure Account.Alike (a b : Account) : Prop where
  code : b.code = a.code
  native : b.native = a.native
  sequence : b.sequence = a.sequence

theorem Account.Alike.refl (a : Account) : a.Alike a :=
  ⟨rfl, rfl, rfl⟩

theorem Account.Alike.trans {a b c : Account} (h₁ : a.Alike b) (h₂ : b.Alike c) : a.Alike c :=
  ⟨h₂.code.trans h₁.code, h₂.native.trans h₁.native, h₂.sequence.trans h₁.sequence⟩

namespace Frame

variable {below : View} {f g h : Frame} {x : Address}

/-! ### Marks of removed accounts -/

theorem Writes.removed (hw : Writes f g) (hx : f.removed x = true) : g.removed x = true := by
  induction hw with
  | refl => exact hx
  | tail _ step ih =>
    obtain ⟨c, hc⟩ := step
    exact (removed_write hc x).2 (Or.inl ih)

theorem applyAll_removed {changes : List Change}
    (ha : applyAll Writable.write changes f = (g, .ok ())) :
    g.removed x = true ↔ f.removed x = true ∨ .remove x ∈ changes := by
  induction changes generalizing f with
  | nil =>
    cases ha
    simp
  | cons c rest ih =>
    simp only [applyAll] at ha
    cases hw : (Writable.write f c : Except Fault Frame) with
    | error fault => simp [hw] at ha
    | ok f' =>
      simp only [hw] at ha
      rw [ih ha, removed_write hw, List.mem_cons, or_assoc, eq_comm (a := c)]

theorem applyAll_not_blocks {changes : List Change}
    (ha : applyAll Writable.write changes f = (g, .ok ())) : ∀ c ∈ changes, ¬ f.Blocks c := by
  induction changes generalizing f with
  | nil => simp
  | cons c rest ih =>
    simp only [applyAll] at ha
    cases hw : (Writable.write f c : Except Fault Frame) with
    | error fault => simp [hw] at ha
    | ok f' =>
      simp only [hw] at ha
      intro d hd hblocks
      rcases List.mem_cons.1 hd with rfl | hd
      · have hrefused : (Writable.write f d : Except Fault Frame) = .error .illegalWrite :=
          write_of_blocks hblocks
        rw [hrefused] at hw
        cases hw
      · obtain ⟨y, hy, hgone⟩ := hblocks
        exact ih ha d hd ⟨y, hy, (Writes.single hw).removed hgone⟩

theorem Coherent.removed_sync (hf : f.Coherent) (hs : (f.sync g).2 = (h, .ok ()))
    (hx : f.removed x = true) : h.removed x = true := by
  rw [sync_snd] at hs
  exact (applyAll_removed hs).2 (Or.inr (hf.mem_changes.2 (removed_iff.1 hx)))

theorem Coherent.not_removed_of_sync (hf : f.Coherent) (hs : (f.sync g).2 = (h, .ok ()))
    {a : Account} (hx : f.accounts[x]? = some (some a)) : g.removed x = false := by
  rw [sync_snd] at hs
  obtain rfl : a.address = x := hf.keyed hx
  have hmem : .put a ∈ f.changes := hf.mem_changes.2 hx
  have hblocks := applyAll_not_blocks hs _ hmem
  simpa using fun hgone => hblocks ⟨a.address, rfl, hgone⟩

/-! ### Accounts are kept -/

/-- The frame `g` comes after `f` by accepted changes, and what was an account is the same account up
to its balance, or was removed. -/
structure Preserves (below : View) (f g : Frame) : Prop where
  writes : Writes f g
  kept : ∀ {x : Address} {a : Account}, (f.view below).account x = .ok (some a) →
    g.removed x = true ∨ ∃ b, (g.view below).account x = .ok (some b) ∧ a.Alike b

theorem Preserves.refl : Preserves below f f :=
  ⟨.refl, fun ha => Or.inr ⟨_, ha, .refl _⟩⟩

theorem Preserves.trans (h₁ : Preserves below f g) (h₂ : Preserves below g h) :
    Preserves below f h := by
  refine ⟨h₁.writes.trans h₂.writes, fun ha => ?_⟩
  rcases h₁.kept ha with hgone | ⟨b, hb, halike⟩
  · exact Or.inl (h₂.writes.removed hgone)
  · exact (h₂.kept hb).imp_right fun ⟨c, hc, halike'⟩ => ⟨c, hc, halike.trans halike'⟩

theorem account_put {b : Account} (hw : f.write (.put b) = .ok g) (hx : b.address ≠ x) :
    (g.view below).account x = (f.view below).account x := by
  rw [view_write hw]
  exact if_neg hx

theorem account_put_self {b : Account} (hw : f.write (.put b) = .ok g) :
    (g.view below).account b.address = .ok (some b) := by
  rw [view_write hw]
  exact if_pos rfl

theorem preserves_put {b : Account} (hw : f.write (.put b) = .ok g)
    (hb : ∀ a, (f.view below).account b.address = .ok (some a) → a.Alike b) :
    Preserves below f g := by
  refine ⟨.single hw, fun {x a} ha => Or.inr ?_⟩
  by_cases hx : b.address = x
  · subst hx
    exact ⟨b, account_put_self hw, hb a ha⟩
  · exact ⟨a, (account_put hw hx).trans ha, .refl a⟩

theorem preserves_remove (hw : f.write (.remove x) = .ok g) : Preserves below f g := by
  refine ⟨.single hw, fun {y a} ha => ?_⟩
  by_cases hy : x = y
  · exact Or.inl ((removed_write hw y).2 (Or.inr (congrArg Change.remove hy)))
  · refine Or.inr ⟨a, ?_, .refl a⟩
    rw [view_write hw]
    exact (if_neg hy).trans ha

theorem preserves_store {key value : Word} (hw : f.write (.store x key value) = .ok g) :
    Preserves below f g := by
  refine ⟨.single hw, fun ha => Or.inr ⟨_, ?_, .refl _⟩⟩
  rw [view_write hw]
  exact ha

theorem preserves_rebalance (hk : (f.view below).Keyed) {a : Account} {balance : Word}
    (ha : (f.view below).account x = .ok (some a))
    (hw : f.write (.put { a with balance }) = .ok g) : Preserves below f g := by
  refine preserves_put hw fun a' ha' => ?_
  have haddress : a.address = x := hk x a ha
  dsimp only at ha'
  rw [haddress, ha] at ha'
  cases ha'
  exact ⟨rfl, rfl, rfl⟩

theorem openAccount_preserves (ho : f.openAccount below x = .ok g) : Preserves below f g := by
  obtain ⟨hnone, hw⟩ := openAccount_eq_ok.1 ho
  refine preserves_put hw fun a ha => ?_
  dsimp only at ha
  rw [hnone] at ha
  cases ha

theorem transfer_preserves {sender receiver : Address} {amount : Word} (hk : (f.view below).Keyed)
    (ht : f.transfer below sender receiver amount = .ok g) : Preserves below f g := by
  by_cases hz : amount = 0
  · rw [transfer, if_pos hz] at ht
    cases ht
    exact .refl
  · obtain ⟨a, f₁, b, ha, -, hf₁, hb, -, hg⟩ := (transfer_eq_ok hz).1 ht
    have hk₁ : (f₁.view below).Keyed := (Writes.single hf₁).keyed hk
    exact (preserves_rebalance hk ha hf₁).trans (preserves_rebalance hk₁ hb hg)

theorem bequeath_preserves {heir : Address} (hk : (f.view below).Keyed)
    (hb : f.bequeath below x heir = .ok g) : Preserves below f g := by
  obtain ⟨a, b, f₁, -, hheir, -, hf₁, hg⟩ := bequeath_eq_ok.1 hb
  exact (preserves_rebalance hk hheir hf₁).trans (preserves_remove hg)

/-- Handing down keeps the accounts that the frame below sees, if the frame above has kept them. -/
theorem Coherent.preserves_sync {child : Frame} (hc : child.Coherent)
    (hs : (child.sync f).2 = (g, .ok ()))
    (hkept : ∀ {x a}, (f.view below).account x = .ok (some a) → child.removed x = true ∨
      ∃ b, (child.view (f.view below)).account x = .ok (some b) ∧ a.Alike b) :
    Preserves below f g := by
  refine ⟨sync_writes hs, fun ha => ?_⟩
  rw [hc.view_sync hs]
  exact (hkept ha).imp_left fun hgone => hc.removed_sync hs hgone

/-! ### New contracts -/

/-- There is no account at `x`, and one may be opened there. -/
def Vacant (below : View) (f : Frame) (x : Address) : Prop :=
  (f.view below).account x = .ok none ∧ f.removed x = false

/-- Since `f`, a contract with this code was created at `x`, and it is there in `g` or was removed. -/
def Founds (below : View) (f g : Frame) (x : Address) (code : Bytes) : Prop :=
  g.removed x = true ∨
    Vacant below f x ∧ ∃ a, (g.view below).account x = .ok (some a) ∧ a.code = code

theorem Vacant.untouched (hv : Vacant below f x) :
    f.accounts[x]? = none ∧ below.account x = .ok none := by
  obtain ⟨hnone, hkept⟩ := hv
  simp only [view, account] at hnone
  split at hnone
  · next entry hentry =>
    cases hnone
    rw [removed_iff.2 hentry] at hkept
    cases hkept
  · next hentry => exact ⟨hentry, hnone⟩

theorem Vacant.of_preserves (hv : Vacant below g x) (hp : Preserves below f g) :
    Vacant below f x := by
  have hkept : f.removed x = false := by
    by_contra hgone
    have hmark := hp.writes.removed (Bool.not_eq_false _ ▸ hgone)
    rw [hv.2] at hmark
    cases hmark
  refine ⟨?_, hkept⟩
  obtain ⟨-, hbelow⟩ := hv.untouched
  cases hentry : f.accounts[x]? with
  | none => simpa only [view, account, hentry] using hbelow
  | some entry =>
    cases entry with
    | none =>
      rw [removed_iff.2 hentry] at hkept
      cases hkept
    | some a =>
      have ha : (f.view below).account x = .ok (some a) := by simp only [view, account, hentry]
      rcases hp.kept ha with hgone | ⟨b, hb, -⟩
      · rw [hv.2] at hgone
        cases hgone
      · rw [hv.1] at hb
        cases hb

theorem Founds.after {code : Bytes} (hf : Founds below f g x code) (hp : Preserves below g h) :
    Founds below f h x code := by
  rcases hf with hgone | ⟨hv, a, ha, hcode⟩
  · exact Or.inl (hp.writes.removed hgone)
  · rcases hp.kept ha with hgone | ⟨b, hb, halike⟩
    · exact Or.inl hgone
    · exact Or.inr ⟨hv, b, hb, halike.code.trans hcode⟩

theorem Founds.before {code : Bytes} (hf : Founds below g h x code) (hp : Preserves below f g) :
    Founds below f h x code :=
  hf.imp_right fun ⟨hv, hthere⟩ => ⟨hv.of_preserves hp, hthere⟩

theorem Coherent.founds_sync {child start : Frame} {code : Bytes} (hc : child.Coherent)
    (hs : (child.sync f).2 = (g, .ok ()))
    (hf : Founds (f.view below) start child x code) : Founds below f g x code := by
  rcases hf with hgone | ⟨hv, a, ha, hcode⟩
  · exact Or.inl (hc.removed_sync hs hgone)
  · obtain ⟨-, hnone⟩ := hv.untouched
    -- the account is one of the changes that were handed down, so its place was not marked
    have hentry : child.accounts[x]? = some (some a) := by
      simp only [view, account] at ha
      split at ha
      · next entry hentry => cases ha; exact hentry
      · simp only [view, account] at hnone
        rw [hnone] at ha
        cases ha
    refine Or.inr ⟨⟨hnone, hc.not_removed_of_sync hs hentry⟩, a, ?_, hcode⟩
    rw [hc.view_sync hs]
    exact ha

end Frame

/-! ### Nested calls -/

theorem Call.move_preserves {call : Call} {below : View} {frame frame' : Frame}
    (hk : (frame.view below).Keyed) (h : call.move below frame = .ok frame') :
    Frame.Preserves below frame frame' := by
  unfold move at h
  split at h
  · exact Frame.transfer_preserves hk h
  · cases h
    exact .refl

/-- How a nested call starts: in a frame that shows what its caller sees, with a new account in it if
the call is to create a contract. -/
structure Invocation.Fresh (inv : Invocation) (caller : View) (base : Frame) : Prop where
  view : base.view caller = caller
  preserves : Frame.Preserves caller base inv.frame
  create : inv.call.kind = .create → inv.landing = .create inv.call.callee ∧
    Frame.Vacant caller base inv.call.callee ∧
    ∃ a, (inv.frame.view caller).account inv.call.callee = .ok (some a)
  call : inv.call.kind ≠ .create →
    ∀ output frame, inv.landing.install caller output frame = .ok frame

theorem Stepped.invoke_fresh {env : Env} {m m' : Machine} {op : Opcode} {inv : Invocation}
    (h : Stepped env m op (.invoke inv) m') : ∃ base, inv.Fresh (m'.view env) base := by
  rcases h.invoke_cases with ⟨variant, -, hasks⟩ | ⟨variant, -, hasks⟩
  · obtain ⟨base, hchild, hopen⟩ := hasks.frame
    have habove := Frame.child_above hchild
    have hview : m'.view env = m.view env := hasks.turns.view env
    obtain ⟨hnone, hw⟩ := Frame.openAccount_eq_ok.1 hopen
    have hplace : base.removed inv.call.callee = false := by simp [Frame.removed, habove.accounts]
    rw [hview]
    exact ⟨base,
      { view := Frame.view_of_empty habove.accounts habove.slots _
        preserves := Frame.openAccount_preserves hopen
        create := fun _ => ⟨hasks.landing, ⟨hnone, hplace⟩, _, Frame.account_put_self hw⟩
        call := fun hkind => absurd hasks.kind hkind }⟩
  · obtain ⟨child, hchild, hframe⟩ := hasks.frame
    have habove := Frame.child_above hchild
    obtain ⟨offset, size, hlanding⟩ := hasks.landing
    have hcalls : inv.call.kind ≠ .create := by
      rw [hasks.kind]
      cases variant <;> decide
    have hview : inv.frame.view (m'.view env) = m'.view env := by
      rw [hframe]
      exact Frame.view_of_empty habove.accounts habove.slots _
    exact ⟨inv.frame,
      { view := hview
        preserves := .refl
        create := fun hkind => absurd hkind hcalls
        call := fun _ _ _ => by rw [hlanding]; rfl }⟩

namespace Invocation.Fresh

variable {inv : Invocation} {caller : View} {base start last child : Frame} {output : Bytes}

theorem install_other (hf : inv.Fresh caller base) (hk : (last.view caller).Keyed)
    (hi : inv.landing.install caller output last = .ok child) {x : Address}
    (hx : inv.call.kind = .create → inv.call.callee ≠ x) :
    (child.view caller).account x = (last.view caller).account x := by
  by_cases hkind : inv.call.kind = .create
  · rw [(hf.create hkind).1] at hi
    obtain ⟨a, ha, -, hw⟩ := Frame.installCode_eq_ok.1 hi
    have haddress : a.address = inv.call.callee := hk _ a ha
    exact Frame.account_put hw (haddress.trans_ne (hx hkind))
  · rw [hf.call hkind] at hi
    cases hi
    rfl

theorem install_self (hf : inv.Fresh caller base) (hk : (last.view caller).Keyed)
    (hi : inv.landing.install caller output last = .ok child) (hkind : inv.call.kind = .create) :
    ∃ a, (child.view caller).account inv.call.callee = .ok (some a) ∧ a.code = output := by
  rw [(hf.create hkind).1] at hi
  obtain ⟨a, ha, -, hw⟩ := Frame.installCode_eq_ok.1 hi
  have hself : (child.view caller).account a.address = .ok (some { a with code := output }) :=
    Frame.account_put_self hw
  have haddress : a.address = inv.call.callee := hk _ a ha
  rw [← haddress]
  exact ⟨_, hself, rfl⟩

theorem kept (hf : inv.Fresh caller base) (hk : (last.view caller).Keyed)
    (hp : Frame.Preserves caller inv.frame last)
    (hi : inv.landing.install caller output last = .ok child) {x : Address} {a : Account}
    (ha : caller.account x = .ok (some a)) :
    child.removed x = true ∨ ∃ b, (child.view caller).account x = .ok (some b) ∧ a.Alike b := by
  have hother : inv.call.kind = .create → inv.call.callee ≠ x := by
    rintro hkind rfl
    have hvacant := (hf.create hkind).2.1.1
    rw [hf.view, ha] at hvacant
    cases hvacant
  have hseen : (base.view caller).account x = .ok (some a) := by rw [hf.view, ha]
  rcases (hf.preserves.trans hp).kept hseen with hgone | hthere
  · exact Or.inl ((Landing.install_writes hi).removed hgone)
  · rw [hf.install_other hk hi hother]
    exact Or.inr hthere

theorem founds_inside (hf : inv.Fresh caller base) (hk : (last.view caller).Keyed)
    (hstart : Frame.Preserves caller inv.frame start)
    (hi : inv.landing.install caller output last = .ok child) {x : Address} {code : Bytes}
    (hfounds : Frame.Founds caller start last x code) : Frame.Founds caller start child x code := by
  rcases hfounds with hgone | ⟨hv, hthere⟩
  · exact Or.inl ((Landing.install_writes hi).removed hgone)
  · -- the new contract itself has its place from the start
    have hother : inv.call.kind = .create → inv.call.callee ≠ x := by
      rintro hkind rfl
      obtain ⟨-, -, a, ha⟩ := hf.create hkind
      have hnone := (hv.of_preserves hstart).1
      rw [ha] at hnone
      cases hnone
    rw [← hf.install_other hk hi hother] at hthere
    exact Or.inr ⟨hv, hthere⟩

theorem founds_self (hf : inv.Fresh caller base) (hk : (last.view caller).Keyed)
    (hi : inv.landing.install caller output last = .ok child) (hkind : inv.call.kind = .create) :
    Frame.Founds caller base child inv.call.callee output :=
  Or.inr ⟨(hf.create hkind).2.1, hf.install_self hk hi hkind⟩

end Invocation.Fresh

/-! ### Effects -/

theorem Effects.preserves {env : Env} {f g : Frame} {events : Trace} (h : Effects env f events g)
    (hk : (f.view env.below).Keyed) : Frame.Preserves env.below f g := by
  induction h with
  | refl => exact .refl
  | trans h₁ _ ih₁ ih₂ => exact (ih₁ hk).trans (ih₂ (h₁.writes.keyed hk))
  | stored hw => exact Frame.preserves_store hw
  | logged _ _ => exact .refl
  | opened ho => exact Frame.openAccount_preserves ho.opened
  | bequeathed hb => exact Frame.bequeath_preserves hk hb
  | failed _ => exact .refl
  | @settled env m m₁ op inv code start last child g inner output h hm hin hi hs ih =>
    -- the frame of the call is new: it marks only accounts that the call itself has removed
    have hkeyed := h.invoke_keyed hk
    have hstart := Call.move_preserves hkeyed hm
    have hlast := hstart.trans (ih (hstart.writes.keyed hkeyed))
    obtain ⟨base, hfresh⟩ := h.invoke_fresh
    exact (view_settled h hm hin hi hs).1.preserves_sync hs
      (hfresh.kept (hlast.writes.keyed hkeyed) hlast hi)

/-- A contract whose creation is on record has the code that the record says, or was removed. -/
theorem Effects.founds {env : Env} {f g : Frame} {events : Trace} (h : Effects env f events g)
    (hk : (f.view env.below).Keyed) {record : CallRecord} {output : Bytes}
    (hrecord : .call record ∈ events) (hkind : record.call.kind = .create)
    (hr : record.result = .ok output) :
    Frame.Founds env.below f g record.call.callee output := by
  induction h with
  | refl => cases Array.not_mem_empty _ hrecord
  | trans h₁ h₂ ih₁ ih₂ =>
    have hk₂ := h₁.writes.keyed hk
    rcases Array.mem_append.1 hrecord with hmem | hmem
    · exact (ih₁ hk hmem).after (h₂.preserves hk₂)
    · exact (ih₂ hk₂ hmem).before (h₁.preserves hk)
  | stored _ => cases Array.not_mem_empty _ hrecord
  | logged _ _ => simp at hrecord
  | opened _ => cases Array.not_mem_empty _ hrecord
  | bequeathed _ => cases Array.not_mem_empty _ hrecord
  | failed _ =>
    obtain rfl := Event.call.inj (Array.mem_singleton.1 hrecord)
    cases hr
  | @settled env m m₁ op inv code start last child g inner given h hm hin hi hs ih =>
    have hkeyed := h.invoke_keyed hk
    have hstart := Call.move_preserves hkeyed hm
    have hkstart := hstart.writes.keyed hkeyed
    have hklast := hin.writes.keyed hkstart
    obtain ⟨base, hfresh⟩ := h.invoke_fresh
    have hcoherent := (view_settled h hm hin hi hs).1
    -- the record is of a call inside this one, or of this one
    rcases Array.mem_push.1 hrecord with hmem | hmem
    · exact hcoherent.founds_sync hs (hfresh.founds_inside hklast hstart hi (ih hkstart hmem))
    · obtain rfl := Event.call.inj hmem
      cases hr
      exact hcoherent.founds_sync hs (hfresh.founds_self hklast hi hkind)

/-! ### Executions -/

theorem CallRecord.result_of_success {record : CallRecord} (h : record.fault? = none) :
    record.result = .ok record.output := by
  unfold fault? at h
  split at h
  · next bytes hr => simp only [CallRecord.output, hr]
  · cases h

theorem Frame.account_of_removed {f : Frame} {x : Address} (h : f.removed x = true) (below : View) :
    (f.view below).account x = .ok none := by
  simp only [view, account, removed_iff.1 h]

/-- If an execution over a ledger succeeds, every account is gone or has the code, the native contract
and the sequence number that it had; and every contract whose creation was delivered, at a depth below
the execution's own call, is gone or has the code that the record says. -/
theorem accounts_keep_their_code (engine : Engine) (fuel : Nat) (chain : Chain) (ledger : Ledger)
    (sink : Trace) (call : Call) (code : Bytes) (report : Report Ledger Trace) (output : Bytes)
    (hkeyed : ledger.Keyed)
    (h : engine.execute fuel chain ledger sink call code = some report)
    (hr : report.result = .ok output) :
    (∀ x a, ledger.account? x = some a → report.store.account? x = none ∨
      ∃ b, report.store.account? x = some b ∧
        b.code = a.code ∧ b.native = a.native ∧ b.sequence = a.sequence) ∧
    ∃ added : Trace, report.sink = sink ++ added ∧
      ∀ record, .call record ∈ added → record.call.kind = .create → record.fault? = none →
        0 < record.depth → report.store.account? record.call.callee = none ∨
          ∃ b, report.store.account? record.call.callee = some b ∧ b.code = record.output := by
  obtain ⟨w, ⟨start, _, hm, heffects⟩, hstore, hsink⟩ := Engine.execute_affects h hr
  have hroot : (Frame.root engine.options.callMaxDepth).view ledger.view = ledger.view :=
    Frame.view_of_empty rfl rfl _
  have hkroot : ((Frame.root engine.options.callMaxDepth).view ledger.view).Keyed := by
    rw [hroot]
    exact (Ledger.keyed_iff ledger).1 hkeyed
  have hmoved := Call.move_preserves hkroot hm
  have hkstart := hmoved.writes.keyed hkroot
  have hread : ∀ {x entry}, (w.frame.view ledger.view).account x = .ok entry →
      report.store.account? x = entry := by
    intro x entry hentry
    rw [← hstore] at hentry
    exact Except.ok.inj hentry
  constructor
  · intro x a ha
    have hseen : ((Frame.root engine.options.callMaxDepth).view ledger.view).account x =
        .ok (some a) := by
      rw [hroot]
      exact congrArg Except.ok ha
    rcases (hmoved.trans (heffects.preserves hkstart)).kept hseen with hgone | ⟨b, hb, halike⟩
    · exact Or.inl (hread (Frame.account_of_removed hgone _))
    · exact Or.inr ⟨b, hread hb, halike.code, halike.native, halike.sequence⟩
  · refine ⟨_, hsink, fun record hrecord hkind hok hdepth => ?_⟩
    rcases Array.mem_push.1 hrecord with hmem | hmem
    · have hresult := CallRecord.result_of_success hok
      rcases heffects.founds hkstart hmem hkind hresult with hgone | ⟨-, b, hb, hcode⟩
      · exact Or.inl (hread (Frame.account_of_removed hgone _))
      · exact Or.inr ⟨b, hread hb, hcode⟩
    · obtain rfl := Event.call.inj hmem
      exact absurd hdepth (Nat.lt_irrefl 0)

/-! ### Creating a contract -/

theorem relayLedger_keyed : relayLedger.Keyed :=
  Ledger.keyed_empty.foldl
    [.put { address := 10, balance := 5 }, .put { address := 11, code := callTo 12 ++ [0xfe] },
      .put { address := 12, code := [0x60, 1, 0x60, 1, 0x55, 0] }]

def returnZero : Bytes :=
  [0x60, 1, 0x60, 0, 0xf3]

def createContract : Bytes :=
  0x64 :: returnZero ++ [0x60, 0, 0x52, 0x60, 5, 0x60, 27, 0x60, 0, 0xf0]

/-- The place and the code of a new contract, read off the record of a nested call. -/
def Event.founded? : Event → Option (Address × Bytes)
  | .call record =>
    if record.call.kind = .create ∧ record.fault? = none ∧ 0 < record.depth then
      some (record.call.callee, record.output)
    else none
  | .log _ => none

theorem Event.founded?_eq_some {event : Event} {x : Address} {code : Bytes}
    (h : event.founded? = some (x, code)) :
    ∃ record, event = .call record ∧ record.call.kind = .create ∧ record.fault? = none ∧
      0 < record.depth ∧ record.call.callee = x ∧ record.output = code := by
  cases event with
  | log _ => cases h
  | call record =>
    simp only [founded?] at h
    split at h
    · next hcreated =>
      obtain ⟨hplace, hcode⟩ := Prod.mk.inj (Option.some.inj h)
      exact ⟨record, rfl, hcreated.1, hcreated.2.1, hcreated.2.2, hplace, hcode⟩
    · cases h

theorem created_contract_keeps_its_code :
    relayLedger.Keyed ∧
    ∃ report, (Engine.new {}).execute 40 (Chain.withHashes 1 0 ∅) relayLedger (#[] : Trace)
        relayCall createContract = some report ∧
      report.result = .ok [] ∧
      (∃ b, report.store.account? 12 = some b ∧ b.code = [0x60, 1, 0x60, 1, 0x55, 0]) ∧
      ∃ record b, .call record ∈ report.sink ∧ record.call.kind = .create ∧
        report.store.account? record.call.callee = some b ∧ b.code = [0] := by
  have hrun : ((Engine.new {}).execute 40 (Chain.withHashes 1 0 ∅) relayLedger (#[] : Trace)
      relayCall createContract).map (fun report =>
        (report.result, (report.store.account? 12).isSome,
          (report.sink.toList.findSome? Event.founded?).map fun (x, code) =>
            (code, (report.store.account? x).isSome))) =
      some (.ok [], true, some ([0], true)) := by
    decide +kernel
  obtain ⟨report, hreport, hvalues⟩ := Option.map_eq_some_iff.1 hrun
  obtain ⟨hresult, hseen⟩ := Prod.mk.inj hvalues
  obtain ⟨hstays, hfound⟩ := Prod.mk.inj hseen
  obtain ⟨⟨x, bytes⟩, hfirst, hplace⟩ := Option.map_eq_some_iff.1 hfound
  obtain ⟨rfl, hthere⟩ := Prod.mk.inj hplace
  obtain ⟨event, hmem, hevent⟩ := List.exists_of_findSome?_eq_some hfirst
  obtain ⟨record, rfl, hkind, hok, hdepth, rfl, houtput⟩ := Event.founded?_eq_some hevent
  obtain ⟨hkept, added, hsink, hcreated⟩ := accounts_keep_their_code _ _ _ _ _ _ _ report []
    relayLedger_keyed hreport hresult
  have hbefore : relayLedger.account? 12 =
      some { address := 12, code := [0x60, 1, 0x60, 1, 0x55, 0] } := by
    decide +kernel
  refine ⟨relayLedger_keyed, report, hreport, hresult, ?_, record, ?_⟩
  · rcases hkept _ _ hbefore with hnone | ⟨b, hb, hcode, -⟩
    · rw [hnone] at hstays
      cases hstays
    · exact ⟨b, hb, hcode⟩
  · have hadded : .call record ∈ added := by
      rw [Array.empty_append] at hsink
      exact hsink ▸ Array.mem_toList_iff.1 hmem
    rcases hcreated record hadded hkind hok hdepth with hnone | ⟨b, hb, hcode⟩
    · rw [hnone] at hthere
      cases hthere
    · exact ⟨b, Array.mem_toList_iff.1 hmem, hkind, hb, hcode.trans houtput⟩

/-- The call of an execution runs the code that it is given and creates no contract: if its kind is
that of a creation, its record says so, but an account that is opened at its callee has no code. -/
theorem outermost_creation_installs_no_code :
    ∃ report, (Engine.new {}).execute 40 (Chain.withHashes 1 0 ∅) relayLedger (#[] : Trace)
        { relayCall with callee := 13, kind := .create } (callTo 13 ++ returnZero) = some report ∧
      report.result = .ok [0] ∧
      ∃ record b, .call record ∈ report.sink ∧ record.call.kind = .create ∧ record.fault? = none ∧
        report.store.account? record.call.callee = some b ∧ b.code ≠ record.output := by
  have hrun : ((Engine.new {}).execute 40 (Chain.withHashes 1 0 ∅) relayLedger (#[] : Trace)
      { relayCall with callee := 13, kind := .create } (callTo 13 ++ returnZero)).map (fun report =>
        (report.result, (report.store.account? 13).map Account.code)) =
      some (.ok [0], some []) := by
    decide +kernel
  obtain ⟨report, hreport, hvalues⟩ := Option.map_eq_some_iff.1 hrun
  obtain ⟨hresult, hcode⟩ := Prod.mk.inj hvalues
  obtain ⟨b, hb, hcode⟩ := Option.map_eq_some_iff.1 hcode
  obtain ⟨w, -, -, hsink⟩ := Engine.execute_affects hreport hresult
  refine ⟨report, hreport, hresult,
    { call := { relayCall with callee := 13, kind := .create }, depth := 0, result := .ok [0] }, b,
    ?_, rfl, rfl, hb, ?_⟩
  · rw [hsink, Array.empty_append]
    exact Array.mem_push_self
  · rw [hcode]
    decide

end ContractVm
