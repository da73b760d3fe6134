import Mathlib
import ContractVm.Proofs.Identity
import ContractVm.Proofs.StackRoom
import ContractVm.Proofs.TowerSync

/-! # What a callee can do to its caller

A caller survives its call if the call fails or if its frame can take what the call hands down: it
gets the unused gas back and a word that tells how the call ended, and after that it can only run out
of gas or of memory. Its frame can take the changes of a successful call unless the contract that was
to be created has destroyed itself or one of the changes is for an account that the caller has
removed. In these two cases the caller is left with a fault, and has neither the gas nor the word. -/

namespace ContractVm

/-! ### Delivering a result -/

/-- The faults of a push that cannot be paid for and of memory that cannot grow. -/
def Fault.IsShortage (fault : Fault) : Prop :=
  fault = .insufficientGas ∨ ∃ text, fault = .memoryOutOfBounds text

/-- The word that tells a caller how its call ended. -/
def Landing.word : Landing → Except Fault Bytes → Word
  | .create address, .ok _ => Address.toWord address
  | .memory _ _, .ok _ => 1
  | _, .error _ => 0

namespace Meter

/-- The meter `m'` keeps the fault of `m` and has no other but a shortage. -/
structure Strains (m m' : Meter) : Prop where
  kept : ∀ fault, m.fault = some fault → m'.fault = some fault
  fault : ∀ fault, m'.fault = some fault → m.fault = some fault ∨ fault.IsShortage

theorem Strains.of_eq {m m' : Meter} (h : m'.fault = m.fault) : m.Strains m' :=
  ⟨fun _ hf => h ▸ hf, fun _ hf => Or.inl (h ▸ hf)⟩

theorem Strains.trans {m₁ m₂ m₃ : Meter} (h₁ : m₁.Strains m₂) (h₂ : m₂.Strains m₃) :
    m₁.Strains m₃ := by
  refine ⟨fun fault hf => h₂.kept fault (h₁.kept fault hf), fun fault hf => ?_⟩
  rcases h₂.fault fault hf with hf | hshort
  · exact h₁.fault fault hf
  · exact Or.inr hshort

theorem strains_record {fault : Fault} (h : fault.IsShortage) (m : Meter) :
    m.Strains (m.record fault) := by
  refine ⟨(spends_record fault m).fault, fun f hf => ?_⟩
  rw [record_fault] at hf
  cases hm : m.fault with
  | none =>
    rw [hm] at hf
    cases hf
    exact Or.inr h
  | some first =>
    rw [hm] at hf
    exact Or.inl hf

theorem consume_fault {amount : Nat} {m m' : Meter} (h : m.consume amount = .ok m') :
    m'.fault = m.fault := by
  unfold consume at h
  split at h
  · cases h
  · cases h
    rfl

theorem consume_error {amount : Nat} {m : Meter} {fault : Fault}
    (h : m.consume amount = .error fault) : fault = .insufficientGas := by
  unfold consume at h
  split at h
  · cases h
    rfl
  · cases h

end Meter

/-- Where there is room, a push can fail only for lack of gas. -/
theorem Stack.push_of_hasRoom (w : Word) {s : Stack} (m : Meter) (h : s.HasRoom) :
    ((s.push w m).1.items = w :: s.items ∧ (s.push w m).2.fault = m.fault) ∨
      s.push w m = (s, m.record .insufficientGas) := by
  unfold push
  cases hc : m.consume s.price with
  | error fault =>
    rw [Meter.consume_error hc]
    exact Or.inr rfl
  | ok m₁ =>
    have hplace : ¬ s.exceeds (s.depth + 1) = true := Bool.eq_false_iff.1 h
    dsimp only
    rw [place, if_neg hplace]
    exact Or.inl ⟨rfl, Meter.consume_fault hc⟩

namespace Memory

theorem cover_ok {offset length : Nat} {mem mem' : Memory} {m m' : Meter}
    (h : mem.cover offset length m = .ok (mem', m')) : m'.fault = m.fault := by
  unfold cover at h
  dsimp only at h
  split at h
  · cases h
  · split at h
    · cases h
      rfl
    · split at h
      · cases h
      · split at h
        · next hc =>
          cases h
          exact Meter.consume_fault hc
        · cases h

theorem cover_error {offset length : Nat} {mem : Memory} {m : Meter} {fault : Fault}
    (h : mem.cover offset length m = .error fault) : fault.IsShortage := by
  unfold cover at h
  dsimp only at h
  split at h
  · cases h
    exact Or.inr ⟨_, rfl⟩
  · split at h
    · cases h
    · split at h
      · cases h
        exact Or.inr ⟨_, rfl⟩
      · split at h
        · cases h
        · next hc =>
          cases h
          exact Or.inl (Meter.consume_error hc)

theorem write_strains (offset : Word) (bs : Bytes) (mem : Memory) (m : Meter) :
    m.Strains (mem.write offset bs m).2 := by
  unfold write
  split
  · split
    · exact .of_eq rfl
    · split
      · next hc => exact .of_eq (cover_ok hc)
      · next hc => exact Meter.strains_record (cover_error hc) m
  · exact Meter.strains_record (Or.inr ⟨_, rfl⟩) m

theorem reserve_strains (offset : Word) (length : Nat) (mem : Memory) (m : Meter) :
    m.Strains (mem.reserve offset length m).2.2 := by
  unfold reserve
  split
  · split
    · exact .of_eq rfl
    · split
      · next hc => exact .of_eq (cover_ok hc)
      · next hc => exact Meter.strains_record (cover_error hc) m
  · exact Meter.strains_record (Or.inr ⟨_, rfl⟩) m

end Memory

namespace Exec

/-- What is left of delivering a result once the word was pushed. -/
def hand (landing : Landing) (result : Except Fault Bytes) : Exec Unit :=
  match landing, result with
  | .create _, .ok _ => pure ()
  | .create _, .error fault => setReturnData fault.output
  | .memory offset size, .ok output => do
    writeOutput offset output size
    setReturnData output
  | .memory offset size, .error fault => do
    if fault.isRevert then writeOutput offset fault.output size
    setReturnData fault.output

theorem run_land (landing : Landing) (result : Except Fault Bytes) (m : Machine) :
    (land landing result).run m =
      (hand landing result).run ((push (landing.word result)).run m).2 := by
  cases landing with
  | create address => cases result <;> rfl
  | memory offset size => cases result <;> rfl

def Straining (p : Exec Unit) : Prop :=
  ∀ m : Machine, m.meter.Strains (p.run m).2.meter ∧ (p.run m).2.stack = m.stack

theorem Straining.bind {p q : Exec Unit} (hp : Straining p) (hq : Straining q) :
    Straining (p >>= fun _ => q) := by
  intro m
  obtain ⟨hstrains, hstack⟩ := hp m
  obtain ⟨hstrains', hstack'⟩ := hq (p.run m).2
  exact ⟨hstrains.trans hstrains', hstack'.trans hstack⟩

theorem straining_setReturnData (bs : Bytes) : Straining (setReturnData bs) :=
  fun _ => ⟨.of_eq rfl, rfl⟩

theorem straining_writeOutput (offset : Word) (output : Bytes) (size : Nat) :
    Straining (writeOutput offset output size) := by
  intro m
  have hreserve := m.memory.reserve_strains offset size m.meter
  have hrun : (writeOutput offset output size).run m =
      (if (m.memory.reserve offset size m.meter).1 = true then
        (if indexLimit < size then
          fail (.memoryOutOfBounds ("cannot return " ++ toString size ++ " bytes"))
        else writeMemory offset (Bytes.fit size output))
      else pure ()).run ((reserveMemory offset size).run m).2 := rfl
  rw [hrun]
  split
  · split
    · exact ⟨hreserve.trans (Meter.strains_record (Or.inr ⟨_, rfl⟩) _), rfl⟩
    · exact ⟨hreserve.trans (Memory.write_strains offset _ _ _), rfl⟩
  · exact ⟨hreserve, rfl⟩

theorem straining_hand (landing : Landing) (result : Except Fault Bytes) :
    Straining (hand landing result) := by
  cases landing with
  | create address =>
    cases result with
    | ok output => exact fun _ => ⟨.of_eq rfl, rfl⟩
    | error fault => exact straining_setReturnData _
  | memory offset size =>
    cases result with
    | ok output => exact (straining_writeOutput offset output size).bind (straining_setReturnData _)
    | error fault =>
      unfold hand
      dsimp only
      split
      · exact (straining_writeOutput offset _ size).bind (straining_setReturnData _)
      · exact straining_setReturnData _

theorem land_of_hasRoom (landing : Landing) (result : Except Fault Bytes) {m : Machine}
    (hroom : m.stack.HasRoom) (hfault : m.meter.fault = none) :
    (((land landing result).run m).2.stack.items = landing.word result :: m.stack.items ∨
      ((land landing result).run m).2.meter.fault = some .insufficientGas) ∧
    ∀ fault, ((land landing result).run m).2.meter.fault = some fault → fault.IsShortage := by
  rw [run_land]
  obtain ⟨hstrains, hstack⟩ := straining_hand landing result ((push (landing.word result)).run m).2
  rcases Stack.push_of_hasRoom (landing.word result) m.meter hroom with ⟨hitems, hkept⟩ | hshort
  · have hclear : ((push (landing.word result)).run m).2.meter.fault = none := hkept.trans hfault
    refine ⟨Or.inl ((congrArg Stack.items hstack).trans hitems), fun fault hf => ?_⟩
    rcases hstrains.fault fault hf with hf | hshort
    · rw [hclear] at hf
      cases hf
    · exact hshort
  · have hpoor : ((push (landing.word result)).run m).2.meter.fault = some .insufficientGas := by
      have hmeter : ((push (landing.word result)).run m).2.meter = m.meter.record .insufficientGas :=
        congrArg Prod.snd hshort
      rw [hmeter, Meter.record_fault, hfault]
      rfl
    have hlast := hstrains.kept _ hpoor
    refine ⟨Or.inr hlast, fun fault hf => ?_⟩
    rw [hlast] at hf
    cases hf
    exact Or.inl rfl

end Exec

/-! ### Handing changes down -/

theorem Frame.Writes.touched {f g : Frame} {x : Address} (h : Writes f g)
    (hx : f.accounts[x]? ≠ none) : g.accounts[x]? ≠ none := by
  induction h with
  | refl => exact hx
  | tail _ step ih =>
    obtain ⟨c, hc⟩ := step
    cases c with
    | put a =>
      obtain ⟨-, -, rfl⟩ := write_put.1 hc
      rw [Std.TreeMap.getElem?_insert]
      split
      · exact Option.some_ne_none _
      · exact ih
    | remove r =>
      obtain ⟨-, rfl⟩ := write_remove.1 hc
      rw [Std.TreeMap.getElem?_insert]
      split
      · exact Option.some_ne_none _
      · exact ih
    | store r key value =>
      obtain ⟨-, -, rfl⟩ := write_store.1 hc
      exact ih

theorem Frame.installCode_of_removed {f : Frame} {x : Address} (h : f.removed x = true)
    (below : View) (code : Bytes) : f.installCode below x code = .error (.missingAccount x) := by
  have hnone := account_of_removed h below
  have hmissing : (f.view below).existing x = .error (.missingAccount x) := by
    rw [View.existing, hnone]
    rfl
  rw [installCode, hmissing]
  rfl

theorem Tower.pending_put {f g : Frame} {a b : Account} (hw : f.write (.put b) = .ok g)
    (ha : f.accounts[b.address]? = some (some a)) (x : Address) : Pending g x ↔ Pending f x := by
  obtain ⟨-, -, rfl⟩ := Frame.write_put.1 hw
  refine or_congr ?_ Iff.rfl
  dsimp only
  rw [Std.TreeMap.getElem?_insert]
  split
  · next hx =>
    rw [← Std.compare_eq_iff_eq.1 hx, ha]
    simp
  · rfl

/-- The account of a new contract is removed by the end of a successful call, or it has no code. -/
theorem Stepped.created_cases {env : Env} {m m' : Machine} {op : Opcode} {inv : Invocation}
    {out : Outcome} {output : Bytes} {x : Address}
    (h : Stepped env m op (.invoke inv) m') (hk : (m'.view env).Keyed)
    (hp : Performed env.host (m'.view env) inv.frame inv.call m'.sequence out)
    (hr : out.result = .ok output) (hl : inv.landing = .create x) :
    out.frame.removed x = true ∨ ∃ a, out.frame.accounts[x]? = some (some a) ∧ a.address = x ∧
      a.hasCode = false ∧ out.frame.readOnly = false := by
  have hkeyed := h.invoke_keyed hk
  rcases h.invoke_cases with ⟨variant, -, hasks⟩ | ⟨variant, -, hasks⟩
  · obtain rfl : inv.call.callee = x := Landing.create.inj (hasks.landing.symm.trans hl)
    obtain ⟨base, -, hopen⟩ := hasks.frame
    obtain ⟨-, hw⟩ := Frame.openAccount_eq_ok.1 hopen
    have hseen : (inv.frame.view (m'.view env)).account inv.call.callee =
        .ok (some { address := inv.call.callee }) := Frame.account_put_self hw
    have htouched : inv.frame.accounts[inv.call.callee]? ≠ none := by
      obtain ⟨-, -, hframe⟩ := Frame.write_put.1 hw
      simp [hframe]
    obtain ⟨start, code, hm, heffects⟩ := hp.affects hr
    have hmoved := Call.move_preserves hkeyed hm
    have hpreserves := hmoved.trans (heffects.preserves (hmoved.writes.keyed hkeyed))
    refine (hpreserves.kept hseen).imp_right fun ⟨b, hb, halike⟩ => ⟨b, ?_, ?_, ?_, ?_⟩
    · obtain ⟨entry, hentry⟩ := Option.ne_none_iff_exists'.1 (hp.writes.touched htouched)
      simp only [Outcome.world, Frame.view, Frame.account, hentry] at hb
      rw [hentry, Except.ok.inj hb]
    · exact hp.writes.keyed hkeyed _ b hb
    · have hcode : b.code = [] := halike.code
      simp [Account.hasCode, hcode]
    · obtain ⟨hopened, hsame, -⟩ := Frame.write_keeps hw
      exact hp.writes.keeps.1.trans (hsame.trans hopened)
  · obtain ⟨offset, size, hlanding⟩ := hasks.landing
    rw [hlanding] at hl
    cases hl

theorem Stepped.install_cases {env : Env} {m m' : Machine} {op : Opcode} {inv : Invocation}
    {out : Outcome} {output : Bytes} (h : Stepped env m op (.invoke inv) m')
    (hk : (m'.view env).Keyed)
    (hp : Performed env.host (m'.view env) inv.frame inv.call m'.sequence out)
    (hr : out.result = .ok output) :
    (∃ x, inv.landing = .create x ∧ out.frame.removed x = true ∧
      inv.landing.install (m'.view env) output out.frame = .error (.missingAccount x)) ∨
    ((∀ x, inv.landing = .create x → out.frame.removed x = false) ∧
      ∃ child, inv.landing.install (m'.view env) output out.frame = .ok child ∧
        ∀ x, Tower.Pending child x ↔ Tower.Pending out.frame x) := by
  cases hl : inv.landing with
  | memory offset size =>
    refine Or.inr ⟨fun x hx => ?_, out.frame, rfl, fun x => Iff.rfl⟩
    cases hx
  | create x =>
    rcases h.created_cases hk hp hr hl with hgone | ⟨a, ha, haddress, hcode, hro⟩
    · exact Or.inl ⟨x, rfl, hgone, Frame.installCode_of_removed hgone _ output⟩
    · have hthere : out.frame.removed x = false := by simp [Frame.removed, ha]
      have hread : (out.frame.view (m'.view env)).account x = .ok (some a) := by
        simp only [Frame.view, Frame.account, ha]
      have hput : out.frame.write (.put { a with code := output }) = .ok _ :=
        Frame.write_put.2 ⟨hro, haddress ▸ hthere, rfl⟩
      have hinstall := Frame.installCode_eq_ok.2 ⟨a, hread, hcode, hput⟩
      refine Or.inr ⟨fun y hy => ?_, _, hinstall, Tower.pending_put hput (haddress ▸ ha)⟩
      cases hy
      exact hthere

/-- The caller's frame refuses what a call hands down exactly if something in it is for an account that
the caller has removed. -/
theorem Stepped.sync_error_iff {env : Env} {m m' : Machine} {op : Opcode} {inv : Invocation}
    {child : Frame} (h : Stepped env m op (.invoke inv) m') (hw : Frame.Writes inv.frame child)
    (fault : Fault) :
    (child.sync m'.frame).2.2 = .error fault ↔
      fault = .illegalWrite ∧ ∃ x, m'.frame.removed x = true ∧ Tower.Pending child x := by
  obtain ⟨base, habove, -, hwrites⟩ := h.above
  have hguarded : Tower.Guarded base m'.frame := by
    intro hro
    rw [h.writes.keeps.1] at hro
    exact ⟨habove.readOnly hro, habove.accounts, habove.slots⟩
  exact (hguarded.writes (hwrites.trans hw)).sync_error_iff (hw.coherent h.invoke_coherent) fault

/-! ### The caller after its call -/

/-- The changes of a call are such that the frame `caller` can take them: the contract that it was to
create is there, and none of them is for an account that the caller has removed. -/
structure Outcome.Acceptable (out : Outcome) (landing : Landing) (caller : Frame) : Prop where
  created : ∀ x, landing = .create x → out.frame.removed x = false
  apart : ∀ x, caller.removed x = true → ¬ Tower.Pending out.frame x

/-- The caller `k` has become `k'` with the unused gas and the word of its call; what it may lack is
gas for the word, or room in memory for the output. -/
structure Survives (k : Machine) (inv : Invocation) (out : Outcome) (k' : Machine) : Prop where
  refunds : ∃ refunded : Machine,
    refunded.meter = { k.meter with gas := k.meter.gas + out.gas } ∧
    refunded.stack = k.stack ∧ refunded.memory = k.memory ∧
    k' = ((Exec.land inv.landing out.result).run refunded).2.advance
  answers : k'.stack.items = inv.landing.word out.result :: k.stack.items ∨
    k'.meter.fault = some .insufficientGas
  shortage : ∀ fault, k'.meter.fault = some fault → fault.IsShortage

/-- The caller `k` has become `k'` with a fault, and neither gas nor a word nor a record. -/
structure Aborted (k : Machine) (fault : Fault) (k' : Machine) : Prop where
  meter : k'.meter = { k.meter with fault := some fault }
  stack : k'.stack = k.stack
  trace : k'.trace = k.trace

theorem survives_land {k : Machine} {inv : Invocation} {out : Outcome} (frame : Frame)
    (trace : Trace) (hroom : k.stack.HasRoom) (hfault : k.meter.fault = none)
    (hgas : k.meter.gas + out.gas ≤ gasLimit) :
    Survives k inv out
      ((Exec.land inv.landing out.result).run (k.received inv out frame trace)).2.advance := by
  have hmeter : (k.received inv out frame trace).meter =
      { k.meter with gas := k.meter.gas + out.gas } := Meter.refund_of_le hgas
  have hclear : (k.received inv out frame trace).meter.fault = none := by
    rw [hmeter]
    exact hfault
  have hreceived : (k.received inv out frame trace).stack.HasRoom := hroom
  obtain ⟨hanswers, hshortage⟩ := Exec.land_of_hasRoom inv.landing out.result hreceived hclear
  exact ⟨⟨_, hmeter, rfl, rfl, rfl⟩, hanswers, hshortage⟩

theorem aborted_recorded {k : Machine} (frame : Frame) (sequence : CreateSequence) (fault : Fault)
    (hfault : k.meter.fault = none) :
    Aborted k fault (({ k with frame, sequence } : Machine).recorded fault).advance := by
  refine ⟨?_, rfl, rfl⟩
  show k.meter.record fault = _
  rw [Meter.record, hfault]

inductive Returned (k : Machine) (inv : Invocation) (out : Outcome) (k' : Machine) : Prop where
  | taken (h : ∀ output, out.result = .ok output → out.Acceptable inv.landing k.frame)
      (hs : Survives k inv out k')
  | destroyed {output : Bytes} {x : Address} (hr : out.result = .ok output)
      (hl : inv.landing = .create x) (hx : out.frame.removed x = true)
      (ha : Aborted k (.missingAccount x) k')
  | revived {output : Bytes} {x : Address} (hr : out.result = .ok output)
      (hx : k.frame.removed x = true) (hp : Tower.Pending out.frame x)
      (ha : Aborted k .illegalWrite k')

theorem Takes.returned {env : Env} {m m' : Machine} {op : Opcode} {inv : Invocation} {out : Outcome}
    (h : Takes env m op (.invoke inv) m') (hwithin : m.stack.Within) (hk : (m'.view env).Keyed)
    (hgas : m'.meter.gas + out.gas ≤ gasLimit)
    (hp : Performed env.host (m'.view env) inv.frame inv.call m'.sequence out) :
    Returned m' inv out (m'.after env inv out) := by
  have hstepped := h.stepped
  have hroom := h.hasRoom hwithin
  have hfault := hstepped.invoke_unfaulted
  unfold Machine.after
  cases hr : out.result with
  | error fault =>
    rw [Exec.resume_error env inv hr]
    refine .taken (fun output hok => ?_) (survives_land m'.frame m'.trace hroom hfault hgas)
    rw [hr] at hok
    cases hok
  | ok output =>
    obtain ⟨done, m₁, hsettled, hrun⟩ := Exec.resume_settled env inv hr m'
    rw [hrun]
    -- what happened must agree with what the frames say: the code was installed or the account is gone,
    -- and the changes were taken or one of them is for an account that the caller has removed
    rcases hstepped.install_cases hk hp hr with ⟨x, hl, hgone, hi⟩ | ⟨hcreated, child, hi, hpending⟩
    · cases hsettled with
      | done hi' _ => cases hi.symm.trans hi'
      | uninstalled hi' =>
        cases hi.symm.trans hi'
        exact .destroyed hr hl hgone (aborted_recorded m'.frame out.sequence _ hfault)
      | refused hi' _ => cases hi.symm.trans hi'
    · have hsync := hstepped.sync_error_iff (hp.writes.trans (Landing.install_writes hi))
      cases hsettled with
      | done hi' hs =>
        cases hi.symm.trans hi'
        have hapart : ∀ x, m'.frame.removed x = true → ¬ Tower.Pending out.frame x := by
          intro x hx hpend
          have hrefused := (hsync .illegalWrite).2 ⟨rfl, x, hx, (hpending x).2 hpend⟩
          rw [hs] at hrefused
          cases hrefused
        exact .taken (fun _ _ => ⟨hcreated, hapart⟩) (survives_land _ _ hroom hfault hgas)
      | uninstalled hi' => cases hi.symm.trans hi'
      | refused hi' hs =>
        cases hi.symm.trans hi'
        obtain ⟨rfl, x, hx, hpend⟩ := (hsync _).1 (congrArg Prod.snd hs)
        exact .revived hr hx ((hpending x).1 hpend) (aborted_recorded _ out.sequence _ hfault)

/-! ### Every call that a run comes to -/

theorem Begun.keyed {host : Host} {below : View} {frame : Frame} {call : Call}
    {sequence : CreateSequence} {inner : Env} {start : Machine}
    (h : Begun host below frame call sequence (.running inner start))
    (hk : (frame.view below).Keyed) : (start.view inner).Keyed := by
  cases h with
  | running hm => exact (Call.move_writes hm).keyed hk

theorem Proceeds.writes {env : Env} {m m' : Machine} {op : Opcode} (h : Proceeds env m op m') :
    Frame.Writes m.frame m'.frame := by
  cases h with
  | next ht => exact ht.stepped.writes
  | jumped ht => exact ht.stepped.writes
  | nested ht _ => exact ht.after_writes _

theorem Visits.keyed {env e : Env} {m k : Machine} (h : Visits env m e k)
    (hk : (m.view env).Keyed) : (k.view e).Keyed := by
  induction h with
  | here => exact hk
  | later hp _ ih => exact ih (hp.writes.keyed hk)
  | @inside env inner e m m₁ start k op inv ht hb _ ih =>
    have hcaller : (m₁.view env).Keyed := ht.stepped.writes.keyed hk
    exact ih ((hb ▸ inv.begun env m₁).keyed (ht.stepped.invoke_keyed hcaller))

/-- Wherever an execution makes a call, the caller survives it if the call fails or hands down changes
that the caller's frame can take; and if it cannot take them, the caller is aborted. -/
theorem callers_survive_acceptable_calls {σ : Type} [Store σ] (engine : Engine) (chain : Chain)
    (store : σ) (call : Call) (code : Bytes) (hkeyed : (Store.view store).Keyed)
    (hgas : call.gas ≤ gasLimit) (env : Env) (m : Machine)
    (hbegin : (engine.host chain).begin (Store.view store) (Frame.root engine.options.callMaxDepth)
      call (.code code) engine.sequence = .running env m)
    (e : Env) (k k₁ : Machine) (op : Opcode) (inv : Invocation) (fuel : Nat) (out : Outcome)
    (hvisits : Visits env m e k) (htakes : Takes e k op (.invoke inv) k₁)
    (hout : inv.perform fuel e k₁ = some out) :
    ((∀ output, out.result = .ok output → out.Acceptable inv.landing k₁.frame) →
      Survives k₁ inv out (k₁.after e inv out)) ∧
    ∀ output, out.result = .ok output → ¬ out.Acceptable inv.landing k₁.frame →
      ∃ fault, Aborted k₁ fault (k₁.after e inv out) ∧
        (fault = .illegalWrite ∨
          ∃ x, inv.landing = .create x ∧ out.frame.removed x = true ∧ fault = .missingAccount x) := by
  have hbegun := hbegin ▸ (engine.host chain).begun (Store.view store)
    (Frame.root engine.options.callMaxDepth) call (.code code) engine.sequence
  have hroot : ((Frame.root engine.options.callMaxDepth).view (Store.view store)).Keyed := by
    rw [Frame.view_of_empty rfl rfl]
    exact hkeyed
  have hk : (k₁.view e).Keyed :=
    htakes.stepped.writes.keyed (hvisits.keyed (hbegun.keyed hroot))
  have hceiling : k₁.meter.gas + out.gas ≤ gasLimit := by
    have hstart : m.meter.gas = call.gas := hbegun.start_gas
    have hvisited := hvisits.gas_le
    have hgiven : inv.call.gas + k₁.meter.gas ≤ k.meter.gas := htakes.stepped.gas
    have hback : out.gas ≤ inv.call.gas := Host.perform_gas hout
    omega
  have hreturned := htakes.returned (hvisits.within hbegun.start_within) hk hceiling
    (Host.performed hout)
  cases hreturned with
  | taken hacceptable hsurvives =>
    exact ⟨fun _ => hsurvives, fun output hr hnot => absurd (hacceptable output hr) hnot⟩
  | destroyed hr hl hgone haborted =>
    refine ⟨fun hacceptable => ?_, fun _ _ _ => ⟨_, haborted, Or.inr ⟨_, hl, hgone, rfl⟩⟩⟩
    have hthere := (hacceptable _ hr).created _ hl
    rw [hgone] at hthere
    cases hthere
  | revived hr hgone hpending haborted =>
    refine ⟨fun hacceptable => ?_, fun _ _ _ => ⟨_, haborted, Or.inl rfl⟩⟩
    exact absurd hpending ((hacceptable _ hr).apart _ hgone)

/-! ### A contract that destroys itself while it is created -/

/-- Code that creates a contract whose initial code destroys it. -/
def createDestroyed : Bytes :=
  [0x60, 0x33, 0x60, 0, 0x53, 0x60, 0xff, 0x60, 1, 0x53, 0x60, 2, 0x60, 0, 0x60, 0, 0xf0]

def creatorEnv : Env :=
  { relayEnv 0 with code := Code.ofBytes createDestroyed }

def relayStart : Machine :=
  Machine.start {} 1000 (Frame.root 0) {}

theorem createDestroyed_runs :
    ∃ (k k₁ : Machine) (inv : Invocation) (out : Outcome),
      Visits creatorEnv relayStart creatorEnv k ∧
      Takes creatorEnv k (.create .sequenced) (.invoke inv) k₁ ∧
      inv.perform 40 creatorEnv k₁ = some out ∧ out.result = .ok [] ∧
      inv.landing = .create inv.call.callee ∧ out.frame.removed inv.call.callee = true ∧
      (k₁.after creatorEnv inv out).meter.fault = some (.missingAccount inv.call.callee) := by
  -- nine instructions write the initial code to memory and put the operands on the stack
  have hrun : (relayStart.walk creatorEnv 9).bind (fun k =>
      ((Exec.step creatorEnv (.create .sequenced)).run (k.fetch creatorEnv).1).1.invocation?.bind
        fun inv =>
          let k₁ := ((Exec.step creatorEnv (.create .sequenced)).run (k.fetch creatorEnv).1).2
          (inv.perform 40 creatorEnv k₁).map fun out =>
            ((k.fetch creatorEnv).2, out.result, out.frame.removed inv.call.callee,
              decide ((k₁.after creatorEnv inv out).meter.fault =
                some (.missingAccount inv.call.callee)))) =
      some (.ok (.create .sequenced), .ok [], true, true) := by
    decide +kernel
  obtain ⟨k, hwalk, hrun⟩ := Option.bind_eq_some_iff.1 hrun
  obtain ⟨inv, hinv, hrun⟩ := Option.bind_eq_some_iff.1 hrun
  obtain ⟨out, hout, hvalues⟩ := Option.map_eq_some_iff.1 hrun
  obtain ⟨hop, hvalues⟩ := Prod.mk.inj hvalues
  obtain ⟨hresult, hvalues⟩ := Prod.mk.inj hvalues
  obtain ⟨hgone, hfault⟩ := Prod.mk.inj hvalues
  have htakes := Takes.of_fetch hop
  rw [Flow.eq_invoke hinv] at htakes
  have hlanding : inv.landing = .create inv.call.callee := by
    rcases htakes.stepped.invoke_cases with ⟨variant, -, hasks⟩ | ⟨variant, hcall, -⟩
    · exact hasks.landing
    · cases hcall
  exact ⟨k, _, inv, out, visits_of_walk hwalk, htakes, hout, hresult, hlanding, hgone,
    of_decide_eq_true hfault⟩

theorem destroyed_creation_aborts_its_caller :
    (∃ (k k₁ : Machine) (inv : Invocation) (out : Outcome),
      Visits spenderEnv relayStart spenderEnv k ∧
      Takes spenderEnv k (.call .plain) (.invoke inv) k₁ ∧
      inv.perform 40 spenderEnv k₁ = some out ∧ out.result = .ok [] ∧
      Survives k₁ inv out (k₁.after spenderEnv inv out)) ∧
    ∃ (k k₁ : Machine) (inv : Invocation) (out : Outcome),
      Visits creatorEnv relayStart creatorEnv k ∧
      Takes creatorEnv k (.create .sequenced) (.invoke inv) k₁ ∧
      inv.perform 40 creatorEnv k₁ = some out ∧ out.result = .ok [] ∧
      Aborted k₁ (.missingAccount inv.call.callee) (k₁.after creatorEnv inv out) := by
  have hkeyed : (Store.view relayLedger).Keyed := (Ledger.keyed_iff _).1 relayLedger_keyed
  have hgas : relayCall.gas ≤ gasLimit := by decide
  constructor
  · have hrun : (relayStart.walk spenderEnv 7).bind (fun k =>
        ((Exec.step spenderEnv (.call .plain)).run (k.fetch spenderEnv).1).1.invocation?.bind
          fun inv =>
            let k₁ := ((Exec.step spenderEnv (.call .plain)).run (k.fetch spenderEnv).1).2
            (inv.perform 40 spenderEnv k₁).map fun out =>
              ((k.fetch spenderEnv).2, out.result, k₁.frame.accounts.isEmpty)) =
        some (.ok (.call .plain), .ok [], true) := by
      decide +kernel
    obtain ⟨k, hwalk, hrun⟩ := Option.bind_eq_some_iff.1 hrun
    obtain ⟨inv, hinv, hrun⟩ := Option.bind_eq_some_iff.1 hrun
    obtain ⟨out, hout, hvalues⟩ := Option.map_eq_some_iff.1 hrun
    obtain ⟨hop, hvalues⟩ := Prod.mk.inj hvalues
    obtain ⟨hresult, hempty⟩ := Prod.mk.inj hvalues
    have htakes := Takes.of_fetch hop
    rw [Flow.eq_invoke hinv] at htakes
    have hvisits := visits_of_walk hwalk
    obtain ⟨hsurvives, -⟩ := callers_survive_acceptable_calls (Engine.new {})
      (Chain.withHashes 1 0 ∅) relayLedger relayCall (callTo 12) hkeyed hgas _ _ rfl _ _ _ _ _ _ _
      hvisits htakes hout
    refine ⟨k, _, inv, out, hvisits, htakes, hout, hresult, hsurvives fun _ _ => ⟨?_, ?_⟩⟩
    · intro x hx
      rcases htakes.stepped.invoke_cases with ⟨variant, hcreate, -⟩ | ⟨variant, -, hasks⟩
      · cases hcreate
      · obtain ⟨offset, size, hlanding⟩ := hasks.landing
        rw [hlanding] at hx
        cases hx
    · intro x hx
      have hnone := Std.TreeMap.getElem?_of_isEmpty (a := x) hempty
      rw [Frame.removed_iff.1 hx] at hnone
      cases hnone
  · obtain ⟨k, k₁, inv, out, hvisits, htakes, hout, hresult, hlanding, hgone, hfault⟩ :=
      createDestroyed_runs
    obtain ⟨-, haborts⟩ := callers_survive_acceptable_calls (Engine.new {})
      (Chain.withHashes 1 0 ∅) relayLedger relayCall createDestroyed hkeyed hgas _ _ rfl _ _ _ _ _ _ _
      hvisits htakes hout
    have hnot : ¬ out.Acceptable inv.landing k₁.frame := by
      intro hacceptable
      have hthere := hacceptable.created _ hlanding
      rw [hgone] at hthere
      cases hthere
    obtain ⟨fault, haborted, -⟩ := haborts [] hresult hnot
    obtain rfl : fault = .missingAccount inv.call.callee := by
      rw [haborted.meter] at hfault
      exact Option.some.inj hfault
    exact ⟨k, k₁, inv, out, hvisits, htakes, hout, hresult, haborted⟩

theorem callee_can_abort_its_caller :
    ¬ ∀ (engine : Engine) (chain : Chain) (ledger : Ledger) (call : Call) (code : Bytes)
        (env : Env) (m : Machine) (e : Env) (k k₁ : Machine) (op : Opcode) (inv : Invocation)
        (fuel : Nat) (out : Outcome),
      ledger.Keyed → call.gas ≤ gasLimit →
      (engine.host chain).begin ledger.view (Frame.root engine.options.callMaxDepth) call
        (.code code) engine.sequence = .running env m →
      Visits env m e k → Takes e k op (.invoke inv) k₁ → inv.perform fuel e k₁ = some out →
        Survives k₁ inv out (k₁.after e inv out) := by
  intro hsurvive
  obtain ⟨k, k₁, inv, out, hvisits, htakes, hout, -, -, -, hfault⟩ := createDestroyed_runs
  have hsurvives := hsurvive (Engine.new {}) (Chain.withHashes 1 0 ∅) relayLedger relayCall
    createDestroyed _ _ _ _ _ _ _ _ _ relayLedger_keyed (by decide) rfl hvisits htakes hout
  rcases hsurvives.shortage _ hfault with hshort | ⟨text, hshort⟩
  · cases hshort
  · cases hshort

end ContractVm
