import Mathlib
import ContractVm.Proofs.Digits
import ContractVm.Proofs.Engine

/-! # Addresses are derived once

A creation without a salt takes the next address of its creator from a sequence, and the sequence
goes on from there whatever becomes of the creation: a frame that is dropped drops its changes, but
the sequence is handed on. `derivations` lists the addresses that a run derives, in order and with
those of its nested calls, and `run_consecutive` says that they take the sequence on one step each.
What is hashed for them has fixed places for the creator, the nonce and the count, so no two of them
hash the same bytes. -/

namespace ContractVm

structure Derivation where
  creator : Address
  sequence : CreateSequence
  deriving DecidableEq

namespace Derivation

def preimage (d : Derivation) : Bytes :=
  noncePreimage d.creator d.sequence.currentNonce

def digest (d : Derivation) : Bytes :=
  (Word.toBytes (sha256 d.preimage)).take 20

def address (d : Derivation) : Address :=
  nonceAddress d.creator d.sequence.currentNonce

theorem length_preimage (d : Derivation) : d.preimage.length = 60 := by
  simp [preimage, noncePreimage, CreateSequence.currentNonce, CreateSequence.nonceLength]

theorem count_eq_of_preimage {a b : Derivation} (ha : a.sequence.count < 2 ^ 64)
    (hb : b.sequence.count < 2 ^ 64) (h : a.preimage = b.preimage) :
    a.sequence.count = b.sequence.count := by
  simp only [preimage, noncePreimage, CreateSequence.currentNonce, ← List.append_assoc] at h
  have hcount : Bytes.ofNat 8 a.sequence.count = Bytes.ofNat 8 b.sequence.count :=
    List.append_inj_right' h (by simp)
  have hsize : (256 : Nat) ^ 8 = 2 ^ 64 := by norm_num
  rw [← hsize] at ha hb
  exact Bytes.ofNat_inj ha hb hcount

theorem address_eq_iff (a b : Derivation) : a.address = b.address ↔ a.digest = b.digest := by
  have hlength : ∀ d : Derivation, d.digest.length = 20 := by simp [digest]
  constructor
  · intro h
    exact Address.ofBytes_inj (hlength a) (hlength b) h
  · intro h
    exact congrArg Address.ofBytes h

end Derivation

/-- The derivations take a sequence on from the first to the second, one step each. -/
inductive Consecutive : CreateSequence → List Derivation → CreateSequence → Prop where
  | nil {s : CreateSequence} : Consecutive s [] s
  | cons {s t : CreateSequence} {d : Derivation} {ds : List Derivation}
      (hd : d.sequence = s.advance) (rest : Consecutive s.advance ds t) : Consecutive s (d :: ds) t

namespace Consecutive

variable {s t u : CreateSequence} {as bs ds : List Derivation}

theorem append (h : Consecutive s as t) (h' : Consecutive t bs u) : Consecutive s (as ++ bs) u := by
  induction h with
  | nil => exact h'
  | cons hd _ ih => exact .cons hd (ih h')

theorem last_eq (h : Consecutive s ds t) : t = ⟨s.nonce, s.count + ds.length⟩ := by
  induction h with
  | nil => rfl
  | @cons s t d ds _ _ ih =>
    rw [ih, List.length_cons]
    simp only [CreateSequence.advance, CreateSequence.mk.injEq, true_and]
    omega

theorem sequences (h : Consecutive s ds t) :
    ds.map (·.sequence) = (List.range' (s.count + 1) ds.length).map (CreateSequence.mk s.nonce) := by
  induction h with
  | nil => rfl
  | @cons s t d ds hd _ ih =>
    rw [List.map_cons, ih, hd, List.length_cons, List.range'_succ, List.map_cons]
    rfl

theorem counts (h : Consecutive s ds t) :
    ds.map (·.sequence.count) = List.range' (s.count + 1) ds.length := by
  have hcounts := congrArg (List.map CreateSequence.count) h.sequences
  simpa [Function.comp_def] using hcounts

theorem mem (h : Consecutive s ds t) {d : Derivation} (hd : d ∈ ds) :
    d.sequence.nonce = s.nonce ∧ s.count < d.sequence.count ∧ d.sequence.count ≤ t.count := by
  have hmem : d.sequence ∈ ds.map (·.sequence) := List.mem_map_of_mem hd
  rw [h.sequences, List.mem_map] at hmem
  obtain ⟨count, hrange, hsequence⟩ := hmem
  rw [List.mem_range'_1] at hrange
  rw [← hsequence, h.last_eq]
  dsimp only
  exact ⟨rfl, by omega, by omega⟩

theorem increasing (h : Consecutive s ds t) :
    ds.Pairwise fun a b => a.sequence.count < b.sequence.count := by
  have hrange : (ds.map (·.sequence.count)).Pairwise (· < ·) := by
    rw [h.counts]
    exact List.pairwise_lt_range'
  exact List.pairwise_map.1 hrange

end Consecutive

/-! ### The derivation of one instruction -/

namespace Exec

/-- The first part of a creation: it takes the operands and pays. The value is what it sends, its
initialisation code and its salt. -/
def createOperands (env : Env) (variant : CreateVariant) : Exec (Word × Bytes × Option Word) := do
  setReturnData []
  let value ← pop
  let offset ← pop
  let size ← pop
  let input ← readMemory offset size
  charge env.prices.createAccount
  let salt ← popSalt variant
  return (value, input, salt)

/-- The last part of a creation, which has its address by then. -/
def createAt (env : Env) (value : Word) (input : Bytes) (address : Address) :
    Exec (Option Invocation) := do
  let some () ← attempt (env.host.permissions.ensure env.call.callee .createContract)
    | return none
  let some child ← attempt (← get).frame.child | return none
  let some child ← attempt (child.openAccount ((← get).view env) address) | return none
  let gas := (← get).meter.gas
  charge gas
  return some
    { call :=
        { origin := env.call.origin, caller := env.call.callee, callee := address, input, value,
          gas, kind := .create }
      target := .code input
      frame := child
      landing := .create address }

/-- A creation derives its address between its two other parts, if there is no fault by then. -/
theorem run_prepareCreate (env : Env) (variant : CreateVariant) (m : Machine) :
    (prepareCreate env variant).run m =
      let taken := (createOperands env variant).run m
      if taken.2.meter.faulty then (none, taken.2)
      else (newAddress env.call.callee taken.1.2.2 taken.1.2.1 >>=
        createAt env taken.1.1 taken.1.2.1).run taken.2 := by
  have hparts : (prepareCreate env variant).run m =
      (if ((createOperands env variant).run m).2.meter.faulty = true then pure none
        else newAddress env.call.callee ((createOperands env variant).run m).1.2.2
            ((createOperands env variant).run m).1.2.1 >>=
          createAt env ((createOperands env variant).run m).1.1
            ((createOperands env variant).run m).1.2.1).run
        ((createOperands env variant).run m).2 := rfl
  rw [hparts]
  dsimp only
  split
  · rfl
  · rfl

theorem inward_createOperands (env : Env) (variant : CreateVariant) :
    Inward (fun taken => taken.2.2 = none ↔ variant = .sequenced) (createOperands env variant) := by
  refine (quiet_setReturnData []).bind fun _ => quiet_pop.bind fun value => ?_
  refine quiet_pop.bind fun offset => quiet_pop.bind fun size => ?_
  refine (quiet_readMemory offset size).bind fun input => (quiet_charge _).bind fun _ => ?_
  cases variant with
  | sequenced => exact Inward.pure (by simp)
  | salted =>
    have hsalted : Inward (fun taken => taken.2.2 = none ↔ CreateVariant.salted = .sequenced)
        (pop >>= fun salt => pure (value, input, some salt)) :=
      quiet_pop.bind fun salt => .pure (by simp)
    exact hsalted

theorem quiet_createAt (env : Env) (value : Word) (input : Bytes) (address : Address) :
    Quiet (createAt env value input address) := by
  refine (quiet_attempt _).bind fun permitted => ?_
  cases permitted with
  | none => exact .pure trivial
  | some _ =>
    refine .get_bind fun m => (quiet_attempt _).bind fun child => ?_
    cases child with
    | none => exact .pure trivial
    | some child =>
      refine .get_bind fun m => (quiet_attempt _).bind fun opened => ?_
      cases opened with
      | none => exact .pure trivial
      | some frame => exact .get_bind fun m => (quiet_charge _).bind fun _ => .pure trivial

theorem createAt_callee {env : Env} {value : Word} {input : Bytes} {address : Address} {m : Machine}
    {inv : Invocation} (h : ((createAt env value input address).run m).1 = some inv) :
    inv.call.callee = address := by
  have hcalls : Ensures (fun _ => True) (createAt env value input address)
      fun asked _ => ∀ inv, asked = some inv → inv.call.callee = address := by
    refine .attempt_bind (fun _ _ => .get_bind fun m _ => ?_) fun _ _ _ _ => .pure (by simp)
    refine .attempt_bind (fun child _ => .get_bind fun m _ => ?_) fun _ _ _ _ => .pure (by simp)
    refine .attempt_bind (fun frame _ => .get_bind fun m _ => ?_) fun _ _ _ _ => .pure (by simp)
    intro m' _ inv hinv
    cases hinv
    rfl
  exact hcalls m trivial inv h

end Exec

/-- The derivation that an instruction makes: a creation without a salt makes one once it has taken
its operands, whether or not it goes on from there. -/
def derivation? (env : Env) (op : Opcode) (m : Machine) : Option Derivation :=
  match op with
  | .create .sequenced =>
    let taken := ((Exec.createOperands env .sequenced).run m).2
    if taken.meter.faulty then none else some ⟨env.call.callee, taken.sequence.advance⟩
  | _ => none

theorem Stepped.sequence_eq {env : Env} {m m' : Machine} {op : Opcode} {flow : Flow}
    (h : Stepped env m op flow m') (hop : ∀ variant, op ≠ .create variant) :
    m'.sequence = m.sequence := by
  cases h with
  | inward _ h => exact h.sequence
  | stored _ h => exact h.sequence
  | logged _ _ h => exact h.sequence
  | opened _ _ _ h _ => exact h.sequence
  | destroyed _ _ _ h => exact h.sequence
  | sequenced _ _ => exact absurd rfl (hop _)
  | creates _ => exact absurd rfl (hop _)
  | calls h => exact h.turns.sequence

namespace Exec

theorem prepareCreate_salted (env : Env) (m : Machine) :
    ((prepareCreate env .salted).run m).2.sequence = m.sequence := by
  obtain ⟨htaken, hsalt⟩ := inward_createOperands env .salted m
  have hsequence := htaken.sequence
  rw [run_prepareCreate]
  dsimp only
  generalize (createOperands env .salted).run m = taken at hsalt hsequence
  obtain ⟨⟨value, input, salt⟩, m₁⟩ := taken
  split
  · exact hsequence
  · cases salt with
    | none => simp at hsalt
    | some salt => exact ((quiet_createAt env value input _ m₁).1.sequence).trans hsequence

theorem prepareCreate_sequenced {env : Env} {m : Machine}
    (h : ((createOperands env .sequenced).run m).2.meter.faulty = false) :
    ((prepareCreate env .sequenced).run m).2.sequence = m.sequence.advance ∧
      ∀ inv, ((prepareCreate env .sequenced).run m).1 = some inv →
        inv.call.callee = Derivation.address ⟨env.call.callee, m.sequence.advance⟩ := by
  obtain ⟨htaken, hsalt⟩ := inward_createOperands env .sequenced m
  have hsequence : ((createOperands env .sequenced).run m).2.sequence = m.sequence :=
    htaken.sequence
  rw [run_prepareCreate]
  dsimp only
  generalize (createOperands env .sequenced).run m = taken at h hsalt hsequence
  obtain ⟨⟨value, input, salt⟩, m₁⟩ := taken
  obtain rfl : salt = none := hsalt.2 rfl
  dsimp only at h hsequence ⊢
  rw [h, ← hsequence]
  constructor
  · exact (quiet_createAt env value input _ _).1.sequence
  · intro inv hinv
    exact createAt_callee hinv

theorem prepareCreate_faulty {env : Env} {variant : CreateVariant} {m : Machine}
    (h : ((createOperands env variant).run m).2.meter.faulty = true) :
    (prepareCreate env variant).run m = (none, ((createOperands env variant).run m).2) := by
  rw [run_prepareCreate]
  exact if_pos h

end Exec

/-- What an instruction does to the sequence: nothing, or it makes a derivation and takes the sequence
one step on. -/
inductive Derives (env : Env) (op : Opcode) (m m' : Machine) (flow : Flow) : Prop where
  | nothing (hd : derivation? env op m = none) (hs : m'.sequence = m.sequence)
  | address (hd : derivation? env op m = some ⟨env.call.callee, m.sequence.advance⟩)
      (hs : m'.sequence = m.sequence.advance)
      (hc : ∀ inv, flow = .invoke inv →
        inv.call.callee = Derivation.address ⟨env.call.callee, m.sequence.advance⟩)

theorem Exec.step_derives {env : Env} {op : Opcode} {m m' : Machine} {flow : Flow}
    (h : (step env op).run m = (flow, m')) : Derives env op m m' flow := by
  by_cases hop : ∀ variant, op ≠ .create variant
  · have hnone : derivation? env op m = none := by
      unfold derivation?
      split
      · exact absurd rfl (hop .sequenced)
      · rfl
    exact .nothing hnone ((Stepped.of_run h).sequence_eq hop)
  · push Not at hop
    obtain ⟨variant, rfl⟩ := hop
    have hlast : ((prepareCreate env variant).run m).2 = m' := congrArg Prod.snd h
    have hflow : flowOf ((prepareCreate env variant).run m).1 = flow := congrArg Prod.fst h
    subst hlast
    cases variant with
    | salted => exact .nothing rfl (prepareCreate_salted env m)
    | sequenced =>
      have hsequence : ((createOperands env .sequenced).run m).2.sequence = m.sequence :=
        (inward_createOperands env .sequenced m).1.sequence
      cases hf : ((createOperands env .sequenced).run m).2.meter.faulty with
      | true =>
        have hnone : derivation? env (.create .sequenced) m = none := by simp [derivation?, hf]
        rw [prepareCreate_faulty hf]
        exact .nothing hnone hsequence
      | false =>
        obtain ⟨hs, hc⟩ := prepareCreate_sequenced hf
        have hsome : derivation? env (.create .sequenced) m =
            some ⟨env.call.callee, m.sequence.advance⟩ := by
          simp [derivation?, hf, hsequence]
        refine .address hsome hs fun inv hinv => hc inv ?_
        rw [← hflow] at hinv
        cases hasked : ((prepareCreate env .sequenced).run m).1 with
        | none =>
          rw [hasked] at hinv
          cases hinv
        | some asked =>
          rw [hasked] at hinv
          cases hinv
          rfl

theorem Derives.consecutive {env : Env} {op : Opcode} {m m' : Machine} {flow : Flow}
    (h : Derives env op m m' flow) :
    Consecutive m.sequence (derivation? env op m).toList m'.sequence := by
  cases h with
  | nothing hd hs =>
    rw [hd, hs]
    exact .nil
  | address hd hs _ =>
    rw [hd, hs]
    exact .cons rfl .nil

/-! ### The derivations of a run -/

/-- The addresses that a run derives, in order, with those of its nested calls; the bound is that of
`run`. -/
def derivations : Nat → Env → Machine → List Derivation
  | 0, _, _ => []
  | fuel + 1, env, m =>
    match m.fetch env with
    | (_, .error _) => []
    | (m, .ok op) =>
      (derivation? env op m).toList ++
        match (Exec.step env op).run m with
        | (.next, m) => derivations fuel env m.advance
        | (.jumped, m) => derivations fuel env m
        | (.halt _, _) => []
        | (.invoke inv, m) =>
          match inv.begin env m with
          | .over outcome => derivations fuel env (m.after env inv outcome)
          | .running inner start =>
            derivations fuel inner start ++
              match run fuel inner start with
              | none => []
              | some outcome => derivations fuel env (m.after env inv outcome)

theorem Machine.fetch_sequence {env : Env} {m m₁ : Machine} {result : Except Fault Opcode}
    (h : m.fetch env = (m₁, result)) : m₁.sequence = m.sequence := by
  obtain ⟨meter, rfl, -⟩ := Machine.fetch_meter h
  rfl

theorem Machine.halt_sequence (m : Machine) (output : Bytes) :
    (m.halt output).sequence = m.sequence := by
  obtain ⟨result, hhalt⟩ := m.halt_finish output
  rw [hhalt]
  rfl

theorem Begun.over_sequence {host : Host} {below : View} {frame : Frame} {call : Call}
    {sequence : CreateSequence} {out : Outcome}
    (h : Begun host below frame call sequence (.over out)) : out.sequence = sequence := by
  cases h with
  | refused _ => rfl
  | ended _ => rfl

theorem Begun.start_sequence {host : Host} {below : View} {frame : Frame} {call : Call}
    {sequence : CreateSequence} {inner : Env} {start : Machine}
    (h : Begun host below frame call sequence (.running inner start)) :
    start.sequence = sequence := by
  cases h with
  | running _ => rfl

/-- Whatever became of a nested call, the sequence goes on from where it left it. -/
theorem Machine.after_sequence (m : Machine) (env : Env) (inv : Invocation) (out : Outcome) :
    (m.after env inv out).sequence = out.sequence := by
  have hresumed := Exec.resumed env inv out m
  rw [Machine.after, Machine.advance]
  generalize ((Exec.resume env inv out).run m).2 = m' at hresumed
  dsimp only
  cases hresumed with
  | failed _ h => exact h.sequence
  | settled _ _ _ h => exact h.sequence
  | uninstalled _ _ h _ => exact h.sequence
  | refused _ _ _ h _ => exact h.sequence

theorem run_consecutive {fuel : Nat} {env : Env} {m : Machine} {out : Outcome}
    (h : run fuel env m = some out) :
    Consecutive m.sequence (derivations fuel env m) out.sequence := by
  induction fuel generalizing env m out with
  | zero => cases h
  | succ fuel ih =>
    rcases hfetch : m.fetch env with ⟨m₁, fault | op⟩
    · have hkept := Machine.fetch_sequence hfetch
      simp only [run, hfetch] at h
      simp only [derivations, hfetch]
      cases h
      rw [← hkept]
      exact .nil
    · rcases hstep : (Exec.step env op).run m₁ with ⟨flow, m₂⟩
      have hown := (Exec.step_derives hstep).consecutive
      rw [Machine.fetch_sequence hfetch] at hown
      simp only [run, hfetch, hstep] at h
      simp only [derivations, hfetch, hstep]
      refine hown.append ?_
      cases flow with
      | next => exact ih h
      | jumped => exact ih h
      | halt output =>
        cases h
        rw [m₂.halt_sequence]
        exact .nil
      | invoke inv =>
        have hbegun := inv.begun env m₂
        dsimp only at h ⊢
        rcases hb : inv.begin env m₂ with o | ⟨inner, start⟩
        · have hover : o.sequence = m₂.sequence := (hb ▸ hbegun).over_sequence
          rw [Invocation.begin] at hb
          rw [hb] at h
          have hafter := ih (m := m₂.after env inv o) h
          rw [m₂.after_sequence, hover] at hafter
          exact hafter
        · have hstart : start.sequence = m₂.sequence := (hb ▸ hbegun).start_sequence
          rw [Invocation.begin] at hb
          rw [hb] at h
          dsimp only at h ⊢
          cases ho : run fuel inner start with
          | none =>
            rw [ho] at h
            cases h
          | some o =>
            rw [ho] at h
            have hcall := ih ho
            have hafter := ih (m := m₂.after env inv o) h
            rw [m₂.after_sequence] at hafter
            rw [hstart] at hcall
            exact hcall.append hafter

def Host.derivations (host : Host) (fuel : Nat) (below : View) (frame : Frame) (call : Call)
    (target : Target) (sequence : CreateSequence) : List Derivation :=
  match host.begin below frame call target sequence with
  | .over _ => []
  | .running env m => ContractVm.derivations fuel env m

theorem Host.perform_consecutive {host : Host} {fuel : Nat} {below : View} {frame : Frame}
    {call : Call} {target : Target} {sequence : CreateSequence} {out : Outcome}
    (h : host.perform fuel below frame call target sequence = some out) :
    Consecutive sequence (host.derivations fuel below frame call target sequence) out.sequence := by
  have hbegun := host.begun below frame call target sequence
  unfold perform at h
  unfold derivations
  rcases hb : host.begin below frame call target sequence with o | ⟨inner, start⟩
  · rw [hb] at h hbegun
    cases h
    dsimp only
    rw [hbegun.over_sequence]
    exact .nil
  · rw [hb] at h hbegun
    dsimp only at h ⊢
    have hrun := run_consecutive h
    rw [hbegun.start_sequence] at hrun
    exact hrun

/-! ### Wherever a run comes to -/

namespace CreateSequence

/-- The sequence `t` is `s`, the same number of steps on or more. -/
structure Leads (s t : CreateSequence) : Prop where
  nonce : t.nonce = s.nonce
  count : s.count ≤ t.count

theorem Leads.refl (s : CreateSequence) : s.Leads s :=
  ⟨rfl, le_rfl⟩

theorem Leads.trans {s t u : CreateSequence} (h : s.Leads t) (h' : t.Leads u) : s.Leads u :=
  ⟨h'.nonce.trans h.nonce, h.count.trans h'.count⟩

end CreateSequence

theorem Consecutive.leads {s t : CreateSequence} {ds : List Derivation} (h : Consecutive s ds t) :
    s.Leads t := by
  have hlast := h.last_eq
  constructor
  · rw [hlast]
  · rw [hlast]
    exact Nat.le_add_right _ _

theorem Takes.leads {env : Env} {m m' : Machine} {op : Opcode} {flow : Flow}
    (h : Takes env m op flow m') : m.sequence.Leads m'.sequence := by
  obtain ⟨m₁, hfetch, hstep⟩ := h
  have hstepped := (Exec.step_derives hstep).consecutive.leads
  rw [Machine.fetch_sequence hfetch] at hstepped
  exact hstepped

theorem Invocation.perform_leads {inv : Invocation} {fuel : Nat} {env : Env} {m : Machine}
    {out : Outcome} (h : inv.perform fuel env m = some out) : m.sequence.Leads out.sequence :=
  (Host.perform_consecutive h).leads

theorem Proceeds.leads {env : Env} {m m' : Machine} {op : Opcode} (h : Proceeds env m op m') :
    m.sequence.Leads m'.sequence := by
  cases h with
  | next ht => exact ht.leads
  | jumped ht => exact ht.leads
  | @nested m₁ inv fuel o ht ho =>
    rw [m₁.after_sequence]
    exact ht.leads.trans (Invocation.perform_leads ho)

theorem Visits.leads {env e : Env} {m k : Machine} (h : Visits env m e k) :
    m.sequence.Leads k.sequence := by
  induction h with
  | here => exact .refl _
  | later hp _ ih => exact hp.leads.trans ih
  | @inside env inner e m m₁ start k op inv ht hb _ ih =>
    have hstart : start.sequence = m₁.sequence := (hb ▸ inv.begun env m₁).start_sequence
    rw [hstart] at ih
    exact ht.leads.trans ih

/-! ### Several executions -/

def Engine.derivations (engine : Engine) (fuel : Nat) (chain : Chain) (below : View) (call : Call)
    (code : Bytes) : List Derivation :=
  (engine.host chain).derivations fuel below (Frame.root engine.options.callMaxDepth) call
    (.code code) engine.sequence

/-- The engine executes some calls one after the other, over any stores and sinks, derives these
addresses on the way and ends as another. -/
inductive Engine.Executes : Engine → List Derivation → Engine → Prop where
  | idle {engine : Engine} : Executes engine [] engine
  | execute {engine last : Engine} {ds : List Derivation} {σ κ : Type} [Store σ] [EventSink κ]
      {fuel : Nat} {chain : Chain} {store : σ} {sink : κ} {call : Call} {code : Bytes}
      {report : Report σ κ} (h : engine.execute fuel chain store sink call code = some report)
      (rest : Executes report.engine ds last) :
      Executes engine (engine.derivations fuel chain (Store.view store) call code ++ ds) last

theorem Engine.execute_consecutive {σ κ : Type} [Store σ] [EventSink κ] {engine : Engine} {fuel : Nat}
    {chain : Chain} {store : σ} {sink : κ} {call : Call} {code : Bytes} {report : Report σ κ}
    (h : engine.execute fuel chain store sink call code = some report) :
    Consecutive engine.sequence (engine.derivations fuel chain (Store.view store) call code)
      report.engine.sequence := by
  obtain ⟨out, hout, h⟩ := Option.bind_eq_some_iff.1 h
  have hsequence : out.sequence = report.engine.sequence :=
    congrArg (fun r => r.engine.sequence) (Option.some.inj h)
  rw [← hsequence]
  exact Host.perform_consecutive hout

theorem Engine.Executes.consecutive {engine last : Engine} {ds : List Derivation}
    (h : engine.Executes ds last) : Consecutive engine.sequence ds last.sequence := by
  induction h with
  | idle => exact .nil
  | execute h _ ih => exact (Engine.execute_consecutive h).append ih

/-- Executions that follow each other derive addresses under one nonce and consecutive counts, so
that what is hashed for one of them, 60 bytes with the creator, the nonce at its length and the count
in fixed places, is hashed for no other; two of their addresses are the same only if the digests of
such different bytes begin alike. The sequence never goes back, be it within a run or where a nested
call has failed; and the address of a new contract is the one that its creation derived. -/
theorem addresses_are_derived_once :
    (∀ (engine last : Engine) (ds : List Derivation), engine.Executes ds last →
      engine.sequence.count + ds.length < 2 ^ 64 →
        last.sequence = ⟨engine.sequence.nonce, engine.sequence.count + ds.length⟩ ∧
        (∀ d ∈ ds, d.preimage.length = 60 ∧ d.preimage = Address.toBytes d.creator ++
          Bytes.fit 32 engine.sequence.nonce ++ Bytes.ofNat 8 d.sequence.count) ∧
        ds.Pairwise fun a b => a.sequence.count < b.sequence.count ∧ a.preimage ≠ b.preimage ∧
          (a.address = b.address → a.digest = b.digest)) ∧
    (∀ (env e : Env) (m k : Machine), Visits env m e k → m.sequence.Leads k.sequence) ∧
    (∀ (fuel : Nat) (env : Env) (m m₁ : Machine) (op : Opcode) (inv : Invocation) (out : Outcome),
      Takes env m op (.invoke inv) m₁ → inv.perform fuel env m₁ = some out →
        m₁.sequence.Leads out.sequence ∧ (m₁.after env inv out).sequence = out.sequence) ∧
    ∀ (env : Env) (m m₁ : Machine) (inv : Invocation),
      (Exec.step env (.create .sequenced)).run m = (.invoke inv, m₁) →
        ∃ d, derivation? env (.create .sequenced) m = some d ∧ d.creator = env.call.callee ∧
          d.sequence = m₁.sequence ∧ inv.call.callee = d.address := by
  refine ⟨?_, fun env e m k h => h.leads, ?_, ?_⟩
  · intro engine last ds h hbound
    have hconsecutive := h.consecutive
    have hlast := hconsecutive.last_eq
    refine ⟨hlast, ?_, ?_⟩
    · intro d hd
      obtain ⟨hnonce, -, -⟩ := hconsecutive.mem hd
      refine ⟨d.length_preimage, ?_⟩
      rw [← hnonce, List.append_assoc]
      rfl
    · have hsmall : ∀ d ∈ ds, d.sequence.count < 2 ^ 64 := by
        intro d hd
        obtain ⟨-, -, hle⟩ := hconsecutive.mem hd
        rw [hlast] at hle
        exact hle.trans_lt hbound
      refine hconsecutive.increasing.imp_of_mem fun {a b} ha hb hlt => ⟨hlt, ?_, ?_⟩
      · intro hsame
        have hcount := Derivation.count_eq_of_preimage (hsmall a ha) (hsmall b hb) hsame
        omega
      · exact (Derivation.address_eq_iff a b).1
  · intro fuel env m m₁ op inv out _ hout
    exact ⟨Invocation.perform_leads hout, m₁.after_sequence env inv out⟩
  · intro env m m₁ inv h
    cases Exec.step_derives h with
    | nothing hd _ =>
      -- a creation that derives no address has a fault, and asks for no call
      have hfault : ((Exec.createOperands env .sequenced).run m).2.meter.faulty = true := by
        simpa [derivation?] using hd
      have hflow : Exec.flowOf ((Exec.prepareCreate env .sequenced).run m).1 = .invoke inv :=
        congrArg Prod.fst h
      rw [Exec.prepareCreate_faulty hfault] at hflow
      cases hflow
    | address hd hs hc => exact ⟨_, hd, rfl, hs.symm, hc inv rfl⟩

/-! ### Creations in executions and calls that fail -/

def createEmpty : Bytes :=
  [0x60, 0, 0x60, 0, 0x60, 0, 0xf0]

/-- The contract at 11 creates another and then aborts. -/
def creatorLedger : Ledger :=
  [({ address := 10, balance := 5 } : Account),
    { address := 11, code := createEmpty ++ [0xfe] }].foldl Ledger.put {}

def Engine.create (engine : Engine) (code : Bytes) : Option (Report Ledger Trace) :=
  engine.execute 40 (Chain.withHashes 1 0 ∅) creatorLedger #[] relayCall code

theorem failed_creations_are_counted :
    ∃ (first second : Report Ledger Trace) (a b : Derivation),
      (Engine.new {}).create (callTo 11 ++ [0xfe]) = some first ∧
      first.result = .error .aborted ∧ first.engine.create (createEmpty ++ [0]) = some second ∧
      second.result = .ok [] ∧ (Engine.new {}).Executes [a, b] second.engine ∧
      a.sequence = ⟨[], 1⟩ ∧ b.sequence = ⟨[], 2⟩ ∧ second.engine.sequence = ⟨[], 2⟩ ∧
      a.preimage ≠ b.preimage := by
  have hrun : ((Engine.new {}).create (callTo 11 ++ [0xfe])).bind (fun first =>
      (first.engine.create (createEmpty ++ [0])).map fun second =>
        (first.result, second.result, second.engine.sequence)) =
      some (.error .aborted, .ok [], ⟨[], 2⟩) := by
    decide +kernel
  obtain ⟨first, hfirst, hrun⟩ := Option.bind_eq_some_iff.1 hrun
  obtain ⟨second, hsecond, hvalues⟩ := Option.map_eq_some_iff.1 hrun
  obtain ⟨haborted, hvalues⟩ := Prod.mk.inj hvalues
  obtain ⟨hok, hlast⟩ := Prod.mk.inj hvalues
  have hexecutes : (Engine.new {}).Executes _ second.engine :=
    .execute hfirst (.execute hsecond .idle)
  generalize (Engine.new {}).derivations _ _ _ _ _ ++ _ = ds at hexecutes
  have hlength : ds.length = 2 := by
    have hcount : 0 + ds.length = 2 :=
      congrArg CreateSequence.count (hexecutes.consecutive.last_eq.symm.trans hlast)
    omega
  obtain ⟨a, b, rfl⟩ := List.length_eq_two.1 hlength
  obtain ⟨ha, hb⟩ : a.sequence = ⟨[], 1⟩ ∧ b.sequence = ⟨[], 2⟩ := by
    have hsequences := hexecutes.consecutive.sequences
    simpa [Engine.new, List.range'] using hsequences
  have hbound : (Engine.new {}).sequence.count + [a, b].length < 2 ^ 64 := by
    show 0 + 2 < 2 ^ 64
    norm_num
  obtain ⟨-, -, hdistinct⟩ := addresses_are_derived_once.1 _ _ _ hexecutes hbound
  have hab := List.rel_of_pairwise_cons hdistinct List.mem_cons_self
  exact ⟨first, second, a, b, hfirst, haborted, hsecond, hok, hexecutes, ha, hb, hlast, hab.2.1⟩

end ContractVm
