import Mathlib
import ContractVm.Proofs.Exec

/-! # What an instruction can do

`Stepped` lists everything an instruction can do to what outlives the machine, and
`Exec.stepped` shows that the list is complete: it keeps the world, or writes a slot of the running
contract, or emits a log, or opens an account and fails, or destroys the running contract, or asks for
a nested call. The last kind of instruction is described by `Creation` and `Calling`. -/

namespace ContractVm

def Flow.invocation? : Flow → Option Invocation
  | .invoke invocation => some invocation
  | _ => none

theorem Flow.eq_invoke {flow : Flow} {inv : Invocation} (h : flow.invocation? = some inv) :
    flow = .invoke inv := by
  cases flow with
  | invoke inv' => cases h; rfl
  | next => cases h
  | jumped => cases h
  | halt output => cases h

/-- The running contract may open accounts and opened one at `x`, which gave the frame `frame`. -/
structure Opened (env : Env) (m : Machine) (x : Address) (frame : Frame) : Prop where
  permitted : env.host.permissions.ensure env.call.callee .createAccount = .ok ()
  opened : m.frame.openAccount env.below x = .ok frame

/-- The account that a call to `target` runs, and the caller's frame once it is there. -/
inductive Found (env : Env) (variant : CallVariant) (m : Machine) (target : Address) :
    Account → Frame → Prop where
  | present {account : Account} (h : (m.view env).account target = .ok (some account)) :
      Found env variant m target account m.frame
  | opened {frame : Frame} (hv : variant = .plain) (h : Opened env m target frame) :
      Found env variant m target { address := target } frame

structure Creation (env : Env) (m : Machine) (inv : Invocation) (m' : Machine) : Prop where
  turns : m.Turns ⟨m.frame, m.trace, m'.sequence⟩ m'
  unfaulted : m'.meter.fault = none
  gas : inv.call.gas + m'.meter.gas ≤ m.meter.gas
  permitted : env.host.permissions.ensure env.call.callee .createContract = .ok ()
  address : m.sequence.next env.call.callee = (inv.call.callee, m'.sequence) ∨
    m'.sequence = m.sequence ∧
      ∃ salt, inv.call.callee = saltAddress env.call.callee salt inv.call.input
  frame : ∃ child, m.frame.child = .ok child ∧
    child.openAccount (m.view env) inv.call.callee = .ok inv.frame
  origin : inv.call.origin = env.call.origin
  caller : inv.call.caller = env.call.callee
  kind : inv.call.kind = .create
  target : inv.target = .code inv.call.input
  landing : inv.landing = .create inv.call.callee

structure Calling (env : Env) (variant : CallVariant) (m : Machine) (inv : Invocation)
    (m' : Machine) : Prop where
  turns : m.Turns ⟨m'.frame, m.trace, m.sequence⟩ m'
  unfaulted : m'.meter.fault = none
  gas : inv.call.gas + m'.meter.gas ≤ m.meter.gas
  permitted : env.host.permissions.ensure env.call.callee .call = .ok ()
  found : ∃ target account, Found env variant m target account m'.frame ∧
    inv.target = env.host.targetOf account ∧
    (inv.call.caller, inv.call.callee) = variant.parties env.call target
  frame : ∃ child, m'.frame.child = .ok child ∧
    inv.frame = { child with readOnly := child.readOnly || variant == .static }
  origin : inv.call.origin = env.call.origin
  kind : inv.call.kind = variant.kind
  landing : ∃ offset size, inv.landing = .memory offset size

inductive CreatePrepared (env : Env) (m : Machine) : Option Invocation → Machine → Prop where
  | ready {inv : Invocation} {m' : Machine} (h : Creation env m inv m') :
      CreatePrepared env m (some inv) m'
  | refused {m' : Machine} (h : m.Turns m.world m') (hf : m'.meter.fault ≠ none) :
      CreatePrepared env m none m'
  | sequenced {m' : Machine} (h : m.Turns ⟨m.frame, m.trace, m.sequence.advance⟩ m')
      (hf : m'.meter.fault ≠ none) : CreatePrepared env m none m'

inductive CallPrepared (env : Env) (variant : CallVariant) (m : Machine) :
    Option Invocation → Machine → Prop where
  | ready {inv : Invocation} {m' : Machine} (h : Calling env variant m inv m') :
      CallPrepared env variant m (some inv) m'
  | refused {m' : Machine} (h : m.Turns m.world m') (hf : m'.meter.fault ≠ none) :
      CallPrepared env variant m none m'
  | opened {x : Address} {frame : Frame} {m' : Machine} (hv : variant = .plain)
      (ho : Opened env m x frame) (h : m.Turns ⟨frame, m.trace, m.sequence⟩ m')
      (hf : m'.meter.fault ≠ none) : CallPrepared env variant m none m'

/-- Whether an instruction reaches beyond the machine's own parts. -/
def Opcode.isOutward : Opcode → Bool
  | .log _ | .sstore | .create _ | .call _ | .selfDestruct => true
  | _ => false

inductive Stepped (env : Env) (m : Machine) : Opcode → Flow → Machine → Prop where
  | inward {op : Opcode} {flow : Flow} {m' : Machine} (hflow : flow.invocation? = none)
      (h : m.Turns m.world m') : Stepped env m op flow m'
  | stored {key value : Word} {frame : Frame} {m' : Machine}
      (hw : m.frame.write (.store env.call.callee key value) = .ok frame)
      (h : m.Turns ⟨frame, m.trace, m.sequence⟩ m') : Stepped env m .sstore .next m'
  | logged {n : Fin 5} {log : Log} {m' : Machine} (hro : m.frame.readOnly = false)
      (hlog : log.address = env.call.callee)
      (h : m.Turns ⟨m.frame, m.trace.push (.log log), m.sequence⟩ m') :
      Stepped env m (.log n) .next m'
  -- it opens an account and then fails
  | opened {op : Opcode} {flow : Flow} {x : Address} {frame : Frame} {m' : Machine}
      (hop : op = .selfDestruct ∨ op = .call .plain) (hflow : flow.invocation? = none)
      (ho : Opened env m x frame) (h : m.Turns ⟨frame, m.trace, m.sequence⟩ m')
      (hf : m'.meter.fault ≠ none) : Stepped env m op flow m'
  -- it gives everything to an heir, which it may have opened, and removes the running contract
  | destroyed {heir : Address} {frame₁ frame : Frame} {m' : Machine}
      (hheir : m.stack.items.head?.map Address.ofWord = some heir)
      (ho : frame₁ = m.frame ∨ Opened env m heir frame₁)
      (hb : frame₁.bequeath env.below env.call.callee heir = .ok frame)
      (h : m.Turns ⟨frame, m.trace, m.sequence⟩ m') : Stepped env m .selfDestruct (.halt []) m'
  -- it takes an address for a new contract and then fails
  | sequenced {variant : CreateVariant} {m' : Machine}
      (h : m.Turns ⟨m.frame, m.trace, m.sequence.advance⟩ m')
      (hf : m'.meter.fault ≠ none) : Stepped env m (.create variant) .next m'
  | creates {variant : CreateVariant} {inv : Invocation} {m' : Machine}
      (h : Creation env m inv m') : Stepped env m (.create variant) (.invoke inv) m'
  | calls {variant : CallVariant} {inv : Invocation} {m' : Machine}
      (h : Calling env variant m inv m') : Stepped env m (.call variant) (.invoke inv) m'

theorem Stepped.invoke_cases {env : Env} {m m' : Machine} {op : Opcode} {inv : Invocation}
    (h : Stepped env m op (.invoke inv) m') :
    (∃ variant, op = .create variant ∧ Creation env m inv m') ∨
      ∃ variant, op = .call variant ∧ Calling env variant m inv m' := by
  cases h with
  | inward hflow _ => cases hflow
  | opened _ hflow _ _ _ => cases hflow
  | @creates variant _ _ h => exact Or.inl ⟨variant, rfl, h⟩
  | @calls variant _ _ h => exact Or.inr ⟨variant, rfl, h⟩

theorem Opened.of_frame {env : Env} {m m₁ : Machine} {x : Address} {frame : Frame}
    (h : Opened env m₁ x frame) (hm : m₁.frame = m.frame) : Opened env m x frame :=
  ⟨h.permitted, hm ▸ h.opened⟩

theorem Found.of_turns {env : Env} {variant : CallVariant} {m m₁ : Machine} {target : Address}
    {account : Account} {frame : Frame} (h : Found env variant m₁ target account frame)
    (hm : m.Turns m.world m₁) : Found env variant m target account frame := by
  have hframe : m₁.frame = m.frame := hm.frame
  have hview : m₁.view env = m.view env := hm.view env
  cases h with
  | present h =>
    rw [hframe]
    exact .present (hview ▸ h)
  | opened hv ho => exact .opened hv (ho.of_frame hframe)

theorem CreatePrepared.stepped {env : Env} {m m' : Machine} {inv : Option Invocation}
    (h : CreatePrepared env m inv m') (variant : CreateVariant) :
    Stepped env m (.create variant) (Exec.flowOf inv) m' := by
  cases h with
  | ready h => exact .creates h
  | refused h _ => exact .inward rfl h
  | sequenced h hf => exact .sequenced h hf

theorem CallPrepared.stepped {env : Env} {variant : CallVariant} {m m' : Machine}
    {inv : Option Invocation} (h : CallPrepared env variant m inv m') :
    Stepped env m (.call variant) (Exec.flowOf inv) m' := by
  cases h with
  | ready h => exact .calls h
  | refused h _ => exact .inward rfl h
  | opened hv ho h hf => exact .opened (Or.inr (congrArg Opcode.call hv)) rfl ho h hf

namespace Exec

/-! ### Steps on the frame -/

theorem ensures_updateFrame (f : Frame → Except Fault Frame) (m : Machine) :
    Ensures (· = m) (updateFrame f) fun done m' =>
      (done = true ∧ ∃ frame, f m.frame = .ok frame ∧ m' = { m with frame }) ∨
      (done = false ∧ ∃ fault, m' = m.recorded fault) := by
  refine .get_bind fun m₁ hm => ?_
  subst hm
  refine .attempt_bind (fun frame hf => ?_) fun fault _ m₂ hm => ?_
  · rintro _ rfl
    exact Or.inl ⟨rfl, frame, hf, rfl⟩
  · subst hm
    exact .pure fun m' hm' => Or.inr ⟨rfl, fault, hm'⟩

theorem ensures_openAccount (env : Env) (x : Address) (m : Machine) :
    Ensures (· = m) (openAccount env x) fun done m' =>
      (done = true ∧ ∃ frame, Opened env m x frame ∧ m' = { m with frame }) ∨
      (done = false ∧ ∃ fault, m' = m.recorded fault) := by
  refine .attempt_bind (fun u hp => ?_) fun fault _ m₁ hm => ?_
  · intro m₁ hm
    rcases ensures_updateFrame (Frame.openAccount env.below x) m m₁ hm with
      ⟨hd, frame, ho, hm'⟩ | hr
    · exact Or.inl ⟨hd, frame, ⟨hp, ho⟩, hm'⟩
    · exact Or.inr hr
  · subst hm
    exact .pure fun m' hm' => Or.inr ⟨rfl, fault, hm'⟩

theorem ensures_findTarget (env : Env) (variant : CallVariant) (target : Address) (m : Machine) :
    Ensures (· = m) (findTarget env variant target) fun account m' =>
      (∃ a frame, account = some a ∧ Found env variant m target a frame ∧ m' = { m with frame }) ∨
      (account = none ∧ ∃ fault, m' = m.recorded fault) := by
  refine .get_bind fun m₁ hm => ?_
  subst hm
  refine .attempt_bind (fun entry hentry => ?_) fun fault _ m₂ hm => ?_
  · cases entry with
    | some account =>
      exact .pure fun m' hm' => Or.inl ⟨account, m₁.frame, rfl, .present hentry, hm'⟩
    | none =>
      cases variant with
      | plain =>
        refine (ensures_openAccount env target m₁).bind fun done => ?_
        rintro m' (⟨rfl, frame, ho, hm'⟩ | ⟨rfl, hr⟩)
        · exact Or.inl ⟨_, frame, rfl, .opened rfl ho, hm'⟩
        · exact Or.inr ⟨rfl, hr⟩
      | code =>
        rintro _ rfl
        exact Or.inr ⟨rfl, .unknownAddress target, rfl⟩
      | delegate =>
        rintro _ rfl
        exact Or.inr ⟨rfl, .unknownAddress target, rfl⟩
      | static =>
        rintro _ rfl
        exact Or.inr ⟨rfl, .unknownAddress target, rfl⟩
  · subst hm
    exact .pure fun m' hm' => Or.inr ⟨rfl, fault, hm'⟩

/-! ### Asking for a nested call -/

theorem ensures_newAddress (creator : Address) (salt : Option Word) (initCode : Bytes)
    (m : Machine) :
    Ensures (· = m) (newAddress creator salt initCode) fun address m' =>
      ∃ sequence, m' = { m with sequence } ∧
        (m.sequence.next creator = (address, sequence) ∨
          sequence = m.sequence ∧ ∃ salt, address = saltAddress creator salt initCode) := by
  rintro _ rfl
  cases salt with
  | none => exact ⟨_, rfl, Or.inl rfl⟩
  | some salt => exact ⟨_, rfl, Or.inr ⟨rfl, salt, rfl⟩⟩

theorem ensures_prepareCreate (env : Env) (variant : CreateVariant) (m : Machine) :
    Ensures (m.Turns m.world) (prepareCreate env variant) (CreatePrepared env m) := by
  refine (quiet_setReturnData []).bind_ensures fun _ _ => ?_
  refine quiet_pop.bind_ensures fun value _ => quiet_pop.bind_ensures fun offset _ => ?_
  refine quiet_pop.bind_ensures fun size _ => ?_
  refine (quiet_readMemory offset size).bind_ensures fun input _ => ?_
  refine (quiet_charge _).bind_ensures fun _ _ => ?_
  refine (quiet_popSalt variant).bind_ensures fun salt _ => ?_
  refine .check (fun m₁ hm₁ hf => .pure ?_) fun m₁ hm₁ hf => ?_
  · rintro _ rfl
    exact .refused hm₁ hf
  refine (ensures_newAddress env.call.callee salt input m₁).bind fun address => ?_
  refine .of_eq fun m₂ ⟨sequence, hm₂, haddress⟩ => ?_
  have hturn : m.Turns ⟨m.frame, m.trace, sequence⟩ m₂ := hm₂ ▸ hm₁.withSequence sequence
  have hfault : m₂.meter.fault = none := hm₂ ▸ hf
  rw [hm₁.sequence] at haddress
  -- what fails from here on leaves the sequence advanced, or as it was if there is a salt
  have hrefused : ∀ fault, CreatePrepared env m none (m₂.recorded fault) := by
    intro fault
    rcases haddress with h | ⟨rfl, -⟩
    · obtain rfl : m.sequence.advance = sequence := congrArg Prod.snd h
      exact .sequenced (hturn.recorded fault) (m₂.recorded_faulty fault)
    · exact .refused (hturn.recorded fault) (m₂.recorded_faulty fault)
  refine .attempt_bind (fun _ hpermitted => ?_) fun fault _ m₃ hm₃ => .pure ?_
  · refine .get_bind fun m₃ hm₃ => ?_
    subst hm₃
    refine .attempt_bind (fun child hchild => ?_) fun fault _ m₄ hm₄ => .pure ?_
    · refine .get_bind fun m₄ hm₄ => ?_
      subst hm₄
      refine .attempt_bind (fun frame hframe => ?_) fun fault _ m₅ hm₅ => .pure ?_
      · refine .get_bind fun m₅ hm₅ => ?_
        subst hm₅
        rintro m₅ rfl
        have hcharge : m₅.meter.charge m₅.meter.gas = { m₅.meter with gas := 0 } := by
          rw [Meter.charge_of_le le_rfl, Nat.sub_self]
        have hsame : m₅.frame = m.frame := hturn.frame
        have hview : m₅.view env = m.view env := hturn.view env
        have hsequence : m₅.sequence = sequence := hturn.sequence
        exact .ready
          { turns := ⟨hsequence ▸ hturn.world, hturn.meter.trans (Meter.spends_charge _ _)⟩
            unfaulted := (congrArg Meter.fault hcharge).trans hfault
            gas := (congrArg (m₅.meter.gas + ·) (congrArg Meter.gas hcharge)).le.trans hturn.meter.gas
            permitted := hpermitted
            address := hsequence ▸ haddress
            frame := ⟨child, hsame ▸ hchild, hview ▸ hframe⟩
            origin := rfl
            caller := rfl
            kind := rfl
            target := rfl
            landing := rfl }
      · rintro _ rfl
        exact hm₅ ▸ hrefused fault
    · rintro _ rfl
      exact hm₄ ▸ hrefused fault
  · rintro _ rfl
    exact hm₃ ▸ hrefused fault

theorem ensures_prepareCall (env : Env) (variant : CallVariant) (m : Machine) :
    Ensures (m.Turns m.world) (prepareCall env variant) (CallPrepared env variant m) := by
  refine (quiet_setReturnData []).bind_ensures fun _ _ => ?_
  refine .attempt_bind (fun _ hpermitted => ?_) fun fault _ m₁ hm₁ => .pure ?_
  · refine quiet_pop64.bind_ensures fun gasLimit _ => ?_
    refine quiet_popAddress.bind_ensures fun target _ => ?_
    extract_lets rest
    have hrest : ∀ value, Ensures (m.Turns m.world) (rest value) (CallPrepared env variant m) := by
      intro value
      refine quiet_pop.bind_ensures fun inOffset _ => quiet_pop.bind_ensures fun inSize _ => ?_
      refine quiet_pop.bind_ensures fun outOffset _ => quiet_pop64.bind_ensures fun outSize _ => ?_
      refine (quiet_charge _).bind_ensures fun _ _ => ?_
      refine .of_eq fun m₁ hm₁ => (ensures_findTarget env variant target m₁).bind fun account => ?_
      refine .of_eq ?_
      rintro m₂ (⟨account, frame, rfl, hfound, hm₂⟩ | ⟨rfl, fault, hm₂⟩)
      · have hturn : m.Turns ⟨frame, m.trace, m.sequence⟩ m₂ := hm₂ ▸ hm₁.withFrame frame
        have hfound := hfound.of_turns hm₁
        -- what fails from here on leaves the frame with the target in it
        have hrefused : ∀ {m'}, m.Turns ⟨frame, m.trace, m.sequence⟩ m' → m'.meter.fault ≠ none →
            CallPrepared env variant m none m' := by
          intro m' hm' hf
          cases hfound with
          | present _ => exact .refused hm' hf
          | opened hv ho => exact .opened hv ho hm' hf
        refine .at ?_ hturn
        refine (quiet_readMemory inOffset inSize).bind_ensures fun input _ => ?_
        refine .check (fun m₃ hm₃ hf => .pure ?_) fun m₃ hm₃ hf => ?_
        · rintro _ rfl
          exact hrefused hm₃ hf
        refine .get_bind fun m₄ hm₄ => ?_
        subst hm₄
        refine .attempt_bind (fun child hchild => ?_) fun fault _ m₅ hm₅ => .pure ?_
        · refine .get_bind fun m₅ hm₅ => ?_
          subst hm₅
          rintro m₅ rfl
          have hle : m₅.meter.callGas gasLimit ≤ m₅.meter.gas := Meter.callGas_le gasLimit m₅.meter
          have hcharge := Meter.charge_of_le hle
          have hsame : m₅.frame = frame := hm₃.frame
          exact .ready
            { turns := ⟨hsame ▸ hm₃.world, hm₃.meter.trans (Meter.spends_charge _ _)⟩
              unfaulted := (congrArg Meter.fault hcharge).trans hf
              gas := by
                have hgas := hm₃.meter.gas
                have hleft := congrArg Meter.gas hcharge
                show m₅.meter.callGas gasLimit + (m₅.meter.charge (m₅.meter.callGas gasLimit)).gas ≤ _
                rw [hleft]
                dsimp only
                omega
              permitted := hpermitted
              found := ⟨target, account, hsame ▸ hfound, rfl, rfl⟩
              frame := ⟨child, hchild, rfl⟩
              origin := rfl
              kind := rfl
              landing := ⟨outOffset, outSize, rfl⟩ }
        · rintro _ rfl
          exact hrefused (hm₅ ▸ hm₃.recorded fault) (m₅.recorded_faulty fault)
      · rintro _ rfl
        exact .refused (hm₂ ▸ hm₁.recorded fault) (hm₂ ▸ m₁.recorded_faulty fault)
    split
    · exact quiet_pop.bind_ensures fun value _ => hrest value
    · exact hrest env.call.value
  · rintro _ rfl
    exact .refused (hm₁.recorded fault) (m₁.recorded_faulty fault)

/-! ### Destroying the running contract -/

theorem pop_items {s : Stack} {m : Meter} (h : (s.pop m).2.2.fault = none) :
    s.items = (s.pop m).1 :: (s.pop m).2.1.items := by
  unfold Stack.pop at h ⊢
  split at h
  · exact absurd h (Meter.record_faulty _ m)
  · next m₁ hc =>
    split at h
    · exact absurd h (Meter.record_faulty _ m₁)
    · next w rest hitems => simp [Stack.discard, hitems]

theorem ensures_popAddress (m : Machine) :
    Ensures (· = m) popAddress fun a m' => m.Turns m.world m' ∧
      (m'.meter.fault = none → m.stack.items.head?.map Address.ofWord = some a) := by
  rintro m rfl
  refine ⟨(quiet_popAddress m).1, fun hf => ?_⟩
  rw [pop_items hf]
  rfl

theorem ensures_selfDestruct (env : Env) (m : Machine) :
    Ensures (· = m) (selfDestruct env) fun _ m' => Stepped env m .selfDestruct (.halt []) m' := by
  refine (ensures_popAddress m).bind fun heir => .of_eq fun m₁ ⟨hm₁, hheir⟩ => ?_
  have hstart : m₁.Turns m.world m₁ := ⟨hm₁.world, .refl m₁.meter⟩
  refine .at ?_ hstart
  refine (quiet_charge _).bind_ensures fun _ _ => .get_bind fun m₂ hm₂ => ?_
  refine .attempt_bind (fun present _ => ?_) fun fault _ m₃ hm₃ => .pure ?_
  · extract_lets rest
    have hrest : ∀ frame₁, (frame₁ = m.frame ∨ Opened env m heir frame₁) →
        Ensures (m₁.Turns ⟨frame₁, m.trace, m.sequence⟩) (rest ())
          fun _ m' => Stepped env m .selfDestruct (.halt []) m' := by
      intro frame₁ ho
      -- a failure leaves the heir opened, if it was not there
      have hrefused : ∀ {m'}, m₁.Turns ⟨frame₁, m.trace, m.sequence⟩ m' → m'.meter.fault ≠ none →
          Stepped env m .selfDestruct (.halt []) m' := by
        intro m' hm' hf
        rcases ho with rfl | ho
        · exact .inward rfl (hm₁.trans hm')
        · exact .opened (Or.inl rfl) rfl ho (hm₁.trans hm') hf
      refine .check (fun m₄ hm₄ hf => .pure ?_) fun m₄ hm₄ hf => ?_
      · rintro _ rfl
        exact hrefused hm₄ hf
      refine (ensures_updateFrame _ m₄).bind fun done => ?_
      rintro m₅ (⟨-, frame, hb, hm₅⟩ | ⟨-, fault, hm₅⟩)
      · have hframe : m₄.frame = frame₁ := hm₄.frame
        have hb' : frame₁.bequeath env.below env.call.callee heir = .ok frame := hframe ▸ hb
        exact .destroyed (hheir (hm₄.meter.unfaulted hf)) ho hb'
          (hm₅ ▸ (hm₁.trans hm₄).withFrame frame)
      · exact hrefused (hm₅ ▸ hm₄.recorded fault) (hm₅ ▸ m₄.recorded_faulty fault)
    refine .at ?_ hm₂
    cases present with
    | true => exact hrest m.frame (Or.inl rfl)
    | false =>
      simp only [Bool.not_false, if_true]
      refine (quiet_charge _).bind_ensures fun _ _ => ?_
      refine .check (fun m₄ hm₄ hf => .pure ?_) fun m₄ hm₄ hf => ?_
      · rintro _ rfl
        exact .inward rfl (hm₁.trans hm₄)
      refine (ensures_openAccount env heir m₄).bind fun done => .of_eq ?_
      rintro m₅ (⟨rfl, frame, ho, hm₅⟩ | ⟨rfl, fault, hm₅⟩)
      · have ho' : Opened env m heir frame := ho.of_frame hm₄.frame
        exact fun m₆ hm₆ => hrest frame (Or.inr ho') m₆ (hm₆ ▸ hm₅ ▸ hm₄.withFrame frame)
      · rintro _ rfl
        exact .inward rfl (hm₁.trans (hm₅ ▸ hm₄.recorded fault))
  · rintro _ rfl
    exact .inward rfl (hm₁.trans (hm₃ ▸ hm₂.recorded fault))

/-! ### The other instructions -/

theorem ensures_log (env : Env) (n : Fin 5) (m : Machine) :
    Ensures (m.Turns m.world) (log env n.val) fun _ m' => Stepped env m (.log n) .next m' := by
  refine quiet_pop.bind_ensures fun offset _ => quiet_pop.bind_ensures fun size _ => ?_
  refine (quiet_popMany n.val).bind_ensures fun topics _ => ?_
  refine (quiet_readMemory offset size).bind_ensures fun data _ => ?_
  refine .check (fun m₁ hm₁ hf => .pure ?_) fun m₁ hm₁ hf => ?_
  · rintro _ rfl
    exact .inward rfl hm₁
  refine .get_bind fun m₂ hm₂ => ?_
  subst hm₂
  rintro m₂ rfl
  have hframe : m₂.frame = m.frame := hm₁.frame
  have htrace : m₂.trace = m.trace := hm₁.trace
  cases hro : m₂.frame.readOnly with
  | true =>
    simp only [Event.isLog, Bool.and_self, if_true]
    exact .inward rfl (hm₁.recorded .illegalWrite)
  | false =>
    simp only [Event.isLog, Bool.and_false, Bool.false_eq_true, if_false]
    have hturn : m.Turns
        ⟨m.frame, m.trace.push (.log ⟨env.call.callee, topics, data⟩), m.sequence⟩
        { m₂ with trace := m₂.trace.push (.log ⟨env.call.callee, topics, data⟩) } :=
      htrace ▸ hm₁.withTrace _
    exact .logged (hframe ▸ hro) rfl hturn

theorem ensures_sstore (env : Env) (m : Machine) :
    Ensures (m.Turns m.world) (step env .sstore) (Stepped env m .sstore) := by
  refine quiet_pop.bind_ensures fun key _ => quiet_pop.bind_ensures fun value _ => ?_
  refine (quiet_charge _).bind_ensures fun _ _ => ?_
  refine .faulty_bind (fun m₁ hm₁ _ => .pure ?_) fun m₁ hm₁ _ => ?_
  · rintro _ rfl
    exact .inward rfl hm₁
  refine (ensures_updateFrame _ m₁).bind fun done => ?_
  rintro m₂ (⟨-, frame, hw, hm₂⟩ | ⟨-, fault, hm₂⟩)
  · have hframe : m₁.frame = m.frame := hm₁.frame
    exact .stored (hframe ▸ hw) (hm₂ ▸ hm₁.withFrame frame)
  · exact .inward rfl (hm₂ ▸ hm₁.recorded fault)

abbrev Plain (p : Exec Flow) : Prop :=
  Inward (fun flow => flow.invocation? = none) p

theorem plain_jumpTo (env : Env) (destination : Nat) : Plain (jumpTo env destination) := by
  unfold jumpTo
  split
  · exact fun m => ⟨⟨rfl, .refl m.meter⟩, rfl⟩
  · exact (quiet_fail _).bind fun _ => .pure rfl

theorem plain_step (env : Env) (op : Opcode) (h : op.isOutward = false) : Plain (step env op) := by
  cases op with
  | log n => cases h
  | sstore => cases h
  | create variant => cases h
  | call variant => cases h
  | selfDestruct => cases h
  | stop => exact .pure rfl
  | jumpDest => exact .pure rfl
  | unary op => exact quiet_pop.bind fun x => (quiet_push _).bind fun _ => .pure rfl
  | binary op =>
    exact quiet_pop.bind fun x => quiet_pop.bind fun y => (quiet_push _).bind fun _ => .pure rfl
  | ternary op =>
    exact quiet_pop.bind fun x => quiet_pop.bind fun y => quiet_pop.bind fun z =>
      (quiet_push _).bind fun _ => .pure rfl
  | query op => exact .get_bind fun m => (quiet_push _).bind fun _ => .pure rfl
  | signExtend =>
    refine quiet_pop.bind fun back => .ite ?_ (.pure rfl)
    exact quiet_pop.bind fun value => (quiet_push _).bind fun _ => .pure rfl
  | byte =>
    exact quiet_pop64.bind fun index => quiet_pop.bind fun value =>
      (quiet_pushNat _).bind fun _ => .pure rfl
  | sha3 =>
    refine (quiet_charge _).bind fun _ => quiet_pop.bind fun offset => quiet_pop.bind fun size => ?_
    exact (quiet_readMemory offset size).bind fun data => (quiet_push _).bind fun _ => .pure rfl
  | balance =>
    refine quiet_popAddress.bind fun address => (quiet_charge _).bind fun _ => .get_bind fun m => ?_
    refine (quiet_attempt _).bind fun account => ?_
    cases account with
    | none => exact .pure rfl
    | some account => exact (quiet_push _).bind fun _ => .pure rfl
  | callDataLoad =>
    refine quiet_pop64.bind fun offset => (quiet_attempt _).bind fun data => ?_
    cases data with
    | none => exact .pure rfl
    | some data => exact (quiet_push _).bind fun _ => .pure rfl
  | callDataCopy => exact (quiet_copyData env _).bind fun _ => .pure rfl
  | codeCopy => exact (quiet_copyData env _).bind fun _ => .pure rfl
  | extCodeSize =>
    refine (quiet_popAccount env _).bind fun found => ?_
    rcases found with ⟨address, _ | _ | account⟩
    · exact .pure rfl
    · exact (quiet_push _).bind fun _ => .pure rfl
    · exact (quiet_pushNat _).bind fun _ => .pure rfl
  | extCodeCopy =>
    refine (quiet_popAccount env _).bind fun found => ?_
    rcases found with ⟨address, _ | _ | account⟩
    · exact .pure rfl
    · exact (quiet_fail _).bind fun _ => .pure rfl
    · exact (quiet_copyData env _).bind fun _ => .pure rfl
  | returnDataCopy => exact (quiet_copyReturnData env).bind fun _ => .pure rfl
  | extCodeHash =>
    refine quiet_popAddress.bind fun address => .get_bind fun m => ?_
    refine (quiet_attempt _).bind fun found => ?_
    rcases found with _ | _ | account
    · exact .pure rfl
    · exact (quiet_push _).bind fun _ => .pure rfl
    · exact (quiet_push _).bind fun _ => .pure rfl
  | blockHash =>
    refine quiet_pop64.bind fun height => (quiet_attempt _).bind fun hash => ?_
    cases hash with
    | none => exact .pure rfl
    | some hash => exact (quiet_push _).bind fun _ => .pure rfl
  | pop => exact quiet_pop.bind fun _ => .pure rfl
  | mload =>
    exact quiet_pop.bind fun offset => (quiet_readMemory offset 32).bind fun data =>
      (quiet_push _).bind fun _ => .pure rfl
  | mstore =>
    exact quiet_pop.bind fun offset => quiet_pop.bind fun value =>
      (quiet_writeMemory offset _).bind fun _ => .pure rfl
  | mstore8 =>
    exact quiet_pop.bind fun offset => quiet_pop.bind fun value =>
      (quiet_writeMemory offset _).bind fun _ => .pure rfl
  | sload =>
    refine quiet_pop.bind fun key => .get_bind fun m => (quiet_attempt _).bind fun value => ?_
    cases value with
    | none => exact .pure rfl
    | some value => exact (quiet_push _).bind fun _ => .pure rfl
  | jump => exact quiet_pop64.bind fun destination => plain_jumpTo env destination
  | jumpIf =>
    exact quiet_pop64.bind fun destination => quiet_pop.bind fun condition =>
      .ite (.pure rfl) (plain_jumpTo env destination)
  | push n =>
    refine .get_bind fun m => (quiet_push _).bind fun _ => ?_
    exact fun m => ⟨⟨rfl, .refl m.meter⟩, rfl⟩
  | dup n => exact (quiet_dup _).bind fun _ => .pure rfl
  | swap n => exact (quiet_swap _).bind fun _ => .pure rfl
  | ret =>
    exact quiet_pop.bind fun offset => quiet_pop.bind fun size =>
      (quiet_readMemory offset size).bind fun output => .pure rfl
  | revert =>
    refine quiet_pop.bind fun offset => quiet_pop.bind fun size => ?_
    exact (quiet_readMemory offset size).bind fun output => (quiet_fail _).bind fun _ => .pure rfl
  | invalid => exact (quiet_fail _).bind fun _ => .pure rfl

theorem stepped (env : Env) (op : Opcode) (m : Machine) :
    Stepped env m op ((step env op).run m).1 ((step env op).run m).2 := by
  cases ho : op.isOutward with
  | false =>
    obtain ⟨hturns, hflow⟩ := plain_step env op ho m
    exact .inward hflow hturns
  | true =>
    cases op with
    | log n => exact ensures_log env n m m (.refl m)
    | sstore => exact ensures_sstore env m m (.refl m)
    | selfDestruct => exact ensures_selfDestruct env m m rfl
    | create variant => exact (ensures_prepareCreate env variant m m (.refl m)).stepped variant
    | call variant => exact (ensures_prepareCall env variant m m (.refl m)).stepped
    | _ => cases ho

end Exec

theorem Stepped.of_run {env : Env} {op : Opcode} {m m' : Machine} {flow : Flow}
    (h : (Exec.step env op).run m = (flow, m')) : Stepped env m op flow m' := by
  have hs := Exec.stepped env op m
  rwa [h] at hs

end ContractVm
