import Mathlib
import ContractVm.Proofs.Delivery
import ContractVm.Proofs.Lasting

/-! # Lengths beyond the index limit

When a copy or an output is written, the room for it is made first, and then its length is compared
with the index limit. By then it cannot be too long, since memory reaches no further than the limit.
A `Detour` is something else to do in the two places where the length is too long: whatever it does,
no execution comes to it. -/

namespace ContractVm

/-! ### Memory is bounded -/

theorem Memory.Serves.not_misses {limit wordCost : Nat} {a : Access} {s s' : Image}
    {answer : Answer} (h : Serves limit wordCost a s answer s') (hanswer : answer ≠ a.refusal) :
    ¬a.Misses limit := by
  cases h with
  | missed _ _ => exact absurd rfl hanswer
  | unpaid hfits _ => exact hfits
  | served hfits _ => exact hfits

theorem Memory.Capped.reserve_length {mem : Memory} (hmem : mem.Capped) {offset : Word}
    {length : Nat} {m : Meter} (h : (mem.reserve offset length m).1 = true) :
    length ≤ indexLimit := by
  have hanswer : ((Access.reserve offset length).perform mem m).1 ≠
      (Access.reserve offset length).refusal := by
    show Answer.reserved (mem.reserve offset length m).1 ≠ .reserved false
    rw [h]
    decide
  have hfits := (hmem.follows (.reserve offset length) m).serves.not_misses hanswer
  have hmaximum := hmem.maximum
  simp only [Access.Misses, Access.stop, Access.length] at hfits
  omega

namespace Exec

theorem Built.bounded {blind : Prop} {α : Type} {Φ : α → Prop} {p : Exec α} (h : Built blind Φ p)
    {m : Machine} (hm : m.memory.Bounded) : (p.run m).2.memory.Bounded := by
  induction h generalizing m with
  | bind _ _ ihp ihf => exact ihf _ (ihp hm)
  | @look _ _ f _ _ ih => exact ih m hm
  | readMemory offset length => exact (hm.toCapped.follows (.read offset length) m.meter).bounded hm
  | writeMemory offset bs => exact (hm.toCapped.follows (.write offset bs) m.meter).bounded hm
  | reserveMemory offset length => exact (hm.toCapped.follows (.reserve offset length) m.meter).bounded hm
  | newAddress creator salt initCode =>
    cases salt with
    | none => exact hm
    | some salt => exact hm
  | _ => exact hm

end Exec

theorem lasting_bounded : Lasting fun m => m.memory.Bounded := by
  refine lasting_of_parts (fun hp _ hm => hp.bounded hm) (fun _ _ _ hmemory hm => ?_)
    fun _ _ _ _ => ?_
  · rw [hmemory]
    exact hm
  · exact Memory.empty_bounded _ _ _

/-! ### Another way to perform instructions -/

/-- Runs code as `run` does, with instructions performed in a way of their own. -/
def runBy (step : Env → Opcode → Exec Flow) (resume : Env → Invocation → Outcome → Exec Unit) :
    Nat → Env → Machine → Option Outcome
  | 0, _, _ => none
  | fuel + 1, env, m =>
    match m.fetch env with
    | (m, .error fault) => some (m.finish (.error fault))
    | (m, .ok op) =>
      match (step env op).run m with
      | (.next, m) => runBy step resume fuel env m.advance
      | (.jumped, m) => runBy step resume fuel env m
      | (.halt output, m) => some (m.halt output)
      | (.invoke inv, m) =>
        let outcome := match inv.begin env m with
          | .over outcome => some outcome
          | .running inner start => runBy step resume fuel inner start
        match outcome with
        | none => none
        | some outcome => runBy step resume fuel env ((resume env inv outcome).run m).2.advance

/-- Copies the bytes of `window` into memory as `Exec.copyToMemory` does. -/
def copyBy (window : Except Fault Bytes) (env : Env) (memOffset : Word) (length : Nat) :
    Exec Unit := do
  Exec.charge (env.prices.copyGas length)
  if ← Exec.faulty then return
  if ← Exec.reserveMemory memOffset length then
    if let some window ← Exec.attempt window then
      Exec.writeMemory memOffset window

/-- The second half of a nested call, with its result delivered in a way of its own. -/
def resumeBy (land : Landing → Except Fault Bytes → Exec Unit) (env : Env) (inv : Invocation)
    (out : Outcome) : Exec Unit := do
  modify fun m => { m with sequence := out.sequence }
  let settled ← match out.result with
    | .ok output => Exec.settle env inv.landing output out
    | .error _ => pure true
  if settled then
    Exec.emit (.call { call := inv.call, depth := inv.frame.depth, result := out.result })
    Exec.refund out.gas
    land inv.landing out.result

theorem resumeBy_cases (env : Env) (inv : Invocation) (out : Outcome) (m : Machine) :
    (∀ land land', (resumeBy land env inv out).run m = (resumeBy land' env inv out).run m) ∨
    ∃ frame trace, ∀ land, (resumeBy land env inv out).run m =
      (land inv.landing out.result).run (m.received inv out frame trace) := by
  cases hr : out.result with
  | error fault =>
    refine Or.inr ⟨m.frame, m.trace, fun land => ?_⟩
    unfold resumeBy Machine.received Invocation.record
    rw [hr]
    rfl
  | ok output =>
    have hrun : ∀ land, (resumeBy land env inv out).run m =
        let settled := (Exec.settle env inv.landing output out).run
          { m with sequence := out.sequence }
        (if settled.1 = true then do
          Exec.emit (inv.record out)
          Exec.refund out.gas
          land inv.landing out.result
        else pure ()).run settled.2 := by
      intro land
      unfold resumeBy Invocation.record
      rw [hr]
      rfl
    have hsettled := Exec.ensures_settle env inv.landing output out
      { m with sequence := out.sequence } _ rfl
    generalize (Exec.settle env inv.landing output out).run { m with sequence := out.sequence } =
      settled at hrun hsettled
    obtain ⟨done, m₁⟩ := settled
    dsimp only at hrun hsettled
    cases hsettled with
    | @done child frame hi hs =>
      refine Or.inr ⟨frame, m.trace ++ out.trace, fun land => ?_⟩
      rw [hrun, ← hr]
      rfl
    | uninstalled hi => exact Or.inl fun land land' => by rw [hrun, hrun]; rfl
    | refused hi hs => exact Or.inl fun land land' => by rw [hrun, hrun]; rfl

/-- Instructions that do the same wherever a run can come to give the same runs. -/
theorem runBy_eq {step : Env → Opcode → Exec Flow}
    {resume : Env → Invocation → Outcome → Exec Unit} {P : Machine → Prop} (hP : Lasting P)
    (hstep : ∀ env op m, P m → (step env op).run m = (Exec.step env op).run m)
    (hresume : ∀ env inv out m, P m →
      (resume env inv out).run m = (Exec.resume env inv out).run m)
    (fuel : Nat) (env : Env) (m : Machine) (hm : P m) :
    runBy step resume fuel env m = run fuel env m := by
  induction fuel generalizing env m with
  | zero => rfl
  | succ fuel ih =>
    unfold runBy run
    rcases hfetch : m.fetch env with ⟨m₁, fault | op⟩
    · rfl
    · obtain ⟨meter, rfl, -⟩ := Machine.fetch_meter hfetch
      have hm₁ : P { m with meter } := hP.same m _ rfl rfl hm
      have hkept := hP.step env op _ hm₁
      dsimp only
      rw [hstep env op _ hm₁]
      rcases hrun : (Exec.step env op).run { m with meter } with ⟨flow, m₂⟩
      rw [hrun] at hkept
      have hm₂ : P m₂ := hkept
      cases flow with
      | next => exact ih env m₂.advance (hP.same m₂ _ rfl rfl hm₂)
      | jumped => exact ih env m₂ hm₂
      | halt output => rfl
      | invoke inv =>
        have hrest : ∀ out, runBy step resume fuel env ((resume env inv out).run m₂).2.advance =
            run fuel env ((Exec.resume env inv out).run m₂).2.advance := by
          intro out
          rw [hresume env inv out m₂ hm₂]
          have hresumed := hP.resume env inv out m₂ hm₂
          exact ih env _ (hP.same ((Exec.resume env inv out).run m₂).2 _ rfl rfl hresumed)
        have hbegun := inv.begun env m₂
        have hbegin : env.host.begin (m₂.view env) inv.frame inv.call inv.target m₂.sequence =
            inv.begin env m₂ := rfl
        dsimp only
        rw [hbegin]
        rcases hb : inv.begin env m₂ with out | ⟨inner, start⟩
        · exact hrest out
        · rw [hb] at hbegun
          dsimp only
          rw [ih inner start (hbegun.lasting hP)]
          cases run fuel inner start with
          | none => rfl
          | some out => exact hrest out

/-! ### Detours -/

/-- What to do with a length beyond the index limit: the bytes to copy instead, if any, and how to
deliver an output. -/
structure Detour where
  window : Nat → Except Fault Bytes
  output : Nat → Exec Unit

namespace Detour

def faults : Detour where
  window length := .error (.memoryOutOfBounds ("cannot copy " ++ toString length ++ " bytes"))
  output size := Exec.fail (.memoryOutOfBounds ("cannot return " ++ toString size ++ " bytes"))

variable (detour : Detour)

def copyWindow (data : Bytes) (offset length : Nat) : Except Fault Bytes :=
  if data.length < offset then .error .inputOutOfBounds
  else if indexLimit < length then detour.window length
  else .ok (Bytes.window offset length data)

def copyData (env : Env) (data : Bytes) : Exec Unit := do
  let memOffset ← Exec.pop
  let offset ← Exec.pop64
  let length ← Exec.pop64
  copyBy (detour.copyWindow data offset length) env memOffset length

def immediate (code : Code) (pc size : Nat) : Except Fault Bytes :=
  if indexLimit < size then detour.window size else .ok (code.immediate pc size)

/-- Performs an instruction; those that take a window take the detour. -/
def step (env : Env) : Opcode → Exec Flow
  | .callDataLoad => do
    let offset ← Exec.pop64
    if let some data ← Exec.attempt (detour.copyWindow env.call.input offset 32) then
      Exec.push (Word.ofBytes data)
    return .next
  | .callDataCopy => do
    detour.copyData env env.call.input
    return .next
  | .codeCopy => do
    detour.copyData env env.code.toBytes
    return .next
  | .extCodeCopy => do
    match ← Exec.popAccount env env.prices.getAccount with
    | (_, some (some account)) => detour.copyData env account.code
    | (address, some none) => Exec.fail (.unknownAddress address)
    | (_, none) => pure ()
    return .next
  | .push n => do
    let size := n.val + 1
    if let some data ← Exec.attempt (detour.immediate env.code (← get).pc size) then
      Exec.push (Word.ofBytes data)
    modify fun m => { m with pc := m.pc + size }
    return .next
  | op => Exec.step env op

def writeOutput (offset : Word) (output : Bytes) (size : Nat) : Exec Unit := do
  if ← Exec.reserveMemory offset size then
    if indexLimit < size then detour.output size
    else Exec.writeMemory offset (Bytes.fit size output)

/-- Delivers the result of a nested call; an output for memory takes the detour. -/
def land (landing : Landing) (result : Except Fault Bytes) : Exec Unit := do
  match landing, result with
  | .memory offset size, .ok output =>
    Exec.push 1
    detour.writeOutput offset output size
    Exec.setReturnData output
  | .memory offset size, .error fault =>
    Exec.push 0
    if fault.isRevert then detour.writeOutput offset fault.output size
    Exec.setReturnData fault.output
  | _, _ => Exec.land landing result

def resume (env : Env) (inv : Invocation) (out : Outcome) : Exec Unit :=
  resumeBy detour.land env inv out

def run (fuel : Nat) (env : Env) (m : Machine) : Option Outcome :=
  runBy detour.step detour.resume fuel env m

def perform (host : Host) (fuel : Nat) (below : View) (frame : Frame) (call : Call)
    (target : Target) (sequence : CreateSequence) : Option Outcome :=
  match host.begin below frame call target sequence with
  | .over outcome => some outcome
  | .running env m => detour.run fuel env m

/-! ### Nothing comes to a detour -/

theorem step_push (env : Env) (n : Fin 32) : detour.step env (.push n) = Exec.step env (.push n) := by
  have hsize : ¬indexLimit < n.val + 1 := by
    unfold indexLimit
    omega
  have hdata : ∀ pc, detour.immediate env.code pc (n.val + 1) =
      .ok (env.code.immediate pc (n.val + 1)) := fun _ => if_neg hsize
  unfold step
  simp only [hdata]
  rfl

theorem step_faults (env : Env) (op : Opcode) : faults.step env op = Exec.step env op := by
  cases op with
  | push n => exact faults.step_push env n
  | _ => rfl

theorem resume_faults (env : Env) (inv : Invocation) (out : Outcome) :
    faults.resume env inv out = Exec.resume env inv out := by
  have hland : faults.land = Exec.land := by
    funext landing result
    cases landing <;> cases result <;> rfl
  unfold resume
  rw [hland]
  rfl

theorem copyWindow_of_le {length : Nat} (h : length ≤ indexLimit) (data : Bytes) (offset : Nat) :
    detour.copyWindow data offset length = ContractVm.copyWindow data offset length := by
  unfold copyWindow ContractVm.copyWindow
  rw [if_neg (Nat.not_lt.2 h), if_neg (Nat.not_lt.2 h)]

/-- The bytes to copy are looked at only if there is room for them. -/
theorem run_copyBy {window window' : Except Fault Bytes} {length : Nat}
    (h : length ≤ indexLimit → window = window') (env : Env) (memOffset : Word) {m : Machine}
    (hm : m.memory.Bounded) :
    (copyBy window env memOffset length).run m = (copyBy window' env memOffset length).run m := by
  refine Exec.run_bind_congr (Exec.run_bind_congr ?_)
  split
  · rfl
  · refine Exec.run_bind_congr ?_
    split
    · next hdone =>
      have hlength := hm.toCapped.reserve_length hdone
      rw [h hlength]
    · rfl

theorem run_copyData (env : Env) (data : Bytes) {m : Machine} (hm : m.memory.Bounded) :
    (detour.copyData env data).run m = (Exec.copyData env data).run m := by
  have hpop : (Exec.pop.run m).2.memory.Bounded := hm
  have hpop64 : ∀ k : Machine, k.memory.Bounded → (Exec.pop64.run k).2.memory.Bounded :=
    fun _ hk => hk
  refine Exec.run_bind_congr (Exec.run_bind_congr (Exec.run_bind_congr ?_))
  exact run_copyBy (fun hlength => detour.copyWindow_of_le hlength data _) env _
    (hpop64 _ (hpop64 _ hpop))

theorem run_writeOutput (offset : Word) (output : Bytes) (size : Nat) {m : Machine}
    (hm : m.memory.Bounded) :
    (detour.writeOutput offset output size).run m = (Exec.writeOutput offset output size).run m := by
  refine Exec.run_bind_congr ?_
  split
  · next hdone =>
    have hsize : ¬indexLimit < size := Nat.not_lt.2 (hm.reserve_length hdone)
    rw [if_neg hsize, if_neg hsize]
  · rfl

theorem run_land (landing : Landing) (result : Except Fault Bytes) {m : Machine}
    (hm : m.memory.Bounded) :
    (detour.land landing result).run m = (Exec.land landing result).run m := by
  have hpushed : ∀ w, ((Exec.push w).run m).2.memory.Bounded := fun _ => hm
  cases landing with
  | create address => cases result <;> rfl
  | memory offset size =>
    cases result with
    | ok output =>
      refine Exec.run_bind_congr ?_
      exact Exec.run_bind_left (detour.run_writeOutput offset output size (hpushed 1)) _
    | error fault =>
      refine Exec.run_bind_congr ?_
      split
      · exact Exec.run_bind_left (detour.run_writeOutput offset _ size (hpushed 0)) _
      · rfl

theorem run_resume (env : Env) (inv : Invocation) (out : Outcome) {m : Machine}
    (hm : m.memory.Bounded) :
    (detour.resume env inv out).run m = (Exec.resume env inv out).run m := by
  rw [← resume_faults]
  unfold resume
  rcases resumeBy_cases env inv out m with hsame | ⟨frame, trace, hlands⟩
  · exact hsame _ _
  · rw [hlands, hlands]
    have hbounded : (m.received inv out frame trace).memory.Bounded := hm
    rw [detour.run_land _ _ hbounded, faults.run_land _ _ hbounded]

theorem run_step (env : Env) (op : Opcode) {m : Machine} (hm : m.memory.Bounded) :
    (detour.step env op).run m = (Exec.step env op).run m := by
  cases op with
  | callDataLoad =>
    refine Exec.run_bind_congr ?_
    rewrite [detour.copyWindow_of_le (by decide)]
    rfl
  | callDataCopy => exact Exec.run_bind_left (detour.run_copyData env _ hm) _
  | codeCopy => exact Exec.run_bind_left (detour.run_copyData env _ hm) _
  | extCodeCopy =>
    refine Exec.run_bind_congr ?_
    have hbounded : ((Exec.popAccount env env.prices.getAccount).run m).2.memory.Bounded :=
      (Exec.built_popAccount True env _).bounded hm
    generalize (Exec.popAccount env env.prices.getAccount).run m = found at hbounded ⊢
    obtain ⟨⟨address, _ | _ | account⟩, k⟩ := found
    · rfl
    · rfl
    · exact Exec.run_bind_left (detour.run_copyData env account.code hbounded) _
  | push n => rw [detour.step_push]
  | _ => rfl

theorem run_faults (fuel : Nat) (env : Env) (m : Machine) :
    faults.run fuel env m = ContractVm.run fuel env m := by
  have hany : Lasting fun _ => True :=
    ⟨fun _ _ _ _ _ => trivial, fun _ _ _ _ => trivial, fun _ _ _ _ _ => trivial,
      fun _ _ _ _ => trivial⟩
  refine runBy_eq hany (fun env op m _ => ?_) (fun env inv out m _ => ?_) fuel env m trivial
  · rw [step_faults]
  · rw [resume_faults]

/-- No execution depends on what a detour does. -/
theorem perform_eq (host : Host) (fuel : Nat) (below : View) (frame : Frame) (call : Call)
    (target : Target) (sequence : CreateSequence) :
    detour.perform host fuel below frame call target sequence =
      host.perform fuel below frame call target sequence := by
  have hbegun := host.begun below frame call target sequence
  unfold perform Host.perform
  rcases hb : host.begin below frame call target sequence with out | ⟨env, m⟩
  · rfl
  · rw [hb] at hbegun
    exact runBy_eq lasting_bounded (fun env op m hm => detour.run_step env op hm)
      (fun env inv out m hm => detour.run_resume env inv out hm) fuel env m
      (hbegun.lasting lasting_bounded)

end Detour

end ContractVm
