import Mathlib
import ContractVm.Proofs.MemoryArray
import ContractVm.Proofs.Survival

/-! # What a call hands to its caller

A call that leaves its caller without a fault has told it everything: a word that says whether it
succeeded, and its output, which fills the range of memory that the caller asked for and is kept as
a whole beside it. Only a success and a revert have an output. What a call takes from the stack, and
the input that it reads, leave the bytes of memory as they were. -/

namespace ContractVm

/-! ### Memory -/

namespace Memory

theorem cover_byteAt {offset length : Nat} {mem mem' : Memory} {m m' : Meter}
    (h : mem.cover offset length m = .ok (mem', m')) : mem'.byteAt = mem.byteAt := by
  unfold cover at h
  dsimp only at h
  split at h
  · cases h
  · split at h
    · cases h
      rfl
    · split at h
      · cases h
      · split at h
        · cases h
          rfl
        · cases h

theorem read_byteAt (offset length : Word) (mem : Memory) (m : Meter) :
    (mem.read offset length m).2.1.byteAt = mem.byteAt := by
  unfold read
  split
  · split
    · rfl
    · split
      · next hc => exact cover_byteAt hc
      · rfl
  · rfl

theorem reserve_byteAt (offset : Word) (length : Nat) (mem : Memory) (m : Meter) :
    (mem.reserve offset length m).2.1.byteAt = mem.byteAt := by
  unfold reserve
  split
  · split
    · rfl
    · split
      · next hc => exact cover_byteAt hc
      · rfl
  · rfl

theorem write_byteAt {offset : Word} {bs : Bytes} {mem : Memory} {m : Meter}
    (h : (mem.write offset bs m).2.fault = none) :
    (mem.write offset bs m).1.byteAt = (Access.write offset bs).update mem.byteAt := by
  unfold write at h ⊢
  cases ho : Word.toNat64? offset with
  | none =>
    rw [ho] at h
    exact absurd h (Meter.record_faulty _ m)
  | some o =>
    obtain ⟨rfl, -⟩ := Word.toNat64?_eq_some ho
    rw [ho] at h
    dsimp only at h ⊢
    split
    · next hempty =>
      have hlength : (Access.write offset bs).length = 0 := congrArg List.length hempty
      exact (Access.update_of_empty hlength mem.byteAt).symm
    · next hne =>
      rw [if_neg hne] at h
      cases hc : mem.cover offset.toNat bs.length m with
      | error fault =>
        rw [hc] at h
        exact absurd h (Meter.record_faulty _ m)
      | ok covered =>
        funext i
        rw [byteAt_store, cover_byteAt hc]
        rfl

end Memory

/-! ### Taking the operands -/

/-- The machine `k` comes from `m` and has left the bytes of memory alone. If it has no fault, then
`n` words were taken off the stack and `φ` holds of them. -/
structure Machine.Gathered (m : Machine) (n : Nat) (φ : Prop) (k : Machine) : Prop where
  bytes : k.memory.byteAt = m.memory.byteAt
  taken : k.meter.fault = none → k.stack.items = m.stack.items.drop n ∧ φ

theorem Stack.pop64_items {s : Stack} {m : Meter} (h : (s.pop64 m).2.2.fault = none) :
    ∃ w : Word, s.items = w :: (s.pop64 m).2.1.items ∧ w.toNat = (s.pop64 m).1 := by
  unfold pop64 at h ⊢
  dsimp only at h ⊢
  split at h
  · next n hn =>
    obtain ⟨hn, -⟩ := Word.toNat64?_eq_some hn
    exact ⟨_, Exec.pop_items h, hn.symm⟩
  · exact absurd h (Meter.record_faulty _ _)

namespace Exec

variable {α β : Type}

structure Calm (p : Exec α) : Prop where
  spends : ∀ m : Machine, m.meter.Spends (p.run m).2.meter
  stack : ∀ m : Machine, (p.run m).2.stack = m.stack
  bytes : ∀ m : Machine, (p.run m).2.memory.byteAt = m.memory.byteAt

/-- The part takes a word off the stack, which its value has to do with, and nothing else but
gas. -/
structure Plucks (r : α → Word → Prop) (p : Exec α) : Prop where
  spends : ∀ m : Machine, m.meter.Spends (p.run m).2.meter
  memory : ∀ m : Machine, (p.run m).2.memory = m.memory
  items : ∀ m : Machine, (p.run m).2.meter.fault = none →
    ∃ w, m.stack.items = w :: (p.run m).2.stack.items ∧ r (p.run m).1 w

theorem calm_charge (amount : Nat) : Calm (charge amount) :=
  ⟨(quiet_charge amount).spending, fun _ => rfl, fun _ => rfl⟩

theorem calm_attempt (r : Except Fault α) : Calm (attempt r) :=
  ⟨(quiet_attempt r).spending, fun _ => rfl, fun _ => rfl⟩

theorem calm_readMemory (offset length : Word) : Calm (readMemory offset length) :=
  ⟨(quiet_readMemory offset length).spending, fun _ => rfl,
    fun m => m.memory.read_byteAt offset length m.meter⟩

theorem calm_findTarget (env : Env) (variant : CallVariant) (target : Address) :
    Calm (findTarget env variant target) := by
  have hfound := fun m => ensures_findTarget env variant target m m rfl
  refine ⟨spending_findTarget env variant target, fun m => ?_, fun m => ?_⟩
  all_goals
    rcases hfound m with ⟨account, frame, -, -, hm⟩ | ⟨-, fault, hm⟩
    · rw [hm]
    · rw [hm]
      rfl

theorem plucks_pop : Plucks (fun a w => w = a) pop :=
  ⟨quiet_pop.spending, fun _ => rfl, fun _ hclear => ⟨_, pop_items hclear, rfl⟩⟩

theorem plucks_pop64 : Plucks (fun a w => w.toNat = a) pop64 :=
  ⟨quiet_pop64.spending, fun _ => rfl, fun _ hclear => Stack.pop64_items hclear⟩

theorem plucks_popAddress : Plucks (fun a w => Address.ofWord w = a) popAddress :=
  ⟨quiet_popAddress.spending, fun _ => rfl, fun _ hclear => ⟨_, pop_items hclear, rfl⟩⟩

section Gathering

variable {m : Machine} {n : Nat} {φ : Prop} {p : Exec α} {f : α → Exec β}
  {Q : β → Machine → Prop}

theorem Calm.gathered (hp : Calm p) {k : Machine} (hk : m.Gathered n φ k) :
    m.Gathered n φ (p.run k).2 := by
  refine ⟨(hp.bytes k).trans hk.bytes, fun hclear => ?_⟩
  rw [hp.stack k]
  exact hk.taken ((hp.spends k).unfaulted hclear)

theorem Plucks.gathered {r : α → Word → Prop} (hp : Plucks r p) {k : Machine}
    (hk : m.Gathered n φ k) :
    m.Gathered (n + 1) (φ ∧ ∃ w, m.stack.items[n]? = some w ∧ r (p.run k).1 w) (p.run k).2 := by
  have hbytes : (p.run k).2.memory.byteAt = m.memory.byteAt := by
    rw [hp.memory k]
    exact hk.bytes
  refine ⟨hbytes, fun hclear => ?_⟩
  obtain ⟨w, hitems, hw⟩ := hp.items k hclear
  obtain ⟨hleft, hφ⟩ := hk.taken ((hp.spends k).unfaulted hclear)
  rw [hleft] at hitems
  have hrest : m.stack.items.drop (n + 1) = (p.run k).2.stack.items := by
    rw [← List.tail_drop, hitems, List.tail_cons]
  have hword : m.stack.items[n]? = some w := by
    rw [← List.head?_drop, hitems, List.head?_cons]
  exact ⟨hrest.symm, hφ, w, hword, hw⟩

theorem Calm.bind_ensures (hp : Calm p) (hf : ∀ a, Ensures (m.Gathered n φ) (f a) Q) :
    Ensures (m.Gathered n φ) (p >>= f) Q :=
  fun _ hk => hf _ _ (hp.gathered hk)

theorem Plucks.bind_ensures {r : α → Word → Prop} (hp : Plucks r p)
    (hf : ∀ a, Ensures (m.Gathered (n + 1) (φ ∧ ∃ w, m.stack.items[n]? = some w ∧ r a w)) (f a) Q) :
    Ensures (m.Gathered n φ) (p >>= f) Q :=
  fun _ hk => hf _ _ (hp.gathered hk)

end Gathering

end Exec

/-- How many operands of a call come before the range that its output goes to. -/
def CallVariant.inputs (variant : CallVariant) : Nat :=
  if variant.takesValue then 5 else 4

def Placed (variant : CallVariant) (m : Machine) (inv : Invocation) (m₁ : Machine) : Prop :=
  ∃ offset size : Word,
    m.stack.items.drop variant.inputs = offset :: size :: m₁.stack.items ∧
      inv.landing = .memory offset size.toNat

namespace Exec

/-- What the first half of a call does to the caller's stack and memory. -/
def Collected (variant : CallVariant) (m : Machine) (asked : Option Invocation) (k : Machine) :
    Prop :=
  ∀ inv, asked = some inv → k.meter.fault = none →
    k.memory.byteAt = m.memory.byteAt ∧ Placed variant m inv k

theorem collected_none {variant : CallVariant} {m : Machine} {P : Machine → Prop} :
    Ensures P (pure none) (Collected variant m) := by
  intro k _ inv h
  cases h

theorem ensures_collected (env : Env) (variant : CallVariant) (m : Machine) :
    Ensures (· = m) (prepareCall env variant) (Collected variant m) := by
  have hstart : Ensures (· = m) (setReturnData []) fun _ => m.Gathered 0 True := by
    rintro _ rfl
    exact ⟨rfl, fun _ => ⟨rfl, trivial⟩⟩
  refine hstart.bind fun _ => (calm_attempt _).bind_ensures fun permitted => ?_
  cases permitted with
  | none => exact collected_none
  | some _ =>
    refine plucks_pop64.bind_ensures fun gasLimit => plucks_popAddress.bind_ensures fun target => ?_
    extract_lets rest
    have hrest : ∀ value n φ, n + 2 = variant.inputs →
        Ensures (m.Gathered n φ) (rest value) (Collected variant m) := by
      intro value n φ hn
      refine plucks_pop.bind_ensures fun inOffset => plucks_pop.bind_ensures fun inSize => ?_
      refine plucks_pop.bind_ensures fun outOffset => plucks_pop64.bind_ensures fun outSize => ?_
      refine (calm_charge _).bind_ensures fun _ => ?_
      refine (calm_findTarget env variant target).bind_ensures fun found => ?_
      cases found with
      | none => exact collected_none
      | some account =>
        refine (calm_readMemory inOffset inSize).bind_ensures fun input => ?_
        refine .check (fun _ _ _ => collected_none) fun k hk _ => .at ?_ hk
        refine .get_bind fun _ hk => .at ?_ hk
        refine (calm_attempt _).bind_ensures fun child => ?_
        cases child with
        | none => exact collected_none
        | some child =>
          refine .get_bind fun _ hk => .at ?_ hk
          refine (calm_charge _).bind_ensures fun _ => .pure fun k hk inv hinv hclear => ?_
          cases hinv
          obtain ⟨hleft, ⟨-, offset, hoffset, rfl⟩, size, hsize, rfl⟩ := hk.taken hclear
          refine ⟨hk.bytes, offset, size, ?_, rfl⟩
          rw [← hn, hleft, List.drop_eq_getElem?_toList_append, hoffset,
            List.drop_eq_getElem?_toList_append, hsize]
          rfl
    unfold CallVariant.inputs at hrest
    split
    · next hvalue => exact plucks_pop.bind_ensures fun value => hrest value _ _ (by simp [hvalue])
    · next hvalue => exact hrest env.call.value _ _ (by simp [hvalue])

end Exec

theorem Takes.collected {env : Env} {m m₁ : Machine} {variant : CallVariant} {inv : Invocation}
    (h : Takes env m (.call variant) (.invoke inv) m₁) :
    m₁.memory.byteAt = m.memory.byteAt ∧ Placed variant m inv m₁ := by
  have hunfaulted := h.stepped.invoke_unfaulted
  obtain ⟨k, hfetch, hstep⟩ := h
  obtain ⟨meter, rfl, -⟩ := Machine.fetch_meter hfetch
  have hcollected := Exec.ensures_collected env variant { m with meter } _ rfl
  have hflow : Exec.flowOf ((Exec.prepareCall env variant).run { m with meter }).1 = .invoke inv :=
    congrArg Prod.fst hstep
  obtain rfl : ((Exec.prepareCall env variant).run { m with meter }).2 = m₁ :=
    congrArg Prod.snd hstep
  cases hasked : ((Exec.prepareCall env variant).run { m with meter }).1 with
  | none =>
    rw [hasked] at hflow
    cases hflow
  | some asked =>
    rw [hasked] at hflow
    cases hflow
    exact hcollected inv hasked hunfaulted

theorem Exec.step_call_next {env : Env} {m m₁ : Machine} {variant : CallVariant} {flow : Flow}
    (h : (step env (.call variant)).run m = (flow, m₁)) (hflow : flow.invocation? = none) :
    m₁.meter.fault ≠ none := by
  have hprepared := ensures_prepareCall env variant m m (.refl m)
  obtain rfl : flowOf ((prepareCall env variant).run m).1 = flow := congrArg Prod.fst h
  obtain rfl : ((prepareCall env variant).run m).2 = m₁ := congrArg Prod.snd h
  generalize ((prepareCall env variant).run m).1 = asked at hprepared hflow
  cases hprepared with
  | ready _ => cases hflow
  | refused _ hf => exact hf
  | opened _ _ _ hf => exact hf

theorem Takes.call_next {env : Env} {m m₁ : Machine} {variant : CallVariant} {flow : Flow}
    (h : Takes env m (.call variant) flow m₁) (hflow : flow.invocation? = none) :
    m₁.meter.fault ≠ none := by
  obtain ⟨k, -, hstep⟩ := h
  exact Exec.step_call_next hstep hflow

/-! ### Delivering the result -/

theorem Stack.push_items {w : Word} {s : Stack} {m : Meter} (h : (s.push w m).2.fault = none) :
    (s.push w m).1.items = w :: s.items := by
  unfold push at h ⊢
  split at h
  · next m₁ _ =>
    unfold place at h ⊢
    split at h
    · exact absurd h (Meter.record_faulty _ m₁)
    · next hroom => simp [hroom]
  · exact absurd h (Meter.record_faulty _ m)

/-- The range of `size` bytes at `offset` holds the output, cut off or filled up with zeros, and no
other byte differs from what it was. -/
def Memory.Receives (mem mem' : Memory) (offset size : Nat) (output : Bytes) : Prop :=
  ∀ i, mem'.byteAt i =
    if offset ≤ i ∧ i < offset + size then output.getD (i - offset) 0 else mem.byteAt i

theorem Memory.reserve_done {offset : Word} {length : Nat} {mem : Memory} {m : Meter}
    (h : (mem.reserve offset length m).2.2.fault = none) :
    (mem.reserve offset length m).1 = true := by
  unfold reserve at h ⊢
  split
  · next o ho =>
    rw [ho] at h
    dsimp only at h
    split
    · rfl
    · next hlength =>
      rw [if_neg hlength] at h
      split
      · rfl
      · next hc =>
        rw [hc] at h
        exact absurd h (Meter.record_faulty _ m)
  · next ho =>
    rw [ho] at h
    exact absurd h (Meter.record_faulty _ m)

theorem Memory.update_fit (mem : Memory) (offset : Word) (size : Nat) (output : Bytes) (i : Nat) :
    (Access.write offset (Bytes.fit size output)).update mem.byteAt i =
      if offset.toNat ≤ i ∧ i < offset.toNat + size then output.getD (i - offset.toNat) 0
      else mem.byteAt i := by
  simp only [Access.update, Bytes.length_fit]
  split
  · next hi => exact Bytes.getD_fit (by omega) output
  · rfl

/-- The machine `k'` is the caller `k` with the result of its call, whose output was to go to the
`size` bytes at `offset`; below the operands of the call the stack had the words `rest`. -/
def Delivered (k : Machine) (offset size : Nat) (rest : List Word) (k' : Machine) :
    Except Fault Bytes → Prop
  | .ok output =>
    k'.stack.items = 1 :: rest ∧ k.memory.Receives k'.memory offset size output ∧
      k'.returnData = output
  | .error (.reverted output) =>
    k'.stack.items = 0 :: rest ∧ k.memory.Receives k'.memory offset size output ∧
      k'.returnData = output
  | .error _ =>
    k'.stack.items = 0 :: rest ∧ k'.memory.byteAt = k.memory.byteAt ∧ k'.returnData = []

namespace Exec

theorem writeOutput_receives {offset : Word} {output : Bytes} {size : Nat} {m : Machine}
    (h : ((writeOutput offset output size).run m).2.meter.fault = none) :
    m.memory.Receives ((writeOutput offset output size).run m).2.memory offset.toNat size output := by
  have hrun : (writeOutput offset output size).run m =
      (if (m.memory.reserve offset size m.meter).1 = true then
        (if indexLimit < size then
          fail (.memoryOutOfBounds ("cannot return " ++ toString size ++ " bytes"))
        else writeMemory offset (Bytes.fit size output))
      else pure ()).run ((reserveMemory offset size).run m).2 := rfl
  rw [hrun] at h ⊢
  split at h
  · next hdone =>
    split at h
    · exact absurd h (Meter.record_faulty _ _)
    · next hsize =>
      intro i
      rw [if_pos hdone, if_neg hsize]
      have hwritten := Memory.write_byteAt h
      have hreserved := m.memory.reserve_byteAt offset size m.meter
      have hbyte := congrFun hwritten i
      rw [Memory.update_fit] at hbyte
      rw [← congrFun hreserved i]
      exact hbyte
  · next hdone => exact absurd (Memory.reserve_done h) hdone

theorem land_delivers {offset : Word} {size : Nat} {result : Except Fault Bytes} {m : Machine}
    (h : ((land (.memory offset size) result).run m).2.meter.fault = none) :
    Delivered m offset.toNat size m.stack.items
      ((land (.memory offset size) result).run m).2 result := by
  rw [run_land] at h ⊢
  obtain ⟨hstrains, hstack⟩ := straining_hand (.memory offset size) result
    ((push (Landing.word (.memory offset size) result)).run m).2
  have hpushed : ((push (Landing.word (.memory offset size) result)).run m).2.meter.fault = none := by
    cases hf : ((push (Landing.word (.memory offset size) result)).run m).2.meter.fault with
    | none => rfl
    | some fault =>
      rw [hstrains.kept fault hf] at h
      cases h
  have hitems := (congrArg Stack.items hstack).trans (Stack.push_items hpushed)
  cases result with
  | ok output => exact ⟨hitems, writeOutput_receives h, rfl⟩
  | error fault =>
    cases fault with
    | reverted output => exact ⟨hitems, writeOutput_receives h, rfl⟩
    | _ => exact ⟨hitems, rfl, rfl⟩

end Exec

theorem Delivered.of_byteAt {k k₁ k' : Machine} {offset size : Nat} {rest : List Word}
    {result : Except Fault Bytes} (h : Delivered k₁ offset size rest k' result)
    (hbytes : k₁.memory.byteAt = k.memory.byteAt) : Delivered k offset size rest k' result := by
  have hreceives : ∀ output, k₁.memory.Receives k'.memory offset size output →
      k.memory.Receives k'.memory offset size output := by
    intro output hmem i
    rw [← hbytes]
    exact hmem i
  cases result with
  | ok output => exact ⟨h.1, hreceives _ h.2.1, h.2.2⟩
  | error fault =>
    cases fault with
    | reverted output => exact ⟨h.1, hreceives _ h.2.1, h.2.2⟩
    | _ => exact ⟨h.1, h.2.1.trans hbytes, h.2.2⟩

/-- A calling instruction that leaves no fault has made its call, and what the call gave has reached
the caller. -/
theorem call_results_reach_the_caller (env : Env) (m : Machine) (variant : CallVariant) :
    (∀ (flow : Flow) (m₁ : Machine), Takes env m (.call variant) flow m₁ →
      m₁.meter.fault = none → ∃ inv, flow = .invoke inv) ∧
    ∀ (m₁ : Machine) (inv : Invocation) (fuel : Nat) (out : Outcome),
      Takes env m (.call variant) (.invoke inv) m₁ → inv.perform fuel env m₁ = some out →
      (m₁.after env inv out).meter.fault = none →
      ∃ (offset size : Word) (rest : List Word),
        m.stack.items.drop variant.inputs = offset :: size :: rest ∧
        Delivered m offset.toNat size.toNat rest (m₁.after env inv out) out.result := by
  constructor
  · intro flow m₁ htakes hclear
    cases hasked : flow.invocation? with
    | none => exact absurd hclear (htakes.call_next hasked)
    | some inv => exact ⟨inv, Flow.eq_invoke hasked⟩
  · intro m₁ inv fuel out htakes _ hclear
    obtain ⟨hbytes, offset, size, hoperands, hlanding⟩ := htakes.collected
    refine ⟨offset, size, m₁.stack.items, hoperands, ?_⟩
    have hafter : m₁.after env inv out = ((Exec.resume env inv out).run m₁).2.advance := rfl
    rcases Exec.resume_cases env inv out m₁ with ⟨frame, fault, hrun⟩ | ⟨frame, trace, hrun⟩
    · rw [hafter, hrun] at hclear
      exact absurd hclear (Machine.recorded_faulty _ fault)
    · rw [hafter, hrun, hlanding] at hclear ⊢
      exact (Exec.land_delivers hclear).of_byteAt hbytes

/-! ### A revert with less output than was asked for -/

def revertLedger : Ledger :=
  [({ address := 10 } : Account),
    { address := 13
      code := [0x60, 0xaa, 0x60, 0, 0x53, 0x60, 0xbb, 0x60, 1, 0x53, 0x60, 2, 0x60, 0, 0xfd] }].foldl
    Ledger.put {}

def revertEnv : Env :=
  { relayEnv 0xfa with below := revertLedger.view }

/-- A machine that is about to call that contract and wants three bytes at 1. -/
def revertMachine : Machine :=
  { Machine.start {} 1000 (Frame.root 0) {} with
    memory := (Memory.empty 0 32 0).store 0 [7, 7, 7, 7, 7]
    stack := .ofList [255, 13, 0, 0, 1, 3, 9] }

theorem revert_output_reaches_the_caller :
    ∃ (m₁ : Machine) (inv : Invocation) (out : Outcome),
      Takes revertEnv revertMachine (.call .static) (.invoke inv) m₁ ∧
      inv.perform 40 revertEnv m₁ = some out ∧ out.result = .error (.reverted [0xaa, 0xbb]) ∧
      (m₁.after revertEnv inv out).meter.fault = none ∧
      (m₁.after revertEnv inv out).stack.items = [0, 9] ∧
      (List.range 6).map (m₁.after revertEnv inv out).memory.byteAt = [7, 0xaa, 0xbb, 0, 7, 0] ∧
      (m₁.after revertEnv inv out).returnData = [0xaa, 0xbb] := by
  have hrun : ((Exec.step revertEnv (.call .static)).run
      (revertMachine.fetch revertEnv).1).1.invocation?.bind (fun inv =>
        let m₁ := ((Exec.step revertEnv (.call .static)).run (revertMachine.fetch revertEnv).1).2
        (inv.perform 40 revertEnv m₁).map fun out =>
          ((revertMachine.fetch revertEnv).2, out.result,
            (m₁.after revertEnv inv out).meter.fault)) =
      some (.ok (.call .static), .error (.reverted [0xaa, 0xbb]), none) := by
    decide +kernel
  obtain ⟨inv, hinv, hrun⟩ := Option.bind_eq_some_iff.1 hrun
  obtain ⟨out, hout, hvalues⟩ := Option.map_eq_some_iff.1 hrun
  obtain ⟨hop, hvalues⟩ := Prod.mk.inj hvalues
  obtain ⟨hresult, hclear⟩ := Prod.mk.inj hvalues
  have htakes := Takes.of_fetch hop
  rw [Flow.eq_invoke hinv] at htakes
  obtain ⟨offset, size, rest, hoperands, hdelivered⟩ :=
    (call_results_reach_the_caller revertEnv revertMachine .static).2 _ inv 40 out htakes hout hclear
  have hitems : revertMachine.stack.items.drop (CallVariant.inputs .static) = [1, 3, 9] := rfl
  rw [hitems] at hoperands
  cases hoperands
  rw [hresult] at hdelivered
  obtain ⟨hstack, hmemory, hreturned⟩ := hdelivered
  refine ⟨_, inv, out, htakes, hout, hresult, hclear, hstack, ?_, hreturned⟩
  rw [List.map_congr_left fun i _ => hmemory i]
  decide +kernel

end ContractVm
