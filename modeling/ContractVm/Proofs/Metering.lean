import Mathlib
import ContractVm.Proofs.Parts

/-! # Working on a meter

What instructions do to the meter comes down to paying, recording faults, and going on with a value
(`Meter.Metered`). Whatever is made of these does the same on a poorer meter, as long as it would
have left what the poorer meter lacks (`Meter.Metered.spares`). The stack, the memory and the small
operations of the machine work on the meter in this way, and so does every instruction that does not
ask how much gas is left (`Exec.metered_step`). -/

namespace ContractVm

namespace Meter

def richer (m : Meter) (extra : Nat) : Meter :=
  { m with gas := m.gas + extra }

theorem consume_richer {amount : Nat} {m : Meter} (h : amount ≤ m.gas) (extra : Nat) :
    (m.richer extra).consume amount =
      .ok (({ m with gas := m.gas - amount } : Meter).richer extra) := by
  have hle : amount ≤ (m.richer extra).gas := Nat.le_add_right_of_le h
  have hgas : m.gas + extra - amount = m.gas - amount + extra := by omega
  rw [consume_of_le hle]
  simp only [richer, hgas]

/-- The operation is made of payments, of recording faults and of looking whether there is one. -/
inductive Metered : {γ : Type} → (Meter → γ × Meter) → Prop where
  | pure {γ : Type} (a : γ) : Metered fun m => (a, m)
  | record {γ : Type} (a : γ) (fault : Fault) : Metered fun m => (a, m.record fault)
  | faulty : Metered fun m => (m.faulty, m)
  | paid {γ : Type} {G : Meter → γ × Meter} (amount : Nat) (a : γ) (hG : Metered G) :
      Metered fun m =>
        match m.consume amount with
        | .ok m => G m
        | .error fault => (a, m.record fault)
  | bind {γ δ : Type} {F : Meter → γ × Meter} {K : γ → Meter → δ × Meter} (hF : Metered F)
      (hK : ∀ a, Metered (K a)) : Metered fun m => K (F m).1 (F m).2

section Rules

variable {γ δ : Type} {F G : Meter → γ × Meter}

theorem Metered.congr (hG : Metered G) (h : ∀ m, F m = G m) : Metered F := by
  rw [funext h]
  exact hG

theorem Metered.map (hF : Metered F) (g : γ → δ) : Metered fun m => (g (F m).1, (F m).2) :=
  hF.bind fun a => .pure (g a)

theorem Metered.ite {c : Prop} [Decidable c] (hF : Metered F) (hG : Metered G) :
    Metered fun m => if c then F m else G m := by
  split
  · exact hF
  · exact hG

theorem Metered.consume (amount : Nat) (a : γ) (hG : Metered G)
    (h : ∀ m, F m =
      match m.consume amount with
      | .ok m => G m
      | .error fault => (a, m.record fault)) : Metered F :=
  (Metered.paid amount a hG).congr h

theorem metered_charge (amount : Nat) : Metered fun m => ((), m.charge amount) := by
  refine .consume amount () (.pure ()) fun m => ?_
  unfold charge
  cases m.consume amount <;> rfl

theorem metered_attempt (result : Except Fault γ) : Metered (attempt result) := by
  cases result with
  | ok a => exact .pure (some a)
  | error fault => exact .record none fault

theorem Metered.spends (h : Metered F) (m : Meter) : m.Spends (F m).2 := by
  induction h generalizing m with
  | pure a => exact .refl m
  | record a fault => exact spends_record fault m
  | faulty => exact .refl m
  | paid amount a _ ih =>
    dsimp only
    split
    · next m₁ hc => exact (spends_consume hc).trans (ih m₁)
    · exact spends_record _ m
  | bind _ _ ihF ihK => exact (ihF m).trans (ihK _ _)

theorem Metered.spares (h : Metered F) {m : Meter} {extra : Nat}
    (hf : (F (m.richer extra)).2.fault = none) (hleft : extra ≤ (F (m.richer extra)).2.gas) :
    F (m.richer extra) = ((F m).1, (F m).2.richer extra) := by
  induction h generalizing m with
  | pure a => rfl
  | record a fault => exact absurd hf (record_faulty fault _)
  | faulty => rfl
  | @paid γ G amount a hG ih =>
    dsimp only at hf hleft ⊢
    rcases Nat.lt_or_ge (m.richer extra).gas amount with hlt | hge
    · rw [consume_of_lt hlt] at hf
      exact absurd hf (record_faulty _ _)
    · -- what is left at the end was there after the payment
      have hafter := hG.spends { m.richer extra with gas := (m.richer extra).gas - amount }
      have hle : amount ≤ m.gas := by
        rw [consume_of_le hge] at hleft
        have hgas : extra ≤ m.gas + extra - amount := hleft.trans hafter.gas
        have hall : amount ≤ m.gas + extra := hge
        omega
      rw [consume_richer hle] at hf hleft ⊢
      rw [consume_of_le hle]
      exact ih hf hleft
  | @bind γ δ F K _ hK ihF ihK =>
    dsimp only at hf hleft ⊢
    have hrest := (hK (F (m.richer extra)).1).spends (F (m.richer extra)).2
    have hfirst := ihF (hrest.unfaulted hf) (hleft.trans hrest.gas)
    rw [hfirst] at hf hleft ⊢
    exact ihK _ hf hleft

end Rules

/-- A result with the meter apart from the rest. -/
def apart {γ δ : Type} (r : γ × δ × Meter) : (γ × δ) × Meter :=
  ((r.1, r.2.1), r.2.2)

end Meter

/-! ### Stacks and memory

What becomes of the stack or the memory counts as part of the result. -/

namespace Stack

theorem place_metered (w : Word) (s : Stack) : Meter.Metered (s.place w) :=
  .ite (.record s .stackOverflow) (.pure _)

theorem push_metered (w : Word) (s : Stack) : Meter.Metered (s.push w) :=
  .consume s.price s (place_metered w s) fun _ => rfl

theorem pop_metered (s : Stack) : Meter.Metered fun m => Meter.apart (s.pop m) := by
  cases hitems : s.items with
  | nil =>
    refine .consume s.price (0, s) (.record (0, s) .stackUnderflow) fun m => ?_
    simp only [pop, hitems]
    cases m.consume s.price <;> rfl
  | cons w rest =>
    refine .consume s.price (0, s) (.pure (w, s.discard)) fun m => ?_
    simp only [pop, hitems]
    cases m.consume s.price <;> rfl

theorem pop64_metered (s : Stack) : Meter.Metered fun m => Meter.apart (s.pop64 m) := by
  have hnumber : ∀ popped : Word × Stack, Meter.Metered fun m =>
      (Word.toNat64? popped.1).elim ((0, popped.2), m.record .integerOverflow)
        fun n => ((n, popped.2), m) := by
    intro popped
    cases Word.toNat64? popped.1 with
    | none => exact .record (0, popped.2) .integerOverflow
    | some n => exact .pure (n, popped.2)
  refine ((pop_metered s).bind hnumber).congr fun m => ?_
  simp only [pop64, Meter.apart]
  cases Word.toNat64? (s.pop m).1 <;> rfl

theorem dup_metered (n : Nat) (s : Stack) : Meter.Metered (s.dup n) := by
  cases n with
  | zero =>
    refine .consume s.price s (.record s .stackUnderflow) fun m => ?_
    unfold dup
    cases m.consume s.price <;> rfl
  | succ k =>
    cases hitem : s.items[k]? with
    | none =>
      refine .consume s.price s (.record s .stackUnderflow) fun m => ?_
      simp only [dup, hitem]
      cases m.consume s.price <;> rfl
    | some w =>
      refine .consume s.price s (push_metered w s) fun m => ?_
      simp only [dup, hitem]
      cases m.consume s.price <;> rfl

theorem exchange_metered (n : Nat) (s : Stack) :
    Meter.Metered fun m =>
      match n, s.items[0]?, s.items[n]? with
      | _ + 1, some top, some w =>
        ({ s with
            items := (s.items.set 0 w).set n top
            depth_eq := by simp [s.depth_eq] }, m)
      | _, _, _ => (s, m.record .stackUnderflow) := by
  split
  · exact .pure _
  · exact .record s .stackUnderflow

theorem swap_metered (n : Nat) (s : Stack) : Meter.Metered (s.swap n) := by
  refine .consume s.price s (exchange_metered n s) fun m => ?_
  unfold swap
  cases m.consume s.price <;> rfl

end Stack

namespace Memory

variable {γ : Type}

theorem cover_metered {F : Meter → γ × Meter} (offset length : Nat) (mem : Memory)
    (covered : Memory → γ) (a : γ)
    (ok : ∀ m mem' m₁, mem.cover offset length m = .ok (mem', m₁) → F m = (covered mem', m₁))
    (error : ∀ m fault, mem.cover offset length m = .error fault → F m = (a, m.record fault)) :
    Meter.Metered F := by
  by_cases hlimit : indexLimit < offset + length
  · refine Meter.Metered.congr (.record a beyondLimit) fun m => error m _ ?_
    rw [cover, if_pos hlimit]
  by_cases hinside : offset + length ≤ mem.capacity
  · refine Meter.Metered.congr (.pure (covered mem)) fun m => ok m mem m ?_
    rw [cover, if_neg hlimit, if_pos hinside]
  by_cases hmax : mem.maximum < offset + length
  · refine Meter.Metered.congr (.record a (beyondMaximum (offset + length) mem.maximum))
      fun m => error m _ ?_
    rw [cover, if_neg hlimit, if_neg hinside, if_pos hmax]
  · obtain ⟨capacity, hcapacity⟩ :
        ∃ capacity, capacity = min (wordsFor (offset + length) * 32) mem.maximum := ⟨_, rfl⟩
    refine .consume (capGas ((wordsFor capacity - wordsFor mem.capacity) * mem.wordCost)) a
      (.pure (covered { mem with capacity })) fun m => ?_
    split
    · next m₁ hc =>
      refine ok m _ m₁ ?_
      simp only [cover, if_neg hlimit, if_neg hinside, if_neg hmax, ← hcapacity, hc]
    · next fault hc =>
      refine error m fault ?_
      simp only [cover, if_neg hlimit, if_neg hinside, if_neg hmax, ← hcapacity, hc]

theorem read_metered (offset length : Word) (mem : Memory) :
    Meter.Metered fun m => Meter.apart (mem.read offset length m) := by
  unfold read
  split
  · next o l _ _ =>
    split
    · exact .pure ([], mem)
    · refine cover_metered o l mem (fun mem => (mem.load o l, mem)) ([], mem)
        (fun m mem' m₁ hc => ?_) fun m fault hc => ?_
      · simp only [hc, Meter.apart]
      · simp only [hc, Meter.apart]
  · exact .record ([], mem) _

theorem write_metered (offset : Word) (bs : Bytes) (mem : Memory) :
    Meter.Metered (mem.write offset bs) := by
  unfold write
  split
  · next o _ =>
    split
    · exact .pure mem
    · refine cover_metered o bs.length mem (fun mem => mem.store o bs) mem
        (fun m mem' m₁ hc => ?_) fun m fault hc => ?_
      · simp only [hc]
      · simp only [hc]
  · exact .record mem _

theorem reserve_metered (offset : Word) (length : Nat) (mem : Memory) :
    Meter.Metered fun m => Meter.apart (mem.reserve offset length m) := by
  unfold reserve
  split
  · next o _ =>
    split
    · exact .pure (true, mem)
    · refine cover_metered o length mem (fun mem => (true, mem)) (false, mem)
        (fun m mem' m₁ hc => ?_) fun m fault hc => ?_
      · simp only [hc, Meter.apart]
      · simp only [hc, Meter.apart]
  · exact .record (false, mem) _

end Memory

/-! ### Parts of instructions -/

def Machine.richer (m : Machine) (extra : Nat) : Machine :=
  { m with meter := m.meter.richer extra }

namespace Exec

variable {α β : Type}

/-- The part as an operation on the meter of a machine. The rest of the machine is part of what it
yields. -/
def onMeter (p : Exec α) (m : Machine) (meter : Meter) : (α × Machine) × Meter :=
  let r := p.run { m with meter }
  ((r.1, { r.2 with meter := m.meter }), r.2.meter)

/-- All that the part does to the meter is made of payments and faults. -/
def Metered (p : Exec α) : Prop :=
  ∀ m, Meter.Metered (p.onMeter m)

theorem Metered.pure (a : α) : Metered (pure a : Exec α) :=
  fun m => .pure (a, m)

theorem Metered.bind {p : Exec α} {f : α → Exec β} (hp : Metered p) (hf : ∀ a, Metered (f a)) :
    Metered (p >>= f) :=
  fun m => Meter.Metered.bind (K := fun r : α × Machine => onMeter (f r.1) r.2) (hp m)
    fun r => hf r.1 r.2

theorem Metered.look {f : Machine → Exec β} (hf : ∀ m, Metered (f m))
    (hb : ∀ (m : Machine) (meter : Meter), f { m with meter } = f m) : Metered (get >>= f) := by
  intro m
  refine Meter.Metered.congr (hf m m) fun meter => ?_
  have hlook : onMeter (get >>= f) m meter = onMeter (f { m with meter }) m meter := rfl
  rw [hlook, hb]

theorem Metered.ite {c : Prop} [Decidable c] {p q : Exec α} (hp : Metered p) (hq : Metered q) :
    Metered (if c then p else q) := by
  split
  · exact hp
  · exact hq

theorem Metered.spends {p : Exec α} (hp : Metered p) (m : Machine) :
    m.meter.Spends (p.run m).2.meter :=
  (hp m).spends m.meter

theorem Metered.spares {p : Exec α} (hp : Metered p) {m : Machine} {extra : Nat}
    (hf : (p.run (m.richer extra)).2.meter.fault = none)
    (hleft : extra ≤ (p.run (m.richer extra)).2.meter.gas) :
    p.run (m.richer extra) = ((p.run m).1, (p.run m).2.richer extra) := by
  have hsame : p.onMeter m (m.meter.richer extra) = _ := (hp m).spares hf hleft
  have hrun : p.run (m.richer extra) = ((p.onMeter m (m.meter.richer extra)).1.1,
      { (p.onMeter m (m.meter.richer extra)).1.2 with
        meter := (p.onMeter m (m.meter.richer extra)).2 }) := rfl
  rw [hrun, hsame]
  rfl

theorem Built.metered {blind : Prop} {Φ : α → Prop} {p : Exec α} (h : Built blind Φ p)
    (hb : blind) : Metered p := by
  induction h with
  | pure h => exact .pure _
  | bind _ _ ihp ihf => exact ihp.bind ihf
  | look _ hlook ih => exact .look ih (hlook hb)
  | faulty => exact fun m => Meter.Metered.faulty.map fun b => (b, m)
  | charge amount => exact fun m => (Meter.metered_charge amount).map fun _ => ((), m)
  | fail fault => exact fun m => .record ((), m) fault
  | attempt result => exact fun m => (Meter.metered_attempt result).map fun value => (value, m)
  | push w => exact fun m => (m.stack.push_metered w).map fun stack => ((), { m with stack })
  | pop => exact fun m => m.stack.pop_metered.map fun r => (r.1, { m with stack := r.2 })
  | pop64 => exact fun m => m.stack.pop64_metered.map fun r => (r.1, { m with stack := r.2 })
  | popAddress =>
    exact fun m => m.stack.pop_metered.map fun r => (Address.ofWord r.1, { m with stack := r.2 })
  | dup n => exact fun m => (m.stack.dup_metered n).map fun stack => ((), { m with stack })
  | swap n => exact fun m => (m.stack.swap_metered n).map fun stack => ((), { m with stack })
  | readMemory offset length =>
    exact fun m =>
      (m.memory.read_metered offset length).map fun r => (r.1, { m with memory := r.2 })
  | writeMemory offset bs =>
    exact fun m => (m.memory.write_metered offset bs).map fun memory => ((), { m with memory })
  | reserveMemory offset length =>
    exact fun m => (m.memory.reserve_metered offset length).map fun r =>
      (r.1, { m with memory := r.2 })
  | setReturnData bs => exact fun m => .pure ((), { m with returnData := bs })
  | setFrame frame => exact fun m => .pure ((), { m with frame })
  | record event => exact fun m => .pure ((), { m with trace := m.trace.push event })
  | newAddress creator salt initCode =>
    cases salt with
    | some salt => exact .pure _
    | none =>
      exact fun m => .pure ((m.sequence.next creator).1,
        { m with sequence := (m.sequence.next creator).2 })

theorem metered_jumpTo (env : Env) (destination : Nat) : Metered (jumpTo env destination) := by
  unfold jumpTo
  split
  · exact fun m => .pure (Flow.jumped, { m with pc := destination })
  · exact fun m => .record (Flow.jumped, m) (.invalidJump destination)

theorem metered_step (env : Env) {op : Opcode} (h : op.readsGas = false) :
    Metered (step env op) := by
  have hpush : ∀ w, Metered (push w) :=
    fun w => (.push w : Composed True (push w)).metered trivial
  have hpop : Metered pop := (.pop : Composed True pop).metered trivial
  have hpop64 : Metered pop64 := (.pop64 : Composed True pop64).metered trivial
  cases hop : op.moves with
  | false => exact (built_step env op hop).metered h
  | true =>
    cases op with
    | jump => exact hpop64.bind fun destination => metered_jumpTo env destination
    | jumpIf =>
      refine hpop64.bind fun destination => hpop.bind fun condition => ?_
      exact .ite (.pure _) (metered_jumpTo env destination)
    | push n =>
      refine .look (fun m => (hpush _).bind fun _ => ?_) fun _ _ => rfl
      exact fun m => .pure (Flow.next, { m with pc := m.pc + (n.val + 1) })
    | _ => cases hop

end Exec

end ContractVm
