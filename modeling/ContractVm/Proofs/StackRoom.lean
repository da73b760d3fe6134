import Mathlib
import ContractVm.Proofs.Forwarding
import ContractVm.Proofs.Lasting

/-! # Room on the stack

No stack that a run comes to is deeper than it may be (`Visits.within`). An instruction that asks for
a nested call has popped a word before it does, so that there is room for the word that tells how the
call ended (`Takes.hasRoom`). -/

namespace ContractVm

namespace Stack

def Within (s : Stack) : Prop :=
  s.exceeds s.depth = false

def HasRoom (s : Stack) : Prop :=
  s.exceeds (s.depth + 1) = false

/-- The stack `t` is no deeper than `s` and may grow as deep. -/
structure Lower (t s : Stack) : Prop where
  depth : t.depth ≤ s.depth
  maxDepth : t.maxDepth = s.maxDepth

theorem Lower.refl (s : Stack) : s.Lower s :=
  ⟨le_rfl, rfl⟩

theorem Lower.trans {s t u : Stack} (h : u.Lower t) (h' : t.Lower s) : u.Lower s :=
  ⟨h.depth.trans h'.depth, h.maxDepth.trans h'.maxDepth⟩

theorem exceeds_of_le {s t : Stack} {n d : Nat} (hmax : t.maxDepth = s.maxDepth) (hle : n ≤ d)
    (h : s.exceeds d = false) : t.exceeds n = false := by
  simp only [exceeds, Bool.or_eq_false_iff, Bool.and_eq_false_iff, decide_eq_false_iff_not] at h ⊢
  rw [hmax]
  omega

theorem Lower.within {s t : Stack} (h : t.Lower s) (hs : s.Within) : t.Within :=
  exceeds_of_le h.maxDepth h.depth hs

theorem Lower.hasRoom {s t : Stack} (h : t.Lower s) (hs : s.HasRoom) : t.HasRoom :=
  exceeds_of_le h.maxDepth (Nat.add_le_add_right h.depth 1) hs

theorem empty_within (price maxDepth : Nat) : (empty price maxDepth).Within := by
  simp [Within, empty, exceeds]

theorem place_within (w : Word) {s : Stack} (m : Meter) (h : s.Within) : (s.place w m).1.Within := by
  unfold place
  split
  · exact h
  · next hroom => exact Bool.eq_false_iff.2 hroom

theorem push_within (w : Word) {s : Stack} (m : Meter) (h : s.Within) : (s.push w m).1.Within := by
  unfold push
  split
  · exact place_within w _ h
  · exact h

theorem pop_lower (s : Stack) (m : Meter) : (s.pop m).2.1.Lower s := by
  unfold pop
  split
  · exact .refl s
  · split
    · exact .refl s
    · exact ⟨Nat.sub_le s.depth 1, rfl⟩

theorem pop64_lower (s : Stack) (m : Meter) : (s.pop64 m).2.1.Lower s := by
  have hpop := pop_lower s m
  unfold pop64
  dsimp only
  split
  · exact hpop
  · exact hpop

theorem dup_within (n : Nat) {s : Stack} (m : Meter) (h : s.Within) : (s.dup n m).1.Within := by
  unfold dup
  split
  · exact h
  · split
    · exact h
    · split
      · exact push_within _ _ h
      · exact h

theorem swap_within (n : Nat) {s : Stack} (m : Meter) (h : s.Within) : (s.swap n m).1.Within := by
  unfold swap
  split
  · exact h
  · split
    · exact h
    · exact h

theorem discard_hasRoom {s : Stack} {w : Word} {rest : List Word} (hitems : s.items = w :: rest)
    (h : s.Within) : s.discard.HasRoom := by
  have hdepth : s.depth - 1 + 1 = s.depth := by
    have hlength := s.depth_eq
    rw [hitems, List.length_cons] at hlength
    omega
  show s.exceeds (s.depth - 1 + 1) = false
  rw [hdepth]
  exact h

theorem pop_hasRoom {s : Stack} {m : Meter} (h : s.Within) (hf : (s.pop m).2.2.fault = none) :
    (s.pop m).2.1.HasRoom := by
  unfold pop at hf ⊢
  split at hf
  · exact absurd hf (Meter.record_faulty _ m)
  · next m₁ _ =>
    split at hf
    · exact absurd hf (Meter.record_faulty _ m₁)
    · next w rest hitems => simpa only [hitems] using discard_hasRoom hitems h

theorem pop64_hasRoom {s : Stack} {m : Meter} (h : s.Within) (hf : (s.pop64 m).2.2.fault = none) :
    (s.pop64 m).2.1.HasRoom := by
  unfold pop64 at hf ⊢
  dsimp only at hf ⊢
  split at hf
  · next hn => simpa only [hn] using pop_hasRoom h hf
  · exact absurd hf (Meter.record_faulty _ _)

end Stack

/-! ### Every stack is within its bound -/

namespace Exec

theorem Built.within {blind : Prop} {α : Type} {Φ : α → Prop} {p : Exec α} (h : Built blind Φ p)
    {m : Machine} (hm : m.stack.Within) : (p.run m).2.stack.Within := by
  induction h generalizing m with
  | bind _ _ ihp ihf => exact ihf _ (ihp hm)
  | @look _ _ f _ _ ih => exact ih m hm
  | push w => exact Stack.push_within w m.meter hm
  | pop => exact (m.stack.pop_lower m.meter).within hm
  | pop64 => exact (m.stack.pop64_lower m.meter).within hm
  | popAddress => exact (m.stack.pop_lower m.meter).within hm
  | dup n => exact Stack.dup_within n m.meter hm
  | swap n => exact Stack.swap_within n m.meter hm
  | newAddress creator salt initCode =>
    cases salt with
    | none => exact hm
    | some salt => exact hm
  | _ => exact hm

end Exec

theorem lasting_within : Lasting fun m => m.stack.Within := by
  refine lasting_of_parts (fun hp _ hm => hp.within hm) (fun _ _ hstack _ hm => ?_) fun _ _ _ _ => ?_
  · rw [hstack]
    exact hm
  · exact Stack.empty_within _ _

theorem Begun.start_within {host : Host} {below : View} {frame : Frame} {call : Call}
    {sequence : CreateSequence} {inner : Env} {start : Machine}
    (h : Begun host below frame call sequence (.running inner start)) : start.stack.Within :=
  h.lasting lasting_within

theorem Visits.within {env e : Env} {m k : Machine} (h : Visits env m e k) (hm : m.stack.Within) :
    k.stack.Within :=
  h.lasting lasting_within hm

/-! ### Asking for a nested call leaves room -/

namespace Exec

variable {α β : Type}

/-- A part that pushes nothing and gives no gas back. -/
def Draws (p : Exec α) : Prop :=
  ∀ m : Machine, m.meter.Spends (p.run m).2.meter ∧ (p.run m).2.stack.Lower m.stack

theorem Draws.bind {p : Exec α} {f : α → Exec β} (hp : Draws p) (hf : ∀ a, Draws (f a)) :
    Draws (p >>= f) := by
  intro m
  obtain ⟨hspends, hlower⟩ := hp m
  obtain ⟨hspends', hlower'⟩ := hf (p.run m).1 (p.run m).2
  exact ⟨hspends.trans hspends', hlower'.trans hlower⟩

theorem Draws.pure (a : α) : Draws (pure a) :=
  fun m => ⟨.refl m.meter, .refl m.stack⟩

theorem Draws.get_bind {f : Machine → Exec β} (hf : ∀ m, Draws (f m)) : Draws (get >>= f) :=
  fun m => hf m m

theorem Draws.ite {c : Prop} [Decidable c] {p q : Exec α} (hp : Draws p) (hq : Draws q) :
    Draws (if c then p else q) := by
  split
  · exact hp
  · exact hq

theorem Draws.of_spending {p : Exec α} (hp : Spending p)
    (hstack : ∀ m : Machine, (p.run m).2.stack = m.stack) : Draws p := by
  intro m
  rw [hstack m]
  exact ⟨hp m, .refl m.stack⟩

theorem draws_pop : Draws pop :=
  fun m => ⟨m.stack.pop_spends m.meter, m.stack.pop_lower m.meter⟩

theorem draws_pop64 : Draws pop64 :=
  fun m => ⟨m.stack.pop64_spends m.meter, m.stack.pop64_lower m.meter⟩

theorem draws_popAddress : Draws popAddress :=
  fun m => ⟨m.stack.pop_spends m.meter, m.stack.pop_lower m.meter⟩

theorem draws_popSalt (variant : CreateVariant) : Draws (popSalt variant) := by
  cases variant with
  | sequenced => exact .pure none
  | salted => exact draws_pop.bind fun salt => .pure (some salt)

theorem draws_charge (amount : Nat) : Draws (charge amount) :=
  .of_spending (quiet_charge amount).spending fun _ => rfl

theorem draws_faulty : Draws faulty :=
  .of_spending quiet_faulty.spending fun _ => rfl

theorem draws_readMemory (offset length : Word) : Draws (readMemory offset length) :=
  .of_spending (quiet_readMemory offset length).spending fun _ => rfl

theorem draws_newAddress (creator : Address) (salt : Option Word) (initCode : Bytes) :
    Draws (newAddress creator salt initCode) := by
  refine .of_spending (spending_newAddress creator salt initCode) fun m => ?_
  cases salt with
  | none => rfl
  | some salt => rfl

theorem draws_findTarget (env : Env) (variant : CallVariant) (target : Address) :
    Draws (findTarget env variant target) := by
  refine .of_spending (spending_findTarget env variant target) fun m => ?_
  rcases ensures_findTarget env variant target m m rfl with ⟨a, frame, -, -, hm⟩ | ⟨-, fault, hm⟩
  · rw [hm]
  · rw [hm]
    rfl

theorem Draws.attempt_bind {r : Except Fault α} {f : Option α → Exec β}
    (ok : ∀ a, Draws (f (some a))) (error : Draws (f none)) : Draws (attempt r >>= f) := by
  refine (Draws.of_spending (quiet_attempt r).spending fun _ => rfl).bind fun value => ?_
  cases value with
  | none => exact error
  | some a => exact ok a

/-- If the part asks for a nested call and leaves no fault, there is room for a word. -/
def LeavesRoom (p : Exec (Option Invocation)) : Prop :=
  ∀ (m : Machine) (inv : Invocation), m.stack.Within → (p.run m).1 = some inv →
    (p.run m).2.meter.fault = none → (p.run m).2.stack.HasRoom

theorem leavesRoom_none : LeavesRoom (pure none) := by
  intro m inv _ h
  cases h

theorem LeavesRoom.after {p : Exec α} {f : α → Exec (Option Invocation)} (hp : Draws p)
    (hf : ∀ a, LeavesRoom (f a)) : LeavesRoom (p >>= f) :=
  fun m inv hm => hf (p.run m).1 (p.run m).2 inv ((hp m).2.within hm)

theorem LeavesRoom.of_pop {p : Exec α} {f : α → Exec (Option Invocation)}
    (hp : ∀ m : Machine, m.stack.Within → (p.run m).2.meter.fault = none →
      (p.run m).2.stack.HasRoom)
    (hf : ∀ a, Draws (f a)) : LeavesRoom (p >>= f) := by
  intro m inv hm _ hfault
  obtain ⟨hspends, hlower⟩ := hf (p.run m).1 (p.run m).2
  exact hlower.hasRoom (hp m hm (hspends.unfaulted hfault))

theorem leavesRoom_prepareCreate (env : Env) (variant : CreateVariant) :
    LeavesRoom (prepareCreate env variant) := by
  refine .after (.of_spending (quiet_setReturnData []).spending fun _ => rfl) fun _ => ?_
  refine .of_pop (fun m => Stack.pop_hasRoom) fun value => draws_pop.bind fun offset => ?_
  refine draws_pop.bind fun size => (draws_readMemory offset size).bind fun input => ?_
  refine (draws_charge _).bind fun _ => (draws_popSalt variant).bind fun salt => ?_
  refine draws_faulty.bind fun _ => .ite (.pure none) ?_
  refine (draws_newAddress _ salt input).bind fun address => ?_
  refine .attempt_bind (fun _ => .get_bind fun _ => ?_) (.pure none)
  refine .attempt_bind (fun child => .get_bind fun _ => ?_) (.pure none)
  refine .attempt_bind (fun frame => .get_bind fun _ => ?_) (.pure none)
  exact (draws_charge _).bind fun _ => .pure _

theorem leavesRoom_prepareCall (env : Env) (variant : CallVariant) :
    LeavesRoom (prepareCall env variant) := by
  refine .after (.of_spending (quiet_setReturnData []).spending fun _ => rfl) fun _ => ?_
  refine .after (.of_spending (quiet_attempt _).spending fun _ => rfl) fun permitted => ?_
  cases permitted with
  | none => exact leavesRoom_none
  | some _ =>
    refine .of_pop (fun m => Stack.pop64_hasRoom) fun gasLimit => ?_
    refine draws_popAddress.bind fun target => ?_
    extract_lets rest
    have hrest : ∀ value, Draws (rest value) := by
      intro value
      refine draws_pop.bind fun inOffset => draws_pop.bind fun inSize => ?_
      refine draws_pop.bind fun outOffset => draws_pop64.bind fun outSize => ?_
      refine (draws_charge _).bind fun _ => (draws_findTarget env variant target).bind fun found => ?_
      cases found with
      | none => exact .pure none
      | some account =>
        refine (draws_readMemory inOffset inSize).bind fun input => draws_faulty.bind fun _ => ?_
        refine .ite (.pure none) (.get_bind fun _ => ?_)
        refine .attempt_bind (fun child => .get_bind fun _ => ?_) (.pure none)
        exact (draws_charge _).bind fun _ => .pure _
    split
    · exact draws_pop.bind fun value => hrest value
    · exact hrest env.call.value

theorem LeavesRoom.run_flow {p : Exec (Option Invocation)} (hp : LeavesRoom p) {m m' : Machine}
    {inv : Invocation} (hm : m.stack.Within)
    (h : (p >>= fun asked => pure (flowOf asked)).run m = (.invoke inv, m'))
    (hf : m'.meter.fault = none) : m'.stack.HasRoom := by
  have hflow : flowOf (p.run m).1 = .invoke inv := congrArg Prod.fst h
  obtain rfl : (p.run m).2 = m' := congrArg Prod.snd h
  cases hasked : (p.run m).1 with
  | none =>
    rw [hasked] at hflow
    cases hflow
  | some asked => exact hp m asked hm hasked hf

end Exec

theorem Takes.hasRoom {env : Env} {m m' : Machine} {op : Opcode} {inv : Invocation}
    (h : Takes env m op (.invoke inv) m') (hm : m.stack.Within) : m'.stack.HasRoom := by
  have hunfaulted := h.stepped.invoke_unfaulted
  obtain ⟨m₁, hfetch, hstep⟩ := h
  obtain ⟨meter, rfl, -⟩ := Machine.fetch_meter hfetch
  have hfetched : ({ m with meter } : Machine).stack.Within := hm
  rcases (Stepped.of_run hstep).invoke_cases with ⟨variant, rfl, -⟩ | ⟨variant, rfl, -⟩
  · exact (Exec.leavesRoom_prepareCreate env variant).run_flow hfetched hstep hunfaulted
  · exact (Exec.leavesRoom_prepareCall env variant).run_flow hfetched hstep hunfaulted

end ContractVm
