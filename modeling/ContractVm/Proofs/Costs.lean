import Mathlib
import ContractVm.Proofs.Parts
import ContractVm.Proofs.Runs

/-! # What instructions cost

All but three instructions take something from the stack or put something on it. They pay for that
or they record a fault (`Exec.bills_step`). Gas that is handed to a nested call counts as used, and
no more than that comes back (`Host.perform_gas`), so an instruction never pays for itself with the
gas of the call that it makes (`Proceeds.bills`). -/

namespace ContractVm

/-! ### Meters and stacks -/

namespace Meter

/-- The meter `m'` comes after `m` and, if it has no fault, at least `amount` was used up. -/
def Pays (m : Meter) (amount : Nat) (m' : Meter) : Prop :=
  m'.fault = none → m.fault = none ∧ amount + m'.gas ≤ m.gas

variable {m m₁ m₂ : Meter} {a b : Nat}

theorem Spends.pays (h : m.Spends m₁) : m.Pays 0 m₁ := by
  intro hf
  have hgas := h.gas
  exact ⟨h.unfaulted hf, by omega⟩

theorem Pays.trans (h₁ : m.Pays a m₁) (h₂ : m₁.Pays b m₂) : m.Pays (a + b) m₂ := by
  intro hf
  obtain ⟨hf₁, hgas₂⟩ := h₂ hf
  obtain ⟨hf₀, hgas₁⟩ := h₁ hf₁
  exact ⟨hf₀, by omega⟩

theorem Pays.mono (h : m.Pays a m₁) (hab : b ≤ a) : m.Pays b m₁ := by
  intro hf
  obtain ⟨hf₀, hgas⟩ := h hf
  exact ⟨hf₀, by omega⟩

theorem pays_record (fault : Fault) (m : Meter) : m.Pays a (m.record fault) :=
  fun hf => absurd hf (record_faulty fault m)

theorem pays_consume (h : m.consume a = .ok m₁) : m.Pays a m₁ := by
  unfold consume at h
  split at h
  · cases h
  · cases h
    intro hf
    refine ⟨hf, ?_⟩
    dsimp only
    omega

theorem pays_charge (amount : Nat) (m : Meter) : m.Pays amount (m.charge amount) := by
  unfold charge
  split
  · next h => exact pays_consume h
  · exact pays_record _ m

end Meter

namespace Stack

/-- The stack `s` and the meter `m` became `s'` and `m'`, and the price of an operation was paid. -/
structure Charged (s : Stack) (m : Meter) (s' : Stack) (m' : Meter) : Prop where
  price : s'.price = s.price
  meter : m.Pays s.price m'

variable {s : Stack} {m : Meter}

theorem charged_record (fault : Fault) : s.Charged m s (m.record fault) :=
  ⟨rfl, Meter.pays_record fault m⟩

theorem charged_of_consume {s' : Stack} {m₁ m' : Meter} (hprice : s'.price = s.price)
    (hc : m.consume s.price = .ok m₁) (hs : m₁.Spends m') : s.Charged m s' m' :=
  ⟨hprice, (Meter.pays_consume hc).trans hs.pays⟩

theorem place_price (w : Word) (s : Stack) (m : Meter) : (s.place w m).1.price = s.price := by
  unfold place
  split
  · rfl
  · rfl

theorem push_charged (w : Word) (s : Stack) (m : Meter) :
    s.Charged m (s.push w m).1 (s.push w m).2 := by
  unfold push
  split
  · next hc => exact charged_of_consume (place_price w s _) hc (place_spends w s _)
  · exact charged_record _

theorem pop_charged (s : Stack) (m : Meter) : s.Charged m (s.pop m).2.1 (s.pop m).2.2 := by
  unfold pop
  split
  · exact charged_record _
  · next hc =>
    split
    · exact charged_of_consume rfl hc (Meter.spends_record _ _)
    · exact charged_of_consume rfl hc (.refl _)

theorem pop64_charged (s : Stack) (m : Meter) : s.Charged m (s.pop64 m).2.1 (s.pop64 m).2.2 := by
  unfold pop64
  have hpop := pop_charged s m
  dsimp only
  split
  · exact hpop
  · exact ⟨hpop.price, hpop.meter.trans (Meter.spends_record _ _).pays⟩

theorem dup_charged (n : Nat) (s : Stack) (m : Meter) :
    s.Charged m (s.dup n m).1 (s.dup n m).2 := by
  unfold dup
  split
  · exact charged_record _
  · next hc =>
    split
    · exact charged_of_consume rfl hc (Meter.spends_record _ _)
    · split
      · exact charged_of_consume (push_charged _ s _).price hc (push_spends _ s _)
      · exact charged_of_consume rfl hc (Meter.spends_record _ _)

theorem swap_charged (n : Nat) (s : Stack) (m : Meter) :
    s.Charged m (s.swap n m).1 (s.swap n m).2 := by
  unfold swap
  split
  · exact charged_record _
  · next hc =>
    split
    · exact charged_of_consume rfl hc (.refl _)
    · exact charged_of_consume rfl hc (Meter.spends_record _ _)

end Stack

/-! ### Parts of instructions -/

/-- The machine `m'` comes after `m`: the price of a stack operation is the same and, if there is no
fault, at least `cost` was used up. -/
structure Machine.Bills (m : Machine) (cost : Nat) (m' : Machine) : Prop where
  price : m'.stack.price = m.stack.price
  meter : m.meter.Pays cost m'.meter

namespace Machine

variable {m m₁ m₂ : Machine} {a b : Nat}

theorem Bills.trans (h₁ : m.Bills a m₁) (h₂ : m₁.Bills b m₂) : m.Bills (a + b) m₂ :=
  ⟨h₂.price.trans h₁.price, h₁.meter.trans h₂.meter⟩

theorem Bills.mono (h : m.Bills a m₁) (hab : b ≤ a) : m.Bills b m₁ :=
  ⟨h.price, h.meter.mono hab⟩

theorem bills_charge (amount : Nat) (m : Machine) :
    m.Bills amount { m with meter := m.meter.charge amount } :=
  ⟨rfl, Meter.pays_charge amount m.meter⟩

end Machine

namespace Exec

variable {α β : Type}

def Bills (ops : Nat) (given : α → Nat) (p : Exec α) : Prop :=
  ∀ m : Machine, m.Bills (ops * m.stack.price + given (p.run m).1) (p.run m).2

abbrev Free (p : Exec α) : Prop :=
  Bills 0 (fun _ => 0) p

abbrev Paid (p : Exec α) : Prop :=
  Bills 1 (fun _ => 0) p

section Rules

variable {ops : Nat} {given : β → Nat}

theorem Bills.of_same {p : Exec β} (h : ∀ m, (p.run m).2.stack = m.stack ∧
    (p.run m).2.meter = m.meter ∧ given (p.run m).1 = 0) : Bills 0 given p := by
  intro m
  obtain ⟨hstack, hmeter, hgiven⟩ := h m
  refine ⟨congrArg Stack.price hstack, ?_⟩
  rw [hmeter, hgiven, Nat.zero_mul]
  exact (Meter.Spends.refl m.meter).pays

theorem Bills.pure {b : β} (h : given b = 0) : Bills 0 given (pure b) :=
  .of_same fun _ => ⟨rfl, rfl, h⟩

theorem Paid.free {p : Exec α} (h : Paid p) : Free p :=
  fun m => (h m).mono (by omega)

theorem Paid.bind {p : Exec α} {f : α → Exec β} (hp : Paid p) (hf : ∀ a, Bills 0 given (f a)) :
    Bills 1 given (p >>= f) := by
  intro m
  have hrest := (hp m).trans (hf (p.run m).1 (p.run m).2)
  refine hrest.mono ?_
  show 1 * m.stack.price + given ((f (p.run m).1).run (p.run m).2).1 ≤ _
  omega

theorem Free.bind {p : Exec α} {f : α → Exec β} (hp : Free p) (hf : ∀ a, Bills ops given (f a)) :
    Bills ops given (p >>= f) := by
  intro m
  have hrest := (hp m).trans (hf (p.run m).1 (p.run m).2)
  rw [(hp m).price] at hrest
  refine hrest.mono ?_
  show ops * m.stack.price + given ((f (p.run m).1).run (p.run m).2).1 ≤ _
  omega

theorem Bills.map {p : Exec α} {f : α → β} (h : Bills ops (fun a => given (f a)) p) :
    Bills ops given (p >>= fun a => Pure.pure (f a)) :=
  h

theorem Bills.get_bind {f : Machine → Exec β} (hf : ∀ m, Bills ops given (f m)) :
    Bills ops given (get >>= f) :=
  fun m => hf m m

theorem Bills.ite {c : Prop} [Decidable c] {p q : Exec β} (hp : Bills ops given p)
    (hq : Bills ops given q) : Bills ops given (if c then p else q) := by
  split
  · exact hp
  · exact hq

theorem Bills.attempt_bind {r : Except Fault α} {f : Option α → Exec β}
    (ok : ∀ a, Bills ops given (f (some a))) (error : Bills 0 given (f none)) :
    Bills ops given (attempt r >>= f) := by
  intro m
  cases r with
  | ok a => exact ok a m
  | error fault =>
    have hrest := error (m.recorded fault)
    exact ⟨hrest.price, fun hf => absurd (hrest.meter hf).1 (m.recorded_faulty fault)⟩

theorem Free.of_quiet {p : Exec α} (h : Quiet p) (hs : ∀ m, (p.run m).2.stack = m.stack) : Free p :=
  fun m => ⟨congrArg Stack.price (hs m), (h m).1.meter.pays.mono (by simp)⟩

theorem Paid.of_charged {p : Exec α}
    (h : ∀ m : Machine, m.stack.Charged m.meter (p.run m).2.stack (p.run m).2.meter) : Paid p :=
  fun m => ⟨(h m).price, (h m).meter.mono (by simp)⟩

end Rules

theorem free_charge (amount : Nat) : Free (charge amount) :=
  .of_quiet (quiet_charge amount) fun _ => rfl

theorem free_fail (fault : Fault) : Free (fail fault) :=
  .of_quiet (quiet_fail fault) fun _ => rfl

theorem free_faulty : Free faulty :=
  .of_quiet quiet_faulty fun _ => rfl

theorem free_readMemory (offset length : Word) : Free (readMemory offset length) :=
  .of_quiet (quiet_readMemory offset length) fun _ => rfl

theorem free_writeMemory (offset : Word) (bs : Bytes) : Free (writeMemory offset bs) :=
  .of_quiet (quiet_writeMemory offset bs) fun _ => rfl

theorem free_reserveMemory (offset : Word) (length : Nat) : Free (reserveMemory offset length) :=
  .of_quiet (quiet_reserveMemory offset length) fun _ => rfl

theorem free_setReturnData (bs : Bytes) : Free (setReturnData bs) :=
  .of_quiet (quiet_setReturnData bs) fun _ => rfl

theorem paid_push (w : Word) : Paid (push w) :=
  .of_charged fun m => m.stack.push_charged w m.meter

theorem paid_pushNat (n : Nat) : Paid (pushNat n) :=
  paid_push _

theorem paid_pop : Paid pop :=
  .of_charged fun m => m.stack.pop_charged m.meter

theorem paid_pop64 : Paid pop64 :=
  .of_charged fun m => m.stack.pop64_charged m.meter

theorem paid_popAddress : Paid popAddress :=
  .of_charged fun m => m.stack.pop_charged m.meter

theorem paid_dup (n : Nat) : Paid (dup n) :=
  .of_charged fun m => m.stack.dup_charged n m.meter

theorem paid_swap (n : Nat) : Paid (swap n) :=
  .of_charged fun m => m.stack.swap_charged n m.meter

theorem free_attempt (r : Except Fault α) : Free (attempt r) :=
  .of_quiet (quiet_attempt r) fun _ => rfl

theorem free_newAddress (creator : Address) (salt : Option Word) (initCode : Bytes) :
    Free (newAddress creator salt initCode) := by
  cases salt with
  | none => exact .of_same fun _ => ⟨rfl, rfl, rfl⟩
  | some salt => exact .pure rfl

theorem Built.free {blind : Prop} {Φ : α → Prop} {p : Exec α} (h : Built blind Φ p) : Free p := by
  induction h with
  | pure _ => exact .pure rfl
  | bind _ _ ihp ihf => exact ihp.bind ihf
  | look _ _ ih => exact .get_bind ih
  | faulty => exact free_faulty
  | charge amount => exact free_charge amount
  | fail fault => exact free_fail fault
  | attempt r => exact free_attempt r
  | push w => exact (paid_push w).free
  | pop => exact paid_pop.free
  | pop64 => exact paid_pop64.free
  | popAddress => exact paid_popAddress.free
  | dup n => exact (paid_dup n).free
  | swap n => exact (paid_swap n).free
  | readMemory offset length => exact free_readMemory offset length
  | writeMemory offset bs => exact free_writeMemory offset bs
  | reserveMemory offset length => exact free_reserveMemory offset length
  | setReturnData bs => exact free_setReturnData bs
  | setFrame frame => exact .of_same fun _ => ⟨rfl, rfl, rfl⟩
  | record event => exact .of_same fun _ => ⟨rfl, rfl, rfl⟩
  | newAddress creator salt initCode => exact free_newAddress creator salt initCode

theorem paid_copyData (env : Env) (data : Bytes) : Paid (copyData env data) :=
  paid_pop.bind fun memOffset => paid_pop64.free.bind fun offset => paid_pop64.free.bind fun length =>
    (built_copyToMemory True env data memOffset offset length).free

theorem paid_copyReturnData (env : Env) : Paid (copyReturnData env) := by
  refine paid_pop.bind fun memOffset => paid_pop.free.bind fun offset =>
    paid_pop.free.bind fun length => ?_
  refine .get_bind fun m => ?_
  split
  · exact (free_charge _).bind fun _ => free_writeMemory memOffset _
  · exact free_fail _

theorem paid_popAccount (env : Env) (price : Nat) : Paid (popAccount env price) :=
  paid_popAddress.bind fun _ => (free_charge price).bind fun _ => .get_bind fun _ =>
    .attempt_bind (fun _ => .pure rfl) (.pure rfl)

theorem paid_log (env : Env) (n : Nat) : Paid (log env n) := by
  refine paid_pop.bind fun offset => paid_pop.free.bind fun size => ?_
  refine (built_popMany True n).free.bind fun topics => ?_
  refine (free_readMemory offset size).bind fun data => free_faulty.bind fun _ => ?_
  exact .ite (.pure rfl) (built_emit True _).free

theorem paid_selfDestruct (env : Env) : Paid (selfDestruct env) := by
  refine paid_popAddress.bind fun heir => (free_charge _).bind fun _ => .get_bind fun m => ?_
  refine .attempt_bind (fun present => ?_) (.pure rfl)
  extract_lets rest
  have hrest : Free (rest ()) := free_faulty.bind fun _ =>
    .ite (.pure rfl) ((built_updateFrame True _).free.bind fun _ => .pure rfl)
  refine .ite ?_ hrest
  refine (free_charge _).bind fun _ => free_faulty.bind fun _ => .ite (.pure rfl) ?_
  exact (built_openAccount True env heir).free.bind fun _ => .ite (.pure rfl) hrest

end Exec

/-! ### Instructions -/

def Flow.given : Flow → Nat
  | .invoke inv => inv.call.gas
  | _ => 0

def Opcode.isFree : Opcode → Bool
  | .stop | .jumpDest | .invalid => true
  | _ => false

namespace Exec

theorem bills_charged {amount : Nat} (m : Machine) :
    m.Bills (0 * m.stack.price + amount) { m with meter := m.meter.charge amount } :=
  (m.bills_charge amount).mono (by omega)

theorem bills_prepareCreate (env : Env) (variant : CreateVariant) :
    Bills 1 (fun inv => (flowOf inv).given) (prepareCreate env variant) := by
  refine (free_setReturnData []).bind fun _ => paid_pop.bind fun value => ?_
  refine paid_pop.free.bind fun offset => paid_pop.free.bind fun size => ?_
  refine (free_readMemory offset size).bind fun input => (free_charge _).bind fun _ => ?_
  refine (built_popSalt True variant).free.bind fun salt => free_faulty.bind fun _ => ?_
  refine .ite (.pure rfl) ?_
  refine (free_newAddress _ salt input).bind fun address => ?_
  refine .attempt_bind (fun _ => .get_bind fun m => ?_) (.pure rfl)
  refine .attempt_bind (fun child => .get_bind fun m => ?_) (.pure rfl)
  refine .attempt_bind (fun frame => ?_) (.pure rfl)
  -- all the gas that is left goes to the new contract
  exact fun m => bills_charged m

theorem bills_prepareCall (env : Env) (variant : CallVariant) :
    Bills 1 (fun inv => (flowOf inv).given) (prepareCall env variant) := by
  -- a contract that may not call pays nothing, but then there is a fault
  refine (free_setReturnData []).bind fun _ => .attempt_bind (fun _ => ?_) (.pure rfl)
  refine paid_pop64.bind fun gasLimit => paid_popAddress.free.bind fun target => ?_
  extract_lets rest
  have hrest : ∀ value, Bills 0 (fun inv => (flowOf inv).given) (rest value) := by
    intro value
    refine paid_pop.free.bind fun inOffset => paid_pop.free.bind fun inSize => ?_
    refine paid_pop.free.bind fun outOffset => paid_pop64.free.bind fun outSize => ?_
    refine (free_charge _).bind fun _ => ?_
    refine (built_findTarget True env variant target).free.bind fun account => ?_
    cases account with
    | none => exact .pure rfl
    | some account =>
      refine (free_readMemory inOffset inSize).bind fun input => ?_
      refine free_faulty.bind fun _ => .ite (.pure rfl) (.get_bind fun m => ?_)
      refine .attempt_bind (fun child => ?_) (.pure rfl)
      exact fun m => bills_charged m
  split
  · exact paid_pop.free.bind fun value => hrest value
  · exact hrest env.call.value

theorem bills_jumpTo (env : Env) (destination : Nat) :
    Bills 0 Flow.given (jumpTo env destination) := by
  unfold jumpTo
  split
  · exact .of_same fun _ => ⟨rfl, rfl, rfl⟩
  · exact (free_fail _).bind fun _ => .pure rfl

/-- Every instruction that uses the stack pays for a stack operation. -/
theorem bills_step (env : Env) (op : Opcode) (h : op.isFree = false) :
    Bills 1 Flow.given (step env op) := by
  cases op with
  | stop => cases h
  | jumpDest => cases h
  | invalid => cases h
  | unary op => exact paid_pop.bind fun x => (paid_push _).free.bind fun _ => .pure rfl
  | binary op =>
    exact paid_pop.bind fun x => paid_pop.free.bind fun y => (paid_push _).free.bind fun _ => .pure rfl
  | ternary op =>
    exact paid_pop.bind fun x => paid_pop.free.bind fun y => paid_pop.free.bind fun z =>
      (paid_push _).free.bind fun _ => .pure rfl
  | query op => exact .get_bind fun m => (paid_push _).bind fun _ => .pure rfl
  | signExtend =>
    refine paid_pop.bind fun back => .ite ?_ (.pure rfl)
    exact paid_pop.free.bind fun value => (paid_push _).free.bind fun _ => .pure rfl
  | byte =>
    exact paid_pop64.bind fun index => paid_pop.free.bind fun value =>
      (paid_pushNat _).free.bind fun _ => .pure rfl
  | sha3 =>
    refine (free_charge _).bind fun _ => paid_pop.bind fun offset => paid_pop.free.bind fun size => ?_
    exact (free_readMemory offset size).bind fun data => (paid_push _).free.bind fun _ => .pure rfl
  | balance =>
    refine paid_popAddress.bind fun address => (free_charge _).bind fun _ => .get_bind fun m => ?_
    exact .attempt_bind (fun account => (paid_push _).free.bind fun _ => .pure rfl) (.pure rfl)
  | callDataLoad =>
    refine paid_pop64.bind fun offset => ?_
    exact .attempt_bind (fun data => (paid_push _).free.bind fun _ => .pure rfl) (.pure rfl)
  | callDataCopy => exact (paid_copyData env _).bind fun _ => .pure rfl
  | codeCopy => exact (paid_copyData env _).bind fun _ => .pure rfl
  | extCodeSize =>
    refine (paid_popAccount env _).bind fun found => ?_
    rcases found with ⟨address, _ | _ | account⟩
    · exact .pure rfl
    · exact (paid_push _).free.bind fun _ => .pure rfl
    · exact (paid_pushNat _).free.bind fun _ => .pure rfl
  | extCodeCopy =>
    refine (paid_popAccount env _).bind fun found => ?_
    rcases found with ⟨address, _ | _ | account⟩
    · exact .pure rfl
    · exact (free_fail _).bind fun _ => .pure rfl
    · exact (paid_copyData env _).free.bind fun _ => .pure rfl
  | returnDataCopy => exact (paid_copyReturnData env).bind fun _ => .pure rfl
  | extCodeHash =>
    refine paid_popAddress.bind fun address => .get_bind fun m => ?_
    refine .attempt_bind (fun account => ?_) (.pure rfl)
    cases account with
    | none => exact (paid_push _).free.bind fun _ => .pure rfl
    | some account => exact (paid_push _).free.bind fun _ => .pure rfl
  | blockHash =>
    refine paid_pop64.bind fun height => ?_
    exact .attempt_bind (fun hash => (paid_push _).free.bind fun _ => .pure rfl) (.pure rfl)
  | pop => exact paid_pop.bind fun _ => .pure rfl
  | mload =>
    exact paid_pop.bind fun offset => (free_readMemory offset 32).bind fun data =>
      (paid_push _).free.bind fun _ => .pure rfl
  | mstore =>
    exact paid_pop.bind fun offset => paid_pop.free.bind fun value =>
      (free_writeMemory offset _).bind fun _ => .pure rfl
  | mstore8 =>
    exact paid_pop.bind fun offset => paid_pop.free.bind fun value =>
      (free_writeMemory offset _).bind fun _ => .pure rfl
  | sload =>
    refine paid_pop.bind fun key => .get_bind fun m => ?_
    exact .attempt_bind (fun value => (paid_push _).free.bind fun _ => .pure rfl) (.pure rfl)
  | sstore =>
    refine paid_pop.bind fun key => paid_pop.free.bind fun value => (free_charge _).bind fun _ => ?_
    refine free_faulty.bind fun _ => .ite ?_ (.pure rfl)
    exact (built_updateFrame True _).free.bind fun _ => .pure rfl
  | jump => exact paid_pop64.bind fun destination => bills_jumpTo env destination
  | jumpIf =>
    exact paid_pop64.bind fun destination => paid_pop.free.bind fun condition =>
      .ite (.pure rfl) (bills_jumpTo env destination)
  | push n =>
    refine .get_bind fun m => (paid_push _).bind fun _ => ?_
    exact .of_same fun _ => ⟨rfl, rfl, rfl⟩
  | dup n => exact (paid_dup _).bind fun _ => .pure rfl
  | swap n => exact (paid_swap _).bind fun _ => .pure rfl
  | log n => exact (paid_log env n.val).bind fun _ => .pure rfl
  | create variant => exact .map (bills_prepareCreate env variant)
  | call variant => exact .map (bills_prepareCall env variant)
  | ret =>
    exact paid_pop.bind fun offset => paid_pop.free.bind fun size =>
      (free_readMemory offset size).bind fun output => .pure rfl
  | revert =>
    refine paid_pop.bind fun offset => paid_pop.free.bind fun size => ?_
    exact (free_readMemory offset size).bind fun output => (free_fail _).bind fun _ => .pure rfl
  | selfDestruct => exact (paid_selfDestruct env).bind fun _ => .pure rfl

end Exec

theorem Machine.fetch_bills {env : Env} {m m₁ : Machine} {op : Opcode}
    (h : m.fetch env = (m₁, .ok op)) :
    m.Bills env.prices.baseOp m₁ ∧ m₁.pc = m.pc ∧
      Opcode.ofByte? (env.code.byteAt m.pc) = some op := by
  unfold fetch at h
  split at h
  · cases h
  · dsimp only at h
    split at h
    · cases h
    · split at h
      · next hop =>
        cases h
        exact ⟨m.bills_charge _, rfl, hop⟩
      · cases h

theorem Code.byteAt_of_size_le {code : Code} {offset : Nat} (h : code.size ≤ offset) :
    code.byteAt offset = 0 := by
  simp only [byteAt, Array.getD_eq_getD_getElem?]
  rw [Array.getElem?_eq_none h]
  rfl

/-- An instruction ends the run, or it pays for a use of the stack, or it is a mark in the code that
the machine passes. -/
theorem Takes.bills {env : Env} {m m' : Machine} {op : Opcode} {flow : Flow}
    (h : Takes env m op flow m') :
    (∃ output, flow = .halt output) ∨
      m.Bills (env.prices.baseOp + m.stack.price + flow.given) m' ∨
      flow = .next ∧ m.Bills env.prices.baseOp m' ∧ m'.pc = m.pc ∧ m.pc < env.code.size := by
  obtain ⟨m₁, hfetch, hstep⟩ := h
  obtain ⟨hbase, hpc, hbyte⟩ := Machine.fetch_bills hfetch
  cases hop : op.isFree with
  | false =>
    have hrest := Exec.bills_step env op hop m₁
    rw [hstep, hbase.price, Nat.one_mul] at hrest
    exact Or.inr (Or.inl ((hbase.trans hrest).mono (Nat.add_assoc _ _ _).le))
  | true =>
    cases op with
    | stop => exact Or.inl ⟨[], (congrArg Prod.fst hstep).symm⟩
    | invalid => exact Or.inl ⟨[], (congrArg Prod.fst hstep).symm⟩
    | jumpDest =>
      cases hstep
      refine Or.inr (Or.inr ⟨rfl, hbase, hpc, ?_⟩)
      -- past the end of the code there are only instructions to stop
      by_contra hend
      rw [Code.byteAt_of_size_le (Nat.not_lt.1 hend)] at hbyte
      exact absurd hbyte (by decide)
    | _ => cases hop

theorem Takes.invoke_bills {env : Env} {m m' : Machine} {op : Opcode} {inv : Invocation}
    (h : Takes env m op (.invoke inv) m') :
    m.Bills (env.prices.baseOp + m.stack.price + inv.call.gas) m' := by
  rcases h.bills with ⟨output, hflow⟩ | hbills | ⟨hflow, -⟩
  · cases hflow
  · exact hbills
  · cases hflow

/-! ### Calls -/

theorem Precompile.run_gas {p : Precompile} {input output : Bytes} {gas left : Nat}
    (h : p.run input gas = .ok (output, left)) : left ≤ gas := by
  unfold run at h
  split at h
  · cases h
  · cases h
    exact Nat.sub_le _ _

theorem ExpMod.run_gas {input output : Bytes} {gas left : Nat}
    (h : ExpMod.run input gas = .ok (output, left)) : left ≤ gas := by
  unfold run at h
  obtain ⟨⟨header, body⟩, -, h⟩ := bind_eq_ok.1 h
  obtain ⟨⟨baseLength, exponentLength, modulusLength⟩, -, h⟩ := bind_eq_ok.1 h
  dsimp only at h
  split at h
  · obtain ⟨_, hthrow, -⟩ := bind_eq_ok.1 h
    cases hthrow
  · obtain ⟨⟨base, exponent, modulus⟩, -, h⟩ := bind_eq_ok.1 h
    cases h
    exact Nat.sub_le _ _

theorem Native.run_gas {native : Native} {input output : Bytes} {gas left : Nat}
    (h : native.run input gas = .ok (output, left)) : left ≤ gas := by
  cases native with
  | precompile p => exact Precompile.run_gas h
  | expMod => exact ExpMod.run_gas h

theorem Host.begin_gas {host : Host} {below : View} {frame : Frame} {call : Call} {target : Target}
    {sequence : CreateSequence} {out : Outcome}
    (h : host.begin below frame call target sequence = .over out) : out.gas ≤ call.gas := by
  unfold begin at h
  dsimp only at h
  split at h
  · cases h
    exact le_rfl
  · split at h
    · split at h
      · next hrun =>
        cases h
        exact Native.run_gas hrun
      · cases h
        exact le_rfl
    · split at h
      · cases h
        exact le_rfl
      · cases h

theorem Begun.start_gas {host : Host} {below : View} {frame : Frame} {call : Call}
    {sequence : CreateSequence} {inner : Env} {start : Machine}
    (h : Begun host below frame call sequence (.running inner start)) :
    start.meter.gas = call.gas := by
  cases h with
  | running _ => rfl

theorem Flow.given_eq_zero {flow : Flow} (h : flow.invocation? = none) : flow.given = 0 := by
  cases flow with
  | invoke inv => cases h
  | next => rfl
  | jumped => rfl
  | halt output => rfl

theorem Stepped.gas {env : Env} {m m' : Machine} {op : Opcode} {flow : Flow}
    (h : Stepped env m op flow m') : flow.given + m'.meter.gas ≤ m.meter.gas := by
  have hnone : ∀ {w}, m.Turns w m' → flow.given = 0 → flow.given + m'.meter.gas ≤ m.meter.gas := by
    intro w hturns hgiven
    have hgas := hturns.meter.gas
    omega
  cases h with
  | creates h => exact h.gas
  | calls h => exact h.gas
  | inward hflow h => exact hnone h (Flow.given_eq_zero hflow)
  | stored _ h => exact hnone h rfl
  | logged _ _ h => exact hnone h rfl
  | opened _ hflow _ h _ => exact hnone h (Flow.given_eq_zero hflow)
  | destroyed _ _ _ h => exact hnone h rfl
  | sequenced h _ => exact hnone h rfl

theorem Meter.refund_gas_le (amount : Nat) (m : Meter) :
    (m.refund amount).gas ≤ m.gas + amount :=
  Nat.min_le_left _ _

theorem Resumed.gas {env : Env} {inv : Invocation} {out : Outcome} {m m' : Machine}
    (h : Resumed env inv out m m') : m'.meter.gas ≤ m.meter.gas + out.gas := by
  have hrefund := Meter.refund_gas_le out.gas m.meter
  cases h with
  | failed _ h => exact h.meter.gas.trans hrefund
  | settled _ _ _ h => exact h.meter.gas.trans hrefund
  | uninstalled _ _ h _ => exact h.meter.gas.trans (Nat.le_add_right _ _)
  | refused _ _ _ h _ => exact h.meter.gas.trans (Nat.le_add_right _ _)

theorem Takes.after_gas {env : Env} {m m₁ : Machine} {op : Opcode} {inv : Invocation} {o : Outcome}
    (h : Takes env m op (.invoke inv) m₁) (ho : o.gas ≤ inv.call.gas) :
    (m₁.after env inv o).meter.gas ≤ m.meter.gas := by
  have hgiven : inv.call.gas + m₁.meter.gas ≤ m.meter.gas := h.stepped.gas
  have hback : (m₁.after env inv o).meter.gas ≤ m₁.meter.gas + o.gas :=
    (Exec.resumed env inv o m₁).gas
  omega

theorem Runs.gas_le {env : Env} {m : Machine} {out : Outcome} (h : Runs env m out) :
    out.gas ≤ m.meter.gas := by
  induction h with
  | stopped hfetch =>
    obtain ⟨meter, rfl, hspends⟩ := Machine.fetch_meter hfetch
    exact hspends.gas
  | @halted env m m₁ op output ht =>
    obtain ⟨result, hhalt⟩ := m₁.halt_finish output
    rw [hhalt]
    exact (Nat.le_add_left _ _).trans ht.stepped.gas
  | next ht _ ih => exact ih.trans ((Nat.le_add_left _ _).trans ht.stepped.gas)
  | jumped ht _ ih => exact ih.trans ((Nat.le_add_left _ _).trans ht.stepped.gas)
  | ended ht hb _ ih => exact ih.trans (ht.after_gas (Host.begin_gas hb))
  | @nested env inner m m₁ start op inv o out ht hb _ _ ihCall ihRest =>
    have hstart : start.meter.gas = inv.call.gas := (hb ▸ inv.begun env m₁).start_gas
    exact ihRest.trans (ht.after_gas (hstart ▸ ihCall))

theorem Host.perform_gas {host : Host} {fuel : Nat} {below : View} {frame : Frame} {call : Call}
    {target : Target} {sequence : CreateSequence} {out : Outcome}
    (h : host.perform fuel below frame call target sequence = some out) : out.gas ≤ call.gas := by
  have hbegun := host.begun below frame call target sequence
  unfold perform at h
  rcases hb : host.begin below frame call target sequence with o | ⟨inner, start⟩
  · rw [hb] at h
    cases h
    exact begin_gas hb
  · rw [hb] at h hbegun
    rw [← hbegun.start_gas]
    exact (runs_of_run h).gas_le

/-! ### Whole instructions -/

theorem Exec.resume_price (env : Env) (inv : Invocation) (out : Outcome) (m : Machine) :
    ((resume env inv out).run m).2.stack.price = m.stack.price := by
  rcases resume_cases env inv out m with ⟨frame, fault, hrun⟩ | ⟨frame, trace, hrun⟩
  · rw [hrun]
    rfl
  · rw [hrun]
    exact ((built_land True inv.landing out.result).free (m.received inv out frame trace)).price

/-- With its nested call, if it makes one, an instruction pays for a use of the stack or it is a mark
in the code: what the nested call gives back is no more than it was given. -/
theorem Proceeds.bills {env : Env} {m m' : Machine} {op : Opcode} (h : Proceeds env m op m') :
    m.Bills (env.prices.baseOp + m.stack.price) m' ∨
      m.Bills env.prices.baseOp m' ∧ m'.pc = m.pc + 1 ∧ m.pc < env.code.size := by
  cases h with
  | next ht =>
    rcases ht.bills with ⟨output, hflow⟩ | hbills | ⟨-, hbills, hpc, hinside⟩
    · cases hflow
    · exact Or.inl ⟨hbills.price, hbills.meter⟩
    · exact Or.inr ⟨⟨hbills.price, hbills.meter⟩, congrArg (· + 1) hpc, hinside⟩
  | jumped ht =>
    rcases ht.bills with ⟨output, hflow⟩ | hbills | ⟨hflow, -⟩
    · cases hflow
    · exact Or.inl hbills
    · cases hflow
  | @nested m₁ inv fuel o ht ho =>
    have hbills := ht.invoke_bills
    have hback : (m₁.after env inv o).meter.gas ≤ m₁.meter.gas + o.gas :=
      (Exec.resumed env inv o m₁).gas
    have hleft : o.gas ≤ inv.call.gas := Host.perform_gas ho
    -- the gas that comes back was counted as used
    obtain ⟨hf, hgas⟩ := hbills.meter ht.stepped.invoke_unfaulted
    refine Or.inl ⟨(Exec.resume_price env inv o m₁).trans hbills.price, fun _ => ⟨hf, ?_⟩⟩
    omega

theorem Proceeds.unfaulted {env : Env} {m m' : Machine} {op : Opcode} (h : Proceeds env m op m') :
    m.meter.fault = none := by
  cases h with
  | next ht => exact ht.unfaulted
  | jumped ht => exact ht.unfaulted
  | nested ht _ => exact ht.unfaulted

end ContractVm
