import Mathlib
import ContractVm.Proofs.MemoryArray
import ContractVm.Proofs.StackRoom

/-! # The stack as a list

Operations on the stack, in any order, act on a plain list of words that has a greatest length and a
meter beside it. What an operation does to the list (`Operation.act`) knows nothing of either. An
operation that cannot be paid for, finds too few items or would make the list too long leaves the
list alone and gives zero; the first fault of all stays recorded. -/

namespace ContractVm

def Meter.note (fault : Option Fault) (m : Meter) : Meter :=
  match fault with
  | none => m
  | some fault => m.record fault

theorem Meter.note_gas (fault : Option Fault) (m : Meter) : (m.note fault).gas = m.gas := by
  cases fault with
  | none => rfl
  | some fault => exact m.record_gas fault

theorem Meter.note_fault (fault : Option Fault) (m : Meter) :
    (m.note fault).fault = m.fault.or fault := by
  cases fault with
  | none => rw [Option.or_none]; rfl
  | some fault =>
    show (m.record fault).fault = _
    rw [Meter.record_fault]
    cases m.fault with
    | none => rfl
    | some held => rfl

namespace Stack

/-! ### Operations -/

/-- A value that is pushed, or as which a popped word is read. -/
inductive Item where
  | word (w : Word)
  | signed (s : Signed)
  | number (n : Nat)
  | flag (b : Bool)
  | address (a : Address)
  deriving DecidableEq

def Item.toWord : Item → Word
  | .word w => w
  | .signed s => s.toWord
  | .number n => Word.ofNat64 n
  | .flag b => Word.ofBool b
  | .address a => Address.toWord a

/-- How a popped word is read; a number is one of 64 bits. -/
inductive Reading where
  | word | signed | number | address

inductive Operation where
  | push (item : Item)
  | pop (reading : Reading)
  | dup (n : Nat)
  | swap (n : Nat)
  | peek

def Operation.perform : Operation → Stack → Meter → Option Item × Stack × Meter
  | .push item, s, m => (none, s.push item.toWord m)
  | .pop .word, s, m =>
    let (w, s, m) := s.pop m
    (some (.word w), s, m)
  | .pop .signed, s, m =>
    let (n, s, m) := s.popSigned m
    (some (.signed n), s, m)
  | .pop .number, s, m =>
    let (n, s, m) := s.pop64 m
    (some (.number n), s, m)
  | .pop .address, s, m =>
    let (a, s, m) := s.popAddress m
    (some (.address a), s, m)
  | .dup n, s, m => (none, s.dup n m)
  | .swap n, s, m => (none, s.swap n m)
  | .peek, s, m =>
    let (w, m) := s.peek m
    (some (.word w), s, m)

/-! ### The list -/

def Reading.value : Reading → Word → Item
  | .word, w => .word w
  | .signed, w => .signed (Signed.ofWord w)
  | .number, w => .number (if w.toNat < bound64 then w.toNat else 0)
  | .address, w => .address (Address.ofWord w)

def Reading.fault : Reading → Word → Option Fault
  | .number, w => if w.toNat < bound64 then none else some .integerOverflow
  | _, _ => none

/-- The value that an operation gives, the list after it, and its complaint about the value. -/
structure Effect where
  answer : Option Item := none
  items : List Word
  fault : Option Fault := none

def Operation.act : Operation → List Word → Option Effect
  | .push item, items => some { items := item.toWord :: items }
  | .pop reading, w :: rest =>
    some { answer := reading.value w, items := rest, fault := reading.fault w }
  | .dup (k + 1), items => items[k]?.map fun w => { items := w :: items }
  | .swap (k + 1), top :: rest => rest[k]?.map fun w => { items := w :: rest.set k top }
  | .peek, top :: rest => some { answer := some (.word top), items := top :: rest }
  | _, _ => none

def Operation.zero : Operation → Option Item
  | .pop reading => some (reading.value 0)
  | .peek => some (.word 0)
  | _ => none

/-- What is paid before the list is looked at. -/
def Operation.fee (price : Nat) : Operation → Nat
  | .peek => 0
  | _ => price

/-- What is paid in all: a copy is pushed, and the push has its own price. -/
def Operation.cost (price : Nat) : Operation → Nat
  | .peek => 0
  | .dup _ => price + price
  | _ => price

/-- How deep a stack may be that is opened with a maximum. -/
def limit (maxDepth : Nat) : Nat :=
  if maxDepth = 0 then indexLimit else min maxDepth indexLimit

structure Image where
  items : List Word
  gas : Nat
  deriving DecidableEq

def image (s : Stack) (m : Meter) : Image :=
  { items := s.items, gas := m.gas }

/-- One operation on a list of at most `limit` items, with its answer and its fault. The five cases
exclude each other. -/
inductive Acts (price limit : Nat) (op : Operation) (s : Image) :
    Option Item → Image → Option Fault → Prop where
  | unpaid (hgas : s.gas < op.fee price) :
      Acts price limit op s op.zero s (some .insufficientGas)
  | short (hgas : op.fee price ≤ s.gas) (h : op.act s.items = none) :
      Acts price limit op s op.zero { s with gas := s.gas - op.fee price } (some .stackUnderflow)
  | uncopied {effect : Effect} (hfee : op.fee price ≤ s.gas) (hgas : s.gas < op.cost price)
      (h : op.act s.items = some effect) :
      Acts price limit op s op.zero { s with gas := s.gas - op.fee price } (some .insufficientGas)
  | full {effect : Effect} (hgas : op.cost price ≤ s.gas) (h : op.act s.items = some effect)
      (hlength : limit < effect.items.length) :
      Acts price limit op s op.zero { s with gas := s.gas - op.cost price } (some .stackOverflow)
  | done {effect : Effect} (hgas : op.cost price ≤ s.gas) (h : op.act s.items = some effect)
      (hlength : effect.items.length ≤ limit) :
      Acts price limit op s effect.answer
        { items := effect.items, gas := s.gas - op.cost price } effect.fault

inductive Acting (price limit : Nat) :
    Image → List Operation → List (Option Item) → List (Option Fault) → Image → Prop where
  | done (s : Image) : Acting price limit s [] [] [] s
  | step {s₁ s₂ s₃ : Image} {op : Operation} {answer : Option Item} {fault : Option Fault}
      {rest : List Operation} {answers : List (Option Item)} {faults : List (Option Fault)}
      (h : Acts price limit op s₁ answer s₂ fault)
      (hrest : Acting price limit s₂ rest answers faults s₃) :
      Acting price limit s₁ (op :: rest) (answer :: answers) (fault :: faults) s₃

/-! ### Depth -/

theorem Acts.length_le {price limit : Nat} {op : Operation} {s s' : Image} {answer : Option Item}
    {fault : Option Fault} (h : Acts price limit op s answer s' fault)
    (hs : s.items.length ≤ limit) : s'.items.length ≤ limit := by
  cases h with
  | done hgas h hlength => exact hlength
  | unpaid hgas => exact hs
  | short hgas h => exact hs
  | uncopied hfee hgas h => exact hs
  | full hgas h hlength => exact hs

theorem exceeds_eq_false_iff {s : Stack} {depth : Nat} :
    s.exceeds depth = false ↔ depth ≤ limit s.maxDepth := by
  simp only [exceeds, limit, Bool.or_eq_false_iff, Bool.and_eq_false_iff, decide_eq_false_iff_not]
  split
  · omega
  · omega

theorem within_iff {s : Stack} : s.Within ↔ s.items.length ≤ limit s.maxDepth := by
  rw [Within, exceeds_eq_false_iff, s.depth_eq]

/-! ### One operation -/

structure Follows (op : Operation) (s : Stack) (m : Meter) (fault : Option Fault)
    (result : Option Item × Stack × Meter) : Prop where
  acts : Acts s.price (limit s.maxDepth) op (s.image m) result.1
    (result.2.1.image result.2.2) fault
  price : result.2.1.price = s.price
  maxDepth : result.2.1.maxDepth = s.maxDepth
  recorded : result.2.2.fault = m.fault.or fault

theorem follows_refused {op : Operation} {s : Stack} {m : Meter} {gas : Nat} {fault : Fault}
    (h : Acts s.price (limit s.maxDepth) op (s.image m) op.zero { items := s.items, gas }
      (some fault)) :
    Follows op s m (some fault) (op.zero, s, { m with gas }.record fault) := by
  refine ⟨?_, rfl, rfl, Meter.note_fault (some fault) { m with gas }⟩
  show Acts s.price (limit s.maxDepth) op (s.image m) op.zero
    { items := s.items, gas := ({ m with gas }.record fault).gas } (some fault)
  rw [Meter.record_gas]
  exact h

theorem follows_done {op : Operation} {s s' : Stack} {m : Meter} {effect : Effect}
    (h : op.act s.items = some effect) (hgas : op.cost s.price ≤ m.gas)
    (hlength : effect.items.length ≤ limit s.maxDepth) (hitems : s'.items = effect.items)
    (hprice : s'.price = s.price) (hmax : s'.maxDepth = s.maxDepth) :
    Follows op s m effect.fault
      (effect.answer, s', { m with gas := m.gas - op.cost s.price }.note effect.fault) := by
  refine ⟨?_, hprice, hmax, Meter.note_fault _ _⟩
  show Acts s.price (limit s.maxDepth) op (s.image m) effect.answer
    { items := s'.items
      gas := ({ m with gas := m.gas - op.cost s.price }.note effect.fault).gas } effect.fault
  rw [Meter.note_gas, hitems]
  exact .done hgas h hlength

theorem push_cases (w : Word) (s : Stack) (m : Meter) :
    m.gas < s.price ∧ s.push w m = (s, m.record .insufficientGas) ∨
    s.price ≤ m.gas ∧ limit s.maxDepth < s.items.length + 1 ∧
      s.push w m = (s, { m with gas := m.gas - s.price }.record .stackOverflow) ∨
    s.price ≤ m.gas ∧ s.items.length + 1 ≤ limit s.maxDepth ∧
      ∃ s' : Stack, s.push w m = (s', { m with gas := m.gas - s.price }) ∧
        s'.items = w :: s.items ∧ s'.price = s.price ∧ s'.maxDepth = s.maxDepth := by
  unfold push
  by_cases hgas : m.gas < s.price
  · rw [Meter.consume_of_lt hgas]
    exact Or.inl ⟨hgas, rfl⟩
  · have hpaid : s.price ≤ m.gas := Nat.le_of_not_lt hgas
    rw [Meter.consume_of_le hpaid]
    dsimp only [place]
    by_cases hroom : s.depth + 1 ≤ limit s.maxDepth
    · rw [if_neg (Bool.eq_false_iff.1 (exceeds_eq_false_iff.2 hroom))]
      rw [s.depth_eq] at hroom
      exact Or.inr (Or.inr ⟨hpaid, hroom, _, rfl, rfl, rfl, rfl⟩)
    · have hfull : s.exceeds (s.depth + 1) = true :=
        Bool.eq_true_of_not_eq_false fun hfits => hroom (exceeds_eq_false_iff.1 hfits)
      rw [if_pos hfull]
      rw [s.depth_eq] at hroom
      exact Or.inr (Or.inl ⟨hpaid, Nat.lt_of_not_le hroom, rfl⟩)

theorem push_follows (item : Item) (s : Stack) (m : Meter) :
    ∃ fault, Follows (.push item) s m fault ((Operation.push item).perform s m) := by
  show ∃ fault, Follows (.push item) s m fault (none, s.push item.toWord m)
  rcases push_cases item.toWord s m with ⟨hgas, hpush⟩ | ⟨hgas, hlength, hpush⟩ |
    ⟨hgas, hlength, s', hpush, hitems, hprice, hmax⟩
  · rw [hpush]
    exact ⟨_, follows_refused (.unpaid hgas)⟩
  · rw [hpush]
    exact ⟨_, follows_refused (.full hgas rfl hlength)⟩
  · have hact : (Operation.push item).act s.items = some { items := item.toWord :: s.items } := rfl
    rw [hpush]
    exact ⟨_, follows_done hact hgas hlength hitems hprice hmax⟩

theorem pop_cases (s : Stack) (m : Meter) :
    m.gas < s.price ∧ s.pop m = (0, s, m.record .insufficientGas) ∨
    s.price ≤ m.gas ∧ s.items = [] ∧
      s.pop m = (0, s, { m with gas := m.gas - s.price }.record .stackUnderflow) ∨
    s.price ≤ m.gas ∧ ∃ w rest, s.items = w :: rest ∧
      s.pop m = (w, s.discard, { m with gas := m.gas - s.price }) := by
  unfold pop
  by_cases hgas : m.gas < s.price
  · rw [Meter.consume_of_lt hgas]
    exact Or.inl ⟨hgas, rfl⟩
  · have hpaid : s.price ≤ m.gas := Nat.le_of_not_lt hgas
    rw [Meter.consume_of_le hpaid]
    cases hitems : s.items with
    | nil => exact Or.inr (Or.inl ⟨hpaid, rfl, rfl⟩)
    | cons w rest => exact Or.inr (Or.inr ⟨hpaid, w, rest, rfl, rfl⟩)

theorem perform_pop (reading : Reading) (s : Stack) (m : Meter) :
    (Operation.pop reading).perform s m =
      (some (reading.value (s.pop m).1), (s.pop m).2.1,
        (s.pop m).2.2.note (reading.fault (s.pop m).1)) := by
  cases reading with
  | word => rfl
  | signed => rfl
  | address => rfl
  | number =>
    simp only [Operation.perform, pop64, Word.toNat64?, Reading.value, Reading.fault]
    by_cases hsmall : (s.pop m).1.toNat < bound64
    · simp only [if_pos hsmall]
      rfl
    · simp only [if_neg hsmall]
      rfl

theorem Reading.fault_zero (reading : Reading) : reading.fault 0 = none := by
  cases reading with
  | number => rfl
  | word => rfl
  | signed => rfl
  | address => rfl

theorem Within.pop_follows {s : Stack} (hs : s.Within) (reading : Reading) (m : Meter) :
    ∃ fault, Follows (.pop reading) s m fault ((Operation.pop reading).perform s m) := by
  rw [perform_pop]
  rcases pop_cases s m with ⟨hgas, hpop⟩ | ⟨hgas, hitems, hpop⟩ | ⟨hgas, w, rest, hitems, hpop⟩
  · rw [hpop]
    dsimp only
    rw [reading.fault_zero]
    exact ⟨_, follows_refused (.unpaid hgas)⟩
  · rw [hpop]
    dsimp only
    rw [reading.fault_zero]
    have hshort : (Operation.pop reading).act s.items = none := by rw [hitems]; rfl
    exact ⟨_, follows_refused (.short hgas hshort)⟩
  · rw [hpop]
    have hact : (Operation.pop reading).act s.items =
        some { answer := reading.value w, items := rest, fault := reading.fault w } := by
      rw [hitems]
      rfl
    have hrest : rest.length ≤ limit s.maxDepth := by
      have hlength := within_iff.1 hs
      rw [hitems, List.length_cons] at hlength
      omega
    have hdiscard : s.discard.items = rest := by
      show s.items.tail = rest
      rw [hitems]
      rfl
    exact ⟨_, follows_done hact hgas hrest hdiscard rfl rfl⟩

theorem follows_short {op : Operation} {s : Stack} {m : Meter} (hfee : op.fee s.price = s.price)
    (hgas : s.price ≤ m.gas) (h : op.act s.items = none) :
    Follows op s m (some .stackUnderflow)
      (op.zero, s, { m with gas := m.gas - s.price }.record .stackUnderflow) := by
  have hacts : Acts s.price (limit s.maxDepth) op (s.image m) op.zero _ _ :=
    .short (hfee.le.trans hgas) h
  rw [hfee] at hacts
  exact follows_refused hacts

/-- A copy can be paid for if its push can be, after the first payment. -/
theorem cost_dup_le_iff {n price gas : Nat} (h : price ≤ gas) :
    (Operation.dup n).cost price ≤ gas ↔ price ≤ gas - price :=
  (Nat.le_sub_iff_add_le h).symm

theorem dup_follows (n : Nat) (s : Stack) (m : Meter) :
    ∃ fault, Follows (.dup n) s m fault ((Operation.dup n).perform s m) := by
  show ∃ fault, Follows (.dup n) s m fault (none, s.dup n m)
  unfold dup
  by_cases hgas : m.gas < s.price
  · rw [Meter.consume_of_lt hgas]
    exact ⟨_, follows_refused (.unpaid hgas)⟩
  · have hpaid : s.price ≤ m.gas := Nat.le_of_not_lt hgas
    rw [Meter.consume_of_le hpaid]
    cases n with
    | zero => exact ⟨_, follows_short rfl hpaid rfl⟩
    | succ k =>
      dsimp only
      cases hitem : s.items[k]? with
      | none =>
        have hshort : (Operation.dup (k + 1)).act s.items = none := by
          rw [Operation.act, hitem]
          rfl
        exact ⟨_, follows_short rfl hpaid hshort⟩
      | some w =>
        have hact : (Operation.dup (k + 1)).act s.items = some { items := w :: s.items } := by
          rw [Operation.act, hitem]
          rfl
        have hcost : m.gas - s.price - s.price = m.gas - (Operation.dup (k + 1)).cost s.price :=
          Nat.sub_sub _ _ _
        -- the copy is pushed with what the first payment has left
        rcases push_cases w s { m with gas := m.gas - s.price } with ⟨hless, hpush⟩ |
          ⟨hmore, hlength, hpush⟩ | ⟨hmore, hlength, s', hpush, hitems, hprice, hmax⟩
        · have hunpaid : m.gas < (Operation.dup (k + 1)).cost s.price :=
            Nat.lt_of_not_le fun htwice => Nat.not_le.2 hless ((cost_dup_le_iff hpaid).1 htwice)
          dsimp only
          rw [hpush]
          exact ⟨_, follows_refused (.uncopied hpaid hunpaid hact)⟩
        · dsimp only at hpush ⊢
          rw [hpush, hcost]
          exact ⟨_, follows_refused (.full ((cost_dup_le_iff hpaid).2 hmore) hact hlength)⟩
        · dsimp only at hpush ⊢
          rw [hpush, hcost]
          exact ⟨_, follows_done hact ((cost_dup_le_iff hpaid).2 hmore) hlength hitems hprice hmax⟩

theorem swap_act {k : Nat} {items : List Word} {top w : Word} (htop : items[0]? = some top)
    (hw : items[k + 1]? = some w) :
    (Operation.swap (k + 1)).act items =
      some { items := (items.set 0 w).set (k + 1) top } := by
  cases items with
  | nil => cases htop
  | cons head rest =>
    obtain rfl : head = top := Option.some.inj htop
    rw [List.getElem?_cons_succ] at hw
    rw [Operation.act, hw]
    rfl

theorem swap_act_eq_none {n : Nat} {items : List Word}
    (h : ∀ (k : Nat) (top w : Word), n = k + 1 → items[0]? = some top → items[n]? = some w → False) :
    (Operation.swap n).act items = none := by
  cases n with
  | zero => rfl
  | succ k =>
    cases items with
    | nil => rfl
    | cons top rest =>
      cases hw : rest[k]? with
      | none => rw [Operation.act, hw]; rfl
      | some w => exact (h k top w rfl rfl hw).elim

theorem Within.swap_follows {s : Stack} (hs : s.Within) (n : Nat) (m : Meter) :
    ∃ fault, Follows (.swap n) s m fault ((Operation.swap n).perform s m) := by
  show ∃ fault, Follows (.swap n) s m fault (none, s.swap n m)
  unfold swap
  by_cases hgas : m.gas < s.price
  · rw [Meter.consume_of_lt hgas]
    exact ⟨_, follows_refused (.unpaid hgas)⟩
  · have hpaid : s.price ≤ m.gas := Nat.le_of_not_lt hgas
    rw [Meter.consume_of_le hpaid]
    dsimp only
    split
    · next k top w htop hw =>
      have hact := swap_act htop hw
      have hlength : ((s.items.set 0 w).set (k + 1) top).length ≤ limit s.maxDepth := by
        rw [List.length_set, List.length_set]
        exact within_iff.1 hs
      exact ⟨_, follows_done hact hpaid hlength rfl rfl rfl⟩
    · next hnone =>
      have hshort := swap_act_eq_none fun k top w hn htop hw => hnone k top w hn htop hw
      exact ⟨_, follows_short rfl hpaid hshort⟩

theorem Within.peek_follows {s : Stack} (hs : s.Within) (m : Meter) :
    ∃ fault, Follows .peek s m fault (Operation.peek.perform s m) := by
  show ∃ fault, Follows .peek s m fault (some (.word (s.peek m).1), s, (s.peek m).2)
  unfold peek
  have hlength := within_iff.1 hs
  cases hitems : s.items with
  | nil =>
    have hshort : Operation.peek.act s.items = none := by rw [hitems]; rfl
    exact ⟨_, follows_refused (.short (Nat.zero_le _) hshort)⟩
  | cons top rest =>
    have hact : Operation.peek.act s.items =
        some { answer := some (.word top), items := top :: rest } := by
      rw [hitems]
      rfl
    rw [hitems] at hlength
    exact ⟨_, follows_done hact (Nat.zero_le _) hlength hitems rfl rfl⟩

theorem Within.follows {s : Stack} (hs : s.Within) (op : Operation) (m : Meter) :
    ∃ fault, Follows op s m fault (op.perform s m) := by
  cases op with
  | push item => exact push_follows item s m
  | pop reading => exact hs.pop_follows reading m
  | dup n => exact dup_follows n s m
  | swap n => exact hs.swap_follows n m
  | peek => exact hs.peek_follows m

theorem Follows.within {op : Operation} {s : Stack} {m : Meter} {fault : Option Fault}
    {result : Option Item × Stack × Meter} (h : Follows op s m fault result) (hs : s.Within) :
    result.2.1.Within := by
  rw [within_iff, h.maxDepth]
  exact h.acts.length_le (within_iff.1 hs)

/-! ### Sequences of operations -/

def performAll : List Operation → Stack → Meter → List (Option Item) × Stack × Meter
  | [], s, m => ([], s, m)
  | op :: rest, s, m =>
    let (answer, s, m) := op.perform s m
    let (answers, s, m) := performAll rest s m
    (answer :: answers, s, m)

structure Serviced (s : Stack) (m : Meter) (ops : List Operation) (faults : List (Option Fault))
    (result : List (Option Item) × Stack × Meter) : Prop where
  acting : Acting s.price (limit s.maxDepth) (s.image m) ops result.1 faults
    (result.2.1.image result.2.2)
  within : result.2.1.Within
  maxDepth : result.2.1.maxDepth = s.maxDepth
  recorded : result.2.2.fault = m.fault.or (faults.findSome? id)

theorem Within.serviced {s : Stack} (hs : s.Within) (ops : List Operation) (m : Meter) :
    ∃ faults, Serviced s m ops faults (performAll ops s m) := by
  -- every operation hands a stack that is still within its bound to the next one
  induction ops generalizing s m with
  | nil => exact ⟨[], .done _, hs, rfl, (Option.or_none).symm⟩
  | cons op rest ih =>
    obtain ⟨fault, hfirst⟩ := hs.follows op m
    obtain ⟨faults, hrest⟩ := ih (hfirst.within hs) (op.perform s m).2.2
    have hacting := hrest.acting
    rw [hfirst.price, hfirst.maxDepth] at hacting
    refine ⟨fault :: faults, .step hfirst.acts hacting, hrest.within,
      hrest.maxDepth.trans hfirst.maxDepth, ?_⟩
    have hrecorded := hrest.recorded
    rw [hfirst.recorded, Option.or_assoc] at hrecorded
    have hfirstFault : (fault :: faults).findSome? id = fault.or (faults.findSome? id) := by
      cases fault with
      | none => rfl
      | some fault => rfl
    rw [hfirstFault]
    exact hrecorded

/-- A stack that is not too deep, such as a new one, is a list of bounded length, whatever operations
are performed on it and whatever fault the meter already holds; that fault stays, or else the first
fault of an operation does. -/
theorem stack_is_a_bounded_list :
    (∀ price maxDepth : Nat, (empty price maxDepth).items.length ≤ limit maxDepth) ∧
    ∀ (s : Stack) (m : Meter) (ops : List Operation), s.items.length ≤ limit s.maxDepth →
      let final := performAll ops s m
      ∃ faults : List (Option Fault),
        Acting s.price (limit s.maxDepth) (s.image m) ops final.1 faults
          (final.2.1.image final.2.2) ∧
        final.2.1.items.length ≤ limit s.maxDepth ∧
        final.2.1.depth = final.2.1.items.length ∧
        final.2.2.fault = m.fault.or (faults.findSome? id) := by
  constructor
  · intro price maxDepth
    exact within_iff.1 (empty_within price maxDepth)
  · intro s m ops hs final
    obtain ⟨faults, h⟩ := (within_iff.2 hs).serviced ops m
    have hdepth := within_iff.1 h.within
    rw [h.maxDepth] at hdepth
    exact ⟨faults, h.acting, hdepth, final.2.1.depth_eq, h.recorded⟩

/-- The second item of two copied, then a word too many, an exchange, a word that is no number of 64
bits, and a copy for which there is gas but not for its push. -/
def mixedOperations : List Operation :=
  [.dup 2, .push (.flag true), .swap 1, .pop .number, .dup 1, .peek]

theorem mixed_operations_act :
    (ofList [2 ^ 64, 7]).items.length ≤ 3 ∧
    ∃ faults : List (Option Fault),
      Acting 3 3 { items := [2 ^ 64, 7], gas := 20 } mixedOperations
        [none, none, none, some (.number 0), none, some (.word 7)] faults
        { items := [7, 7], gas := 2 } ∧
      faults.findSome? id = some .stackOverflow := by
  let s : Stack := { ofList [2 ^ 64, 7] with price := 3, maxDepth := 3 }
  have hs : s.items.length ≤ limit s.maxDepth := by decide
  have hanswers : (performAll mixedOperations s { gas := 20 }).1 =
      [none, none, none, some (.number 0), none, some (.word 7)] := by
    decide +kernel
  have himage : (performAll mixedOperations s { gas := 20 }).2.1.image
      (performAll mixedOperations s { gas := 20 }).2.2 = { items := [7, 7], gas := 2 } := by
    decide +kernel
  have hrecorded : (performAll mixedOperations s { gas := 20 }).2.2.fault = some .stackOverflow := by
    decide +kernel
  obtain ⟨faults, hacting, -, -, hfault⟩ :=
    stack_is_a_bounded_list.2 s { gas := 20 } mixedOperations hs
  rw [hanswers, himage] at hacting
  exact ⟨hs, faults, hacting, hfault.symm.trans hrecorded⟩

end Stack

end ContractVm
