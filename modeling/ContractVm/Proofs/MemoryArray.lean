import Mathlib
import ContractVm.Memory

/-! # Memory as an array

Reads, writes and reservations, in any order, act on memory as on an array of bytes that has no end
and starts out as zero. Beside the array there is the capacity, which never shrinks and stays within
the maximum, and the meter that pays for its growth. An access is refused if it does not fit or if
its growth cannot be paid for, and then it leaves all of this alone. -/

namespace ContractVm

theorem Word.toNat64?_eq_some {w : Word} {n : Nat} (h : toNat64? w = some n) :
    n = w.toNat ∧ w.toNat < bound64 := by
  unfold toNat64? at h
  split at h
  · next hlt =>
    cases h
    exact ⟨rfl, hlt⟩
  · cases h

theorem Word.toNat64?_eq_none {w : Word} (h : toNat64? w = none) : bound64 ≤ w.toNat := by
  unfold toNat64? at h
  split at h
  · cases h
  · next hge => exact Nat.le_of_not_lt hge

namespace Memory

inductive Access where
  | read (offset length : Word)
  | write (offset : Word) (bytes : Bytes)
  | reserve (offset : Word) (length : Nat)

inductive Answer where
  | bytes (bytes : Bytes)
  | written
  | reserved (done : Bool)
  deriving Repr, DecidableEq

namespace Access

def start : Access → Nat
  | .read offset _ => offset.toNat
  | .write offset _ => offset.toNat
  | .reserve offset _ => offset.toNat

def length : Access → Nat
  | .read _ length => length.toNat
  | .write _ bytes => bytes.length
  | .reserve _ length => length

def stop (a : Access) : Nat :=
  a.start + a.length

def perform : Access → Memory → Meter → Answer × Memory × Meter
  | .read offset length, mem, m =>
    let (bytes, mem, m) := mem.read offset length m
    (.bytes bytes, mem, m)
  | .write offset bytes, mem, m => (.written, mem.write offset bytes m)
  | .reserve offset length, mem, m =>
    let (done, mem, m) := mem.reserve offset length m
    (.reserved done, mem, m)

/-! ### The array -/

def answer : Access → (Nat → UInt8) → Answer
  | .read offset length, array =>
    .bytes ((List.range length.toNat).map fun i => array (offset.toNat + i))
  | .write _ _, _ => .written
  | .reserve _ _, _ => .reserved true

def update : Access → (Nat → UInt8) → Nat → UInt8
  | .write offset bytes, array => fun i =>
    if offset.toNat ≤ i ∧ i < offset.toNat + bytes.length then bytes.getD (i - offset.toNat) 0
    else array i
  | .read _ _, array => array
  | .reserve _ _, array => array

def refusal : Access → Answer
  | .read _ _ => .bytes []
  | .write _ _ => .written
  | .reserve _ _ => .reserved false

/-- An access that leaves the first `limit` bytes or is given in numbers of more than 64 bits. -/
def Misses (limit : Nat) (a : Access) : Prop :=
  bound64 ≤ a.start ∨ bound64 ≤ a.length ∨ 0 < a.length ∧ limit < a.stop

end Access

def grown (limit capacity stop : Nat) : Nat :=
  if stop ≤ capacity then capacity else min (32 * wordsFor stop) limit

def growthPrice (wordCost old new : Nat) : Nat :=
  capGas ((wordsFor new - wordsFor old) * wordCost)

/-- The capacity after an access; an empty one needs none. -/
def Access.grown (limit capacity : Nat) (a : Access) : Nat :=
  if a.length = 0 then capacity else Memory.grown limit capacity a.stop

/-- An array with its capacity and the meter that pays for it. -/
structure Image where
  bytes : Nat → UInt8
  capacity : Nat
  meter : Meter

def image (mem : Memory) (m : Meter) : Image :=
  { bytes := mem.byteAt, capacity := mem.capacity, meter := m }

/-- One access to an array with its answer. The three cases exclude each other. -/
inductive Serves (limit wordCost : Nat) (a : Access) (s : Image) : Answer → Image → Prop where
  | missed (reason : String) (h : a.Misses limit) :
      Serves limit wordCost a s a.refusal
        { s with meter := s.meter.record (.memoryOutOfBounds reason) }
  | unpaid (h : ¬a.Misses limit)
      (hgas : s.meter.gas < growthPrice wordCost s.capacity (a.grown limit s.capacity)) :
      Serves limit wordCost a s a.refusal { s with meter := s.meter.record .insufficientGas }
  | served (h : ¬a.Misses limit)
      (hgas : growthPrice wordCost s.capacity (a.grown limit s.capacity) ≤ s.meter.gas) :
      Serves limit wordCost a s (a.answer s.bytes)
        { bytes := a.update s.bytes
          capacity := a.grown limit s.capacity
          meter :=
            { s.meter with
              gas := s.meter.gas - growthPrice wordCost s.capacity (a.grown limit s.capacity) } }

inductive Serving (limit wordCost : Nat) : Image → List Access → List Answer → Image → Prop where
  | done (s : Image) : Serving limit wordCost s [] [] s
  | step {s₁ s₂ s₃ : Image} {a : Access} {answer : Answer} {rest : List Access}
      {answers : List Answer} (h : Serves limit wordCost a s₁ answer s₂)
      (hrest : Serving limit wordCost s₂ rest answers s₃) :
      Serving limit wordCost s₁ (a :: rest) (answer :: answers) s₃

/-! ### Capacity -/

theorem wordsFor_mono {a b : Nat} (h : a ≤ b) : wordsFor a ≤ wordsFor b := by
  unfold wordsFor
  omega

theorem le_grown {limit capacity stop : Nat} (h : stop ≤ limit) :
    capacity ≤ grown limit capacity stop := by
  unfold grown wordsFor
  split <;> omega

theorem grown_le {limit capacity stop : Nat} (h : capacity ≤ limit) :
    grown limit capacity stop ≤ limit := by
  unfold grown
  split <;> omega

theorem growthPrice_self (wordCost capacity : Nat) :
    growthPrice wordCost capacity capacity = 0 := by
  simp [growthPrice, capGas]

theorem Serves.capacity {limit wordCost : Nat} {a : Access} {s s' : Image} {answer : Answer}
    (h : Serves limit wordCost a s answer s') (hs : s.capacity ≤ limit) :
    s.capacity ≤ s'.capacity ∧ s'.capacity ≤ limit := by
  cases h with
  | missed reason h => exact ⟨le_refl _, hs⟩
  | unpaid h hgas => exact ⟨le_refl _, hs⟩
  | served h hgas =>
    dsimp only [Access.grown]
    split
    · exact ⟨le_refl _, hs⟩
    · next hlength =>
      have hstop : a.stop ≤ limit := by
        unfold Access.Misses at h
        omega
      exact ⟨le_grown hstop, grown_le hs⟩

/-- Bytes change only in the range of a write, which the capacity covers by then. -/
theorem Access.update_of_le {limit capacity i : Nat} {a : Access} {array : Nat → UInt8}
    (hfits : ¬a.Misses limit) (hcapacity : capacity ≤ limit) (hi : a.grown limit capacity ≤ i)
    (hblank : ∀ j, capacity ≤ j → array j = 0) : a.update array i = 0 := by
  have hbelow : capacity ≤ a.grown limit capacity ∧
      (0 < a.length → a.stop ≤ a.grown limit capacity) := by
    unfold Misses at hfits
    unfold Access.grown Memory.grown wordsFor
    split_ifs <;> omega
  have hkept : array i = 0 := hblank i (by omega)
  cases a with
  | read offset length => exact hkept
  | reserve offset length => exact hkept
  | write offset bytes =>
    have hstop : 0 < bytes.length → offset.toNat + bytes.length ≤ i := fun hlength =>
      (hbelow.2 hlength).trans hi
    have hout : ¬(offset.toNat ≤ i ∧ i < offset.toNat + bytes.length) := by omega
    exact (if_neg hout).trans hkept

theorem Serves.blank {limit wordCost : Nat} {a : Access} {s s' : Image} {answer : Answer}
    (h : Serves limit wordCost a s answer s') (hs : s.capacity ≤ limit)
    (hblank : ∀ i, s.capacity ≤ i → s.bytes i = 0) : ∀ i, s'.capacity ≤ i → s'.bytes i = 0 := by
  cases h with
  | missed reason h => exact hblank
  | unpaid h hgas => exact hblank
  | served h hgas => exact fun i hi => Access.update_of_le h hs hi hblank

theorem Serving.capacity {limit wordCost : Nat} {s s' : Image} {accesses : List Access}
    {answers : List Answer} (h : Serving limit wordCost s accesses answers s')
    (hs : s.capacity ≤ limit) : s.capacity ≤ s'.capacity ∧ s'.capacity ≤ limit := by
  induction h with
  | done s => exact ⟨le_refl _, hs⟩
  | step h _ ih =>
    have hfirst := h.capacity hs
    have hrest := ih hfirst.2
    omega

/-! ### Covering a range -/

structure Capped (mem : Memory) : Prop where
  capacity : mem.capacity ≤ mem.maximum
  maximum : mem.maximum ≤ indexLimit

/-- What holds of every memory: the bytes that are not zero all lie within its capacity. -/
structure Bounded (mem : Memory) : Prop extends Capped mem where
  blank : ∀ i, mem.capacity ≤ i → mem.byteAt i = 0

theorem byteAt_empty (wordCost initial maximum i : Nat) :
    (empty wordCost initial maximum).byteAt i = 0 := by
  simp [byteAt, empty]

theorem empty_bounded (wordCost initial maximum : Nat) :
    (empty wordCost initial maximum).Bounded := by
  refine ⟨⟨?_, ?_⟩, fun i _ => byteAt_empty wordCost initial maximum i⟩
  · dsimp only [empty]
    omega
  · dsimp only [empty]
    split <;> omega

inductive Covered (mem : Memory) (m : Meter) (stop : Nat) :
    Except Fault (Memory × Meter) → Prop where
  | beyond (reason : String) (h : mem.maximum < stop) :
      Covered mem m stop (.error (.memoryOutOfBounds reason))
  | unpaid (h : stop ≤ mem.maximum)
      (hgas : m.gas < growthPrice mem.wordCost mem.capacity (grown mem.maximum mem.capacity stop)) :
      Covered mem m stop (.error .insufficientGas)
  | paid (h : stop ≤ mem.maximum)
      (hgas : growthPrice mem.wordCost mem.capacity (grown mem.maximum mem.capacity stop) ≤ m.gas) :
      Covered mem m stop (.ok ({ mem with capacity := grown mem.maximum mem.capacity stop },
        { m with gas := m.gas -
            growthPrice mem.wordCost mem.capacity (grown mem.maximum mem.capacity stop) }))

theorem Capped.covered {mem : Memory} (hmem : mem.Capped) (offset length : Nat) (m : Meter) :
    mem.Covered m (offset + length) (mem.cover offset length m) := by
  have hcapacity := hmem.capacity
  have hmaximum := hmem.maximum
  unfold cover
  dsimp only
  split
  · next hlimit => exact .beyond _ (by omega)
  · next hlimit =>
    split
    · next hinside =>
      have hsame : grown mem.maximum mem.capacity (offset + length) = mem.capacity := if_pos hinside
      have hfree : growthPrice mem.wordCost mem.capacity
          (grown mem.maximum mem.capacity (offset + length)) ≤ m.gas := by
        rw [hsame, growthPrice_self]
        omega
      have hpaid : mem.Covered m (offset + length) _ := .paid (by omega) hfree
      rw [hsame, growthPrice_self] at hpaid
      exact hpaid
    · next hinside =>
      split
      · next hbeyond => exact .beyond _ hbeyond
      · next hbeyond =>
        have hgrown : min (wordsFor (offset + length) * 32) mem.maximum =
            grown mem.maximum mem.capacity (offset + length) := by
          rw [grown, if_neg hinside, Nat.mul_comm]
        have hprice : capGas ((wordsFor (grown mem.maximum mem.capacity (offset + length)) -
            wordsFor mem.capacity) * mem.wordCost) = growthPrice mem.wordCost mem.capacity
            (grown mem.maximum mem.capacity (offset + length)) := rfl
        rw [hgrown, hprice]
        by_cases hgas : m.gas < growthPrice mem.wordCost mem.capacity
            (grown mem.maximum mem.capacity (offset + length))
        · rw [Meter.consume_of_lt hgas]
          exact .unpaid (by omega) hgas
        · rw [Meter.consume_of_le (Nat.le_of_not_lt hgas)]
          exact .paid (by omega) (Nat.le_of_not_lt hgas)

/-! ### One access -/

theorem Capped.not_misses {mem : Memory} {a : Access} (hmem : mem.Capped)
    (h : a.stop ≤ mem.maximum) : ¬a.Misses mem.maximum := by
  have hmaximum := hmem.maximum
  unfold indexLimit at hmaximum
  unfold Access.Misses bound64
  unfold Access.stop at h ⊢
  omega

structure Follows (a : Access) (mem : Memory) (m : Meter) (result : Answer × Memory × Meter) :
    Prop where
  serves : Serves mem.maximum mem.wordCost a (mem.image m) result.1 (result.2.1.image result.2.2)
  maximum : result.2.1.maximum = mem.maximum
  wordCost : result.2.1.wordCost = mem.wordCost

theorem follows_missed {a : Access} {mem : Memory} (m : Meter) (reason : String)
    (h : a.Misses mem.maximum) :
    Follows a mem m (a.refusal, mem, m.record (.memoryOutOfBounds reason)) :=
  ⟨.missed reason h, rfl, rfl⟩

theorem Access.update_of_empty {a : Access} (h : a.length = 0) (array : Nat → UInt8) :
    a.update array = array := by
  cases a with
  | read offset length => rfl
  | reserve offset length => rfl
  | write offset bytes =>
    funext i
    have hlength : bytes.length = 0 := h
    have hout : ¬(offset.toNat ≤ i ∧ i < offset.toNat + bytes.length) := by omega
    exact if_neg hout

theorem follows_empty {a : Access} (mem : Memory) (m : Meter) (hstart : a.start < bound64)
    (hlength : a.length = 0) : Follows a mem m (a.answer mem.byteAt, mem, m) := by
  have hfits : ¬a.Misses mem.maximum := by
    unfold Access.Misses
    unfold bound64 at hstart ⊢
    omega
  have hgrown : a.grown mem.maximum mem.capacity = mem.capacity := if_pos hlength
  have hfree :
      growthPrice mem.wordCost mem.capacity (a.grown mem.maximum mem.capacity) ≤ m.gas := by
    rw [hgrown, growthPrice_self]
    omega
  have hserves : Serves mem.maximum mem.wordCost a (mem.image m) _ _ := .served hfits hfree
  dsimp only [image] at hserves
  rw [hgrown, growthPrice_self, Access.update_of_empty hlength] at hserves
  exact ⟨hserves, rfl, rfl⟩

theorem Covered.refused {a : Access} {mem : Memory} {m : Meter} {fault : Fault}
    (h : mem.Covered m a.stop (.error fault)) (hmem : mem.Capped) (hlength : 0 < a.length) :
    Follows a mem m (a.refusal, mem, m.record fault) := by
  cases h with
  | beyond reason h => exact follows_missed m reason (Or.inr (Or.inr ⟨hlength, h⟩))
  | unpaid h hgas =>
    have hgrown : a.grown mem.maximum mem.capacity = Memory.grown mem.maximum mem.capacity a.stop :=
      if_neg (Nat.ne_of_gt hlength)
    rw [← hgrown] at hgas
    exact ⟨.unpaid (hmem.not_misses h) hgas, rfl, rfl⟩

/-- A covered access is served, if its bytes are set as the array has them. -/
theorem Covered.accepted {a : Access} {mem mem₁ mem₂ : Memory} {m m₁ : Meter}
    (h : mem.Covered m a.stop (.ok (mem₁, m₁))) (hmem : mem.Capped) (hlength : 0 < a.length)
    (hset : mem₂ = { mem₁ with cells := mem₂.cells }) (hbytes : mem₂.byteAt = a.update mem.byteAt) :
    Follows a mem m (a.answer mem.byteAt, mem₂, m₁) := by
  cases h with
  | paid h hgas =>
    have hgrown : a.grown mem.maximum mem.capacity = Memory.grown mem.maximum mem.capacity a.stop :=
      if_neg (Nat.ne_of_gt hlength)
    rw [← hgrown] at hgas hset ⊢
    have hserves := Serves.served (s := mem.image m) (hmem.not_misses h) hgas
    have hcapacity : mem₂.capacity = a.grown mem.maximum mem.capacity := by rw [hset]
    refine ⟨?_, by rw [hset], by rw [hset]⟩
    dsimp only [image] at hserves ⊢
    rw [hbytes, hcapacity]
    exact hserves

theorem Covered.byteAt {mem mem₁ : Memory} {m m₁ : Meter} {stop : Nat}
    (h : mem.Covered m stop (.ok (mem₁, m₁))) : mem₁.byteAt = mem.byteAt := by
  cases h with
  | paid h hgas => rfl

theorem Capped.read_follows {mem : Memory} (hmem : mem.Capped) (offset length : Word)
    (m : Meter) :
    Follows (.read offset length) mem m ((Access.read offset length).perform mem m) := by
  unfold Access.perform read
  dsimp only
  cases ho : Word.toNat64? offset with
  | none => exact follows_missed m _ (Or.inl (Word.toNat64?_eq_none ho))
  | some o =>
    obtain ⟨rfl, hstart⟩ := Word.toNat64?_eq_some ho
    cases hl : Word.toNat64? length with
    | none => exact follows_missed m _ (Or.inr (Or.inl (Word.toNat64?_eq_none hl)))
    | some l =>
      obtain ⟨rfl, -⟩ := Word.toNat64?_eq_some hl
      dsimp only
      split
      · next hempty =>
        have hfollows := follows_empty (a := .read offset length) mem m hstart hempty
        simp only [Access.answer, hempty, List.range_zero, List.map_nil] at hfollows
        exact hfollows
      · next hlength =>
        have hcovered := hmem.covered offset.toNat length.toNat m
        cases hc : mem.cover offset.toNat length.toNat m with
        | error fault =>
          rw [hc] at hcovered
          exact hcovered.refused (a := .read offset length) hmem (Nat.pos_of_ne_zero hlength)
        | ok covered =>
          obtain ⟨mem₁, m₁⟩ := covered
          rw [hc] at hcovered
          have hkept := hcovered.byteAt
          have hfollows := hcovered.accepted (a := .read offset length) hmem
            (Nat.pos_of_ne_zero hlength) rfl hkept
          rw [← hkept] at hfollows
          exact hfollows

theorem Capped.write_follows {mem : Memory} (hmem : mem.Capped) (offset : Word) (bytes : Bytes)
    (m : Meter) :
    Follows (.write offset bytes) mem m ((Access.write offset bytes).perform mem m) := by
  unfold Access.perform write
  dsimp only
  cases ho : Word.toNat64? offset with
  | none => exact follows_missed m _ (Or.inl (Word.toNat64?_eq_none ho))
  | some o =>
    obtain ⟨rfl, hstart⟩ := Word.toNat64?_eq_some ho
    dsimp only
    split
    · next hempty =>
      have hlength : bytes.length = 0 := by rw [hempty]; rfl
      exact follows_empty (a := .write offset bytes) mem m hstart hlength
    · next hne =>
      have hlength : 0 < bytes.length := List.length_pos_of_ne_nil hne
      have hcovered := hmem.covered offset.toNat bytes.length m
      cases hc : mem.cover offset.toNat bytes.length m with
      | error fault =>
        rw [hc] at hcovered
        exact hcovered.refused (a := .write offset bytes) hmem hlength
      | ok covered =>
        obtain ⟨mem₁, m₁⟩ := covered
        rw [hc] at hcovered
        have hbytes : (mem₁.store offset.toNat bytes).byteAt =
            (Access.write offset bytes).update mem.byteAt := by
          funext i
          rw [byteAt_store, hcovered.byteAt]
          rfl
        exact hcovered.accepted (a := .write offset bytes) hmem hlength rfl hbytes

theorem Capped.reserve_follows {mem : Memory} (hmem : mem.Capped) (offset : Word) (length : Nat)
    (m : Meter) :
    Follows (.reserve offset length) mem m ((Access.reserve offset length).perform mem m) := by
  unfold Access.perform reserve
  dsimp only
  cases ho : Word.toNat64? offset with
  | none => exact follows_missed m _ (Or.inl (Word.toNat64?_eq_none ho))
  | some o =>
    obtain ⟨rfl, hstart⟩ := Word.toNat64?_eq_some ho
    dsimp only
    split
    · next hempty => exact follows_empty (a := .reserve offset length) mem m hstart hempty
    · next hlength =>
      have hcovered := hmem.covered offset.toNat length m
      cases hc : mem.cover offset.toNat length m with
      | error fault =>
        rw [hc] at hcovered
        exact hcovered.refused (a := .reserve offset length) hmem (Nat.pos_of_ne_zero hlength)
      | ok covered =>
        obtain ⟨mem₁, m₁⟩ := covered
        rw [hc] at hcovered
        exact hcovered.accepted (a := .reserve offset length) hmem (Nat.pos_of_ne_zero hlength) rfl
          hcovered.byteAt

theorem Capped.follows {mem : Memory} (hmem : mem.Capped) (a : Access) (m : Meter) :
    Follows a mem m (a.perform mem m) := by
  cases a with
  | read offset length => exact hmem.read_follows offset length m
  | write offset bytes => exact hmem.write_follows offset bytes m
  | reserve offset length => exact hmem.reserve_follows offset length m

theorem Follows.capped {a : Access} {mem : Memory} {m : Meter} {result : Answer × Memory × Meter}
    (h : Follows a mem m result) (hmem : mem.Capped) : result.2.1.Capped := by
  have hcapacity := (h.serves.capacity hmem.capacity).2
  have hmaximum := hmem.maximum
  rw [← h.maximum] at hcapacity hmaximum
  exact ⟨hcapacity, hmaximum⟩

theorem Follows.bounded {a : Access} {mem : Memory} {m : Meter} {result : Answer × Memory × Meter}
    (h : Follows a mem m result) (hmem : mem.Bounded) : result.2.1.Bounded :=
  { h.capped hmem.toCapped with blank := h.serves.blank hmem.capacity hmem.blank }

/-! ### Sequences of accesses -/

def performAll : List Access → Memory → Meter → List Answer × Memory × Meter
  | [], mem, m => ([], mem, m)
  | a :: rest, mem, m =>
    let (answer, mem, m) := a.perform mem m
    let (answers, mem, m) := performAll rest mem m
    (answer :: answers, mem, m)

theorem performAll_append (before after : List Access) (mem : Memory) (m : Meter) :
    (performAll (before ++ after) mem m).2 =
      (performAll after (performAll before mem m).2.1 (performAll before mem m).2.2).2 := by
  induction before generalizing mem m with
  | nil => rfl
  | cons a rest ih => exact ih (a.perform mem m).2.1 (a.perform mem m).2.2

structure Serviced (mem : Memory) (m : Meter) (accesses : List Access)
    (result : List Answer × Memory × Meter) : Prop where
  serving : Serving mem.maximum mem.wordCost (mem.image m) accesses result.1
    (result.2.1.image result.2.2)
  bounded : result.2.1.Bounded
  maximum : result.2.1.maximum = mem.maximum
  wordCost : result.2.1.wordCost = mem.wordCost

theorem Bounded.serviced {mem : Memory} (hmem : mem.Bounded) (accesses : List Access) (m : Meter) :
    Serviced mem m accesses (performAll accesses mem m) := by
  induction accesses generalizing mem m with
  | nil => exact ⟨.done _, hmem, rfl, rfl⟩
  | cons a rest ih =>
    have hfirst := hmem.toCapped.follows a m
    have hrest := ih (hfirst.bounded hmem) (a.perform mem m).2.2
    have hserving := hrest.serving
    rw [hfirst.maximum, hfirst.wordCost] at hserving
    exact ⟨.step hfirst.serves hserving, hrest.bounded, hrest.maximum.trans hfirst.maximum,
      hrest.wordCost.trans hfirst.wordCost⟩

/-- How far memory may reach that is opened with a maximum. -/
def ceiling (maximum : Nat) : Nat :=
  if maximum = 0 then indexLimit else min maximum indexLimit

theorem image_empty (wordCost initial maximum : Nat) (m : Meter) :
    (empty wordCost initial maximum).image m =
      { bytes := fun _ => 0, capacity := min initial (ceiling maximum), meter := m } := by
  have hbytes : (empty wordCost initial maximum).byteAt = fun _ => 0 :=
    funext (byteAt_empty wordCost initial maximum)
  rw [image, hbytes]
  rfl

/-- From zeroed memory on, every access is served as by an array of zeros, or refused because it
misses the array or costs too much gas; `Serves` says what each of these does. Capacity does not
shrink on the way and stays within the limit, and no byte from it on is anything but zero. -/
theorem memory_is_a_zeroed_array (wordCost initial maximum : Nat) (m : Meter)
    (before after : List Access) :
    let mem := empty wordCost initial maximum
    let midway := performAll before mem m
    let final := performAll (before ++ after) mem m
    Serving (ceiling maximum) wordCost
        { bytes := fun _ => 0, capacity := min initial (ceiling maximum), meter := m }
        (before ++ after) final.1 (final.2.1.image final.2.2) ∧
      midway.2.1.capacity ≤ final.2.1.capacity ∧ final.2.1.capacity ≤ ceiling maximum ∧
      ∀ i, final.2.1.capacity ≤ i → final.2.1.byteAt i = 0 := by
  intro mem midway final
  have hmem : mem.Bounded := empty_bounded wordCost initial maximum
  have hall := hmem.serviced (before ++ after) m
  have hmidway := hmem.serviced before m
  have hrest := hmidway.bounded.serviced after midway.2.2
  have hgrowth := hrest.serving.capacity hmidway.bounded.capacity
  have hserving := hall.serving
  rw [image_empty] at hserving
  have hgrows : midway.2.1.capacity ≤ final.2.1.capacity := by
    dsimp only [final]
    rw [performAll_append]
    exact hgrowth.1
  have hlimit : final.2.1.capacity ≤ final.2.1.maximum := hall.bounded.capacity
  rw [hall.maximum] at hlimit
  exact ⟨hserving, hgrows, hlimit, hall.bounded.blank⟩

/-- Five bytes of memory stay five when the first three are read: nothing has to grow. -/
theorem covered_access_keeps_a_partial_word :
    ¬ ∀ (wordCost initial maximum : Nat) (m : Meter) (a : Access),
      let mem := empty wordCost initial maximum
      let result := a.perform mem m
      m.fault = none → 0 < a.length → result.2.2.fault = none →
        result.2.1.capacity = max mem.capacity (min (32 * wordsFor a.stop) (ceiling maximum)) := by
  intro hrounds
  have hread := hrounds 0 5 0 { gas := 0 } (.read 0 3) rfl (by decide) (by decide +kernel)
  have hkept : ((Access.read 0 3).perform (empty 0 5 0) { gas := 0 }).2.1.capacity = 5 := by
    decide +kernel
  rw [hkept] at hread
  revert hread
  decide

/-! ### What growth costs

The price of a step is cut off at the largest amount of gas, so prices add up only as long as none
of them is; a bound on the price of the whole growth is enough for that. -/

theorem Serves.gas {wordCost limit : Nat} {a : Access} {s s' : Image} {answer : Answer}
    (h : Serves limit wordCost a s answer s') :
    s'.meter.gas + growthPrice wordCost s.capacity s'.capacity = s.meter.gas := by
  cases h with
  | missed reason h => simp [growthPrice_self]
  | unpaid h hgas => simp [growthPrice_self]
  | served h hgas => exact Nat.sub_add_cancel hgas

theorem growthPrice_of_lt {wordCost old new : Nat}
    (h : wordCost * (wordsFor new - wordsFor old) < bound64) :
    growthPrice wordCost old new = wordCost * (wordsFor new - wordsFor old) := by
  unfold growthPrice capGas gasLimit
  unfold bound64 at h
  rw [Nat.mul_comm]
  omega

theorem Serving.gas {limit wordCost : Nat} {s s' : Image} {accesses : List Access}
    {answers : List Answer} (h : Serving limit wordCost s accesses answers s')
    (hs : s.capacity ≤ limit)
    (hfits : wordCost * (wordsFor s'.capacity - wordsFor s.capacity) < bound64) :
    s'.meter.gas + wordCost * (wordsFor s'.capacity - wordsFor s.capacity) = s.meter.gas := by
  induction h with
  | done s => simp
  | @step s₁ s₂ s₃ a answer rest answers h hrest ih =>
    have hfirst := h.capacity hs
    have hwords₁ := wordsFor_mono hfirst.1
    have hwords₂ := wordsFor_mono (hrest.capacity hfirst.2).1
    have hsplit : wordCost * (wordsFor s₃.capacity - wordsFor s₁.capacity) =
        wordCost * (wordsFor s₂.capacity - wordsFor s₁.capacity) +
          wordCost * (wordsFor s₃.capacity - wordsFor s₂.capacity) := by
      rw [← Nat.mul_add]
      congr 1
      omega
    -- the first step costs no more than all of them, so its price is not cut off
    have hpaid := h.gas
    rw [growthPrice_of_lt (by omega)] at hpaid
    have htotal := ih hfirst.2 (by omega)
    omega

/-- What accesses cost depends only on the words by which memory has grown in the end, as long as
that many words have a price of 64 bits. -/
theorem growth_is_paid_by_the_word (wordCost initial maximum : Nat) (m : Meter)
    (before accesses : List Access) :
    let start := (performAll before (empty wordCost initial maximum) m).2
    let final := (performAll accesses start.1 start.2).2
    wordCost * (wordsFor final.1.capacity - wordsFor start.1.capacity) < bound64 →
      final.2.gas + wordCost * (wordsFor final.1.capacity - wordsFor start.1.capacity) =
        start.2.gas := by
  intro start final hfits
  have hstart := (empty_bounded wordCost initial maximum).serviced before m
  have hserving := (hstart.bounded.serviced accesses start.2).serving
  rw [hstart.wordCost] at hserving
  exact hserving.gas hstart.bounded.capacity hfits

/-- Five bytes of memory, the first three of which have been read. -/
def partialWord : Memory × Meter :=
  (performAll [.read 0 3] (empty 3 5 100) { gas := 8 }).2

/-- The same after two steps of growth, with an access past the end and one that cannot be paid for
between them. -/
def threeWords : Memory × Meter :=
  (performAll [.write 31 [1, 2], .reserve 90 20, .read 0 97, .read 60 6] partialWord.1
    partialWord.2).2

theorem two_words_are_paid_for :
    partialWord.1.capacity = 5 ∧ threeWords.1.capacity = 96 ∧ threeWords.2.gas = 2 ∧
      3 * (wordsFor threeWords.1.capacity - wordsFor partialWord.1.capacity) < bound64 ∧
      threeWords.2.gas + 3 * (wordsFor threeWords.1.capacity - wordsFor partialWord.1.capacity) =
        partialWord.2.gas := by
  have hstart : partialWord.1.capacity = 5 := by decide +kernel
  have hend : threeWords.1.capacity = 96 ∧ threeWords.2.gas = 2 := by decide +kernel
  have hfits :
      3 * (wordsFor threeWords.1.capacity - wordsFor partialWord.1.capacity) < bound64 := by
    rw [hstart, hend.1]
    decide
  have hpaid := growth_is_paid_by_the_word 3 5 100 { gas := 8 } [.read 0 3]
    [.write 31 [1, 2], .reserve 90 20, .read 0 97, .read 60 6] hfits
  exact ⟨hstart, hend.1, hend.2, hfits, hpaid⟩

end Memory

end ContractVm
