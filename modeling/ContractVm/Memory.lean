import Std.Data.TreeMap
import ContractVm.Gas

/-! # Memory

Byte-addressed memory that reads as zero wherever nothing was written. Every access first makes the
capacity cover it: capacity grows in whole words, is paid for by the word, and stops at a maximum.
An access that cannot be covered records its fault and changes nothing. -/

namespace ContractVm

/-- The bytes that are not zero by offset, how far memory reaches, how far it may reach, and the
price of a word of growth. -/
structure Memory where
  cells : Std.TreeMap Nat UInt8 := ∅
  capacity : Nat := 0
  maximum : Nat := indexLimit
  wordCost : Nat := 0

namespace Memory

/-- Zeroed memory. A maximum of zero means the index limit, which no maximum exceeds; the initial
capacity is free. -/
def empty (wordCost initial maximum : Nat) : Memory :=
  let maximum := if maximum = 0 then indexLimit else min maximum indexLimit
  { capacity := min initial maximum, maximum, wordCost }

def byteAt (mem : Memory) (offset : Nat) : UInt8 :=
  mem.cells.getD offset 0

/-- Sets one byte; zero bytes take no room. -/
def setCell (cells : Std.TreeMap Nat UInt8) (offset : Nat) (byte : UInt8) :
    Std.TreeMap Nat UInt8 :=
  if byte = 0 then cells.erase offset else cells.insert offset byte

def setCells (cells : Std.TreeMap Nat UInt8) : Nat → Bytes → Std.TreeMap Nat UInt8
  | _, [] => cells
  | offset, b :: bs => setCells (setCell cells offset b) (offset + 1) bs

def load (mem : Memory) (offset length : Nat) : Bytes :=
  (List.range length).map fun i => mem.byteAt (offset + i)

def store (mem : Memory) (offset : Nat) (bs : Bytes) : Memory :=
  { mem with cells := setCells mem.cells offset bs }

theorem getD_setCell (cells : Std.TreeMap Nat UInt8) (offset i : Nat) (byte : UInt8) :
    (setCell cells offset byte).getD i 0 = if offset = i then byte else cells.getD i 0 := by
  unfold setCell
  split
  · next h => simp [Std.TreeMap.getD_erase, h]
  · simp [Std.TreeMap.getD_insert]

theorem getD_setCells (cells : Std.TreeMap Nat UInt8) (offset i : Nat) (bs : Bytes) :
    (setCells cells offset bs).getD i 0 =
      if offset ≤ i ∧ i < offset + bs.length then bs.getD (i - offset) 0 else cells.getD i 0 := by
  induction bs generalizing cells offset with
  | nil =>
    have h : ¬(offset ≤ i ∧ i < offset + ([] : Bytes).length) := by
      simp only [List.length_nil]
      omega
    rw [setCells, if_neg h]
  | cons b bs ih =>
    rw [setCells, ih, getD_setCell]
    by_cases h : offset = i
    · subst h
      have hlow : ¬(offset + 1 ≤ offset ∧ offset < offset + 1 + bs.length) := by omega
      rw [if_neg hlow]
      simp
    · by_cases hi : offset + 1 ≤ i ∧ i < offset + 1 + bs.length
      · have hi' : offset ≤ i ∧ i < offset + (b :: bs).length := by
          simp only [List.length_cons]
          omega
        have hsub : i - offset = i - (offset + 1) + 1 := by omega
        rw [if_pos hi, if_pos hi', hsub, List.getD_cons_succ]
      · have hi' : ¬(offset ≤ i ∧ i < offset + (b :: bs).length) := by
          simp only [List.length_cons]
          omega
        rw [if_neg hi, if_neg hi', if_neg h]

/-- A write replaces exactly the bytes of its range. -/
theorem byteAt_store (mem : Memory) (offset i : Nat) (bs : Bytes) :
    (mem.store offset bs).byteAt i =
      if offset ≤ i ∧ i < offset + bs.length then bs.getD (i - offset) 0 else mem.byteAt i :=
  getD_setCells mem.cells offset i bs

@[simp] theorem length_load (mem : Memory) (offset length : Nat) :
    (mem.load offset length).length = length := by
  simp [load]

def beyondLimit : Fault :=
  .memoryOutOfBounds ("cannot address memory beyond " ++ toString indexLimit ++ " bytes")

def beyondMaximum (stop maximum : Nat) : Fault :=
  .memoryOutOfBounds ("growing to " ++ toString stop ++ " bytes exceeds the maximum of "
    ++ toString maximum ++ " bytes")

/-- Makes the capacity cover `length` bytes at an offset, paying for the growth. -/
def cover (offset length : Nat) (mem : Memory) (m : Meter) : Except Fault (Memory × Meter) :=
  let stop := offset + length
  if indexLimit < stop then .error beyondLimit
  else if stop ≤ mem.capacity then .ok (mem, m)
  else if mem.maximum < stop then .error (beyondMaximum stop mem.maximum)
  else
    let capacity := min (wordsFor stop * 32) mem.maximum
    match m.consume (capGas ((wordsFor capacity - wordsFor mem.capacity) * mem.wordCost)) with
    | .ok m => .ok ({ mem with capacity }, m)
    | .error fault => .error fault

/-- Reads `length` bytes at an offset; a read that fails yields no bytes. -/
def read (offset length : Word) (mem : Memory) (m : Meter) : Bytes × Memory × Meter :=
  match Word.toNat64? offset, Word.toNat64? length with
  | some o, some l =>
    if l = 0 then ([], mem, m)
    else
      match mem.cover o l m with
      | .ok (mem, m) => (mem.load o l, mem, m)
      | .error fault => ([], mem, m.record fault)
  | _, _ =>
    ([], mem, m.record (.memoryOutOfBounds ("read range " ++ toString offset.toNat ++ "+"
      ++ toString length.toNat ++ " does not fit in 64 bits")))

def write (offset : Word) (bs : Bytes) (mem : Memory) (m : Meter) : Memory × Meter :=
  match Word.toNat64? offset with
  | some o =>
    if bs = [] then (mem, m)
    else
      match mem.cover o bs.length m with
      | .ok (mem, m) => (mem.store o bs, m)
      | .error fault => (mem, m.record fault)
  | none =>
    (mem, m.record (.memoryOutOfBounds ("write offset " ++ toString offset.toNat
      ++ " does not fit in 64 bits")))

/-- Grows to cover `length` bytes at an offset without writing; tells whether that worked. -/
def reserve (offset : Word) (length : Nat) (mem : Memory) (m : Meter) : Bool × Memory × Meter :=
  match Word.toNat64? offset with
  | some o =>
    if length = 0 then (true, mem, m)
    else
      match mem.cover o length m with
      | .ok (mem, m) => (true, mem, m)
      | .error fault => (false, mem, m.record fault)
  | none =>
    (false, mem, m.record (.memoryOutOfBounds ("reserve offset " ++ toString offset.toNat
      ++ " does not fit in 64 bits")))

end Memory

end ContractVm
