/-! # Byte strings

Byte strings are lists of bytes. A byte string denotes a natural number, most significant byte
first (`Bytes.value`), and every number has digits of any fixed width (`Bytes.ofNat`). Windows into
a string are cut or filled up with zero bytes to the length asked for. -/

namespace ContractVm

abbrev Bytes := List UInt8

namespace Bytes

/-- The number a byte string denotes, most significant byte first. -/
def value (bs : Bytes) : Nat :=
  bs.foldl (fun acc b => acc * 256 + b.toNat) 0

/-- The `width` low bytes of `n`, least significant first. -/
def digits : Nat → Nat → Bytes
  | 0, _ => []
  | width + 1, n => UInt8.ofNat n :: digits width (n / 256)

/-- The `width` low bytes of `n`, most significant first. -/
def ofNat (width n : Nat) : Bytes :=
  (digits width n).reverse

@[simp] theorem length_digits (width n : Nat) : (digits width n).length = width := by
  induction width generalizing n with
  | zero => rfl
  | succ width ih => simp [digits, ih]

@[simp] theorem length_ofNat (width n : Nat) : (ofNat width n).length = width := by
  simp [ofNat]

/-- The bytes of `n` without leading zero bytes, most significant first; zero is one byte. -/
def shortest (n : Nat) : Bytes :=
  ofNat (n.log2 / 8 + 1) n

/-- The string at the end of `size` bytes, with zero bytes before it. -/
def alignRight (size : Nat) (bs : Bytes) : Bytes :=
  List.replicate (size - bs.length) 0 ++ bs

/-- Exactly `size` bytes: longer strings are cut, shorter ones end in zero bytes. -/
def fit (size : Nat) (bs : Bytes) : Bytes :=
  bs.take size ++ List.replicate (size - bs.length) 0

@[simp] theorem length_fit (size : Nat) (bs : Bytes) : (fit size bs).length = size := by
  simp [fit]; omega

/-- Past its end a string reads as zero, so that fitting it to a size changes no byte before that. -/
theorem getD_fit {size i : Nat} (h : i < size) (bs : Bytes) :
    (fit size bs).getD i 0 = bs.getD i 0 := by
  simp only [fit, List.getD_eq_getElem?_getD, List.getElem?_append, List.length_take,
    List.getElem?_take, List.getElem?_replicate]
  by_cases hi : i < bs.length
  · have hin : i < min size bs.length := by omega
    rw [if_pos hin, if_pos h]
  · have hin : ¬i < min size bs.length := by omega
    rw [if_neg hin, List.getElem?_eq_none (Nat.le_of_not_lt hi)]
    split <;> rfl

/-- `size` bytes from position `start` on, with zero bytes past the end of the string. -/
def window (start size : Nat) (bs : Bytes) : Bytes :=
  fit size (bs.drop start)

@[simp] theorem length_window (start size : Nat) (bs : Bytes) :
    (window start size bs).length = size := by
  simp [window]

/-- The bytes from `start` up to `stop`, if the string reaches that far. -/
def slice? (start stop : Nat) (bs : Bytes) : Option Bytes :=
  if start ≤ stop ∧ stop ≤ bs.length then some ((bs.drop start).take (stop - start)) else none

/-- Folds `f` over consecutive blocks of `size` bytes; the last block may be shorter. A block size
of zero takes no block at all. -/
def foldBlocks {σ : Type} (size : Nat) (f : σ → Bytes → σ) (state : σ) (bs : Bytes) : σ :=
  if bs = [] ∨ size = 0 then state
  else foldBlocks size f (f state (bs.take size)) (bs.drop size)
termination_by bs.length
decreasing_by
  rename_i h
  have hlen : 0 < bs.length := List.length_pos_iff.2 (fun hb => h (Or.inl hb))
  have hsize : size ≠ 0 := fun hs => h (Or.inr hs)
  simp only [List.length_drop]
  omega

end Bytes

end ContractVm
