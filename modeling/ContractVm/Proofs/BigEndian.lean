import Mathlib
import ContractVm.Proofs.Digits

/-! # Words and addresses as big-endian numbers

A byte string stands for the sum of its bytes, each times the power of 256 that belongs to its place
(`Bytes.positional`). Words and addresses are the byte strings of their length, read in this way
(`BigEndian`): a string of another length is read as its last bytes, or with zero bytes before it,
and the order of the numbers is that of the bytes. Numbers of 64 bits and addresses are the last
bytes of a word. -/

namespace ContractVm

namespace Bytes

/-- The sum of the bytes, each of them times the power of 256 that belongs to its place. -/
def positional (bs : Bytes) : Nat :=
  ∑ i ∈ Finset.range bs.length, (bs.getD i 0).toNat * 256 ^ (bs.length - 1 - i)

/-- The last `size` bytes; a string that has not so many is filled up with zero bytes before it. -/
def rightmost (size : Nat) (bs : Bytes) : Bytes :=
  if size ≤ bs.length then bs.drop (bs.length - size) else alignRight size bs

/-! ### Places -/

theorem positional_concat (bs : Bytes) (b : UInt8) :
    positional (bs ++ [b]) = positional bs * 256 + b.toNat := by
  have hplaces : ∀ i ∈ Finset.range bs.length,
      ((bs ++ [b]).getD i 0).toNat * 256 ^ (bs.length - i) =
        (bs.getD i 0).toNat * 256 ^ (bs.length - 1 - i) * 256 := by
    intro i hi
    have hi := Finset.mem_range.1 hi
    have hplace : bs.length - i = bs.length - 1 - i + 1 := by omega
    rw [List.getD_append _ _ _ _ hi, hplace, pow_succ, mul_assoc]
  have hlast : (bs ++ [b]).getD bs.length 0 = b := by simp
  rw [positional, List.length_append, List.length_singleton, Finset.sum_range_succ,
    Nat.add_sub_cancel, Finset.sum_congr rfl hplaces, ← Finset.sum_mul, hlast, Nat.sub_self,
    pow_zero, mul_one]
  rfl

theorem positional_eq_value (bs : Bytes) : positional bs = value bs := by
  induction bs using List.reverseRecOn with
  | nil => rfl
  | append_singleton bs b ih => rw [positional_concat, value_concat, ih]

/-! ### Parts of a string -/

theorem value_append (as bs : Bytes) :
    value (as ++ bs) = value as * 256 ^ bs.length + value bs := by
  induction bs using List.reverseRecOn with
  | nil => simp [value]
  | append_singleton bs b ih =>
    rw [← List.append_assoc, value_concat, value_concat, ih, List.length_append,
      List.length_singleton, pow_succ]
    ring

theorem value_cons (b : UInt8) (bs : Bytes) :
    value (b :: bs) = b.toNat * 256 ^ bs.length + value bs := by
  have hb : value [b] = b.toNat := Nat.zero_add _
  have happend := value_append [b] bs
  rwa [hb] at happend

theorem value_eq_zero_iff (bs : Bytes) : value bs = 0 ↔ ∀ b ∈ bs, b = 0 := by
  constructor
  · intro h
    have hzero : bs = List.replicate bs.length 0 :=
      value_inj (List.length_replicate).symm (h.trans (value_replicate_zero _).symm)
    exact (List.eq_replicate_iff.1 hzero).2
  · intro h
    have hzero : bs = List.replicate bs.length 0 := List.eq_replicate_iff.2 ⟨rfl, h⟩
    rw [hzero, value_replicate_zero]

/-- The digits of a number are the only string of their length that denotes it. -/
theorem eq_ofNat {bs : Bytes} {width n : Nat} (hlength : bs.length = width)
    (h : value bs = n % 256 ^ width) : bs = ofNat width n := by
  apply value_inj
  · rw [hlength, length_ofNat]
  · rw [h, value_ofNat]

theorem ofNat_mod (width n : Nat) : ofNat width (n % 256 ^ width) = ofNat width n := by
  apply eq_ofNat (length_ofNat _ _)
  rw [value_ofNat, Nat.mod_mod]

theorem ofNat_split (high low n : Nat) :
    ofNat (high + low) n = ofNat high (n / 256 ^ low) ++ ofNat low n := by
  symm
  apply eq_ofNat
  · rw [List.length_append, length_ofNat, length_ofNat]
  · rw [value_append, value_ofNat, value_ofNat, length_ofNat, Nat.add_comm high low, pow_add,
      Nat.mod_mul]
    ring

theorem take_ofNat (high low n : Nat) :
    (ofNat (high + low) n).take high = ofNat high (n / 256 ^ low) := by
  rw [ofNat_split, List.take_left' (length_ofNat _ _)]

theorem drop_ofNat (high low n : Nat) : (ofNat (high + low) n).drop high = ofNat low n := by
  rw [ofNat_split, List.drop_left' (length_ofNat _ _)]

theorem ofNat_of_lt {low n : Nat} (high : Nat) (h : n < 256 ^ low) :
    ofNat (high + low) n = List.replicate high 0 ++ ofNat low n := by
  have hzero : ofNat high 0 = List.replicate high 0 :=
    (eq_ofNat List.length_replicate (by rw [value_replicate_zero, Nat.zero_mod])).symm
  rw [ofNat_split, Nat.div_eq_of_lt h, hzero]

/-! ### The last bytes -/

theorem length_rightmost (size : Nat) (bs : Bytes) : (rightmost size bs).length = size := by
  unfold rightmost
  split
  · rw [List.length_drop]
    omega
  · exact length_alignRight (by omega)

theorem value_rightmost (size : Nat) (bs : Bytes) :
    value (rightmost size bs) = value bs % 256 ^ size := by
  unfold rightmost
  split
  · next hlong =>
    have hlength : (bs.drop (bs.length - size)).length = size := by
      rw [List.length_drop]
      omega
    have hlt := value_lt (bs.drop (bs.length - size))
    have hsplit := value_append (bs.take (bs.length - size)) (bs.drop (bs.length - size))
    rw [hlength] at hlt hsplit
    rw [List.take_append_drop] at hsplit
    rw [hsplit, Nat.mul_add_mod', Nat.mod_eq_of_lt hlt]
  · next hshort =>
    have hlt : value bs < 256 ^ size :=
      (value_lt bs).trans_le (Nat.pow_le_pow_right (by norm_num) (by omega))
    rw [value_alignRight, Nat.mod_eq_of_lt hlt]

theorem rightmost_eq (size : Nat) (bs : Bytes) : rightmost size bs = ofNat size (value bs) :=
  eq_ofNat (length_rightmost size bs) (value_rightmost size bs)

example : rightmost 2 [1, 2, 3] = [2, 3] ∧ rightmost 4 [1, 2, 3] = [0, 1, 2, 3] := by decide

/-! ### Order -/

theorem compare_byte (a b : UInt8) : compare a b = compare a.toNat b.toNat := by
  show compareOfLessAndEq a b = compareOfLessAndEq a.toNat b.toNat
  simp only [compareOfLessAndEq, UInt8.lt_iff_toNat_lt, ← UInt8.toNat_inj]

/-- Two sums are ordered by their multiples of a unit first, and then by what is left over, which is
less than the unit. -/
theorem compare_multiples {unit x y u v : Nat} (hu : u < unit) (hv : v < unit) :
    (compare x y).then (compare u v) = compare (x * unit + u) (y * unit + v) := by
  rcases Nat.lt_trichotomy x y with h | rfl | h
  · have hnext : (x + 1) * unit ≤ y * unit := Nat.mul_le_mul_right unit h
    have hless : x * unit + u < y * unit + v := by
      rw [Nat.succ_mul] at hnext
      omega
    rw [Nat.compare_eq_lt.2 h, Nat.compare_eq_lt.2 hless]
    rfl
  · rw [Nat.compare_eq_eq.2 rfl, Ordering.eq_then]
    rw [Nat.compare_eq_ite_lt, Nat.compare_eq_ite_lt]
    simp only [Nat.add_lt_add_iff_left]
  · have hnext : (y + 1) * unit ≤ x * unit := Nat.mul_le_mul_right unit h
    have hless : y * unit + v < x * unit + u := by
      rw [Nat.succ_mul] at hnext
      omega
    rw [Nat.compare_eq_gt.2 h, Nat.compare_eq_gt.2 hless]
    rfl

theorem compare_value {as bs : Bytes} (hlength : as.length = bs.length) :
    compare as bs = compare (value as) (value bs) := by
  induction as generalizing bs with
  | nil =>
    obtain rfl := List.eq_nil_of_length_eq_zero hlength.symm
    rfl
  | cons a as ih =>
    cases bs with
    | nil => cases hlength
    | cons b bs =>
      have hlength : as.length = bs.length := Nat.succ.inj hlength
      have hlt := value_lt as
      rw [hlength] at hlt
      rw [List.compare_cons_cons, ih hlength, compare_byte, value_cons, value_cons, hlength]
      exact compare_multiples hlt (value_lt bs)

end Bytes

theorem compare_bits {w : Nat} (v v' : BitVec w) : compare v v' = compare v.toNat v'.toNat := by
  show compareOfLessAndEq v v' = compareOfLessAndEq v.toNat v'.toNat
  simp only [compareOfLessAndEq, BitVec.lt_def, ← BitVec.toNat_inj]

/-- Numbers of `w` bits are written as `size` bytes and are read from byte strings of any length. -/
structure BigEndian {w : Nat} (size : Nat) (toBytes : BitVec w → Bytes)
    (ofBytes : Bytes → BitVec w) : Prop where
  value : ∀ bs, (ofBytes bs).toNat = Bytes.positional bs % 2 ^ w
  aligned : ∀ bs, toBytes (ofBytes bs) = Bytes.rightmost size bs
  written : ∀ v, Bytes.positional (toBytes v) = v.toNat
  reads_back : ∀ v, ofBytes (toBytes v) = v
  writes_back : ∀ bs, bs.length = size → toBytes (ofBytes bs) = bs
  ordered : ∀ v v', compare (toBytes v) (toBytes v') = compare v.toNat v'.toNat
  -- tables of accounts and slots are kept in the order on the left
  sorted : ∀ v v', compare v v' = compare (toBytes v) (toBytes v')

theorem BigEndian.of_digits {w size : Nat} {toBytes : BitVec w → Bytes} {ofBytes : Bytes → BitVec w}
    (hw : 2 ^ w = 256 ^ size) (hto : ∀ v, toBytes v = Bytes.ofNat size v.toNat)
    (hof : ∀ bs, ofBytes bs = BitVec.ofNat w bs.value) : BigEndian size toBytes ofBytes := by
  have hvalue : ∀ bs, (ofBytes bs).toNat = Bytes.value bs % 2 ^ w := fun bs => by
    rw [hof, BitVec.toNat_ofNat]
  have hlength : ∀ v, (toBytes v).length = size := fun v => by rw [hto, Bytes.length_ofNat]
  have hwritten : ∀ v, Bytes.value (toBytes v) = v.toNat := fun v => by
    rw [hto, Bytes.value_ofNat, Nat.mod_eq_of_lt (hw ▸ v.isLt)]
  have haligned : ∀ bs, toBytes (ofBytes bs) = Bytes.ofNat size bs.value := fun bs => by
    rw [hto, hvalue, hw, Bytes.ofNat_mod]
  have hordered : ∀ v v', compare (toBytes v) (toBytes v') = compare v.toNat v'.toNat :=
    fun v v' => by
      rw [Bytes.compare_value ((hlength v).trans (hlength v').symm), hwritten, hwritten]
  exact
    { value := fun bs => by rw [hvalue, Bytes.positional_eq_value]
      aligned := fun bs => by rw [haligned, Bytes.rightmost_eq]
      written := fun v => by rw [Bytes.positional_eq_value, hwritten]
      reads_back := fun v => by
        apply BitVec.eq_of_toNat_eq
        rw [hvalue, hwritten, Nat.mod_eq_of_lt v.isLt]
      writes_back := fun bs hbs => by rw [haligned, ← hbs, Bytes.ofNat_value]
      ordered := hordered
      sorted := fun v v' => by rw [hordered, compare_bits] }

/-! ### Numbers and addresses in a word -/

theorem Word.bigEndian : BigEndian 32 Word.toBytes Word.ofBytes :=
  .of_digits (by norm_num) (fun v => rfl) fun bs => rfl

theorem Address.bigEndian : BigEndian 20 Address.toBytes Address.ofBytes :=
  .of_digits (by norm_num) (fun v => rfl) fun bs => rfl

namespace Word

theorem toNat64?_eq_some_iff (w : Word) (n : Nat) :
    toNat64? w = some n ↔ w.toNat = n ∧ n < 2 ^ 64 := by
  have hbound : bound64 = 2 ^ 64 := by norm_num [bound64]
  rw [toNat64?, Option.ite_none_right_eq_some, Option.some.injEq, hbound, And.comm]
  exact and_congr_right fun h => by rw [h]

theorem high_bytes_eq_zero_iff (w : Word) :
    (∀ b ∈ (toBytes w).take 24, b = 0) ↔ w.toNat < 2 ^ 64 := by
  have hw := w.isLt
  have htake : (toBytes w).take 24 = Bytes.ofNat 24 (w.toNat / 256 ^ 8) :=
    Bytes.take_ofNat 24 8 w.toNat
  rw [htake, ← Bytes.value_eq_zero_iff, Bytes.value_ofNat]
  omega

theorem toNat64?_eq_some_iff_bytes (w : Word) (n : Nat) :
    toNat64? w = some n ↔
      (∀ b ∈ (toBytes w).take 24, b = 0) ∧ Bytes.positional ((toBytes w).drop 24) = n := by
  have hdrop : (toBytes w).drop 24 = Bytes.ofNat 8 w.toNat := Bytes.drop_ofNat 24 8 w.toNat
  have hsize : (256 : Nat) ^ 8 = 2 ^ 64 := by norm_num
  rw [toNat64?_eq_some_iff, high_bytes_eq_zero_iff, hdrop, Bytes.positional_eq_value,
    Bytes.value_ofNat, hsize]
  constructor
  · rintro ⟨rfl, hn⟩
    exact ⟨hn, Nat.mod_eq_of_lt hn⟩
  · rintro ⟨hlt, rfl⟩
    rw [Nat.mod_eq_of_lt hlt]
    exact ⟨rfl, hlt⟩

theorem toNat_ofNat64 (n : UInt64) : (ofNat64 n.toNat).toNat = n.toNat := by
  have hn := n.toNat_lt
  rw [ofNat64, BitVec.toNat_ofNat]
  omega

theorem toBytes_ofNat64 (n : UInt64) :
    toBytes (ofNat64 n.toNat) = List.replicate 24 0 ++ Bytes.ofNat 8 n.toNat := by
  have hn : n.toNat < 256 ^ 8 := n.toNat_lt
  rw [toBytes, toNat_ofNat64]
  exact Bytes.ofNat_of_lt 24 hn

end Word

namespace Address

theorem toNat_toWord (a : Address) : (toWord a).toNat = a.toNat := by
  have ha := a.isLt
  rw [toWord, BitVec.toNat_setWidth]
  omega

theorem toBytes_toWord (a : Address) :
    Word.toBytes (toWord a) = List.replicate 12 0 ++ toBytes a := by
  have ha : a.toNat < 256 ^ 20 := a.isLt
  rw [Word.toBytes, toNat_toWord]
  exact Bytes.ofNat_of_lt 12 ha

theorem toNat_ofWord (w : Word) : (ofWord w).toNat = w.toNat % 2 ^ 160 := by
  rw [ofWord, BitVec.toNat_setWidth]

theorem toBytes_ofWord (w : Word) : toBytes (ofWord w) = (Word.toBytes w).drop 12 := by
  have hsize : (2 : Nat) ^ 160 = 256 ^ 20 := by norm_num
  rw [toBytes, toNat_ofWord, hsize, Bytes.ofNat_mod]
  exact (Bytes.drop_ofNat 12 20 w.toNat).symm

theorem ofWord_toWord (a : Address) : ofWord (toWord a) = a := by
  apply BitVec.eq_of_toNat_eq
  rw [toNat_ofWord, toNat_toWord, Nat.mod_eq_of_lt a.isLt]

end Address

/-- Words and addresses are the numbers that their bytes stand for, the first byte being the most
significant one. A word is read as a number of 64 bits just if its first 24 bytes are zero, and such
a number becomes the last eight bytes of a word; an address becomes the last 20 bytes of a word, and
a word is read as an address by its last 20 bytes. -/
theorem encodings_are_big_endian :
    BigEndian 32 Word.toBytes Word.ofBytes ∧
    BigEndian 20 Address.toBytes Address.ofBytes ∧
    (∀ (w : Word) (n : Nat),
      (Word.toNat64? w = some n ↔ w.toNat = n ∧ n < 2 ^ 64) ∧
      (Word.toNat64? w = some n ↔
        (∀ b ∈ (Word.toBytes w).take 24, b = 0) ∧
          Bytes.positional ((Word.toBytes w).drop 24) = n)) ∧
    (∀ n : UInt64,
      (Word.ofNat64 n.toNat).toNat = n.toNat ∧
      Word.toBytes (Word.ofNat64 n.toNat) = List.replicate 24 0 ++ Bytes.ofNat 8 n.toNat) ∧
    (∀ a : Address,
      Address.ofWord (Address.toWord a) = a ∧
      Word.toBytes (Address.toWord a) = List.replicate 12 0 ++ Address.toBytes a) ∧
    ∀ w : Word,
      (Address.toWord (Address.ofWord w)).toNat = w.toNat % 2 ^ 160 ∧
      Address.toBytes (Address.ofWord w) = (Word.toBytes w).drop 12 := by
  refine ⟨Word.bigEndian, Address.bigEndian, fun w n => ⟨?_, ?_⟩, fun n => ⟨?_, ?_⟩,
    fun a => ⟨?_, ?_⟩, fun w => ⟨?_, ?_⟩⟩
  · exact Word.toNat64?_eq_some_iff w n
  · exact Word.toNat64?_eq_some_iff_bytes w n
  · exact Word.toNat_ofNat64 n
  · exact Word.toBytes_ofNat64 n
  · exact Address.ofWord_toWord a
  · exact Address.toBytes_toWord a
  · rw [Address.toNat_toWord, Address.toNat_ofWord]
  · exact Address.toBytes_ofWord w

theorem full_length_bytes_are_kept :
    (0x80 :: List.replicate 31 0xff : Bytes).length = 32 ∧
    Word.toBytes (Word.ofBytes (0x80 :: List.replicate 31 0xff)) =
      0x80 :: List.replicate 31 0xff := by
  obtain ⟨hword, -⟩ := encodings_are_big_endian
  exact ⟨rfl, hword.writes_back _ rfl⟩

end ContractVm
