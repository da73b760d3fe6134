import Mathlib
import ContractVm.Word

/-! # Byte strings as numbers

Byte strings of one length and the numbers below a power of 256 are the same thing: `Bytes.ofNat`
writes a number down and `Bytes.value` reads it back. Zero bytes in front do not count, and
`Bytes.shortest` has as few of them as it can. -/

namespace ContractVm

namespace Bytes

theorem value_concat (bs : Bytes) (b : UInt8) : value (bs ++ [b]) = value bs * 256 + b.toNat := by
  simp [value]

theorem ofNat_succ (width n : Nat) :
    ofNat (width + 1) n = ofNat width (n / 256) ++ [UInt8.ofNat n] := by
  simp [ofNat, digits]

theorem value_ofNat (width n : Nat) : value (ofNat width n) = n % 256 ^ width := by
  induction width generalizing n with
  | zero => simp [ofNat, digits, value, Nat.mod_one]
  | succ width ih =>
    have hlast : (UInt8.ofNat n).toNat = n % 256 := by simp
    have hsplit : n % (256 * 256 ^ width) = n % 256 + 256 * (n / 256 % 256 ^ width) := Nat.mod_mul
    rw [ofNat_succ, value_concat, ih, hlast, pow_succ', hsplit]
    omega

theorem ofNat_value (bs : Bytes) : ofNat bs.length (value bs) = bs := by
  induction bs using List.reverseRecOn with
  | nil => rfl
  | append_singleton bs b ih =>
    have hb : b.toNat < 256 := b.toNat_lt
    have hhigh : (value bs * 256 + b.toNat) / 256 = value bs := by omega
    have hlow : UInt8.ofNat (value bs * 256 + b.toNat) = b := by
      apply UInt8.toNat_inj.1
      rw [UInt8.toNat_ofNat']
      omega
    rw [List.length_append, List.length_singleton, value_concat, ofNat_succ, hhigh, hlow, ih]

theorem ofNat_inj {width a b : Nat} (ha : a < 256 ^ width) (hb : b < 256 ^ width)
    (h : ofNat width a = ofNat width b) : a = b := by
  have hvalue := congrArg value h
  rw [value_ofNat, value_ofNat, Nat.mod_eq_of_lt ha, Nat.mod_eq_of_lt hb] at hvalue
  exact hvalue

theorem value_lt (bs : Bytes) : value bs < 256 ^ bs.length := by
  have hvalue := congrArg value (ofNat_value bs)
  rw [value_ofNat] at hvalue
  rw [← hvalue]
  exact Nat.mod_lt _ (by positivity)

theorem value_inj {as bs : Bytes} (hlength : as.length = bs.length) (h : value as = value bs) :
    as = bs := by
  rw [← ofNat_value as, ← ofNat_value bs, hlength, h]

/-! ### Zero bytes in front -/

theorem value_replicate_zero (size : Nat) : value (List.replicate size 0) = 0 := by
  induction size with
  | zero => rfl
  | succ size ih => exact ih

theorem value_alignRight (size : Nat) (bs : Bytes) : value (alignRight size bs) = value bs := by
  rw [alignRight, value, List.foldl_append]
  show bs.foldl _ (value (List.replicate (size - bs.length) 0)) = _
  rw [value_replicate_zero]
  rfl

theorem length_alignRight {size : Nat} {bs : Bytes} (h : bs.length ≤ size) :
    (alignRight size bs).length = size := by
  rw [alignRight, List.length_append, List.length_replicate]
  omega

theorem lt_pow_byte_iff {n width : Nat} (hn : n ≠ 0) :
    n < 256 ^ width ↔ n.log2 < 8 * width := by
  have hbits : (256 : Nat) ^ width = 2 ^ (8 * width) := by rw [pow_mul]; rfl
  rw [hbits, Nat.log2_lt hn]

theorem value_shortest (n : Nat) : value (shortest n) = n := by
  rw [shortest, value_ofNat]
  by_cases hn : n = 0
  · rw [hn, Nat.zero_mod]
  · exact Nat.mod_eq_of_lt ((lt_pow_byte_iff hn).2 (by omega))

/-- No string that denotes a number, except the empty one, is shorter. -/
theorem length_shortest_le {n width : Nat} (hwidth : 0 < width) (h : n < 256 ^ width) :
    (shortest n).length ≤ width := by
  rw [shortest, length_ofNat]
  by_cases hn : n = 0
  · rw [hn]
    exact hwidth
  · have hbits := (lt_pow_byte_iff hn).1 h
    omega

end Bytes

theorem Address.ofBytes_inj {as bs : Bytes} (ha : as.length = 20) (hb : bs.length = 20)
    (h : Address.ofBytes as = Address.ofBytes bs) : as = bs := by
  have hnat := congrArg BitVec.toNat h
  have hsize : (256 : Nat) ^ 20 = 2 ^ 160 := by norm_num
  have hlt : Bytes.value as < 2 ^ 160 := by
    rw [← hsize, ← ha]
    exact Bytes.value_lt as
  have hlt' : Bytes.value bs < 2 ^ 160 := by
    rw [← hsize, ← hb]
    exact Bytes.value_lt bs
  simp only [Address.ofBytes, BitVec.toNat_ofNat] at hnat
  rw [Nat.mod_eq_of_lt hlt, Nat.mod_eq_of_lt hlt'] at hnat
  exact Bytes.value_inj (ha.trans hb.symm) hnat

end ContractVm
