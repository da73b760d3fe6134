import Mathlib
import ContractVm.Code

/-! # The analysis of code

The analysis walks over the code from its start, with a step over each instruction and its data, and
sets a bit where it comes by. The bits are kept 64 to a limb; what is read back are exactly the
offsets of the walk (`Code.marked_markStarts`). So the first offset is not data, and neither is the
one behind an instruction and its data (`Code.isPushData_next`). -/

namespace ContractVm

namespace Code

/-! ### Bits -/

theorem toNat_bit (offset : Nat) : (bit offset).toNat = 2 ^ (offset % 64) := by
  have hplace : (UInt64.ofNat (offset % 64)).toNat % 64 = offset % 64 := by
    rw [UInt64.toNat_ofNat']
    omega
  have hone : (1 : UInt64).toNat = 1 := rfl
  have hlt : 2 ^ (offset % 64) < 2 ^ 64 := Nat.pow_lt_pow_right (by decide) (by omega)
  rw [bit, UInt64.toNat_shiftLeft, hplace, hone, Nat.one_shiftLeft, Nat.mod_eq_of_lt hlt]

theorem and_bit (limb : UInt64) (offset : Nat) :
    (limb &&& bit offset != 0) = limb.toNat.testBit (offset % 64) := by
  have hzero : limb &&& bit offset = 0 ↔ limb.toNat.testBit (offset % 64) = false := by
    rw [← UInt64.toNat_inj, UInt64.toNat_and, toNat_bit, Nat.and_two_pow]
    cases limb.toNat.testBit (offset % 64) <;> simp
  rw [Bool.eq_iff_iff, bne_iff_ne, ne_eq, hzero, Bool.not_eq_false]

theorem testBit_or_bit (limb : UInt64) (offset p : Nat) :
    (limb ||| bit offset).toNat.testBit (p % 64) =
      (limb.toNat.testBit (p % 64) || decide (offset % 64 = p % 64)) := by
  rw [UInt64.toNat_or, toNat_bit, Nat.testBit_or, Nat.testBit_two_pow]

theorem marked_eq_testBit (limbs : Array UInt64) (p : Nat) :
    marked limbs p = (limbs.getD (p / 64) 0).toNat.testBit (p % 64) :=
  and_bit _ _

theorem marked_mark {limbs : Array UInt64} {offset : Nat} (h : offset < 64 * limbs.size) (p : Nat) :
    marked (mark limbs offset) p = true ↔ marked limbs p = true ∨ p = offset := by
  have hlimb : offset / 64 < limbs.size := by omega
  rw [marked_eq_testBit, marked_eq_testBit, mark, Array.getD_eq_getD_getElem?,
    Array.getD_eq_getD_getElem?, Array.getElem?_modify]
  by_cases hsame : offset / 64 = p / 64
  · have hplace : offset % 64 = p % 64 ↔ p = offset := by omega
    rw [if_pos hsame, ← hsame, Array.getElem?_eq_getElem hlimb, Option.map_some, Option.getD_some,
      Option.getD_some, testBit_or_bit, Bool.or_eq_true, decide_eq_true_eq, hplace]
  · have hother : p ≠ offset := fun heq => hsame (congrArg (· / 64) heq.symm)
    rw [if_neg hsame]
    exact ⟨Or.inl, fun h => h.resolve_right hother⟩

theorem size_mark (limbs : Array UInt64) (offset : Nat) : (mark limbs offset).size = limbs.size :=
  Array.size_modify

theorem marked_blank (size p : Nat) : marked (Array.replicate size 0) p = false := by
  rw [marked_eq_testBit, Array.getD_eq_getD_getElem?, Array.getElem?_replicate]
  split
  · exact Nat.zero_testBit _
  · exact Nat.zero_testBit _

/-! ### The walk -/

/-- A walk over the code that sets out at `start` comes by an offset. -/
inductive Walks (bs : Bytes) : Nat → Nat → Prop where
  | here {start : Nat} (h : start < bs.length) : Walks bs start start
  | later {start p : Nat} {b : UInt8} (hb : bs[start]? = some b)
      (h : Walks bs (start + 1 + Opcode.immediateSize b) p) : Walks bs start p

theorem Walks.start_lt {bs : Bytes} {start p : Nat} (h : Walks bs start p) : start < bs.length := by
  cases h with
  | here h => exact h
  | later hb _ => exact (List.getElem?_eq_some_iff.1 hb).1

theorem Walks.behind {bs : Bytes} {start p : Nat} {b : UInt8} (h : Walks bs start p)
    (hb : bs[p]? = some b) (hnext : p + 1 + Opcode.immediateSize b < bs.length) :
    Walks bs start (p + 1 + Opcode.immediateSize b) := by
  induction h with
  | here _ => exact .later hb (.here hnext)
  | later hstart _ ih => exact .later hstart (ih hb hnext)

theorem marked_markStarts {bs : Bytes} {limbs : Array UInt64}
    (hsize : bs.length ≤ 64 * limbs.size) (start p : Nat) :
    marked (markStarts bs.toArray start limbs) p = true ↔
      marked limbs p = true ∨ Walks bs start p := by
  generalize hbytes : bs.toArray = bytes
  fun_induction markStarts bytes start limbs with
  | case1 start limbs h ih =>
    subst hbytes
    have hlt : start < bs.length := h
    have hb : bs[start]? = some bs[start] := List.getElem?_eq_getElem hlt
    rw [ih (by rwa [size_mark]), marked_mark (by omega), or_assoc]
    refine or_congr_right ⟨?_, fun hwalk => ?_⟩
    · rintro (rfl | hlater)
      · exact .here hlt
      · exact .later hb hlater
    · cases hwalk with
      | here _ => exact Or.inl rfl
      | later hstart hlater =>
        obtain rfl := Option.some.inj (hb.symm.trans hstart)
        exact Or.inr hlater
  | case2 start limbs h =>
    subst hbytes
    have hend : ¬start < bs.length := h
    exact ⟨Or.inl, fun hmarked => hmarked.resolve_right fun hwalk => hend hwalk.start_lt⟩

/-! ### What is read back -/

theorem size_ofBytes (bs : Bytes) : (ofBytes bs).size = bs.length :=
  List.size_toArray

theorem byteAt_ofBytes (bs : Bytes) (offset : Nat) :
    (ofBytes bs).byteAt offset = bs.getD offset 0 := by
  rw [byteAt, ofBytes, Array.getD_eq_getD_getElem?, List.getElem?_toArray,
    List.getD_eq_getElem?_getD]

theorem marked_ofBytes (bs : Bytes) (offset : Nat) :
    marked (ofBytes bs).starts offset = true ↔ Walks bs 0 offset := by
  have hroom : bs.length ≤ 64 * (Array.replicate ((bs.length + 63) / 64) (0 : UInt64)).size := by
    rw [Array.size_replicate]
    omega
  rw [ofBytes, marked_markStarts hroom, marked_blank, Bool.false_eq_true, false_or]

theorem isPushData_eq_false_iff_walks {bs : Bytes} {offset : Nat} :
    (ofBytes bs).isPushData offset = false ↔ bs.length ≤ offset ∨ Walks bs 0 offset := by
  rw [isPushData, size_ofBytes, ← marked_ofBytes, Bool.and_eq_false_iff, decide_eq_false_iff_not,
    Nat.not_lt, Bool.not_eq_false']

theorem isPushData_zero (bs : Bytes) : (ofBytes bs).isPushData 0 = false := by
  rw [isPushData_eq_false_iff_walks]
  by_cases h : 0 < bs.length
  · exact Or.inr (.here h)
  · exact Or.inl (Nat.le_of_not_lt h)

theorem isPushData_next {bs : Bytes} {offset : Nat} (hlt : offset < bs.length)
    (h : (ofBytes bs).isPushData offset = false) :
    (ofBytes bs).isPushData (offset + 1 + Opcode.immediateSize ((ofBytes bs).byteAt offset)) =
      false := by
  have hb : bs[offset]? = some bs[offset] := List.getElem?_eq_getElem hlt
  have hbyte : (ofBytes bs).byteAt offset = bs[offset] := by
    rw [byteAt_ofBytes, List.getD_eq_getElem?_getD, hb, Option.getD_some]
  have hwalk := (isPushData_eq_false_iff_walks.1 h).resolve_left (Nat.not_le.2 hlt)
  rw [hbyte, isPushData_eq_false_iff_walks]
  by_cases hnext : offset + 1 + Opcode.immediateSize bs[offset] < bs.length
  · exact Or.inr (hwalk.behind hb hnext)
  · exact Or.inl (Nat.le_of_not_lt hnext)

theorem isJumpDest_iff {code : Code} {offset : Nat} :
    code.isJumpDest offset = true ↔ code.byteAt offset = 0x5b ∧ code.isPushData offset = false := by
  simp [isJumpDest]

end Code

namespace Opcode

theorem pushSize_of_ofTable {n : Nat} {op : Opcode} (h : ofTable? n = some op) :
    op.pushSize = 0 := by
  unfold ofTable? at h
  split at h
  all_goals cases h
  all_goals rfl

/-- What the analysis skips is what the instruction consumes. -/
theorem pushSize_of_ofByte {byte : UInt8} {op : Opcode} (h : ofByte? byte = some op) :
    op.pushSize = immediateSize byte := by
  simp only [ofByte?] at h
  unfold immediateSize
  split at h
  · next hpush =>
    cases h
    rw [if_pos hpush, pushSize]
    dsimp only
    omega
  · next hother =>
    rw [if_neg hother]
    split at h
    · cases h
      rfl
    · split at h
      · cases h
        rfl
      · split at h
        · cases h
          rfl
        · exact pushSize_of_ofTable h

theorem immediateSize_le (byte : UInt8) : immediateSize byte ≤ 32 := by
  unfold immediateSize
  split
  · omega
  · omega

end Opcode

end ContractVm
