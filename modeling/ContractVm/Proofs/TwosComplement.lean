import Mathlib
import ContractVm.Proofs.Operands

/-! # Signed numbers and two's complement

The sign and magnitude of a `Signed` stand for an integer, `Signed.value`. On it the operations are
those of the integers, and words encode it modulo `2 ^ 256`, so that the signed instructions compute
with the integers that words stand for in two's complement (`BitVec.toInt`). -/

namespace ContractVm

/-! ### Values -/

namespace Signed

theorem value_ofParts (negative : Bool) (magnitude : Word) :
    (ofParts negative magnitude).value =
      if negative then -(magnitude.toNat : Int) else magnitude.toNat := by
  by_cases hzero : magnitude = 0
  · subst hzero
    cases negative <;> rfl
  · have hkept : (magnitude != 0) = true := bne_iff_ne.2 hzero
    simp only [ofParts, value, hkept, Bool.and_true]

theorem value_of_negative {s : Signed} (h : s.negative = true) :
    s.value = -(s.magnitude.toNat : Int) ∧ 0 < s.magnitude.toNat := by
  have hpos : s.magnitude.toNat ≠ 0 := by
    intro hzero
    exact s.nonzero h (BitVec.eq_of_toNat_eq hzero)
  rw [value, if_pos h]
  exact ⟨rfl, Nat.pos_of_ne_zero hpos⟩

theorem value_of_nonnegative {s : Signed} (h : s.negative = false) :
    s.value = (s.magnitude.toNat : Int) := by
  simp only [value, h]
  rfl

theorem value_inj {s t : Signed} (h : s.value = t.value) : s = t := by
  have hparts : s.negative = t.negative ∧ s.magnitude.toNat = t.magnitude.toNat := by
    cases hs : s.negative with
    | false =>
      have hvs := value_of_nonnegative hs
      cases ht : t.negative with
      | false =>
        have hvt := value_of_nonnegative ht
        exact ⟨rfl, by omega⟩
      | true =>
        obtain ⟨hvt, hpos⟩ := value_of_negative ht
        omega
    | true =>
      obtain ⟨hvs, hpos⟩ := value_of_negative hs
      cases ht : t.negative with
      | false =>
        have hvt := value_of_nonnegative ht
        omega
      | true =>
        obtain ⟨hvt, -⟩ := value_of_negative ht
        exact ⟨rfl, by omega⟩
  obtain ⟨negative, magnitude, hnonzero⟩ := s
  obtain ⟨negative', magnitude', hnonzero'⟩ := t
  obtain rfl : negative = negative' := hparts.1
  obtain rfl : magnitude = magnitude' := BitVec.eq_of_toNat_eq hparts.2
  rfl

theorem value_eq_zero_iff {s : Signed} : s.value = 0 ↔ s.magnitude = 0 := by
  have hzero : s.magnitude = 0 ↔ s.magnitude.toNat = 0 := BitVec.toNat_eq
  rw [hzero]
  cases hs : s.negative with
  | false =>
    rw [value_of_nonnegative hs]
    omega
  | true =>
    rw [(value_of_negative hs).1]
    omega

/-! ### Words -/

theorem value_ofWord (w : Word) : (ofWord w).value = w.toInt := by
  rw [ofWord, BitVec.toInt_eq_msb_cond]
  split
  · next hmsb =>
    have hlarge : 2 ^ 255 ≤ w.toNat := BitVec.toNat_ge_of_msb_true hmsb
    have hw := w.isLt
    have hneg : (-w).toNat = 2 ^ 256 - w.toNat := by
      rw [BitVec.toNat_neg, Nat.mod_eq_of_lt (by omega)]
    rw [value_ofParts, if_pos rfl, hneg]
    omega
  · rw [value_ofParts]
    rfl

theorem toWord_eq_ofInt (s : Signed) : s.toWord = BitVec.ofInt 256 s.value := by
  have hmagnitude : BitVec.ofInt 256 (s.magnitude.toNat : Int) = s.magnitude := by simp
  cases hs : s.negative with
  | false =>
    rw [value_of_nonnegative hs, hmagnitude]
    simp only [toWord, hs]
    rfl
  | true =>
    rw [(value_of_negative hs).1, BitVec.ofInt_neg, hmagnitude]
    simp only [toWord, hs]
    rfl

theorem toNat_toWord (s : Signed) : (s.toWord.toNat : Int) = s.value % 2 ^ 256 := by
  rw [toWord_eq_ofInt, BitVec.toNat_ofInt]
  omega

theorem toWord_ofWord (w : Word) : (ofWord w).toWord = w := by
  rw [toWord_eq_ofInt, value_ofWord, BitVec.ofInt_toInt]

/-! ### Order -/

theorem compare_magnitudes (x y : Word) :
    Ord.compare x y = Ord.compare (x.toNat : Int) (y.toNat : Int) := by
  show compareOfLessAndEq x y = compareOfLessAndEq (x.toNat : Int) (y.toNat : Int)
  simp only [compareOfLessAndEq, BitVec.lt_def, BitVec.toNat_eq, Int.ofNat_lt, Int.ofNat_inj]

theorem compare_eq (s t : Signed) : s.compare t = Ord.compare s.value t.value := by
  unfold compare
  cases hs : s.negative with
  | false =>
    have hvs := value_of_nonnegative hs
    cases ht : t.negative with
    | false =>
      rw [hvs, value_of_nonnegative ht]
      exact compare_magnitudes _ _
    | true =>
      obtain ⟨hvt, hpos⟩ := value_of_negative ht
      have hgt : t.value < s.value := by omega
      exact (compare_gt_iff_gt.2 hgt).symm
  | true =>
    obtain ⟨hvs, hpos⟩ := value_of_negative hs
    cases ht : t.negative with
    | false =>
      have hvt := value_of_nonnegative ht
      have hlt : s.value < t.value := by omega
      exact (compare_lt_iff_lt.2 hlt).symm
    | true =>
      rw [hvs, (value_of_negative ht).1]
      -- below zero the larger magnitude is the smaller number
      have hflip : ∀ a b : Int, Ord.compare (-a) (-b) = Ord.compare b a := by
        intro a b
        show compareOfLessAndEq (-a) (-b) = compareOfLessAndEq b a
        simp only [compareOfLessAndEq, neg_lt_neg_iff, neg_inj, eq_comm (a := a)]
      rw [hflip]
      exact compare_magnitudes _ _

theorem compare_eq_eq_iff {s t : Signed} : s.compare t = .eq ↔ s = t := by
  rw [compare_eq, compare_eq_iff_eq]
  constructor
  · exact value_inj
  · intro h
    rw [h]

/-! ### Division -/

theorem value_div (s t : Signed) :
    (s.div t).value = if t.value = 0 then 0 else s.value.tdiv t.value := by
  unfold div
  by_cases hzero : t.magnitude = 0
  · rw [if_pos hzero, if_pos (value_eq_zero_iff.2 hzero)]
    rfl
  · rw [if_neg hzero, if_neg (value_eq_zero_iff.not.2 hzero), value_ofParts, BitVec.toNat_udiv,
      Int.ofNat_tdiv]
    cases hs : s.negative with
    | false =>
      rw [value_of_nonnegative hs]
      cases ht : t.negative with
      | false =>
        rw [value_of_nonnegative ht]
        rfl
      | true =>
        rw [(value_of_negative ht).1, Int.tdiv_neg]
        rfl
    | true =>
      rw [(value_of_negative hs).1, Int.neg_tdiv]
      cases ht : t.negative with
      | false =>
        rw [value_of_nonnegative ht]
        rfl
      | true =>
        rw [(value_of_negative ht).1, Int.tdiv_neg, neg_neg]
        rfl

theorem value_rem (s t : Signed) :
    (s.rem t).value = if t.value = 0 then 0 else s.value.tmod t.value := by
  unfold rem
  by_cases hzero : t.magnitude = 0
  · rw [if_pos hzero, if_pos (value_eq_zero_iff.2 hzero)]
    rfl
  · -- the sign of the divisor does not matter
    have hdivisor : s.value.tmod t.value = s.value.tmod t.magnitude.toNat := by
      cases ht : t.negative with
      | false => rw [value_of_nonnegative ht]
      | true => rw [(value_of_negative ht).1, Int.tmod_neg]
    rw [if_neg hzero, if_neg (value_eq_zero_iff.not.2 hzero), hdivisor, value_ofParts,
      BitVec.toNat_umod, Int.ofNat_tmod]
    cases hs : s.negative with
    | false =>
      rw [value_of_nonnegative hs]
      rfl
    | true =>
      rw [(value_of_negative hs).1, Int.neg_tmod]
      rfl

end Signed

/-! ### Functions of words -/

theorem Word.toInt_eq_zero_iff {w : Word} : w.toInt = 0 ↔ w = 0 := by
  have hzero : (0 : Word).toInt = 0 := BitVec.toInt_zero
  rw [← hzero]
  exact BitVec.toInt_inj

theorem Binary.eval_sdiv (x y : Word) :
    Binary.sdiv.eval x y = if y = 0 then 0 else BitVec.ofInt 256 (x.toInt.tdiv y.toInt) := by
  show ((Signed.ofWord x).div (Signed.ofWord y)).toWord = _
  rw [Signed.toWord_eq_ofInt, Signed.value_div, Signed.value_ofWord, Signed.value_ofWord]
  simp only [Word.toInt_eq_zero_iff]
  split
  · rfl
  · rfl

theorem Binary.eval_smod (x y : Word) :
    Binary.smod.eval x y = if y = 0 then 0 else BitVec.ofInt 256 (x.toInt.tmod y.toInt) := by
  show ((Signed.ofWord x).rem (Signed.ofWord y)).toWord = _
  rw [Signed.toWord_eq_ofInt, Signed.value_rem, Signed.value_ofWord, Signed.value_ofWord]
  simp only [Word.toInt_eq_zero_iff]
  split
  · rfl
  · rfl

theorem Binary.eval_slt (x y : Word) :
    Binary.slt.eval x y = Word.ofBool (decide (x.toInt < y.toInt)) := by
  show Word.ofBool ((Signed.ofWord x).compare (Signed.ofWord y) == .lt) = _
  rw [Signed.compare_eq, Signed.value_ofWord, Signed.value_ofWord]
  congr 1
  rw [Bool.eq_iff_iff, beq_iff_eq, decide_eq_true_iff]
  exact compare_lt_iff_lt

theorem Binary.eval_sgt (x y : Word) :
    Binary.sgt.eval x y = Word.ofBool (decide (y.toInt < x.toInt)) := by
  show Word.ofBool ((Signed.ofWord x).compare (Signed.ofWord y) == .gt) = _
  rw [Signed.compare_eq, Signed.value_ofWord, Signed.value_ofWord]
  congr 1
  rw [Bool.eq_iff_iff, beq_iff_eq, decide_eq_true_iff]
  exact compare_gt_iff_gt

theorem Word.sar_eq_sshiftRight (shift value : Word) :
    Word.sar shift value = value.sshiftRight shift.toNat := by
  unfold sar
  by_cases hshift : shift.toNat < 256
  · rw [if_pos hshift]
    cases hmsb : value.msb with
    | false => exact (BitVec.sshiftRight_eq_of_msb_false hmsb).symm
    | true => exact (BitVec.sshiftRight_eq_of_msb_true hmsb).symm
  · rw [if_neg hshift]
    have hout : ∀ x : Word, x >>> shift.toNat = 0#256 :=
      fun x => BitVec.ushiftRight_eq_zero (Nat.le_of_not_lt hshift)
    cases hmsb : value.msb with
    | false =>
      rw [BitVec.sshiftRight_eq_of_msb_false hmsb, hout]
      rfl
    | true =>
      rw [BitVec.sshiftRight_eq_of_msb_true hmsb, hout]
      rfl

theorem Word.toInt_sar (shift value : Word) :
    (Word.sar shift value).toInt = value.toInt.fdiv (2 ^ shift.toNat) := by
  have hpos : (0 : Int) ≤ 2 ^ shift.toNat := Int.pow_nonneg (by decide)
  rw [sar_eq_sshiftRight, BitVec.toInt_sshiftRight, Int.shiftRight_eq_div_pow,
    Int.fdiv_eq_ediv_of_nonneg _ hpos]
  norm_cast

theorem Word.signExtend_eq (value : Word) {bits : Nat} (hpos : 0 < bits) (hlt : bits < 256) :
    Word.signExtend value bits = (value.setWidth bits).signExtend 256 := by
  have hlow : ∀ i, (BitVec.allOnes 256 >>> (256 - bits)).getLsbD i = decide (i < bits) := by
    intro i
    rw [BitVec.getLsbD_ushiftRight, BitVec.getLsbD_allOnes]
    exact decide_eq_decide.2 (by omega)
  apply BitVec.eq_of_getLsbD_eq
  intro i hi
  have hinside : ¬(bits = 0 ∨ 256 ≤ bits) := by omega
  rw [BitVec.getLsbD_signExtend, BitVec.getLsbD_setWidth, BitVec.msb_setWidth, signExtend,
    if_neg hinside]
  dsimp only
  generalize BitVec.allOnes 256 >>> (256 - bits) = low at hlow ⊢
  cases hsign : value.getLsbD (bits - 1) with
  | false =>
    by_cases hbit : i < bits
    · simp [hlow, hbit, hi]
    · simp [hlow, hbit]
  | true =>
    by_cases hbit : i < bits
    · simp [hlow, hbit, hi]
    · have hhigh : (value ||| ~~~low).getLsbD i = true := by
        simp only [BitVec.getLsbD_or, BitVec.getLsbD_not, hlow, hbit, hi, decide_true, decide_false,
          Bool.not_false, Bool.and_self, Bool.or_true]
      rw [if_pos rfl, hhigh]
      simp [hbit, hi, hpos]

theorem Word.toInt_signExtend (value : Word) {bits : Nat} (hpos : 0 < bits) (hlt : bits < 256) :
    (Word.signExtend value bits).toInt = (value.setWidth bits).toInt := by
  rw [signExtend_eq value hpos hlt, BitVec.toInt_signExtend_of_le (Nat.le_of_lt hlt)]

/-! ### Instructions -/

theorem Machine.Ready.leaves_signExtend {m : Machine} {x y : Word} {rest : List Word}
    (h : m.Ready (x :: y :: rest) 3) (env : Env) :
    Leaves env m .signExtend
      ((if x.toNat < 31 then Word.signExtend y (8 * (x.toNat + 1)) else y) :: rest) := by
  obtain ⟨hfirst, hrest, -⟩ := h.pop
  obtain ⟨hsecond, hready, hroom⟩ := hrest.pop
  have hrun : (Exec.step env .signExtend).run m =
      (if (Exec.pop.run m).1.toNat < 31 then do
        let value ← Exec.pop
        Exec.push (Word.signExtend value (8 * ((Exec.pop.run m).1.toNat + 1)))
        return Flow.next
      else return Flow.next : Exec Flow).run (Exec.pop.run m).2 := rfl
  rw [hfirst] at hrun
  dsimp only at hrun
  split
  · next hback =>
    have hvalue : (do
        let value ← Exec.pop
        Exec.push (Word.signExtend value (8 * (x.toNat + 1)))
        return Flow.next : Exec Flow).run m.popped =
        (.next, ((Exec.push (Word.signExtend (Exec.pop.run m.popped).1 (8 * (x.toNat + 1)))).run
          (Exec.pop.run m.popped).2).2) := rfl
    rw [hsecond] at hvalue
    rw [if_pos hback, hvalue] at hrun
    exact hready.leaves hroom hrun
  · next hback =>
    rw [if_neg hback] at hrun
    unfold Leaves
    rw [hrun]
    exact ⟨rfl, hrest.fault, hrest.items⟩

/-- Words and the signed instructions agree with the integers. -/
theorem signed_arithmetic_is_exact (env : Env) (m : Machine) (x y : Word) (rest : List Word)
    (hm : m.Ready (x :: y :: rest) 3) :
    (∀ w : Word, (Signed.ofWord w).value = w.toInt ∧ (Signed.ofWord w).toWord = w) ∧
    (∀ (negative : Bool) (magnitude : Word), (Signed.ofParts negative magnitude).value =
      if negative then -(magnitude.toNat : Int) else magnitude.toNat) ∧
    (∀ s : Signed, (s.toWord.toNat : Int) = s.value % 2 ^ 256) ∧
    (∀ s t : Signed, s.compare t = Ord.compare s.value t.value ∧ (s.compare t = .eq ↔ s = t) ∧
      (s.div t).value = (if t.value = 0 then 0 else s.value.tdiv t.value) ∧
      (s.rem t).value = if t.value = 0 then 0 else s.value.tmod t.value) ∧
    Leaves env m (.binary .sdiv)
      ((if y = 0 then 0 else BitVec.ofInt 256 (x.toInt.tdiv y.toInt)) :: rest) ∧
    Binary.sdiv.eval (BitVec.intMin 256) (-1) = BitVec.intMin 256 ∧
    Leaves env m (.binary .smod)
      ((if y = 0 then 0 else BitVec.ofInt 256 (x.toInt.tmod y.toInt)) :: rest) ∧
    Leaves env m (.binary .slt) (Word.ofBool (decide (x.toInt < y.toInt)) :: rest) ∧
    Leaves env m (.binary .sgt) (Word.ofBool (decide (y.toInt < x.toInt)) :: rest) ∧
    (∀ shift value : Word,
      (Word.sar shift value).toInt = value.toInt.fdiv (2 ^ shift.toNat)) ∧
    Leaves env m (.binary .sar) (Word.sar x y :: rest) ∧
    ∃ extended : Word, Leaves env m .signExtend (extended :: rest) ∧
      (x.toNat < 31 → extended.toInt = (y.setWidth (8 * (x.toNat + 1))).toInt) ∧
      (31 ≤ x.toNat → extended = y) := by
  refine ⟨fun w => ⟨Signed.value_ofWord w, Signed.toWord_ofWord w⟩, Signed.value_ofParts,
    Signed.toNat_toWord, fun s t => ⟨Signed.compare_eq s t, Signed.compare_eq_eq_iff,
    Signed.value_div s t, Signed.value_rem s t⟩, ?_, by decide +kernel, ?_, ?_, ?_, Word.toInt_sar,
    hm.leaves_binary env .sar, _, hm.leaves_signExtend env, fun hback => ?_, fun hback => ?_⟩
  · rw [← Binary.eval_sdiv]
    exact hm.leaves_binary env .sdiv
  · rw [← Binary.eval_smod]
    exact hm.leaves_binary env .smod
  · rw [← Binary.eval_slt]
    exact hm.leaves_binary env .slt
  · rw [← Binary.eval_sgt]
    exact hm.leaves_binary env .sgt
  · rw [if_pos hback, Word.toInt_signExtend y (by omega) (by omega)]
  · rw [if_neg (Nat.not_lt.2 hback)]

/-- A machine that is to divide the least number by minus one. -/
def leastMachine : Machine :=
  { Machine.start {} 1000 (Frame.root 0) {} with stack := .ofList [BitVec.intMin 256, -1, 5] }

theorem least_number_is_its_own_negative :
    leastMachine.Ready [BitVec.intMin 256, -1, 5] 3 ∧
    Leaves (relayEnv 0x05) leastMachine (.binary .sdiv) [BitVec.intMin 256, 5] ∧
    Leaves (relayEnv 0x05) leastMachine (.binary .smod) [0, 5] ∧
    Leaves (relayEnv 0x05) leastMachine (.binary .slt) [1, 5] ∧
    Leaves (relayEnv 0x05) leastMachine .signExtend [-1, 5] := by
  have hready : leastMachine.Ready [BitVec.intMin 256, -1, 5] 3 :=
    ⟨rfl, rfl, by decide, rfl⟩
  obtain ⟨-, -, -, -, hsdiv, -, hsmod, hslt, -, -, -, extended, hextends, -, hsame⟩ :=
    signed_arithmetic_is_exact (relayEnv 0x05) leastMachine (BitVec.intMin 256) (-1) [5] hready
  have hquotient : (if (-1 : Word) = 0 then 0 else
      BitVec.ofInt 256 ((BitVec.intMin 256).toInt.tdiv (-1 : Word).toInt)) =
      BitVec.intMin 256 := by decide +kernel
  have hremainder : (if (-1 : Word) = 0 then 0 else
      BitVec.ofInt 256 ((BitVec.intMin 256).toInt.tmod (-1 : Word).toInt)) = 0 := by
    decide +kernel
  have hless : Word.ofBool (decide ((BitVec.intMin 256).toInt < (-1 : Word).toInt)) = 1 := by
    decide +kernel
  rw [hquotient] at hsdiv
  rw [hremainder] at hsmod
  rw [hless] at hslt
  rw [hsame (by decide +kernel)] at hextends
  exact ⟨hready, hsdiv, hsmod, hslt, hextends⟩

end ContractVm
