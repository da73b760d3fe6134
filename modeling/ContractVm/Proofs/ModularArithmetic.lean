import Mathlib
import ContractVm.Proofs.Operands

/-! # Sums, products and powers modulo a number

Sums and products of words are formed in 512 bits, where none of them wraps around. Their remainder
by a word is smaller than that word, so that it is the whole remainder that comes back to 256 bits.
Powers are formed by repeated squaring (`powMod`), with the remainder taken after every product. -/

namespace ContractVm

/-! ### Powers -/

/-- An exponent is halved by squaring the base. -/
theorem pow_eq_square_pow (base exponent : Nat) :
    base ^ exponent = (base * base) ^ (exponent / 2) * base ^ (exponent % 2) := by
  have hhalves : exponent = 2 * (exponent / 2) + exponent % 2 := by omega
  calc base ^ exponent = base ^ (2 * (exponent / 2) + exponent % 2) := by rw [← hhalves]
    _ = (base * base) ^ (exponent / 2) * base ^ (exponent % 2) := by
      rw [pow_add, pow_mul, Nat.pow_two]

theorem powMod_eq (base exponent modulus : Nat) :
    powMod base exponent modulus = base ^ exponent % modulus := by
  -- on the halving of the exponent; the base of the half is already a remainder
  fun_induction powMod base exponent modulus with
  | case1 base => rw [pow_zero]
  | case2 base exponent hpos half hodd ih =>
    have hhalf : half = (base * base) ^ (exponent / 2) % modulus := ih.trans (Nat.pow_mod _ _ _).symm
    rw [pow_eq_square_pow base exponent, hodd, pow_one, hhalf, Nat.mod_mul_mod]
  | case3 base exponent hpos half heven ih =>
    have hhalf : half = (base * base) ^ (exponent / 2) % modulus := ih.trans (Nat.pow_mod _ _ _).symm
    have hrest : exponent % 2 = 0 := by omega
    rw [pow_eq_square_pow base exponent, hrest, pow_zero, mul_one, hhalf]

namespace Word

/-! ### In 512 bits -/

theorem toNat_wide (w : Word) : (wide w).toNat = w.toNat := by
  have hw := w.isLt
  rw [wide, BitVec.toNat_setWidth]
  omega

theorem toNat_wideAdd (x y : Word) : (wide x + wide y).toNat = x.toNat + y.toNat := by
  have hx := x.isLt
  have hy := y.isLt
  rw [BitVec.toNat_add, toNat_wide, toNat_wide]
  omega

theorem toNat_wideMul (x y : Word) : (wide x * wide y).toNat = x.toNat * y.toNat := by
  have hproduct : x.toNat * y.toNat < 2 ^ 256 * 2 ^ 256 := Nat.mul_lt_mul'' x.isLt y.isLt
  rw [BitVec.toNat_mul, toNat_wide, toNat_wide]
  exact Nat.mod_eq_of_lt (by omega)

theorem toNat_wideAddMod (x y m : Word) :
    (wideAddMod x y m).toNat = (x.toNat + y.toNat) % m.toNat := by
  rw [wideAddMod, BitVec.toNat_umod, toNat_wideAdd, toNat_wide]

theorem toNat_wideMulMod (x y m : Word) :
    (wideMulMod x y m).toNat = x.toNat * y.toNat % m.toNat := by
  rw [wideMulMod, BitVec.toNat_umod, toNat_wideMul, toNat_wide]

theorem toNat_low {n : BitVec 512} (h : n.toNat < 2 ^ 256) : (low n).toNat = n.toNat := by
  rw [low, BitVec.toNat_setWidth]
  exact Nat.mod_eq_of_lt h

theorem wide_low {n : BitVec 512} (h : n.toNat < 2 ^ 256) : wide (low n) = n := by
  apply BitVec.eq_of_toNat_eq
  rw [toNat_wide, toNat_low h]

theorem mod_toNat_lt {m : Word} (hm : m ≠ 0) (n : Nat) : n % m.toNat < 2 ^ 256 := by
  have hpos : m.toNat ≠ 0 := fun hzero => hm (BitVec.eq_of_toNat_eq hzero)
  exact (Nat.mod_lt n (Nat.pos_of_ne_zero hpos)).trans m.isLt

theorem wideAddMod_lt (x y : Word) {m : Word} (hm : m ≠ 0) :
    (wideAddMod x y m).toNat < 2 ^ 256 := by
  rw [toNat_wideAddMod]
  exact mod_toNat_lt hm _

theorem wideMulMod_lt (x y : Word) {m : Word} (hm : m ≠ 0) :
    (wideMulMod x y m).toNat < 2 ^ 256 := by
  rw [toNat_wideMulMod]
  exact mod_toNat_lt hm _

/-! ### In words -/

theorem toNat_addMod (x y m : Word) :
    (addMod x y m).toNat = if m = 0 then 0 else (x.toNat + y.toNat) % m.toNat := by
  unfold addMod
  split
  · rfl
  · next hm => rw [toNat_low (wideAddMod_lt x y hm), toNat_wideAddMod]

theorem toNat_mulMod (x y m : Word) :
    (mulMod x y m).toNat = if m = 0 then 0 else x.toNat * y.toNat % m.toNat := by
  unfold mulMod
  split
  · rfl
  · next hm => rw [toNat_low (wideMulMod_lt x y hm), toNat_wideMulMod]

theorem toNat_exp (x y : Word) : (exp x y).toNat = x.toNat ^ y.toNat % 2 ^ 256 := by
  rw [exp, powMod_eq, BitVec.toNat_ofNat]
  exact Nat.mod_mod _ _

end Word

/-- The instructions for sums and products modulo a word and for powers agree with the numbers, and
no bit is lost when a remainder is brought back to 256 bits. -/
theorem modular_arithmetic_is_exact (x y m : Word) :
    (Word.addMod x y m).toNat = (if m = 0 then 0 else (x.toNat + y.toNat) % m.toNat) ∧
    (Word.mulMod x y m).toNat = (if m = 0 then 0 else x.toNat * y.toNat % m.toNat) ∧
    (Word.wide x + Word.wide y).toNat = x.toNat + y.toNat ∧
    (Word.wide x * Word.wide y).toNat = x.toNat * y.toNat ∧
    (m ≠ 0 → Word.wide (Word.addMod x y m) = Word.wideAddMod x y m ∧
      Word.wide (Word.mulMod x y m) = Word.wideMulMod x y m) ∧
    (Word.exp x y).toNat = x.toNat ^ y.toNat % 2 ^ 256 ∧
    (Word.exp 0 0).toNat = 1 ∧
    ∀ (env : Env) (machine : Machine) (rest : List Word),
      (machine.Ready (x :: y :: m :: rest) 4 →
        Leaves env machine (.ternary .addMod) (Word.addMod x y m :: rest) ∧
        Leaves env machine (.ternary .mulMod) (Word.mulMod x y m :: rest)) ∧
      (machine.Ready (x :: y :: rest) 3 →
        Leaves env machine (.binary .exp) (Word.exp x y :: rest)) := by
  refine ⟨Word.toNat_addMod x y m, Word.toNat_mulMod x y m, Word.toNat_wideAdd x y,
    Word.toNat_wideMul x y, ?_, Word.toNat_exp x y, Word.toNat_exp 0 0, ?_⟩
  · intro hm
    rw [Word.addMod, Word.mulMod, if_neg hm, if_neg hm]
    exact ⟨Word.wide_low (Word.wideAddMod_lt x y hm), Word.wide_low (Word.wideMulMod_lt x y hm)⟩
  · intro env machine rest
    exact ⟨fun hready => ⟨hready.leaves_ternary env .addMod, hready.leaves_ternary env .mulMod⟩,
      fun hready => hready.leaves_binary env .exp⟩

def largestMachine (below : List Word) : Machine :=
  { Machine.start {} 1000 (Frame.root 0) {} with stack := .ofList (-1 :: -1 :: below) }

/-- The largest word is three modulo twelve, and odd powers of it are itself. -/
theorem largest_word_modulo_twelve :
    (largestMachine [12, 5]).Ready [-1, -1, 12, 5] 4 ∧ (largestMachine []).Ready [-1, -1] 3 ∧
    (12 : Word) ≠ 0 ∧
    Word.wide 6 = Word.wideAddMod (-1) (-1) 12 ∧ Word.wide 9 = Word.wideMulMod (-1) (-1) 12 ∧
    Leaves (relayEnv 0x05) (largestMachine [12, 5]) (.ternary .addMod) [6, 5] ∧
    Leaves (relayEnv 0x05) (largestMachine [12, 5]) (.ternary .mulMod) [9, 5] ∧
    Leaves (relayEnv 0x05) (largestMachine []) (.binary .exp) [-1] := by
  have hthree : (largestMachine [12, 5]).Ready [-1, -1, 12, 5] 4 := ⟨rfl, rfl, by decide, rfl⟩
  have htwo : (largestMachine []).Ready [-1, -1] 3 := ⟨rfl, rfl, by decide, rfl⟩
  have htwelve : (12 : Word) ≠ 0 := by decide
  obtain ⟨-, -, -, -, hwide, -, -, hleaves⟩ := modular_arithmetic_is_exact (-1) (-1) 12
  obtain ⟨hwideSum, hwideProduct⟩ := hwide htwelve
  obtain ⟨hsum, hproduct⟩ := (hleaves (relayEnv 0x05) (largestMachine [12, 5]) [5]).1 hthree
  have hpower := (hleaves (relayEnv 0x05) (largestMachine []) []).2 htwo
  have hsix : Word.addMod (-1) (-1) 12 = 6 := by decide +kernel
  have hnine : Word.mulMod (-1) (-1) 12 = 9 := by decide +kernel
  have hself : Word.exp (-1) (-1) = -1 := by decide +kernel
  rw [hsix] at hsum hwideSum
  rw [hnine] at hproduct hwideProduct
  rw [hself] at hpower
  exact ⟨hthree, htwo, htwelve, hwideSum, hwideProduct, hsum, hproduct, hpower⟩

end ContractVm
