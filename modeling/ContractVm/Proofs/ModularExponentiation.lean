import Mathlib
import ContractVm.Proofs.Digits
import ContractVm.Proofs.ModularArithmetic
import ContractVm.Proofs.Nested

/-! # Modular exponentiation

The contract reads three lengths and then three numbers of these lengths, and answers with the
remainder of the power in as many bytes as the modulus has. It is paid for before the numbers are
read. A run ends in one of five ways, which exclude each other (`ExpMod.Computes`). -/

namespace ContractVm

/-! ### Prices that are cut off -/

theorem capGas_add (a b : Nat) : capGas (capGas a + b) = capGas (a + b) := by
  unfold capGas
  omega

theorem capGas_mul (a b : Nat) : capGas (capGas a * b) = capGas (a * b) := by
  by_cases ha : a ≤ gasLimit
  · have hkept : capGas a = a := Nat.min_eq_left ha
    rw [hkept]
  · have hcut : capGas a = gasLimit := Nat.min_eq_right (by omega)
    rw [hcut]
    cases b with
    | zero => rfl
    | succ b =>
      -- a product with a positive number stays above the largest amount
      have hlarge : gasLimit ≤ gasLimit * (b + 1) := Nat.le_mul_of_pos_right _ (Nat.succ_pos b)
      have hproduct : gasLimit ≤ a * (b + 1) :=
        hlarge.trans (Nat.mul_le_mul_right _ (by omega))
      rw [capGas, capGas, Nat.min_eq_right hlarge, Nat.min_eq_right hproduct]

namespace ExpMod

theorem price_eq (base exponent modulus : Nat) :
    price base exponent modulus =
      min (wordsFor base * wordsFor exponent * wordsFor modulus + 1) gasLimit := by
  unfold price wordPrice basePrice
  dsimp only
  rw [Nat.mul_one, capGas_mul, capGas_add, capGas_add]
  rfl

/-! ### What an input states -/

def lengthIn (input : Bytes) (i : Nat) : Nat :=
  Bytes.value ((input.drop (32 * i)).take 32)

def numberIn (input : Bytes) (start length : Nat) : Nat :=
  Bytes.value ((input.drop start).take length)

def baseIn (input : Bytes) : Nat :=
  numberIn input 96 (lengthIn input 0)

def exponentIn (input : Bytes) : Nat :=
  numberIn input (96 + lengthIn input 0) (lengthIn input 1)

def modulusIn (input : Bytes) : Nat :=
  numberIn input (96 + lengthIn input 0 + lengthIn input 1) (lengthIn input 2)

/-- Where the modulus ends; what comes behind it is not read. -/
def stopIn (input : Bytes) : Nat :=
  96 + lengthIn input 0 + lengthIn input 1 + lengthIn input 2

def priceIn (input : Bytes) : Nat :=
  min (wordsFor (lengthIn input 0) * wordsFor (lengthIn input 1) * wordsFor (lengthIn input 2) + 1)
    gasLimit

/-- The input begins with three lengths of 64 bits. -/
structure Headed (input : Bytes) : Prop where
  inside : 96 ≤ input.length
  small : ∀ i < 3, lengthIn input i < bound64

/-- How a run with some gas ends, and what it leaves of the gas. -/
inductive Computes (input : Bytes) (gas : Nat) : Except Fault Bytes → Nat → Prop where
  | headless (reason : String) (h : input.length < 96) :
      Computes input gas (.error (.native reason)) gas
  | oversized (reason : String) (i : Nat) (hinside : 96 ≤ input.length) (hi : i < 3)
      (h : bound64 ≤ lengthIn input i) : Computes input gas (.error (.native reason)) gas
  | unpaid (h : Headed input) (hgas : gas < priceIn input) :
      Computes input gas (.error .insufficientGas) gas
  | short (reason : String) (h : Headed input) (hgas : priceIn input ≤ gas)
      (hshort : input.length < stopIn input) : Computes input gas (.error (.native reason)) gas
  | done (output : Bytes) (h : Headed input) (hgas : priceIn input ≤ gas)
      (hinside : stopIn input ≤ input.length) (hlength : output.length = lengthIn input 2)
      (hvalue : output.value =
        if modulusIn input = 0 then 0 else baseIn input ^ exponentIn input % modulusIn input) :
      Computes input gas (.ok output) (gas - priceIn input)

/-! ### The parts of a run -/

theorem split_of_le {length : Nat} {bs : Bytes} (h : length ≤ bs.length) :
    split length bs = .ok (bs.take length, bs.drop length) :=
  if_neg (Nat.not_lt.2 h)

theorem split_of_lt {length : Nat} {bs : Bytes} (h : bs.length < length) :
    split length bs = .error (tooShort bs.length length) :=
  if_pos h

theorem lengthAt_take {i : Nat} (hi : i < 3) (input : Bytes) :
    lengthAt i (input.take 96) =
      if lengthIn input i < bound64 then .ok (lengthIn input i) else .error lengthTooLarge := by
  have hword : ((input.take 96).drop (32 * i)).take 32 = (input.drop (32 * i)).take 32 := by
    rw [List.drop_take, List.take_take]
    congr 1
    omega
  unfold lengthAt lengthIn
  rw [hword]

theorem Headed.lengths {input : Bytes} (h : Headed input) :
    lengths (input.take 96) = .ok (lengthIn input 0, lengthIn input 1, lengthIn input 2) := by
  have hword : ∀ i < 3, lengthAt i (input.take 96) = .ok (lengthIn input i) := by
    intro i hi
    rw [lengthAt_take hi, if_pos (h.small i hi)]
  rw [ExpMod.lengths, hword 0 (by decide), hword 1 (by decide), hword 2 (by decide)]
  rfl

theorem lengths_of_oversized {input : Bytes} {i : Nat} (hi : i < 3)
    (h : bound64 ≤ lengthIn input i) : lengths (input.take 96) = .error lengthTooLarge := by
  have hword : ∀ j < 3, lengthAt j (input.take 96) = .ok (lengthIn input j) ∨
      lengthAt j (input.take 96) = .error lengthTooLarge := by
    intro j hj
    rw [lengthAt_take hj]
    split
    · exact Or.inl rfl
    · exact Or.inr rfl
  have hlarge : lengthAt i (input.take 96) = .error lengthTooLarge := by
    rw [lengthAt_take hi, if_neg (Nat.not_lt.2 h)]
  unfold lengths
  rcases hword 0 (by decide) with h₀ | h₀
  · rcases hword 1 (by decide) with h₁ | h₁
    · have hlast : lengthAt 2 (input.take 96) = .error lengthTooLarge := by
        obtain rfl | rfl | rfl : i = 0 ∨ i = 1 ∨ i = 2 := by omega
        · rw [h₀] at hlarge
          cases hlarge
        · rw [h₁] at hlarge
          cases hlarge
        · exact hlarge
      rw [h₀, h₁, hlast]
      rfl
    · rw [h₀, h₁]
      rfl
  · rw [h₀]
    rfl

theorem operands_of_le {b e m : Nat} {body : Bytes} (h : b + e + m ≤ body.length) :
    operands b e m body = .ok (body.take b, (body.drop b).take e, (body.drop (b + e)).take m) := by
  have he : e ≤ (body.drop b).length := by
    rw [List.length_drop]
    omega
  have hm : m ≤ ((body.drop b).drop e).length := by
    rw [List.length_drop, List.length_drop]
    omega
  have hb : b ≤ body.length := by omega
  have hrest : operands b e m body =
      .ok (body.take b, (body.drop b).take e, ((body.drop b).drop e).take m) := by
    rw [operands, split_of_le hb]
    dsimp only [bind, Except.bind]
    rw [split_of_le he]
    dsimp only
    rw [split_of_le hm]
    rfl
  rw [hrest, List.drop_drop]

theorem operands_of_lt {b e m : Nat} {body : Bytes} (h : body.length < b + e + m) :
    ∃ reason, operands b e m body = .error (.native reason) := by
  unfold operands
  by_cases hb : body.length < b
  · rw [split_of_lt hb]
    exact ⟨_, rfl⟩
  · rw [split_of_le (Nat.le_of_not_lt hb)]
    dsimp only [bind, Except.bind]
    by_cases he : (body.drop b).length < e
    · rw [split_of_lt he]
      exact ⟨_, rfl⟩
    · rw [split_of_le (Nat.le_of_not_lt he)]
      have hm : ((body.drop b).drop e).length < m := by
        rw [List.length_drop] at he
        rw [List.length_drop, List.length_drop]
        omega
      dsimp only
      rw [split_of_lt hm]
      exact ⟨_, rfl⟩

/-! ### The answer -/

/-- The remainder fits in the bytes of the modulus, so that there is room for zero bytes in front of
it or none. -/
theorem length_shortest_powMod_le (b e : Nat) {modulus : Bytes} (hmodulus : modulus.value ≠ 0) :
    (Bytes.shortest (powMod b e modulus.value)).length ≤ modulus.length := by
  have hlt := Bytes.value_lt modulus
  have hlength : 0 < modulus.length := by
    rw [List.length_pos_iff]
    rintro rfl
    exact hmodulus rfl
  apply Bytes.length_shortest_le hlength
  rw [powMod_eq]
  exact (Nat.mod_lt _ (Nat.pos_of_ne_zero hmodulus)).trans hlt

theorem length_power (base exponent modulus : Bytes) :
    (power modulus.length base exponent modulus).length = modulus.length := by
  unfold power
  dsimp only
  split
  · exact List.length_replicate
  · next hmodulus =>
    exact Bytes.length_alignRight (length_shortest_powMod_le base.value exponent.value hmodulus)

theorem value_power (length : Nat) (base exponent modulus : Bytes) :
    (power length base exponent modulus).value =
      if modulus.value = 0 then 0 else base.value ^ exponent.value % modulus.value := by
  unfold power
  dsimp only
  split
  · exact Bytes.value_replicate_zero length
  · rw [Bytes.value_alignRight, Bytes.value_shortest, powMod_eq]

/-! ### A run -/

theorem run_of_lt {input : Bytes} (h : input.length < 96) (gas : Nat) :
    run input gas = .error (tooShort input.length 96) := by
  rw [run, split_of_lt h]
  rfl

theorem run_of_oversized {input : Bytes} {i : Nat} (hinside : 96 ≤ input.length) (hi : i < 3)
    (h : bound64 ≤ lengthIn input i) (gas : Nat) : run input gas = .error lengthTooLarge := by
  rw [run, split_of_le hinside]
  dsimp only [bind, Except.bind]
  rw [lengths_of_oversized hi h]

theorem Headed.run_eq {input : Bytes} (h : Headed input) (gas : Nat) :
    run input gas =
      if gas < priceIn input then .error .insufficientGas
      else (operands (lengthIn input 0) (lengthIn input 1) (lengthIn input 2)
        (input.drop 96)).map fun parts =>
          (power (lengthIn input 2) parts.1 parts.2.1 parts.2.2, gas - priceIn input) := by
  rw [run, split_of_le h.inside]
  dsimp only [bind, Except.bind]
  rw [h.lengths]
  dsimp only
  rw [price_eq]
  unfold priceIn
  split
  · rfl
  · dsimp only [pure, Except.pure]
    cases operands (lengthIn input 0) (lengthIn input 1) (lengthIn input 2) (input.drop 96) with
    | error fault => rfl
    | ok parts => rfl

theorem operands_in {input : Bytes} (h : stopIn input ≤ input.length) :
    operands (lengthIn input 0) (lengthIn input 1) (lengthIn input 2) (input.drop 96) =
      .ok ((input.drop 96).take (lengthIn input 0),
        (input.drop (96 + lengthIn input 0)).take (lengthIn input 1),
        (input.drop (96 + lengthIn input 0 + lengthIn input 1)).take (lengthIn input 2)) := by
  have hbody : lengthIn input 0 + lengthIn input 1 + lengthIn input 2 ≤ (input.drop 96).length := by
    unfold stopIn at h
    rw [List.length_drop]
    omega
  rw [operands_of_le hbody, List.drop_drop, List.drop_drop, Nat.add_assoc]

theorem length_modulus {input : Bytes} (h : stopIn input ≤ input.length) :
    ((input.drop (96 + lengthIn input 0 + lengthIn input 1)).take (lengthIn input 2)).length =
      lengthIn input 2 := by
  unfold stopIn at h
  rw [List.length_take, List.length_drop]
  omega

theorem Headed.run_paid {input : Bytes} (h : Headed input) {gas : Nat}
    (hgas : priceIn input ≤ gas) :
    ∃ result left, run input gas = result.map (fun output => (output, left)) ∧
      Computes input gas result left := by
  rw [h.run_eq, if_neg (Nat.not_lt.2 hgas)]
  by_cases hshort : input.length < stopIn input
  · have hbody : (input.drop 96).length <
        lengthIn input 0 + lengthIn input 1 + lengthIn input 2 := by
      have hinside := h.inside
      unfold stopIn at hshort
      rw [List.length_drop]
      omega
    obtain ⟨reason, hreason⟩ := operands_of_lt hbody
    rw [hreason]
    exact ⟨.error (.native reason), _, rfl, .short reason h hgas hshort⟩
  · have hstop : stopIn input ≤ input.length := Nat.le_of_not_lt hshort
    have hlength := length_modulus hstop
    rw [operands_in hstop]
    refine ⟨.ok (power (lengthIn input 2) _ _ _), _, rfl, .done _ h hgas hstop ?_ ?_⟩
    · have hpower := length_power ((input.drop 96).take (lengthIn input 0))
        ((input.drop (96 + lengthIn input 0)).take (lengthIn input 1))
        ((input.drop (96 + lengthIn input 0 + lengthIn input 1)).take (lengthIn input 2))
      rw [hlength] at hpower
      exact hpower
    · exact value_power _ _ _ _

theorem run_computes (input : Bytes) (gas : Nat) :
    ∃ result left, run input gas = result.map (fun output => (output, left)) ∧
      Computes input gas result left := by
  by_cases hinside : 96 ≤ input.length
  · by_cases hsmall : ∀ i < 3, lengthIn input i < bound64
    · have hheaded : Headed input := ⟨hinside, hsmall⟩
      by_cases hgas : gas < priceIn input
      · rw [hheaded.run_eq, if_pos hgas]
        exact ⟨.error .insufficientGas, gas, rfl, .unpaid hheaded hgas⟩
      · exact hheaded.run_paid (Nat.le_of_not_lt hgas)
    · obtain ⟨i, hi, hlarge⟩ : ∃ i, i < 3 ∧ bound64 ≤ lengthIn input i := by
        by_contra hnone
        exact hsmall fun i hi => Nat.lt_of_not_le fun hle => hnone ⟨i, hi, hle⟩
      rw [run_of_oversized hinside hi hlarge]
      exact ⟨.error lengthTooLarge, gas, rfl, .oversized _ i hinside hi hlarge⟩
  · have hshort : input.length < 96 := Nat.lt_of_not_le hinside
    rw [run_of_lt hshort]
    exact ⟨.error (tooShort input.length 96), gas, rfl, .headless _ hshort⟩

theorem Computes.gas_of_error {input : Bytes} {gas left : Nat} {fault : Fault}
    (h : Computes input gas (.error fault) left) : left = gas := by
  cases h with
  | headless reason h => rfl
  | oversized reason i hinside hi h => rfl
  | unpaid h hgas => rfl
  | short reason h hgas hshort => rfl

theorem Computes.begin_eq {call : Call} {result : Except Fault Bytes} {left : Nat}
    (h : Computes call.input call.gas result left)
    (hrun : run call.input call.gas = result.map fun output => (output, left))
    {below : View} {frame moved : Frame} (hmove : call.move below frame = .ok moved) (host : Host)
    (sequence : CreateSequence) :
    host.begin below frame call (.native .expMod) sequence =
      .over { result, gas := left, frame := moved, sequence } := by
  have hmoved : (if call.kind.movesValue then
      frame.transfer below call.caller call.callee call.value else .ok frame) =
      call.move below frame := rfl
  unfold Host.begin
  rw [hmoved, hmove]
  dsimp only [Native.run]
  rw [hrun]
  cases result with
  | ok output => rfl
  | error fault =>
    obtain rfl := h.gas_of_error
    rfl

/-- Every run of the contract ends as `Computes` says, and so does every call of it once the value
has moved. The words of the header lie in the header, and the remainder is no longer than the output
it is put at the end of. -/
theorem modular_power_is_exact (input : Bytes) (gas : Nat) :
    (∃ result left, Computes input gas result left ∧
      run input gas = result.map (fun output => (output, left)) ∧
      ∀ (host : Host) (below : View) (frame moved : Frame) (call : Call)
        (sequence : CreateSequence),
        call.input = input → call.gas = gas → call.move below frame = .ok moved →
          host.begin below frame call (.native .expMod) sequence =
            .over { result, gas := left, frame := moved, sequence }) ∧
    (∀ header body, split 96 input = .ok (header, body) → ∀ i < 3, 32 * (i + 1) ≤ header.length) ∧
    (stopIn input ≤ input.length → modulusIn input ≠ 0 →
      (Bytes.shortest (powMod (baseIn input) (exponentIn input) (modulusIn input))).length ≤
        lengthIn input 2) := by
  refine ⟨?_, ?_, ?_⟩
  · obtain ⟨result, left, hrun, hcomputes⟩ := run_computes input gas
    refine ⟨result, left, hcomputes, hrun, ?_⟩
    rintro host below frame moved call sequence rfl rfl hmove
    exact hcomputes.begin_eq hrun hmove host sequence
  · intro header body hsplit i hi
    have hinside : 96 ≤ input.length := by
      by_contra hshort
      rw [split_of_lt (Nat.lt_of_not_le hshort)] at hsplit
      cases hsplit
    rw [split_of_le hinside] at hsplit
    cases hsplit
    rw [List.length_take]
    omega
  · intro hstop hmodulus
    have hlength := length_shortest_powMod_le (baseIn input) (exponentIn input) hmodulus
    rw [length_modulus hstop] at hlength
    exact hlength

/-- The input for `3 ^ 5` modulo 100, with a zero byte in front of the base and of the modulus and a
byte behind all. -/
def fifthPower : Bytes :=
  Bytes.ofNat 32 2 ++ Bytes.ofNat 32 1 ++ Bytes.ofNat 32 2 ++ [0, 3, 5, 0, 100, 9]

theorem fifth_power_modulo_hundred :
    ({ relayCall with input := fifthPower, gas := 10 } : Call).move relayLedger.view
      (Frame.root 0) = .ok (Frame.root 0) ∧
    stopIn fifthPower ≤ fifthPower.length ∧ modulusIn fifthPower ≠ 0 ∧
    split 96 fifthPower = .ok (fifthPower.take 96, [0, 3, 5, 0, 100, 9]) ∧
    (∀ i < 3, 32 * (i + 1) ≤ (fifthPower.take 96).length) ∧
    (Bytes.shortest (powMod (baseIn fifthPower) (exponentIn fifthPower)
      (modulusIn fifthPower))).length ≤ 2 ∧
    Computes fifthPower 10 (.ok [0, 43]) 8 ∧
    ∀ (host : Host) (sequence : CreateSequence),
      host.begin relayLedger.view (Frame.root 0) { relayCall with input := fifthPower, gas := 10 }
        (.native .expMod) sequence =
        .over { result := .ok [0, 43], gas := 8, frame := Frame.root 0, sequence } := by
  have hmove : ({ relayCall with input := fifthPower, gas := 10 } : Call).move relayLedger.view
      (Frame.root 0) = .ok (Frame.root 0) := rfl
  have hstop : stopIn fifthPower ≤ fifthPower.length := by decide +kernel
  have hmodulus : modulusIn fifthPower ≠ 0 := by decide +kernel
  have hsplit : split 96 fifthPower = .ok (fifthPower.take 96, [0, 3, 5, 0, 100, 9]) := by
    decide +kernel
  have hlength : lengthIn fifthPower 2 = 2 := by decide +kernel
  have hanswer : run fifthPower 10 = .ok ([0, 43], 8) := by decide +kernel
  obtain ⟨⟨result, left, hcomputes, hrun, hbegin⟩, hheader, hroom⟩ :=
    modular_power_is_exact fifthPower 10
  have hroom := hroom hstop hmodulus
  rw [hlength] at hroom
  rw [hanswer] at hrun
  cases result with
  | error fault => cases hrun
  | ok output =>
    cases hrun
    exact ⟨hmove, hstop, hmodulus, hsplit, hheader _ _ hsplit, hroom, hcomputes,
      fun host sequence => hbegin host _ _ _ _ sequence rfl rfl hmove⟩

end ExpMod

end ContractVm
