import Mathlib
import ContractVm.Fault
import ContractVm.Proofs.Digits

/-! # Reason texts

A revert carries a reason text if its output is the selector, then data in which the first 32 bytes
are the offset of 32 bytes that are the length of the text, which follows them in UTF-8 (`Carries`).
Nothing keeps the offset and the length from pointing anywhere, so that the parts may overlap or lie
past the end, and their sums need not fit in 64 bits. The decoder finds the text exactly if it is
there, and so reads back what the usual layout puts down (`Fault.reasonPayload`). -/

namespace ContractVm

theorem Bytes.slice?_eq_some_iff {start stop : Nat} {bs part : Bytes} :
    slice? start stop bs = some part ↔
      start ≤ stop ∧ stop ≤ bs.length ∧ (bs.drop start).take (stop - start) = part := by
  unfold slice?
  split
  · next h => simp only [Option.some.injEq, h, true_and]
  · next h =>
    constructor
    · intro hnone
      cases hnone
    · intro hpart
      exact (h ⟨hpart.1, hpart.2.1⟩).elim

theorem add64?_eq_some_iff {a b sum : Nat} :
    add64? a b = some sum ↔ a + b < bound64 ∧ a + b = sum := by
  unfold add64?
  split
  · next h => simp only [Option.some.injEq, h, true_and]
  · next h => simp only [h, false_and, reduceCtorEq]

/-! ### Texts -/

def Bytes.ofText (text : String) : Bytes :=
  text.toByteArray.data.toList

theorem Bytes.toByteArray_ofText (text : String) :
    (ofText text).toByteArray = text.toByteArray := by
  apply ByteArray.ext
  rw [List.data_toByteArray, ofText, Array.toArray_toList]

theorem Bytes.fromUTF8?_eq_some_iff {bs : Bytes} {text : String} :
    String.fromUTF8? bs.toByteArray = some text ↔ bs = ofText text := by
  constructor
  · intro h
    unfold String.fromUTF8? at h
    split at h
    · cases h
      exact List.toList_data_toByteArray.symm
    · cases h
  · rintro rfl
    rw [toByteArray_ofText, String.fromUTF8?, dif_pos text.isValidUTF8]
    rfl

namespace Fault

/-! ### The layout -/

structure NumberAt (data : Bytes) (start n : Nat) : Prop where
  inside : start + 32 ≤ data.length
  value : Bytes.value ((data.drop start).take 32) = n
  small : n < bound64

/-- The output carries a text of some length at some offset of the data behind the selector. -/
structure Carries (output : Bytes) (text : String) (data : Bytes) (offset length : Nat) : Prop where
  selector : output = reasonSelector ++ data
  offsetAt : NumberAt data 0 offset
  lengthAt : NumberAt data offset length
  inside : offset + 32 + length ≤ data.length
  text : (data.drop (offset + 32)).take length = Bytes.ofText text

/-- The usual layout: the length comes right behind the offset and the text right behind the
length. -/
def reasonPayload (text : String) : Bytes :=
  reasonSelector ++ (Bytes.ofNat 32 32 ++
    (Bytes.ofNat 32 (Bytes.ofText text).length ++ Bytes.ofText text))

theorem numberAt_append (before after : Bytes) {n : Nat} (hn : n < bound64) :
    NumberAt (before ++ (Bytes.ofNat 32 n ++ after)) before.length n := by
  have hwidth : bound64 < 256 ^ 32 := by decide
  refine ⟨?_, ?_, hn⟩
  · simp only [List.length_append, Bytes.length_ofNat]
    omega
  · rw [List.drop_left, List.take_left' (Bytes.length_ofNat 32 n), Bytes.value_ofNat,
      Nat.mod_eq_of_lt (hn.trans hwidth)]

theorem carries_reasonPayload {text : String} (htext : (Bytes.ofText text).length < bound64)
    (trailing : Bytes) :
    Carries (reasonPayload text ++ trailing) text
      (Bytes.ofNat 32 32 ++ (Bytes.ofNat 32 (Bytes.ofText text).length ++
        (Bytes.ofText text ++ trailing))) 32 (Bytes.ofText text).length := by
  refine ⟨?_, numberAt_append [] _ (by decide), ?_, ?_, ?_⟩
  · simp only [reasonPayload, List.append_assoc]
  · have hlength := numberAt_append (Bytes.ofNat 32 32) (Bytes.ofText text ++ trailing) htext
    rw [Bytes.length_ofNat] at hlength
    exact hlength
  · simp only [List.length_append, Bytes.length_ofNat]
    omega
  · have hheads : (Bytes.ofNat 32 32 ++ Bytes.ofNat 32 (Bytes.ofText text).length).length =
        32 + 32 := by
      rw [List.length_append, Bytes.length_ofNat, Bytes.length_ofNat]
    rw [← List.append_assoc, List.drop_left' hheads, List.take_left]

/-! ### The decoder -/

theorem numberAt?_eq_some_iff {data : Bytes} {start n : Nat} (hdata : data.length < bound64) :
    numberAt? start data = some n ↔ NumberAt data start n := by
  have hwindow : start + 32 - start = 32 := by omega
  simp only [numberAt?, Option.bind_eq_bind, Option.bind_eq_some_iff, add64?_eq_some_iff,
    Bytes.slice?_eq_some_iff, Option.ite_none_right_eq_some, Option.some.injEq]
  constructor
  · rintro ⟨stop, ⟨-, rfl⟩, bytes, ⟨-, hinside, rfl⟩, hsmall, rfl⟩
    rw [hwindow] at hsmall ⊢
    exact ⟨hinside, rfl, hsmall⟩
  · rintro ⟨hinside, rfl, hsmall⟩
    refine ⟨_, ⟨by omega, rfl⟩, _, ⟨by omega, hinside, rfl⟩, ?_⟩
    rw [hwindow]
    exact ⟨hsmall, rfl⟩

theorem reasonIn?_eq_some_iff {output : Bytes} {text : String} (houtput : output.length < bound64) :
    reasonIn? output = some text ↔
      ∃ data offset length, Carries output text data offset length := by
  have hdata : (output.drop 4).length < bound64 := by
    rw [List.length_drop]
    omega
  have hselector : reasonSelector.length = 4 := rfl
  unfold reasonIn?
  by_cases hstarts : output.take 4 = reasonSelector
  · simp only [hstarts, guard_true, Option.pure_def, Option.bind_eq_bind, Option.bind_some,
      Option.bind_eq_some_iff, numberAt?_eq_some_iff hdata, add64?_eq_some_iff,
      Bytes.slice?_eq_some_iff, Bytes.fromUTF8?_eq_some_iff]
    constructor
    · rintro ⟨offset, hoffset, length, hlength, start, ⟨-, rfl⟩, stop, ⟨-, rfl⟩, part,
        ⟨-, hinside, rfl⟩, htext⟩
      rw [Nat.add_sub_cancel_left] at htext
      have houtput : output = reasonSelector ++ output.drop 4 := by
        rw [← hstarts, List.take_append_drop]
      exact ⟨_, offset, length, houtput, hoffset, hlength, hinside, htext⟩
    · rintro ⟨data, offset, length, rfl, hoffset, hlength, hinside, htext⟩
      rw [List.drop_left' hselector] at hdata ⊢
      refine ⟨offset, hoffset, length, hlength, _, ⟨by omega, rfl⟩, _, ⟨by omega, rfl⟩, _,
        ⟨by omega, hinside, rfl⟩, ?_⟩
      rw [Nat.add_sub_cancel_left]
      exact htext
  · simp only [hstarts, guard_false, Option.failure_eq_none, Option.bind_eq_bind, Option.bind_none,
      reduceCtorEq, false_iff]
    rintro ⟨data, offset, length, hcarries⟩
    rw [hcarries.selector, List.take_left' hselector] at hstarts
    exact hstarts rfl

/-- A reason text is found exactly if the output carries it, and the usual layout carries it whatever
comes behind. Outputs are shorter than `2 ^ 64` bytes, like everything in memory. -/
theorem reasons_are_read_exactly :
    (∀ (text : String) (trailing : Bytes),
      (reasonPayload text ++ trailing).length < bound64 →
        reason? (.reverted (reasonPayload text ++ trailing)) = some text) ∧
    ∀ output : Bytes, output.length < bound64 → ∀ text : String,
      reason? (.reverted output) = some text ↔
        ∃ data offset length, Carries output text data offset length := by
  constructor
  · intro text trailing hlength
    have htext : (Bytes.ofText text).length < bound64 := by
      simp only [reasonPayload, List.length_append] at hlength
      omega
    exact (reasonIn?_eq_some_iff hlength).2 ⟨_, _, _, carries_reasonPayload htext trailing⟩
  · intro output houtput text
    exact reasonIn?_eq_some_iff houtput

/-- The sum of the largest offset and 32 does not fit in 64 bits. -/
example : reason? (.reverted (reasonSelector ++ List.replicate 24 0 ++ List.replicate 8 255)) =
    none := by
  decide +kernel

/-- A text with more bytes than letters and bytes behind it, and 32 zero bytes that are the offset
and the length of the empty text at once. -/
theorem overlapping_heads_are_read :
    (reasonPayload "zu wenig für 5 €" ++ [1, 2, 3]).length < bound64 ∧
    reason? (.reverted (reasonPayload "zu wenig für 5 €" ++ [1, 2, 3])) =
      some "zu wenig für 5 €" ∧
    (reasonSelector ++ List.replicate 32 0).length < bound64 ∧
    reason? (.reverted (reasonSelector ++ List.replicate 32 0)) = some "" := by
  have hpayload : (reasonPayload "zu wenig für 5 €" ++ [1, 2, 3]).length < bound64 := by
    decide +kernel
  have hzeros : (reasonSelector ++ List.replicate 32 0).length < bound64 := by decide
  have hzero : NumberAt (List.replicate 32 0) 0 0 := ⟨by decide, by decide, by decide⟩
  obtain ⟨hread, hexact⟩ := reasons_are_read_exactly
  exact ⟨hpayload, hread _ _ hpayload, hzeros, (hexact _ hzeros "").2
    ⟨List.replicate 32 0, 0, 0, rfl, hzero, hzero, by decide, rfl⟩⟩

end Fault

end ContractVm
