import Mathlib
import ContractVm.Proofs.Analysis

/-! # The decomposition of code

Code is a row of instructions: the first starts at offset 0, and each of the others right behind the
one before it and that one's data (`Code.Starts`). Every offset inside the code starts an instruction
or lies in the data of one push (`Code.starts_or_pushed`), and the analysis tells the two apart. -/

namespace ContractVm

namespace Opcode

/-- How many bytes of data follow a byte of code, if it starts an instruction. -/
def dataSize (byte : UInt8) : Nat :=
  match ofByte? byte with
  | some op => op.pushSize
  | none => 0

theorem immediateSize_of_none {byte : UInt8} (h : ofByte? byte = none) : immediateSize byte = 0 := by
  unfold immediateSize
  split
  · next hpush =>
    rw [ofByte?, dif_pos hpush] at h
    cases h
  · rfl

theorem immediateSize_eq_dataSize (byte : UInt8) : immediateSize byte = dataSize byte := by
  unfold dataSize
  split
  · next op hop => exact (pushSize_of_ofByte hop).symm
  · next hnone => exact immediateSize_of_none hnone

theorem dataSize_of_push {byte : UInt8} {n : Fin 32} (h : ofByte? byte = some (.push n)) :
    dataSize byte = n.val + 1 := by
  simp only [dataSize, h, pushSize]

theorem push_of_dataSize {byte : UInt8} (h : 0 < dataSize byte) :
    ∃ n : Fin 32, ofByte? byte = some (.push n) := by
  unfold dataSize at h
  split at h
  · next op hop =>
    cases op with
    | push n => exact ⟨n, hop⟩
    | _ => simp only [pushSize] at h; omega
  · omega

end Opcode

namespace Code

inductive Starts (bs : Bytes) : Nat → Prop where
  | first (h : 0 < bs.length) : Starts bs 0
  | behind {p : Nat} {b : UInt8} (hp : Starts bs p) (hb : bs[p]? = some b)
      (h : p + 1 + Opcode.dataSize b < bs.length) : Starts bs (p + 1 + Opcode.dataSize b)

/-- The byte at `q` is a push, and `p` is one of the offsets that its data takes up. -/
def Pushed (bs : Bytes) (q p : Nat) : Prop :=
  ∃ (b : UInt8) (n : Fin 32), bs[q]? = some b ∧ Opcode.ofByte? b = some (.push n) ∧
    q < p ∧ p ≤ q + (n.val + 1)

theorem Starts.lt_length {bs : Bytes} {p : Nat} (h : Starts bs p) : p < bs.length := by
  cases h with
  | first h => exact h
  | behind _ _ h => exact h

theorem pushed_of_dataSize {bs : Bytes} {q p : Nat} {b : UInt8} (hb : bs[q]? = some b)
    (hlt : q < p) (hle : p ≤ q + Opcode.dataSize b) : Pushed bs q p := by
  have hpush : 0 < Opcode.dataSize b := by omega
  obtain ⟨n, hn⟩ := Opcode.push_of_dataSize hpush
  rw [Opcode.dataSize_of_push hn] at hle
  exact ⟨b, n, hb, hn, hlt, hle⟩

/-- Nothing is left out: an offset inside the code starts an instruction or lies in the data of a
push that does. -/
theorem starts_or_pushed {bs : Bytes} {p : Nat} (hp : p < bs.length) :
    Starts bs p ∨ ∃ q, Starts bs q ∧ Pushed bs q p := by
  induction p with
  | zero => exact Or.inl (.first hp)
  | succ p ih =>
    rcases ih (by omega) with hstarts | ⟨q, hq, b, n, hb, hn, hlt, hle⟩
    · obtain ⟨b, hb⟩ : ∃ b, bs[p]? = some b := ⟨bs[p], List.getElem?_eq_getElem (by omega)⟩
      by_cases hdata : Opcode.dataSize b = 0
      · have hbehind := hstarts.behind hb (by omega)
        rw [hdata] at hbehind
        exact Or.inl hbehind
      · exact Or.inr ⟨p, hstarts, pushed_of_dataSize hb (by omega) (by omega)⟩
    · have hsize := Opcode.dataSize_of_push hn
      by_cases hlast : p + 1 ≤ q + (n.val + 1)
      · exact Or.inr ⟨q, hq, b, n, hb, hn, by omega, hlast⟩
      · -- the data ends at `p`, and the next instruction starts behind it
        have hnext : q + 1 + Opcode.dataSize b = p + 1 := by omega
        have hbehind := hq.behind hb (by omega)
        rw [hnext] at hbehind
        exact Or.inl hbehind

theorem Starts.apart {bs : Bytes} {p q : Nat} {b : UInt8} (hp : Starts bs p) (hb : bs[p]? = some b)
    (hq : Starts bs q) (hlt : p < q) : p + 1 + Opcode.dataSize b ≤ q := by
  induction q using Nat.strong_induction_on generalizing p b with
  | _ q ih =>
    cases hq with
    | first _ => omega
    | @behind q' c hq' hc _ =>
      rcases Nat.lt_trichotomy p q' with hbefore | rfl | hinside
      · have hnext := ih q' (by omega) hp hb hq' hbefore
        omega
      · obtain rfl := Option.some.inj (hb.symm.trans hc)
        exact le_refl _
      · -- `p` would have to lie in the data of the instruction before `q`
        have hnext := ih p hlt hq' hc hp hinside
        omega

/-! ### The analysis -/

theorem starts_iff_walks {bs : Bytes} {p : Nat} : Starts bs p ↔ Walks bs 0 p := by
  constructor
  · intro h
    induction h with
    | first h => exact .here h
    | @behind p b _ hb h ih =>
      rw [← Opcode.immediateSize_eq_dataSize] at h ⊢
      exact ih.behind hb h
  · have hfrom : ∀ {start : Nat}, Walks bs start p → Starts bs start → Starts bs p := by
      intro start hwalk
      induction hwalk with
      | here _ => exact id
      | @later start p b hb hlater ih =>
        intro hstart
        apply ih
        have hnext := hlater.start_lt
        rw [Opcode.immediateSize_eq_dataSize] at hnext ⊢
        exact hstart.behind hb hnext
    intro h
    exact hfrom h (.first h.start_lt)

theorem isPushData_eq_false_iff {bs : Bytes} {p : Nat} :
    (ofBytes bs).isPushData p = false ↔ bs.length ≤ p ∨ Starts bs p := by
  rw [isPushData_eq_false_iff_walks, starts_iff_walks]

theorem Starts.isPushData_of_pushed {bs : Bytes} {q p : Nat} (hq : Starts bs q)
    (hpushed : Pushed bs q p) (hp : p < bs.length) : (ofBytes bs).isPushData p = true := by
  obtain ⟨b, n, hb, hn, hlt, hle⟩ := hpushed
  have hsize := Opcode.dataSize_of_push hn
  rw [← Bool.not_eq_false, isPushData_eq_false_iff]
  rintro (hend | hstarts)
  · omega
  · have hapart := hq.apart hb hstarts hlt
    omega

theorem isPushData_eq_true_iff {bs : Bytes} {p : Nat} :
    (ofBytes bs).isPushData p = true ↔ p < bs.length ∧ ∃ q, Starts bs q ∧ Pushed bs q p := by
  constructor
  · intro htrue
    have hnot : ¬(bs.length ≤ p ∨ Starts bs p) := by
      rw [← isPushData_eq_false_iff, htrue]
      exact Bool.noConfusion
    have hp : p < bs.length := Nat.lt_of_not_le fun hend => hnot (Or.inl hend)
    exact ⟨hp, (starts_or_pushed hp).resolve_left fun hstarts => hnot (Or.inr hstarts)⟩
  · rintro ⟨hp, q, hq, hpushed⟩
    exact hq.isPushData_of_pushed hpushed hp

theorem byteAt_eq_iff {bs : Bytes} {p : Nat} {b : UInt8} (hb : b ≠ 0) :
    (ofBytes bs).byteAt p = b ↔ bs[p]? = some b := by
  rw [byteAt_ofBytes, List.getD_eq_getElem?_getD]
  cases bs[p]? with
  | none => simpa using hb.symm
  | some c => simp

/-- The analysis marks exactly the offsets that lie in the data of a push which starts an
instruction, as far as the code goes, and a jump may land exactly on the marks that start one. -/
theorem analysis_is_exact (bs : Bytes) (p : Nat) :
    ((ofBytes bs).isPushData p = true ↔
      p < bs.length ∧ ∃ (q : Nat) (b : UInt8) (n : Fin 32), Starts bs q ∧ bs[q]? = some b ∧
        Opcode.ofByte? b = some (.push n) ∧ q < p ∧ p ≤ q + (n.val + 1)) ∧
    ((ofBytes bs).isPushData p = false ↔ bs.length ≤ p ∨ Starts bs p) ∧
    ((ofBytes bs).isJumpDest p = true ↔
      p < bs.length ∧ bs[p]? = some 0x5b ∧ Starts bs p) := by
  refine ⟨?_, isPushData_eq_false_iff, ?_⟩
  · rw [isPushData_eq_true_iff]
    refine and_congr_right fun _ => exists_congr fun q => ?_
    constructor
    · rintro ⟨hq, b, n, hrest⟩
      exact ⟨b, n, hq, hrest⟩
    · rintro ⟨b, n, hq, hrest⟩
      exact ⟨hq, b, n, hrest⟩
  · rw [isJumpDest_iff, byteAt_eq_iff (by decide), isPushData_eq_false_iff]
    constructor
    · rintro ⟨hbyte, hend | hstarts⟩
      · rw [List.getElem?_eq_none hend] at hbyte
        cases hbyte
      · exact ⟨hstarts.lt_length, hbyte, hstarts⟩
    · rintro ⟨-, hbyte, hstarts⟩
      exact ⟨hbyte, Or.inr hstarts⟩

end Code

end ContractVm
