import Mathlib
import ContractVm.Nested
import ContractVm.Proofs.Overlay

/-! # Steps that move value and accounts

Each step on a frame that moves a balance, opens an account or closes one is a short chain of reads
and accepted writes. The `_eq_ok` lemmas take a step that works apart into its chain; what is proved
about single writes then carries over. -/

namespace ContractVm

theorem bind_eq_ok {ε α β : Type} {x : Except ε α} {next : α → Except ε β} {b : β} :
    (x >>= next) = .ok b ↔ ∃ a, x = .ok a ∧ next a = .ok b := by
  constructor
  · intro h
    cases hx : x with
    | error e => rw [hx] at h; cases h
    | ok a => rw [hx] at h; exact ⟨a, rfl, h⟩
  · rintro ⟨a, rfl, h⟩
    exact h

namespace View

theorem existing_eq_ok {v : View} {x : Address} {a : Account} :
    v.existing x = .ok a ↔ v.account x = .ok (some a) := by
  unfold existing
  rw [bind_eq_ok]
  constructor
  · rintro ⟨entry, hentry, h⟩
    cases entry with
    | none => cases h
    | some b => cases h; exact hentry
  · exact fun h => ⟨some a, h, rfl⟩

theorem exists?_eq_ok {v : View} {x : Address} {b : Bool} :
    v.exists? x = .ok b ↔ ∃ entry, v.account x = .ok entry ∧ entry.isSome = b := by
  unfold exists?
  rw [bind_eq_ok]
  constructor
  · rintro ⟨entry, hentry, h⟩
    cases h
    exact ⟨entry, hentry, rfl⟩
  · rintro ⟨entry, hentry, rfl⟩
    exact ⟨entry, hentry, rfl⟩

end View

namespace Account

theorem debit_eq_ok {amount : Word} {a b : Account} :
    a.debit amount = .ok b ↔
      amount.toNat ≤ a.balance.toNat ∧ b = { a with balance := a.balance - amount } := by
  unfold debit
  split
  · next h => simp [h, eq_comm]
  · next h => simp [h]

theorem credit_eq_ok {amount : Word} {a b : Account} :
    a.credit amount = .ok b ↔ a.balance.toNat + amount.toNat < Word.modulus ∧
      b = { a with balance := a.balance + amount } := by
  unfold credit
  split
  · next h => simp [h, eq_comm]
  · next h => simp [h]

end Account

namespace Frame

variable {below : View} {f g : Frame}

theorem openAccount_eq_ok {x : Address} :
    f.openAccount below x = .ok g ↔
      (f.view below).account x = .ok none ∧ f.write (.put { address := x }) = .ok g := by
  unfold openAccount
  rw [bind_eq_ok]
  constructor
  · rintro ⟨present, hpresent, h⟩
    obtain ⟨entry, hentry, rfl⟩ := View.exists?_eq_ok.1 hpresent
    cases entry with
    | none => exact ⟨hentry, h⟩
    | some a => cases h
  · rintro ⟨hnone, h⟩
    exact ⟨false, View.exists?_eq_ok.2 ⟨none, hnone, rfl⟩, h⟩

theorem installCode_eq_ok {x : Address} {code : Bytes} :
    f.installCode below x code = .ok g ↔
      ∃ a, (f.view below).account x = .ok (some a) ∧ a.hasCode = false ∧
        f.write (.put { a with code }) = .ok g := by
  unfold installCode
  rw [bind_eq_ok]
  constructor
  · rintro ⟨a, ha, h⟩
    cases hc : a.hasCode with
    | true => rw [hc] at h; cases h
    | false => rw [hc] at h; exact ⟨a, View.existing_eq_ok.1 ha, hc, h⟩
  · rintro ⟨a, ha, hc, h⟩
    exact ⟨a, View.existing_eq_ok.2 ha, by rw [hc]; exact h⟩

/-- A transfer debits the sender before it reads and credits the receiver. -/
theorem transfer_eq_ok {sender receiver : Address} {amount : Word} (hne : amount ≠ 0) :
    f.transfer below sender receiver amount = .ok g ↔
      ∃ a f₁ b, (f.view below).account sender = .ok (some a) ∧
        amount.toNat ≤ a.balance.toNat ∧
        f.write (.put { a with balance := a.balance - amount }) = .ok f₁ ∧
        (f₁.view below).account receiver = .ok (some b) ∧
        b.balance.toNat + amount.toNat < Word.modulus ∧
        f₁.write (.put { b with balance := b.balance + amount }) = .ok g := by
  unfold transfer
  rw [if_neg hne]
  simp only [bind_eq_ok, View.existing_eq_ok, Account.debit_eq_ok, Account.credit_eq_ok]
  constructor
  · rintro ⟨a, ha, _, ⟨hle, rfl⟩, f₁, hf₁, b, hb, _, ⟨hlt, rfl⟩, hg⟩
    exact ⟨a, f₁, b, ha, hle, hf₁, hb, hlt, hg⟩
  · rintro ⟨a, f₁, b, ha, hle, hf₁, hb, hlt, hg⟩
    exact ⟨a, ha, _, ⟨hle, rfl⟩, f₁, hf₁, b, hb, _, ⟨hlt, rfl⟩, hg⟩

/-- A bequest credits the heir before it removes the account. -/
theorem bequeath_eq_ok {x heir : Address} :
    f.bequeath below x heir = .ok g ↔
      ∃ a b f₁, (f.view below).account x = .ok (some a) ∧
        (f.view below).account heir = .ok (some b) ∧
        b.balance.toNat + a.balance.toNat < Word.modulus ∧
        f.write (.put { b with balance := b.balance + a.balance }) = .ok f₁ ∧
        f₁.write (.remove x) = .ok g := by
  unfold bequeath
  simp only [bind_eq_ok, View.existing_eq_ok, Account.credit_eq_ok]
  constructor
  · rintro ⟨a, ha, b, hb, _, ⟨hlt, rfl⟩, f₁, hf₁, hg⟩
    exact ⟨a, b, f₁, ha, hb, hlt, hf₁, hg⟩
  · rintro ⟨a, b, f₁, ha, hb, hlt, hf₁, hg⟩
    exact ⟨a, ha, b, hb, _, ⟨hlt, rfl⟩, f₁, hf₁, hg⟩

/-! ### The writes they make -/

theorem openAccount_writes {x : Address} (h : f.openAccount below x = .ok g) : Writes f g :=
  .single (openAccount_eq_ok.1 h).2

theorem installCode_writes {x : Address} {code : Bytes} (h : f.installCode below x code = .ok g) :
    Writes f g := by
  obtain ⟨a, -, -, hw⟩ := installCode_eq_ok.1 h
  exact .single hw

theorem transfer_writes {sender receiver : Address} {amount : Word}
    (h : f.transfer below sender receiver amount = .ok g) : Writes f g := by
  by_cases hz : amount = 0
  · rw [transfer, if_pos hz] at h
    cases h
    exact .refl
  · obtain ⟨a, f₁, b, -, -, hf₁, -, -, hg⟩ := (transfer_eq_ok hz).1 h
    exact (Writes.single hf₁).trans (Writes.single hg)

theorem bequeath_writes {x heir : Address} (h : f.bequeath below x heir = .ok g) : Writes f g := by
  obtain ⟨a, b, f₁, -, -, -, hf₁, hg⟩ := bequeath_eq_ok.1 h
  exact (Writes.single hf₁).trans (Writes.single hg)

end Frame

end ContractVm
