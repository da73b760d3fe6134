import Mathlib
import ContractVm.Proofs.Nested

/-! # Totals

The total of a view is the sum of the balances that can be read from it, and the total of a ledger is
that of its view. A transfer debits as much as it credits, a new account is empty, new code leaves a
balance alone, and a bequest moves a balance to the heir. Only an account that is its own heir takes
its balance with it. -/

namespace ContractVm

/-! ### Totals -/

namespace View

/-- The balance that can be read at an address, zero if there is no account. -/
def balance (v : View) (x : Address) : Nat :=
  match v.account x with
  | .ok (some a) => a.balance.toNat
  | _ => 0

def total (v : View) : Nat :=
  ∑ x : Address, v.balance x

def Keyed (v : View) : Prop :=
  ∀ x a, v.account x = .ok (some a) → a.address = x

theorem balance_of_account {v : View} {x : Address} {a : Account}
    (h : v.account x = .ok (some a)) : v.balance x = a.balance.toNat := by
  rw [balance, h]

theorem balance_of_none {v : View} {x : Address} (h : v.account x = .ok none) : v.balance x = 0 := by
  rw [balance, h]

theorem total_update {v w : View} {x : Address}
    (h : ∀ y, y ≠ x → w.balance y = v.balance y) :
    w.total + v.balance x = v.total + w.balance x := by
  have hrest : ∑ y ∈ Finset.univ.erase x, w.balance y = ∑ y ∈ Finset.univ.erase x, v.balance y :=
    Finset.sum_congr rfl fun y hy => h y (Finset.ne_of_mem_erase hy)
  have hw := Finset.add_sum_erase Finset.univ w.balance (Finset.mem_univ x)
  have hv := Finset.add_sum_erase Finset.univ v.balance (Finset.mem_univ x)
  unfold total
  omega

theorem balance_put (v : View) (a : Account) (x : Address) :
    (v.apply (.put a)).balance x = if a.address = x then a.balance.toNat else v.balance x := by
  by_cases hx : a.address = x <;> simp [balance, apply, hx]

theorem balance_remove (v : View) (r x : Address) :
    (v.apply (.remove r)).balance x = if r = x then 0 else v.balance x := by
  by_cases hx : r = x <;> simp [balance, apply, hx]

theorem total_put (v : View) (a : Account) :
    (v.apply (.put a)).total + v.balance a.address = v.total + a.balance.toNat := by
  have hput : (v.apply (.put a)).balance a.address = a.balance.toNat := by
    rw [balance_put, if_pos rfl]
  rw [← hput]
  refine total_update fun y hy => ?_
  rw [balance_put, if_neg (Ne.symm hy)]

theorem Keyed.total_replace {v : View} (hk : v.Keyed) {x : Address} {a b : Account}
    (ha : v.account x = .ok (some a)) (hb : b.address = a.address) :
    (v.apply (.put b)).total + a.balance.toNat = v.total + b.balance.toNat := by
  have hold : v.balance b.address = a.balance.toNat := by
    rw [hb, hk x a ha]
    exact balance_of_account ha
  rw [← hold]
  exact v.total_put b

theorem total_remove (v : View) (x : Address) :
    (v.apply (.remove x)).total + v.balance x = v.total := by
  have hgone : (v.apply (.remove x)).balance x = 0 := by rw [balance_remove, if_pos rfl]
  have hrest : ∀ y, y ≠ x → (v.apply (.remove x)).balance y = v.balance y := by
    intro y hy
    rw [balance_remove, if_neg (Ne.symm hy)]
  have htotal := total_update hrest
  omega

theorem total_store (v : View) (x : Address) (key value : Word) :
    (v.apply (.store x key value)).total = v.total :=
  rfl

theorem Keyed.apply {v : View} (h : v.Keyed) (c : Change) : (v.apply c).Keyed := by
  intro x a ha
  cases c with
  | put b =>
    simp only [View.apply] at ha
    split at ha
    · next hx => cases ha; exact hx
    · exact h x a ha
  | remove r =>
    simp only [View.apply] at ha
    split at ha
    · cases ha
    · exact h x a ha
  | store r key value => exact h x a ha

end View

namespace Ledger

/-- Accounts are filed under their own addresses, as they are in every ledger that starts out empty
and takes changes (`keyed_empty`, `Keyed.foldl`). -/
def Keyed (l : Ledger) : Prop :=
  ∀ x a, l.account? x = some a → a.address = x

def total (l : Ledger) : Nat :=
  (l.accountList.map (·.balance.toNat)).sum

theorem keyed_empty : Keyed {} :=
  fun x a h => by simp [account?] at h

theorem keyed_iff (l : Ledger) : l.Keyed ↔ l.view.Keyed := by
  simp [Keyed, View.Keyed, view]

theorem Keyed.foldl {l : Ledger} (h : l.Keyed) (changes : List Change) :
    (changes.foldl apply l).Keyed := by
  induction changes generalizing l with
  | nil => exact h
  | cons c rest ih =>
    refine ih ((keyed_iff _).2 ?_)
    rw [view_apply]
    exact ((keyed_iff l).1 h).apply c

theorem accountList_eq (l : Ledger) : l.accountList = l.accounts.toList.map Prod.snd := by
  have hfold : l.accountList = l.accounts.foldr (fun _ a rest => a :: rest) [] := rfl
  rw [hfold, Std.TreeMap.foldr_eq_foldr_toList, List.map_eq_foldr]

theorem balance_view (l : Ledger) {x : Address} {a : Account} (h : (x, a) ∈ l.accounts.toList) :
    l.view.balance x = a.balance.toNat := by
  have hx : l.accounts[x]? = some a := Std.TreeMap.mem_toList_iff_getElem?_eq_some.1 h
  exact View.balance_of_account (congrArg Except.ok hx)

theorem balance_of_notMem (l : Ledger) {x : Address} (h : x ∉ l.accounts.keys) :
    l.view.balance x = 0 := by
  have hx : l.accounts[x]? = none :=
    Std.TreeMap.getElem?_eq_none fun hmem => h (Std.TreeMap.mem_keys.2 hmem)
  exact View.balance_of_none (congrArg Except.ok hx)

theorem total_view (l : Ledger) : l.view.total = l.total := by
  have hkeys : l.accounts.keys.Nodup := Std.TreeMap.nodup_keys
  calc l.view.total
      = ∑ x ∈ l.accounts.keys.toFinset, l.view.balance x := by
        refine (Finset.sum_subset (Finset.subset_univ _) fun x _ hx => ?_).symm
        exact l.balance_of_notMem fun h => hx (List.mem_toFinset.2 h)
    _ = (l.accounts.keys.map l.view.balance).sum := List.sum_toFinset _ hkeys
    _ = (l.accounts.toList.map fun entry => l.view.balance entry.1).sum := by
        rw [← Std.TreeMap.map_fst_toList_eq_keys, List.map_map]
        rfl
    _ = (l.accounts.toList.map fun entry => entry.2.balance.toNat).sum := by
        refine congrArg List.sum (List.map_congr_left fun entry h => ?_)
        exact l.balance_view h
    _ = l.total := by
        rw [total, accountList_eq, List.map_map]
        rfl

end Ledger

/-! ### Steps on a frame -/

/-- A total went from `before` to `after`: it did not grow, and it is the same if `p` holds. -/
structure Kept (p : Prop) (before after : Nat) : Prop where
  le : after ≤ before
  eq : p → after = before

theorem Kept.of_eq {p : Prop} {before after : Nat} (h : after = before) : Kept p before after :=
  ⟨h.le, fun _ => h⟩

theorem Kept.trans {p : Prop} {n₁ n₂ n₃ : Nat} (h₁ : Kept p n₁ n₂) (h₂ : Kept p n₂ n₃) :
    Kept p n₁ n₃ :=
  ⟨h₂.le.trans h₁.le, fun hp => (h₂.eq hp).trans (h₁.eq hp)⟩

theorem Kept.imp {p q : Prop} {before after : Nat} (h : Kept p before after) (hq : q → p) :
    Kept q before after :=
  ⟨h.le, fun hh => h.eq (hq hh)⟩

namespace Frame

variable {below : View} {f g : Frame}

theorem Writes.keyed (h : Writes f g) (hk : (f.view below).Keyed) : (g.view below).Keyed := by
  induction h with
  | refl => exact hk
  | tail _ step ih =>
    obtain ⟨c, hc⟩ := step
    rw [view_write hc]
    exact ih.apply c

theorem openAccount_total {x : Address} (h : f.openAccount below x = .ok g) :
    (g.view below).total = (f.view below).total := by
  obtain ⟨hnone, hw⟩ := openAccount_eq_ok.1 h
  have hput := (f.view below).total_put { address := x }
  have hbalance : (f.view below).balance x = 0 := View.balance_of_none hnone
  rw [view_write hw]
  simp only [hbalance] at hput
  simpa using hput

theorem installCode_total {x : Address} {code : Bytes} (hk : (f.view below).Keyed)
    (h : f.installCode below x code = .ok g) : (g.view below).total = (f.view below).total := by
  obtain ⟨a, ha, -, hw⟩ := installCode_eq_ok.1 h
  have hput := hk.total_replace ha (b := { a with code }) rfl
  rw [view_write hw]
  exact Nat.add_right_cancel hput

/-- A transfer takes from one account what it gives to the other, which may be the same. -/
theorem transfer_total {sender receiver : Address} {amount : Word} (hk : (f.view below).Keyed)
    (h : f.transfer below sender receiver amount = .ok g) :
    (g.view below).total = (f.view below).total := by
  by_cases hz : amount = 0
  · rw [transfer, if_pos hz] at h
    cases h
    rfl
  · obtain ⟨a, f₁, b, ha, hle, hf₁, hb, hlt, hg⟩ := (transfer_eq_ok hz).1 h
    have hk₁ : (f₁.view below).Keyed := (Writes.single hf₁).keyed hk
    have hdebit := hk.total_replace ha (b := { a with balance := a.balance - amount }) rfl
    have hcredit := hk₁.total_replace hb (b := { b with balance := b.balance + amount }) rfl
    rw [← view_write hf₁] at hdebit
    rw [← view_write hg] at hcredit
    rw [BitVec.toNat_sub_of_le hle] at hdebit
    rw [BitVec.toNat_add_of_lt hlt] at hcredit
    omega

/-- A bequest loses nothing, unless the heir is the account that goes. -/
theorem bequeath_total {x heir : Address} (hk : (f.view below).Keyed)
    (h : f.bequeath below x heir = .ok g) :
    Kept (heir ≠ x) (f.view below).total (g.view below).total := by
  obtain ⟨a, b, f₁, ha, hb, hlt, hf₁, hg⟩ := bequeath_eq_ok.1 h
  have hcredit := hk.total_replace hb (b := { b with balance := b.balance + a.balance }) rfl
  have hremove := (f₁.view below).total_remove x
  rw [← view_write hf₁, BitVec.toNat_add_of_lt hlt] at hcredit
  rw [← view_write hg] at hremove
  -- what goes with the account is its balance after the heir was credited
  have hheir : b.address = heir := hk heir b hb
  by_cases hne : heir = x
  · have hgone : (f₁.view below).balance x = b.balance.toNat + a.balance.toNat := by
      rw [view_write hf₁, View.balance_put, if_pos (hheir.trans hne), BitVec.toNat_add_of_lt hlt]
    exact ⟨by omega, fun hother => absurd hne hother⟩
  · have hgone : (f₁.view below).balance x = a.balance.toNat := by
      rw [view_write hf₁, View.balance_put, if_neg (hheir ▸ hne)]
      exact View.balance_of_account ha
    exact .of_eq (by omega)

end Frame

theorem Call.move_total {call : Call} {below : View} {frame frame' : Frame}
    (hk : (frame.view below).Keyed) (h : call.move below frame = .ok frame') :
    (frame'.view below).total = (frame.view below).total := by
  unfold move at h
  split at h
  · exact Frame.transfer_total hk h
  · cases h
    rfl

theorem Landing.install_total {landing : Landing} {caller : View} {output : Bytes}
    {frame child : Frame} (hk : (frame.view caller).Keyed)
    (h : landing.install caller output frame = .ok child) :
    (child.view caller).total = (frame.view caller).total := by
  cases landing with
  | create address => exact Frame.installCode_total hk h
  | memory offset size =>
    cases h
    rfl

theorem Stepped.invoke_keyed {env : Env} {m m' : Machine} {op : Opcode} {inv : Invocation}
    (h : Stepped env m op (.invoke inv) m') (hk : (m'.view env).Keyed) :
    (inv.frame.view (m'.view env)).Keyed := by
  obtain ⟨child, habove, -, hwrites⟩ := h.above
  refine hwrites.keyed ?_
  rw [Frame.view_of_empty habove.accounts habove.slots]
  exact hk

end ContractVm
