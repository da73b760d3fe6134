import Mathlib
import ContractVm.Frame
import ContractVm.Ledger

/-! # Frames as overlays

A change has one meaning on what can be read, `View.apply`, whoever takes it: a frame that accepts a
change and a ledger that applies it both read afterwards as that change says. The changes a coherent
frame holds, applied to any view below it, give back the frame's own view
(`Frame.foldl_changes`); handing them down therefore makes the receiver read as the frame did, and a
frame below refuses them exactly if one of them writes to an address it has removed. -/

namespace ContractVm

namespace View

@[ext] theorem ext {v w : View} (account : ∀ x, v.account x = w.account x)
    (slot : ∀ x k, v.slot x k = w.slot x k) : v = w := by
  cases v
  cases w
  congr
  · exact funext account
  · exact funext fun x => funext (slot x)

def apply (v : View) : Change → View
  | .put a => { v with account := fun x => if a.address = x then .ok (some a) else v.account x }
  | .remove r =>
    { account := fun x => if r = x then .ok none else v.account x
      slot := fun x k => if r = x then .ok 0 else v.slot x k }
  | .store r key value =>
    { v with slot := fun x k => if r = x ∧ key = k then .ok value else v.slot x k }

/-- A reading that every change of a list keeps at `e` ends at `e` if it starts there or some change
sets it. The order of the changes does not matter. -/
theorem foldl_apply {β : Type} {g : View → β} {e : β} (changes : List Change) (v : View)
    (keep : ∀ c ∈ changes, ∀ v : View, g v = e → g (v.apply c) = e)
    (h : g v = e ∨ ∃ c ∈ changes, ∀ v : View, g (v.apply c) = e) :
    g (changes.foldl apply v) = e := by
  induction changes generalizing v with
  | nil =>
    rcases h with h | ⟨c, hc, -⟩
    · exact h
    · cases hc
  | cons c rest ih =>
    have keepRest : ∀ d ∈ rest, ∀ v : View, g v = e → g (v.apply d) = e :=
      fun d hd => keep d (List.mem_cons_of_mem _ hd)
    refine ih (v.apply c) keepRest ?_
    rcases h with h | ⟨d, hd, sets⟩
    · exact Or.inl (keep c List.mem_cons_self v h)
    · rcases List.mem_cons.1 hd with rfl | hd
      · exact Or.inl (sets v)
      · exact Or.inr ⟨d, hd, sets⟩

end View

/-- The address that a change writes to; a removal writes to none. -/
def Change.writesTo : Change → Option Address
  | .put a => some a.address
  | .remove _ => none
  | .store address _ _ => some address

theorem applyAll_view {σ : Type} [Writable σ] (read : σ → View)
    (law : ∀ {s t : σ} {c : Change}, Writable.write s c = .ok t → read t = (read s).apply c)
    {changes : List Change} {s t : σ} (h : applyAll Writable.write changes s = (t, .ok ())) :
    read t = changes.foldl View.apply (read s) := by
  induction changes generalizing s with
  | nil =>
    cases h
    rfl
  | cons c rest ih =>
    simp only [applyAll] at h
    cases hw : Writable.write s c with
    | error fault => simp [hw] at h
    | ok s' =>
      simp only [hw] at h
      rw [ih h, law hw, List.foldl_cons]

namespace Ledger

theorem view_apply (l : Ledger) (c : Change) : (l.apply c).view = l.view.apply c := by
  cases c with
  | put a => ext x <;> simp [apply, view, View.apply, apply_ite Except.ok]
  | remove r => ext x <;> simp [apply, view, View.apply, apply_ite Except.ok]
  | store r key value => ext x <;> simp [apply, view, View.apply, apply_ite Except.ok]

theorem applyAll_write (changes : List Change) (l : Ledger) :
    applyAll Writable.write changes l = (changes.foldl apply l, .ok ()) := by
  induction changes generalizing l with
  | nil => rfl
  | cons c rest ih => exact ih (l.apply c)

theorem view_foldl (changes : List Change) (l : Ledger) :
    (changes.foldl apply l).view = changes.foldl View.apply l.view := by
  induction changes generalizing l with
  | nil => rfl
  | cons c rest ih => rw [List.foldl_cons, List.foldl_cons, ih, view_apply]

end Ledger

namespace Frame

/-! ### Accepted changes -/

theorem view_write {f g : Frame} {c : Change} (h : f.write c = .ok g) (below : View) :
    g.view below = (f.view below).apply c := by
  cases c with
  | put a =>
    ext x
    · simp only [view, View.apply, account_write_put h below x]
    · simp only [view, View.apply, slot_write_put h below x]
  | remove r =>
    ext x
    · simp only [view, View.apply, account_write_remove h below x]
    · simp only [view, View.apply, slot_write_remove h below x]
  | store r key value =>
    ext x
    · simp only [view, View.apply, account_write_store h below x]
    · simp only [view, View.apply, slot_write_store h below x]

theorem write_put {f g : Frame} {a : Account} :
    f.write (.put a) = .ok g ↔ f.readOnly = false ∧ f.removed a.address = false ∧
      g = { f with accounts := f.accounts.insert a.address (some a) } := by
  cases hro : f.readOnly <;> cases hr : f.removed a.address <;> simp [write, hro, hr, eq_comm]

theorem write_remove {f g : Frame} {r : Address} :
    f.write (.remove r) = .ok g ↔ f.readOnly = false ∧
      g = { f with accounts := f.accounts.insert r none, slots := f.slots.erase r } := by
  cases hro : f.readOnly <;> simp [write, hro, eq_comm]

theorem write_store {f g : Frame} {r : Address} {key value : Word} :
    f.write (.store r key value) = .ok g ↔ f.readOnly = false ∧ f.removed r = false ∧
      g = { f with slots := f.slots.insert r ((f.slots.getD r ∅).insert key value) } := by
  cases hro : f.readOnly <;> cases hr : f.removed r <;> simp [write, hro, hr, eq_comm]

theorem write_keeps {f g : Frame} {c : Change} (h : f.write c = .ok g) :
    f.readOnly = false ∧ g.readOnly = f.readOnly ∧ g.depth = f.depth ∧ g.maxDepth = f.maxDepth := by
  cases c with
  | put a =>
    obtain ⟨hro, -, rfl⟩ := write_put.1 h
    exact ⟨hro, rfl, rfl, rfl⟩
  | remove r =>
    obtain ⟨hro, rfl⟩ := write_remove.1 h
    exact ⟨hro, rfl, rfl, rfl⟩
  | store r key value =>
    obtain ⟨hro, -, rfl⟩ := write_store.1 h
    exact ⟨hro, rfl, rfl, rfl⟩

/-- The frame `g` is `f` after some accepted changes. -/
def Writes : Frame → Frame → Prop :=
  Relation.ReflTransGen fun f g => ∃ c, f.write c = .ok g

theorem Writes.refl {f : Frame} : Writes f f :=
  Relation.ReflTransGen.refl

theorem Writes.trans {f g h : Frame} (h₁ : Writes f g) (h₂ : Writes g h) : Writes f h :=
  Relation.ReflTransGen.trans h₁ h₂

theorem Writes.single {f g : Frame} {c : Change} (h : f.write c = .ok g) : Writes f g :=
  Relation.ReflTransGen.single ⟨c, h⟩

theorem Writes.keeps {f g : Frame} (h : Writes f g) :
    g.readOnly = f.readOnly ∧ g.depth = f.depth ∧ g.maxDepth = f.maxDepth := by
  induction h with
  | refl => exact ⟨rfl, rfl, rfl⟩
  | tail _ step ih =>
    obtain ⟨c, hc⟩ := step
    obtain ⟨-, hro, hd, hm⟩ := write_keeps hc
    exact ⟨hro.trans ih.1, hd.trans ih.2.1, hm.trans ih.2.2⟩

theorem Writes.eq_of_readOnly {f g : Frame} (h : Writes f g) (hro : f.readOnly = true) : g = f := by
  induction h with
  | refl => rfl
  | tail _ step ih =>
    obtain ⟨c, hc⟩ := step
    rw [ih] at hc
    rw [(write_keeps hc).1] at hro
    cases hro

theorem applyAll_writes (changes : List Change) (f : Frame) :
    Writes f (applyAll Writable.write changes f).1 := by
  induction changes generalizing f with
  | nil => exact .refl
  | cons c rest ih =>
    simp only [applyAll]
    cases hw : (Writable.write f c : Except Fault Frame) with
    | error fault => exact .refl
    | ok g => exact .head ⟨c, hw⟩ (ih g)

/-! ### Coherent frames -/

/-- What every frame satisfies that started out empty: accounts are filed under their own addresses,
and a removed account has no slots. -/
structure Coherent (f : Frame) : Prop where
  keyed : ∀ {x} {a : Account}, f.accounts[x]? = some (some a) → a.address = x
  swept : ∀ {x}, f.accounts[x]? = some none → ∀ k : Word, (f.slots.getD x ∅)[k]? = none

theorem coherent_of_empty {f : Frame} (h : f.accounts = ∅) : f.Coherent :=
  { keyed := fun hx => by simp [h] at hx
    swept := fun hx => by simp [h] at hx }

theorem removed_iff {f : Frame} {x : Address} : f.removed x = true ↔ f.accounts[x]? = some none := by
  unfold removed
  split
  · next h => simp [h]
  · next h =>
    constructor
    · intro hf
      cases hf
    · intro hx
      exact absurd hx h

theorem Coherent.write {f g : Frame} {c : Change} (hf : f.Coherent) (h : f.write c = .ok g) :
    g.Coherent := by
  cases c with
  | put a =>
    obtain ⟨-, -, rfl⟩ := write_put.1 h
    constructor
    · intro x b hb
      rw [Std.TreeMap.getElem?_insert] at hb
      split at hb
      · next hx =>
        cases hb
        exact Std.compare_eq_iff_eq.1 hx
      · exact hf.keyed hb
    · intro x hx k
      rw [Std.TreeMap.getElem?_insert] at hx
      split at hx
      · cases hx
      · exact hf.swept hx k
  | remove r =>
    obtain ⟨-, rfl⟩ := write_remove.1 h
    constructor
    · intro x b hb
      rw [Std.TreeMap.getElem?_insert] at hb
      split at hb
      · cases hb
      · exact hf.keyed hb
    · intro x hx k
      rw [Std.TreeMap.getElem?_insert] at hx
      rw [Std.TreeMap.getD_erase]
      split at hx
      · next hr => simp [hr]
      · next hr =>
        rw [if_neg hr]
        exact hf.swept hx k
  | store r key value =>
    obtain ⟨-, hr, rfl⟩ := write_store.1 h
    constructor
    · exact hf.keyed
    · intro x hx k
      rw [Std.TreeMap.getD_insert]
      split
      · next hrx =>
        -- an accepted write to `x` means that `x` is not removed
        have hx' : f.removed r = true := removed_iff.2 (Std.compare_eq_iff_eq.1 hrx ▸ hx)
        rw [hx'] at hr
        cases hr
      · exact hf.swept hx k

theorem Writes.coherent {f g : Frame} (h : Writes f g) (hf : f.Coherent) : g.Coherent := by
  induction h with
  | refl => exact hf
  | tail _ step ih =>
    obtain ⟨c, hc⟩ := step
    exact ih.write hc

/-! ### Handing changes down -/

/-- All changes of a frame in the order in which they are handed down. -/
def changes (f : Frame) : List Change :=
  f.accountChanges ++ f.slotChanges

/-- Whether a frame holds a change that was not handed down yet. -/
def Holds (f : Frame) : Change → Prop
  | .put a => f.accounts[a.address]? = some (some a)
  | .remove r => f.accounts[r]? = some none
  | .store r key value => (f.slots.getD r ∅)[key]? = some value

theorem sync_snd {σ : Type} [Writable σ] (f : Frame) (below : σ) :
    (f.sync below).2 = applyAll Writable.write f.changes below := by
  rw [changes, applyAll_append, sync]
  rcases applyAll Writable.write f.accountChanges below with ⟨below', _ | _⟩ <;> rfl

theorem sync_fst_of_ok {σ : Type} [Writable σ] {f : Frame} {below : σ}
    (h : (f.sync below).2.2 = .ok ()) : (f.sync below).1 = { f with accounts := ∅, slots := ∅ } := by
  unfold sync at h ⊢
  cases hA : applyAll Writable.write f.accountChanges below with
  | mk below' result =>
    cases result with
    | error fault => simp [hA] at h
    | ok u => rfl

theorem mem_slotChanges {f : Frame} {c : Change} :
    c ∈ f.slotChanges ↔ ∃ r key value, c = .store r key value ∧ f.Holds c := by
  simp only [slotChanges, List.mem_flatMap, List.mem_map, Prod.exists,
    Std.TreeMap.mem_toList_iff_getElem?_eq_some]
  constructor
  · rintro ⟨r, own, hown, key, value, hv, rfl⟩
    refine ⟨r, key, value, rfl, ?_⟩
    simp only [Holds, Std.TreeMap.getD_eq_getD_getElem?, hown, Option.getD_some]
    exact hv
  · rintro ⟨r, key, value, rfl, hv⟩
    simp only [Holds, Std.TreeMap.getD_eq_getD_getElem?] at hv
    cases hown : f.slots[r]? with
    | none => simp [hown] at hv
    | some own =>
      rw [hown] at hv
      exact ⟨r, own, hown, key, value, hv, rfl⟩

theorem Coherent.mem_accountChanges {f : Frame} (hf : f.Coherent) {c : Change} :
    c ∈ f.accountChanges ↔ (∀ r key value, c ≠ .store r key value) ∧ f.Holds c := by
  simp only [accountChanges, List.mem_map, Prod.exists,
    Std.TreeMap.mem_toList_iff_getElem?_eq_some]
  constructor
  · rintro ⟨x, entry, hx, rfl⟩
    cases entry with
    | none => exact ⟨by simp, hx⟩
    | some a =>
      have ha : a.address = x := hf.keyed hx
      exact ⟨by simp, by simpa [Holds, ha] using hx⟩
  · rintro ⟨hc, hh⟩
    cases c with
    | put a => exact ⟨a.address, some a, hh, rfl⟩
    | remove r => exact ⟨r, none, hh, rfl⟩
    | store r key value => exact absurd rfl (hc r key value)

theorem Coherent.mem_changes {f : Frame} (hf : f.Coherent) {c : Change} :
    c ∈ f.changes ↔ f.Holds c := by
  rw [changes, List.mem_append, hf.mem_accountChanges, mem_slotChanges]
  cases c <;> simp

/-- A held change leaves the account at an address alone or sets it to what the frame has there. -/
theorem Holds.account_apply {f : Frame} {c : Change} (h : f.Holds c) (v : View) (x : Address) :
    (v.apply c).account x = v.account x ∨
      ∃ entry, f.accounts[x]? = some entry ∧ (v.apply c).account x = .ok entry := by
  cases c with
  | put a =>
    by_cases hx : a.address = x
    · exact Or.inr ⟨some a, hx ▸ h, by simp [View.apply, hx]⟩
    · exact Or.inl (by simp [View.apply, hx])
  | remove r =>
    by_cases hx : r = x
    · exact Or.inr ⟨none, hx ▸ h, by simp [View.apply, hx]⟩
    · exact Or.inl (by simp [View.apply, hx])
  | store r key value => exact Or.inl rfl

/-- A held change leaves a slot alone, sets it to what the frame has there, or clears it with its
account. -/
theorem Holds.slot_apply {f : Frame} {c : Change} (h : f.Holds c) (v : View) (x : Address)
    (k : Word) :
    (v.apply c).slot x k = v.slot x k ∨
      (∃ value, (f.slots.getD x ∅)[k]? = some value ∧ (v.apply c).slot x k = .ok value) ∨
      (f.accounts[x]? = some none ∧ (v.apply c).slot x k = .ok 0) := by
  cases c with
  | put a => exact Or.inl rfl
  | remove r =>
    by_cases hx : r = x
    · exact Or.inr (Or.inr ⟨hx ▸ h, by simp [View.apply, hx]⟩)
    · exact Or.inl (by simp [View.apply, hx])
  | store r key value =>
    by_cases hx : r = x ∧ key = k
    · obtain ⟨rfl, rfl⟩ := hx
      exact Or.inr (Or.inl ⟨value, h, by simp [View.apply]⟩)
    · exact Or.inl (by simp [View.apply, hx])

theorem Coherent.account_foldl {f : Frame} (hf : f.Coherent) (v : View) (x : Address) :
    (f.changes.foldl View.apply v).account x = f.account v x := by
  unfold account
  cases hx : f.accounts[x]? with
  | none =>
    refine View.foldl_apply (g := fun v => v.account x) _ v (fun c hc w hw => ?_) (Or.inl rfl)
    rcases (hf.mem_changes.1 hc).account_apply w x with h | ⟨entry, hentry, -⟩
    · exact h.trans hw
    · rw [hx] at hentry
      cases hentry
  | some entry =>
    refine View.foldl_apply (g := fun v => v.account x) _ v (fun c hc w hw => ?_) (Or.inr ?_)
    · rcases (hf.mem_changes.1 hc).account_apply w x with h | ⟨entry', hentry, h⟩
      · exact h.trans hw
      · rw [hx] at hentry
        cases hentry
        exact h
    · cases entry with
      | none => exact ⟨.remove x, hf.mem_changes.2 hx, fun w => by simp [View.apply]⟩
      | some a =>
        obtain rfl : a.address = x := hf.keyed hx
        exact ⟨.put a, hf.mem_changes.2 hx, fun w => by simp [View.apply]⟩

theorem Coherent.slot_foldl {f : Frame} (hf : f.Coherent) (v : View) (x : Address) (k : Word) :
    (f.changes.foldl View.apply v).slot x k = f.slot v x k := by
  unfold slot
  cases hx : (f.slots.getD x ∅)[k]? with
  | some value =>
    refine View.foldl_apply (g := fun v => v.slot x k) _ v (fun c hc w hw => ?_) (Or.inr ?_)
    · rcases (hf.mem_changes.1 hc).slot_apply w x k with h | ⟨value', hvalue, h⟩ | ⟨hr, -⟩
      · exact h.trans hw
      · rw [hx] at hvalue
        cases hvalue
        exact h
      · rw [hf.swept hr k] at hx
        cases hx
    · exact ⟨.store x k value, hf.mem_changes.2 hx, fun w => by simp [View.apply]⟩
  | none =>
    cases hr : f.removed x with
    | true =>
      refine View.foldl_apply (g := fun v => v.slot x k) _ v (fun c hc w hw => ?_) (Or.inr ?_)
      · rcases (hf.mem_changes.1 hc).slot_apply w x k with h | ⟨value, hvalue, -⟩ | ⟨-, h⟩
        · exact h.trans hw
        · rw [hx] at hvalue
          cases hvalue
        · exact h
      · exact ⟨.remove x, hf.mem_changes.2 (removed_iff.1 hr), fun w => by simp [View.apply]⟩
    | false =>
      refine View.foldl_apply (g := fun v => v.slot x k) _ v (fun c hc w hw => ?_) (Or.inl rfl)
      rcases (hf.mem_changes.1 hc).slot_apply w x k with h | ⟨value, hvalue, -⟩ | ⟨hr', -⟩
      · exact h.trans hw
      · rw [hx] at hvalue
        cases hvalue
      · rw [removed_iff.2 hr'] at hr
        cases hr

/-- The changes a frame holds, applied to what lies below it, amount to the frame's own view. -/
theorem Coherent.foldl_changes {f : Frame} (hf : f.Coherent) (v : View) :
    f.changes.foldl View.apply v = f.view v :=
  View.ext (hf.account_foldl v) (hf.slot_foldl v)

theorem Coherent.sync_ledger {f : Frame} (hf : f.Coherent) (l : Ledger) :
    ∃ l', (f.sync l).2 = (l', .ok ()) ∧ l'.view = f.view l.view := by
  refine ⟨f.changes.foldl Ledger.apply l, ?_, ?_⟩
  · rw [sync_snd, Ledger.applyAll_write]
  · rw [Ledger.view_foldl, hf.foldl_changes]

theorem Coherent.view_sync {f g h : Frame} (hf : f.Coherent) (hs : (f.sync g).2 = (h, .ok ()))
    (below : View) : h.view below = f.view (g.view below) := by
  rw [sync_snd] at hs
  rw [applyAll_view (fun g => g.view below) (fun hw => view_write hw below) hs, hf.foldl_changes]

/-- What was handed down, be it all or up to a refusal, was accepted change by change. -/
theorem sync_writes {f g h : Frame} {result : Except Fault Unit} (hs : (f.sync g).2 = (h, result)) :
    Writes g h := by
  rw [sync_snd] at hs
  have hw := applyAll_writes f.changes g
  rw [hs] at hw
  exact hw

/-! ### Refused changes -/

theorem removed_write {f g : Frame} {c : Change} (h : f.write c = .ok g) (x : Address) :
    g.removed x = true ↔ f.removed x = true ∨ c = .remove x := by
  rw [removed_iff, removed_iff]
  cases c with
  | put a =>
    obtain ⟨-, hr, rfl⟩ := write_put.1 h
    rw [Std.TreeMap.getElem?_insert]
    split
    · next hx =>
      obtain rfl : a.address = x := Std.compare_eq_iff_eq.1 hx
      have hx' : f.accounts[a.address]? ≠ some none := fun hn => by
        rw [removed_iff.2 hn] at hr
        cases hr
      simp [hx']
    · simp
  | remove r =>
    obtain ⟨-, rfl⟩ := write_remove.1 h
    rw [Std.TreeMap.getElem?_insert]
    split
    · next hx => simp [Std.compare_eq_iff_eq.1 hx]
    · next hx =>
      have hx' : r ≠ x := fun he => hx (Std.compare_eq_iff_eq.2 he)
      simp [hx']
  | store r key value =>
    obtain ⟨-, -, rfl⟩ := write_store.1 h
    simp

/-- Whether a change writes to an address that a frame has removed. -/
def Blocks (f : Frame) (c : Change) : Prop :=
  ∃ x, c.writesTo = some x ∧ f.removed x = true

theorem write_of_blocks {f : Frame} {c : Change} (h : f.Blocks c) :
    f.write c = .error .illegalWrite := by
  obtain ⟨x, hc, hx⟩ := h
  cases c with
  | put a =>
    cases hc
    simp [write, hx]
  | remove r => cases hc
  | store r key value =>
    cases hc
    simp [write, hx]

theorem write_of_not_blocks {f : Frame} {c : Change} (hro : f.readOnly = false)
    (h : ¬f.Blocks c) : ∃ g, f.write c = .ok g := by
  cases c with
  | put a =>
    have hr : f.removed a.address = false := by
      simpa using fun hx => h ⟨a.address, rfl, hx⟩
    exact ⟨_, write_put.2 ⟨hro, hr, rfl⟩⟩
  | remove r => exact ⟨_, write_remove.2 ⟨hro, rfl⟩⟩
  | store r key value =>
    have hr : f.removed r = false := by
      simpa using fun hx => h ⟨r, rfl, hx⟩
    exact ⟨_, write_store.2 ⟨hro, hr, rfl⟩⟩

/-- A list of changes that writes to no address it removes is refused exactly if the frame blocks one
of them from the start. -/
theorem applyAll_write_result {changes : List Change} {f : Frame} (hro : f.readOnly = false)
    (apart : ∀ x, .remove x ∈ changes → ∀ c ∈ changes, c.writesTo ≠ some x) :
    (∃ c ∈ changes, f.Blocks c) ∧
        (applyAll Writable.write changes f).2 = .error .illegalWrite ∨
      (∀ c ∈ changes, ¬f.Blocks c) ∧ (applyAll Writable.write changes f).2 = .ok () := by
  induction changes generalizing f with
  | nil => exact Or.inr ⟨by simp, rfl⟩
  | cons c rest ih =>
    by_cases hc : f.Blocks c
    · have hw : (Writable.write f c : Except Fault Frame) = .error .illegalWrite :=
        write_of_blocks hc
      exact Or.inl ⟨⟨c, List.mem_cons_self, hc⟩, by simp only [applyAll, hw]⟩
    · obtain ⟨g, hg⟩ := write_of_not_blocks hro hc
      have hw : (Writable.write f c : Except Fault Frame) = .ok g := hg
      have hgro : g.readOnly = false := (write_keeps hg).2.1.trans hro
      have apartRest : ∀ x, .remove x ∈ rest → ∀ d ∈ rest, d.writesTo ≠ some x :=
        fun x hx d hd => apart x (List.mem_cons_of_mem _ hx) d (List.mem_cons_of_mem _ hd)
      -- the change just taken blocks none of the others
      have same : ∀ d ∈ rest, (g.Blocks d ↔ f.Blocks d) := by
        intro d hd
        refine exists_congr fun x => and_congr_right fun hx => ?_
        rw [removed_write hg x, or_iff_left]
        rintro rfl
        exact apart x List.mem_cons_self d (List.mem_cons_of_mem _ hd) hx
      simp only [applyAll, hw]
      rcases ih hgro apartRest with ⟨⟨d, hd, hblock⟩, hres⟩ | ⟨hnone, hres⟩
      · exact Or.inl ⟨⟨d, List.mem_cons_of_mem _ hd, (same d hd).1 hblock⟩, hres⟩
      · refine Or.inr ⟨fun d hd => ?_, hres⟩
        rcases List.mem_cons.1 hd with rfl | hd
        · exact hc
        · exact fun hblock => hnone d hd ((same d hd).2 hblock)

theorem Coherent.apart {f : Frame} (hf : f.Coherent) (x : Address) (hx : .remove x ∈ f.changes)
    (c : Change) (hc : c ∈ f.changes) : c.writesTo ≠ some x := by
  have hr : f.accounts[x]? = some none := hf.mem_changes.1 hx
  have hh := hf.mem_changes.1 hc
  intro hw
  cases c with
  | put a =>
    cases hw
    rw [Holds, hr] at hh
    cases hh
  | remove r => cases hw
  | store r key value =>
    cases hw
    rw [Holds, hf.swept hr key] at hh
    cases hh

/-- Handing changes down to a frame fails, and then as an illegal write, exactly if the frame below
blocks one of them. -/
theorem Coherent.sync_result {f g : Frame} (hf : f.Coherent) (hro : g.readOnly = false) :
    (∃ c, f.Holds c ∧ g.Blocks c) ∧ (f.sync g).2.2 = .error .illegalWrite ∨
      (∀ c, f.Holds c → ¬g.Blocks c) ∧ (f.sync g).2.2 = .ok () := by
  rw [sync_snd]
  rcases applyAll_write_result hro hf.apart with ⟨⟨c, hc, hb⟩, hres⟩ | ⟨hnone, hres⟩
  · exact Or.inl ⟨⟨c, hf.mem_changes.1 hc, hb⟩, hres⟩
  · exact Or.inr ⟨fun c hc => hnone c (hf.mem_changes.2 hc), hres⟩

/-! ### Empty frames -/

theorem view_of_empty {f : Frame} (ha : f.accounts = ∅) (hs : f.slots = ∅) (below : View) :
    f.view below = below := by
  ext x
  · simp [view, account, ha]
  · simp [view, slot, removed, ha, hs]

theorem changes_of_empty {f : Frame} (ha : f.accounts = ∅) (hs : f.slots = ∅) : f.changes = [] := by
  have hf : f.Coherent := coherent_of_empty ha
  refine List.eq_nil_iff_forall_not_mem.2 fun c hc => ?_
  have hh := hf.mem_changes.1 hc
  cases c <;> simp [Holds, ha, hs] at hh

end Frame

end ContractVm
