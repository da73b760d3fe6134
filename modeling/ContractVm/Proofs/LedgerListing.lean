import Mathlib
import ContractVm.Proofs.Engine
import ContractVm.Proofs.Totals

/-! # What a ledger lists

A ledger that has come from the empty one, by changes made to it directly and by executions, is the
result of a list of changes (`Ledger.Reached.exists_changes`). A change that sets a slot to zero
clears it, so no such ledger keeps a zero (`Ledger.Sparse`), and the entries that it lists are the
slots that hold something. -/

namespace ContractVm

namespace Ledger

/-- The ledger has come from the empty one by changes, by installing native contracts and by
executions over it. -/
inductive Reached : Ledger → Prop where
  | empty : Reached {}
  | changed {l : Ledger} (h : Reached l) (change : Change) : Reached (l.apply change)
  | installed {l : Ledger} (h : Reached l) (natives : Natives) : Reached (natives.install l)
  | executed {κ : Type} [EventSink κ] {engine : Engine} {fuel : Nat} {chain : Chain} {l : Ledger}
      {sink : κ} {call : Call} {code : Bytes} {report : Report Ledger κ} (h : Reached l)
      (hrun : engine.execute fuel chain l sink call code = some report) : Reached report.store

theorem Reached.foldl {l : Ledger} (h : l.Reached) (changes : List Change) :
    (changes.foldl apply l).Reached := by
  induction changes generalizing l with
  | nil => exact h
  | cons change rest ih => exact ih (h.changed change)

theorem Reached.exists_changes {l : Ledger} (h : l.Reached) :
    ∃ changes : List Change, l = changes.foldl apply {} := by
  induction h with
  | empty => exact ⟨[], rfl⟩
  | changed h change ih =>
    obtain ⟨changes, rfl⟩ := ih
    exact ⟨changes ++ [change], by rw [List.foldl_append]; rfl⟩
  | installed h natives ih =>
    obtain ⟨changes, rfl⟩ := ih
    refine ⟨changes ++ natives.byName.values.map fun n => .put n.account, ?_⟩
    rw [List.foldl_append, List.foldl_map]
    rfl
  | executed h hrun ih =>
    obtain ⟨changes, rfl⟩ := ih
    obtain ⟨out, -, hstored⟩ := Engine.execute_stored hrun
    generalize Report.store _ = store at hstored
    cases hstored with
    | failed _ => exact ⟨changes, rfl⟩
    | committed _ => exact ⟨changes ++ out.frame.changes, by rw [List.foldl_append]; rfl⟩

/-! ### No zeros -/

/-- No slot that the ledger keeps holds zero. -/
def Sparse (l : Ledger) : Prop :=
  ∀ (x : Address) (key : Word), (l.slotsOf x)[key]? ≠ some 0

theorem slotsOf_remove (l : Ledger) (address x : Address) :
    (l.remove address).slotsOf x = if address = x then ∅ else l.slotsOf x := by
  simp only [slotsOf, remove, Std.TreeMap.getD_erase, Std.compare_eq_iff_eq]

theorem slotsOf_setSlot (l : Ledger) (address x : Address) (key value : Word) :
    (l.setSlot address key value).slotsOf x =
      if address = x then
        if value = 0 then (l.slotsOf address).erase key else (l.slotsOf address).insert key value
      else l.slotsOf x := by
  simp only [slotsOf, setSlot, Std.TreeMap.getD_insert, Std.compare_eq_iff_eq]

theorem sparse_empty : Sparse {} := by
  intro x key h
  simp [slotsOf, Std.TreeMap.getD_emptyc] at h

theorem Sparse.apply {l : Ledger} (h : l.Sparse) (change : Change) : (l.apply change).Sparse := by
  intro x key
  cases change with
  | put account => exact h x key
  | remove address =>
    rw [Ledger.apply, slotsOf_remove]
    split
    · simp
    · exact h x key
  | store address k value =>
    rw [Ledger.apply, slotsOf_setSlot]
    split
    · split
      · rw [Std.TreeMap.getElem?_erase]
        split
        · exact (Option.some_ne_none _).symm
        · exact h address key
      · next hvalue =>
        rw [Std.TreeMap.getElem?_insert]
        split
        · exact fun hzero => hvalue (Option.some.inj hzero)
        · exact h address key
    · exact h x key

theorem Sparse.foldl {l : Ledger} (h : l.Sparse) (changes : List Change) :
    (changes.foldl Ledger.apply l).Sparse := by
  induction changes generalizing l with
  | nil => exact h
  | cons change rest ih => exact ih (h.apply change)

theorem Reached.keyed {l : Ledger} (h : l.Reached) : l.Keyed := by
  obtain ⟨changes, rfl⟩ := h.exists_changes
  exact keyed_empty.foldl changes

theorem Reached.sparse {l : Ledger} (h : l.Reached) : l.Sparse := by
  obtain ⟨changes, rfl⟩ := h.exists_changes
  exact sparse_empty.foldl changes

/-! ### Listings -/

theorem mem_accountList {l : Ledger} {account : Account} :
    account ∈ l.accountList ↔ ∃ address, l.account? address = some account := by
  simp only [accountList_eq, List.mem_map, Prod.exists, exists_eq_right,
    Std.TreeMap.mem_toList_iff_getElem?_eq_some, account?]

theorem slotList_sorted (l : Ledger) (address : Address) :
    (l.slotList address).Pairwise fun p q => p.1 < q.1 := by
  have hsorted : (l.slotsOf address).toList.Pairwise fun p q => compare p.1 q.1 = .lt :=
    Std.TreeMap.ordered_keys_toList
  exact hsorted.imp fun h => compareOfLessAndEq_eq_lt.1 h

theorem Sparse.mem_slotList {l : Ledger} (h : l.Sparse) {address : Address} {key value : Word} :
    (key, value) ∈ l.slotList address ↔ value = l.slot address key ∧ value ≠ 0 := by
  have hsparse := h address key
  rw [slotList, Std.TreeMap.mem_toList_iff_getElem?_eq_some, slot,
    Std.TreeMap.getD_eq_getD_getElem?]
  cases hkept : (l.slotsOf address)[key]? with
  | none => simp
  | some kept =>
    rw [hkept] at hsparse
    simp only [Option.some.injEq, Option.getD_some]
    grind

theorem mem_allSlots {l : Ledger} {address : Address} {key value : Word} :
    (address, key, value) ∈ l.allSlots ↔ (key, value) ∈ l.slotList address := by
  rw [slotList, slotsOf, Std.TreeMap.getD_eq_getD_getElem?]
  constructor
  · intro h
    obtain ⟨⟨owner, own⟩, howner, hentry⟩ := List.mem_flatMap.1 h
    obtain ⟨entry, hmem, heq⟩ := List.mem_map.1 hentry
    cases heq
    rw [Std.TreeMap.mem_toList_iff_getElem?_eq_some.1 howner]
    exact hmem
  · intro h
    cases hown : l.slots[address]? with
    | none =>
      rw [hown] at h
      simp at h
    | some own =>
      rw [hown] at h
      have howner := Std.TreeMap.mem_toList_iff_getElem?_eq_some.2 hown
      exact List.mem_flatMap.2 ⟨_, howner, List.mem_map.2 ⟨_, h, rfl⟩⟩

theorem allSlots_sorted (l : Ledger) :
    l.allSlots.Pairwise fun p q => p.1 < q.1 ∨ p.1 = q.1 ∧ p.2.1 < q.2.1 := by
  have howners : l.slots.toList.Pairwise fun p q => compare p.1 q.1 = .lt :=
    Std.TreeMap.ordered_keys_toList
  refine List.pairwise_flatMap.2 ⟨?_, howners.imp ?_⟩
  · rintro ⟨owner, own⟩ -
    have hkeys : own.toList.Pairwise fun p q => compare p.1 q.1 = .lt :=
      Std.TreeMap.ordered_keys_toList
    exact List.pairwise_map.2 (hkeys.imp fun h => Or.inr ⟨rfl, compareOfLessAndEq_eq_lt.1 h⟩)
  · intro p q hpq x hx y hy
    obtain ⟨_, -, rfl⟩ := List.mem_map.1 hx
    obtain ⟨_, -, rfl⟩ := List.mem_map.1 hy
    exact Or.inl (compareOfLessAndEq_eq_lt.1 hpq)

/-! ### The slots that hold something -/

theorem Sparse.slotCount_eq {l : Ledger} (h : l.Sparse) :
    l.slotCount = {p : Address × Word | l.slot p.1 p.2 ≠ 0}.ncard := by
  have hkeys : (l.allSlots.map fun e => (e.1, e.2.1)).Nodup := by
    refine List.pairwise_map.2 (l.allSlots_sorted.imp fun {p q} hpq heq => ?_)
    obtain ⟨howner, hkey⟩ := Prod.mk.inj heq
    rcases hpq with hlt | ⟨-, hlt⟩
    · exact absurd howner (BitVec.ne_of_lt hlt)
    · exact absurd hkey (BitVec.ne_of_lt hlt)
  have hset : {p : Address × Word | l.slot p.1 p.2 ≠ 0} =
      (l.allSlots.map fun e => (e.1, e.2.1)).toFinset := by
    ext ⟨address, key⟩
    simp only [Set.mem_ofPred_eq, List.coe_toFinset, List.mem_map]
    constructor
    · intro hslot
      exact ⟨(address, key, _), mem_allSlots.2 (h.mem_slotList.2 ⟨rfl, hslot⟩), rfl⟩
    · rintro ⟨⟨owner, k, value⟩, hmem, heq⟩
      cases heq
      obtain ⟨hvalue, hne⟩ := h.mem_slotList.1 (mem_allSlots.1 hmem)
      rwa [← hvalue]
  rw [hset, Set.ncard_coe_finset, List.toFinset_card_of_nodup hkeys, List.length_map, slotCount]

/-! ### Scanning composite keys -/

/-- The slots of one account as a scan of all slots finds them: it starts at the account's first
possible slot and stops at the first entry of another owner. -/
def scan (l : Ledger) (address : Address) : List (Word × Word) :=
  ((l.allSlots.filter fun e => address < e.1 ∨ address = e.1 ∧ 0 ≤ e.2.1).takeWhile
    fun e => e.1 = address).map Prod.snd

end Ledger

/-- In a list that is sorted by a number, the entries with one number stand together. -/
theorem takeWhile_filter_le {α : Type} (f : α → Nat) (n : Nat) {entries : List α}
    (h : entries.Pairwise fun p q => f p ≤ f q) :
    (entries.filter fun e => n ≤ f e).takeWhile (fun e => f e = n) =
      entries.filter fun e => f e = n := by
  induction entries with
  | nil => rfl
  | cons e rest ih =>
    obtain ⟨hfirst, hrest⟩ := List.pairwise_cons.1 h
    have ih := ih hrest
    rcases Nat.lt_trichotomy (f e) n with hlt | heq | hgt
    · simp [hlt.not_ge, hlt.ne, ih]
    · simp [heq, ih]
    · have hothers : rest.filter (fun e => f e = n) = [] := by
        refine List.filter_eq_nil_iff.2 fun e' he' => ?_
        have hge := hfirst e' he'
        simp only [decide_eq_true_eq]
        omega
      simp [hgt.le, hgt.ne', hothers]

namespace Ledger

theorem scan_eq_filter (l : Ledger) (address : Address) :
    l.scan address = (l.allSlots.filter fun e => e.1.toNat = address.toNat).map Prod.snd := by
  have howners : l.allSlots.Pairwise fun p q => p.1.toNat ≤ q.1.toNat := by
    refine l.allSlots_sorted.imp fun {p q} hpq => ?_
    rcases hpq with hlt | ⟨heq, -⟩
    · exact Nat.le_of_lt hlt
    · exact (congrArg BitVec.toNat heq).le
  rw [← takeWhile_filter_le _ _ howners, scan]
  have hfrom : ∀ e : Address × Word × Word,
      (address < e.1 ∨ address = e.1 ∧ 0 ≤ e.2.1) ↔ address.toNat ≤ e.1.toNat := by
    intro e
    bv_omega
  simp only [hfrom, BitVec.toNat_inj]

theorem scan_eq_slotList (l : Ledger) (address : Address) :
    l.scan address = l.slotList address := by
  have hsorted : (l.scan address).Pairwise fun p q => p.1 < q.1 := by
    rw [scan_eq_filter, List.pairwise_map]
    refine (l.allSlots_sorted.filter _).imp_of_mem fun {p q} hp hq hpq => ?_
    have hp := of_decide_eq_true (List.mem_filter.1 hp).2
    have hq := of_decide_eq_true (List.mem_filter.1 hq).2
    rcases hpq with hlt | ⟨-, hlt⟩
    · exact absurd hlt (by bv_omega)
    · exact hlt
  have hmem : ∀ entry, entry ∈ l.scan address ↔ entry ∈ l.slotList address := by
    rintro ⟨key, value⟩
    rw [scan_eq_filter, ← mem_allSlots]
    simp [BitVec.toNat_inj]
  have hnodup : ∀ {entries : List (Word × Word)}, (entries.Pairwise fun p q => p.1 < q.1) →
      entries.Nodup :=
    fun h => h.imp fun hlt heq => BitVec.ne_of_lt hlt (congrArg Prod.fst heq)
  refine ((List.perm_ext_iff_of_nodup (hnodup hsorted)
    (hnodup (l.slotList_sorted address))).2 hmem).eq_of_pairwise ?_ hsorted
    (l.slotList_sorted address)
  intro p q _ _ hpq hqp
  exact absurd hpq (by bv_omega)

end Ledger

/-- A ledger that has come from the empty one files every account under its own address and keeps no
zero, so that its entries are as many as the slots that are not zero. For every address it lists
exactly the slots that are not zero, each once and in the ascending order of their keys, and a scan
of all slots, which are sorted by owner and key, finds the same list. -/
theorem reached_ledgers_list_what_they_hold (l : Ledger) (h : l.Reached) :
    (∀ address account, l.account? address = some account → account.address = address) ∧
    (∀ account, account ∈ l.accountList → l.account? account.address = some account) ∧
    (∀ address key value, (address, key, value) ∈ l.allSlots → value ≠ 0) ∧
    (l.allSlots.Pairwise fun p q => p.1 < q.1 ∨ p.1 = q.1 ∧ p.2.1 < q.2.1) ∧
    l.slotCount = {p : Address × Word | l.slot p.1 p.2 ≠ 0}.ncard ∧
    ∀ address,
      (∀ key value, (key, value) ∈ l.slotList address ↔
        value = l.slot address key ∧ value ≠ 0) ∧
      ((l.slotList address).Pairwise fun p q => p.1 < q.1) ∧
      l.scan address = l.slotList address := by
  have hkeyed := h.keyed
  have hsparse := h.sparse
  refine ⟨hkeyed, fun account hmem => ?_, fun address key value hmem => ?_, l.allSlots_sorted,
    hsparse.slotCount_eq, fun address => ⟨fun key value => hsparse.mem_slotList,
      l.slotList_sorted address, l.scan_eq_slotList address⟩⟩
  · obtain ⟨address, haccount⟩ := Ledger.mem_accountList.1 hmem
    rwa [hkeyed address account haccount]
  · exact (hsparse.mem_slotList.1 (Ledger.mem_allSlots.1 hmem)).2

/-- Accounts at the first and at the last address, with their first and last slots. A slot between
them was set and cleared. -/
def edgeLedger : Ledger :=
  [.put { address := 0 }, .put { address := BitVec.allOnes 160 }, .store 0 0 7,
    .store 0 (BitVec.allOnes 256) 8, .store (BitVec.allOnes 160) 0 9,
    .store (BitVec.allOnes 160) (BitVec.allOnes 256) 10, .store 0 5 1,
    .store 0 5 0].foldl Ledger.apply {}

def setSlotOne : Bytes :=
  [0x60, 6, 0x60, 1, 0x55, 0]

theorem edge_ledger_lists_its_slots :
    ∃ report : Report Ledger Trace,
      (Engine.new {}).execute 40 (Chain.withHashes 1 0 ∅) edgeLedger (#[] : Trace)
        { relayCall with callee := 0 } setSlotOne = some report ∧
      report.store.Reached ∧
      report.store.accountList = [{ address := 0 }, { address := BitVec.allOnes 160 }] ∧
      report.store.account? 0 = some { address := 0 } ∧
      report.store.account? (BitVec.allOnes 160) = some { address := BitVec.allOnes 160 } ∧
      report.store.slotList 0 = [(0, 7), (1, 6), (BitVec.allOnes 256, 8)] ∧
      report.store.scan (BitVec.allOnes 160) = [(0, 9), (BitVec.allOnes 256, 10)] ∧
      {p : Address × Word | report.store.slot p.1 p.2 ≠ 0}.ncard = 5 := by
  have hrun : ((Engine.new {}).execute 40 (Chain.withHashes 1 0 ∅) edgeLedger (#[] : Trace)
      { relayCall with callee := 0 } setSlotOne).map (fun report => (report.store.accountList,
        report.store.slotList 0, report.store.slotList (BitVec.allOnes 160),
        report.store.slotCount)) =
      some ([{ address := 0 }, { address := BitVec.allOnes 160 }],
        [(0, 7), (1, 6), (BitVec.allOnes 256, 8)], [(0, 9), (BitVec.allOnes 256, 10)], 5) := by
    decide +kernel
  obtain ⟨report, hreport, hvalues⟩ := Option.map_eq_some_iff.1 hrun
  obtain ⟨haccounts, hslots⟩ := Prod.mk.inj hvalues
  obtain ⟨hfirst, hrest⟩ := Prod.mk.inj hslots
  obtain ⟨hlast, hcount⟩ := Prod.mk.inj hrest
  have hedge : edgeLedger.Reached := Ledger.Reached.empty.foldl _
  have hreached := hedge.executed hreport
  obtain ⟨-, hfiled, -, -, hheld, hlists⟩ := reached_ledgers_list_what_they_hold _ hreached
  rw [haccounts] at hfiled
  exact ⟨report, hreport, hreached, haccounts, hfiled _ List.mem_cons_self,
    hfiled _ (List.mem_cons_of_mem _ List.mem_cons_self), hfirst, (hlists _).2.2.trans hlast,
    hheld ▸ hcount⟩

end ContractVm
