import Std.Data.TreeMap
import ContractVm.Store

/-! # The ledger

The store of record: accounts by address and, for each address, the storage slots that are not
zero. Both are listed in ascending order. -/

namespace ContractVm

structure Ledger where
  accounts : Std.TreeMap Address Account := ∅
  slots : Std.TreeMap Address (Std.TreeMap Word Word) := ∅

namespace Ledger

def slotsOf (l : Ledger) (address : Address) : Std.TreeMap Word Word :=
  l.slots.getD address ∅

def account? (l : Ledger) (address : Address) : Option Account :=
  l.accounts[address]?

/-- The word in a slot; a slot that was never set holds zero. -/
def slot (l : Ledger) (address : Address) (key : Word) : Word :=
  (l.slotsOf address).getD key 0

def put (l : Ledger) (account : Account) : Ledger :=
  { l with accounts := l.accounts.insert account.address account }

/-- Deletes an account and its slots. -/
def remove (l : Ledger) (address : Address) : Ledger :=
  { accounts := l.accounts.erase address, slots := l.slots.erase address }

/-- Sets a slot; setting it to zero clears it. -/
def setSlot (l : Ledger) (address : Address) (key value : Word) : Ledger :=
  let own := l.slotsOf address
  { l with
    slots := l.slots.insert address (if value = 0 then own.erase key else own.insert key value) }

@[simp] theorem account?_put (l : Ledger) (a : Account) (x : Address) :
    (l.put a).account? x = if a.address = x then some a else l.account? x := by
  simp [account?, put, Std.TreeMap.getElem?_insert]

@[simp] theorem account?_remove (l : Ledger) (address x : Address) :
    (l.remove address).account? x = if address = x then none else l.account? x := by
  simp [account?, remove, Std.TreeMap.getElem?_erase]

@[simp] theorem account?_setSlot (l : Ledger) (address x : Address) (key value : Word) :
    (l.setSlot address key value).account? x = l.account? x := rfl

@[simp] theorem slot_put (l : Ledger) (a : Account) (x : Address) (key : Word) :
    (l.put a).slot x key = l.slot x key := rfl

@[simp] theorem slot_remove (l : Ledger) (address x : Address) (key : Word) :
    (l.remove address).slot x key = if address = x then 0 else l.slot x key := by
  simp only [slot, slotsOf, remove, Std.TreeMap.getD_erase, Std.compare_eq_iff_eq]
  split
  · exact Std.TreeMap.getD_emptyc
  · rfl

@[simp] theorem slot_setSlot (l : Ledger) (address x : Address) (key k value : Word) :
    (l.setSlot address key value).slot x k =
      if address = x ∧ key = k then value else l.slot x k := by
  simp only [slot, slotsOf, setSlot, Std.TreeMap.getD_insert, Std.compare_eq_iff_eq]
  by_cases hx : address = x
  · subst hx
    rw [if_pos rfl]
    split
    · next hv => by_cases hk : key = k <;> simp [hv, hk, Std.TreeMap.getD_erase]
    · by_cases hk : key = k <;> simp [hk, Std.TreeMap.getD_insert]
  · simp [hx]

def apply (l : Ledger) : Change → Ledger
  | .put account => l.put account
  | .remove address => l.remove address
  | .store address key value => l.setSlot address key value

def view (l : Ledger) : View :=
  { account := fun address => .ok (l.account? address)
    slot := fun address key => .ok (l.slot address key) }

instance : Store Ledger where
  write l change := .ok (l.apply change)
  view := view

def accountList (l : Ledger) : List Account :=
  l.accounts.values

def slotList (l : Ledger) (address : Address) : List (Word × Word) :=
  (l.slotsOf address).toList

/-- All slots, by owner and then by key. -/
def allSlots (l : Ledger) : List (Address × Word × Word) :=
  l.slots.toList.flatMap fun (address, own) => own.toList.map fun (key, value) =>
    (address, key, value)

def slotCount (l : Ledger) : Nat :=
  l.allSlots.length

end Ledger

end ContractVm
