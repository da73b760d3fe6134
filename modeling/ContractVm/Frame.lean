import Std.Data.TreeMap
import ContractVm.Store

/-! # Frames

Every call works on a frame over what lies below it: the frame of its caller or the store. Reads see
the frame's own changes first; writes stay in the frame. `Frame.sync` hands the changes down; a frame
that is dropped instead leaves no trace. -/

namespace ContractVm

/-- The changes of one call that were not handed down yet, and where the call stands. -/
structure Frame where
  /-- Changed accounts; `none` for a removed one. -/
  accounts : Std.TreeMap Address (Option Account) := ∅
  /-- Changed slots by owner and key. -/
  slots : Std.TreeMap Address (Std.TreeMap Word Word) := ∅
  /-- How many frames lie below. -/
  depth : Nat := 0
  /-- The greatest depth allowed; zero for any. -/
  maxDepth : Nat := 0
  /-- Whether every write is refused. -/
  readOnly : Bool := false

namespace Frame

def root (maxDepth : Nat) : Frame :=
  { maxDepth }

/-- A frame on top of this one, which is read-only if this one is. -/
def child (f : Frame) : Except Fault Frame :=
  if 0 < f.maxDepth ∧ f.maxDepth < f.depth + 1 then .error .callDepthExceeded
  else .ok { depth := f.depth + 1, maxDepth := f.maxDepth, readOnly := f.readOnly }

def removed (f : Frame) (address : Address) : Bool :=
  match f.accounts[address]? with
  | some none => true
  | _ => false

def account (f : Frame) (below : View) (address : Address) : Except Fault (Option Account) :=
  match f.accounts[address]? with
  | some entry => .ok entry
  | none => below.account address

/-- The word in a slot as seen from this frame. Storage of a removed account is gone. -/
def slot (f : Frame) (below : View) (address : Address) (key : Word) : Except Fault Word :=
  match (f.slots.getD address ∅)[key]? with
  | some value => .ok value
  | none => if f.removed address then .ok 0 else below.slot address key

def view (f : Frame) (below : View) : View :=
  { account := f.account below, slot := f.slot below }

/-- Takes a change. A read-only frame refuses all of them, and an account removed in this frame can
be neither replaced nor written to. -/
def write (f : Frame) (change : Change) : Except Fault Frame :=
  if f.readOnly then .error .illegalWrite
  else
    match change with
    | .put account =>
      if f.removed account.address then .error .illegalWrite
      else .ok { f with accounts := f.accounts.insert account.address (some account) }
    | .remove address =>
      .ok { f with
        accounts := f.accounts.insert address none
        slots := f.slots.erase address }
    | .store address key value =>
      if f.removed address then .error .illegalWrite
      else
        .ok { f with
          slots := f.slots.insert address ((f.slots.getD address ∅).insert key value) }

instance : Writable Frame where
  write := write

theorem account_write_put {f g : Frame} {a : Account} (h : f.write (.put a) = .ok g)
    (below : View) (x : Address) :
    g.account below x = if a.address = x then .ok (some a) else f.account below x := by
  simp only [write] at h
  split at h
  · cases h
  · split at h
    · cases h
    · cases h
      by_cases hx : a.address = x <;> simp [account, Std.TreeMap.getElem?_insert, hx]

theorem account_write_remove {f g : Frame} {address : Address}
    (h : f.write (.remove address) = .ok g) (below : View) (x : Address) :
    g.account below x = if address = x then .ok none else f.account below x := by
  simp only [write] at h
  split at h
  · cases h
  · cases h
    by_cases hx : address = x <;> simp [account, Std.TreeMap.getElem?_insert, hx]

theorem account_write_store {f g : Frame} {address : Address} {key value : Word}
    (h : f.write (.store address key value) = .ok g) (below : View) (x : Address) :
    g.account below x = f.account below x := by
  simp only [write] at h
  split at h
  · cases h
  · split at h
    · cases h
    · cases h
      rfl

theorem slot_write_put {f g : Frame} {a : Account} (h : f.write (.put a) = .ok g)
    (below : View) (x : Address) (k : Word) :
    g.slot below x k = f.slot below x k := by
  simp only [write] at h
  split at h
  · cases h
  · split at h
    · cases h
    · next hr =>
      cases h
      by_cases hx : a.address = x
      · subst hx
        have hg : removed { f with accounts := f.accounts.insert a.address (some a) } a.address
            = false := by
          simp [removed]
        simp [slot, hr, hg]
      · have hg : removed { f with accounts := f.accounts.insert a.address (some a) } x
            = f.removed x := by
          simp [removed, Std.TreeMap.getElem?_insert, hx]
        simp only [slot, hg]

theorem slot_write_remove {f g : Frame} {address : Address}
    (h : f.write (.remove address) = .ok g) (below : View) (x : Address) (k : Word) :
    g.slot below x k = if address = x then .ok 0 else f.slot below x k := by
  simp only [write] at h
  split at h
  · cases h
  · cases h
    by_cases hx : address = x
    · subst hx
      simp [slot, removed]
    · have hg : removed { f with
          accounts := f.accounts.insert address none, slots := f.slots.erase address } x
          = f.removed x := by
        simp [removed, Std.TreeMap.getElem?_insert, hx]
      simp only [slot, hg, Std.TreeMap.getD_erase, Std.compare_eq_iff_eq, if_neg hx]

theorem slot_write_store {f g : Frame} {address : Address} {key value : Word}
    (h : f.write (.store address key value) = .ok g) (below : View) (x : Address) (k : Word) :
    g.slot below x k = if address = x ∧ key = k then .ok value else f.slot below x k := by
  simp only [write] at h
  split at h
  · cases h
  · split at h
    · cases h
    · cases h
      have hg : removed { f with
          slots := f.slots.insert address ((f.slots.getD address ∅).insert key value) } x
          = f.removed x := rfl
      simp only [slot, hg, Std.TreeMap.getD_insert, Std.compare_eq_iff_eq]
      by_cases hx : address = x
      · subst hx
        by_cases hk : key = k <;> simp [Std.TreeMap.getElem?_insert, hk]
      · simp [hx]

def accountChanges (f : Frame) : List Change :=
  f.accounts.toList.map fun
    | (_, some account) => .put account
    | (address, none) => .remove address

def slotChanges (f : Frame) : List Change :=
  f.slots.toList.flatMap fun (address, own) => own.toList.map fun (key, value) =>
    .store address key value

/-- Hands all changes down, accounts first, until one is refused. The frame keeps what it had not
come to: its slots, if an account was refused. -/
def sync {σ : Type} [Writable σ] (f : Frame) (below : σ) : Frame × σ × Except Fault Unit :=
  match applyAll Writable.write f.accountChanges below with
  | (below, .error fault) => ({ f with accounts := ∅ }, below, .error fault)
  | (below, .ok ()) =>
    let (below, result) := applyAll Writable.write f.slotChanges below
    ({ f with accounts := ∅, slots := ∅ }, below, result)

end Frame

end ContractVm
