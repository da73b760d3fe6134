import Std.Data.TreeMap
import ContractVm.Fault

/-! # Permissions

The engine asks an oracle whether an account holds a capability. A `CapabilityTable` is such an
oracle: explicit entries for some accounts and a set that applies to all others. -/

namespace ContractVm

abbrev Permissions := Address → Capability → Except Fault Bool

namespace Permissions

def allowAll : Permissions :=
  fun _ _ => .ok true

def ensure (permissions : Permissions) (address : Address) (capability : Capability) :
    Except Fault Unit := do
  if ← permissions address capability then return ()
  else throw (.permissionDenied address capability)

end Permissions

abbrev CapabilitySet := Capability → Bool

namespace CapabilitySet

def empty : CapabilitySet :=
  fun _ => false

def insert (s : CapabilitySet) (c : Capability) : CapabilitySet :=
  fun d => d == c || s d

def erase (s : CapabilitySet) (c : Capability) : CapabilitySet :=
  fun d => d != c && s d

end CapabilitySet

/-- Explicit entries by account, and the set of everyone without an entry. -/
structure CapabilityTable where
  grants : Std.TreeMap Address CapabilitySet := ∅
  fallback : CapabilitySet := CapabilitySet.empty

namespace CapabilityTable

/-- Grants a capability to one account, which has an entry from then on. -/
def grant (t : CapabilityTable) (address : Address) (capability : Capability) : CapabilityTable :=
  { t with
    grants := t.grants.insert address
      ((t.grants.getD address CapabilitySet.empty).insert capability) }

/-- Takes a capability from the entry of one account; an account without an entry is not touched. -/
def revoke (t : CapabilityTable) (address : Address) (capability : Capability) : CapabilityTable :=
  match t.grants[address]? with
  | some set => { t with grants := t.grants.insert address (set.erase capability) }
  | none => t

def grantDefault (t : CapabilityTable) (capability : Capability) : CapabilityTable :=
  { t with fallback := t.fallback.insert capability }

def has (t : CapabilityTable) (address : Address) (capability : Capability) : Bool :=
  match t.grants[address]? with
  | some set => set capability
  | none => t.fallback capability

/-- A revocation takes one capability from the entry of one account, if it has one. -/
theorem has_revoke (t : CapabilityTable) (address x : Address) (c d : Capability) :
    (t.revoke address c).has x d =
      if address = x ∧ (t.grants[address]?).isSome then d != c && t.has x d else t.has x d := by
  unfold revoke
  cases hs : t.grants[address]? with
  | none => simp
  | some set =>
    by_cases h : address = x
    · subst h
      simp [has, hs, CapabilitySet.erase]
    · simp [has, Std.TreeMap.getElem?_insert, h]

def permissions (t : CapabilityTable) : Permissions :=
  fun address capability => .ok (t.has address capability)

end CapabilityTable

end ContractVm
