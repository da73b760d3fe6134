import Mathlib
import ContractVm.Permission

/-! # Granting and revoking

What a capability table answers can be read off the operations that led to it (`has_ofHistory`). An
account to which nothing was ever granted has no entry and goes by the default; every other account
goes by its own grants and revocations alone. So a revocation binds the accounts that have an entry,
until the capability is granted to them again, and no other account. -/

namespace ContractVm

namespace CapabilityTable

/-! ### Histories -/

inductive Operation where
  | grant (address : Address) (capability : Capability)
  | revoke (address : Address) (capability : Capability)
  | grantDefault (capability : Capability)
  deriving Repr, DecidableEq

def perform (t : CapabilityTable) : Operation → CapabilityTable
  | .grant address capability => t.grant address capability
  | .revoke address capability => t.revoke address capability
  | .grantDefault capability => t.grantDefault capability

def ofHistory (history : List Operation) : CapabilityTable :=
  history.foldl perform {}

theorem ofHistory_concat (history : List Operation) (op : Operation) :
    ofHistory (history ++ [op]) = (ofHistory history).perform op := by
  rw [ofHistory, List.foldl_concat]
  rfl

/-- Something was granted to the account. -/
def Listed (history : List Operation) (x : Address) : Prop :=
  ∃ c, .grant x c ∈ history

/-- The capability was granted to the account and was not revoked since. -/
def Granted (history : List Operation) (x : Address) (c : Capability) : Prop :=
  ∃ before after, history = before ++ .grant x c :: after ∧ .revoke x c ∉ after

section Concat

variable {history : List Operation} {op : Operation} {x : Address} {c : Capability}

theorem Granted.listed (h : Granted history x c) : Listed history x := by
  obtain ⟨before, after, rfl, -⟩ := h
  exact ⟨c, List.mem_append_right _ List.mem_cons_self⟩

theorem listed_concat : Listed (history ++ [op]) x ↔ Listed history x ∨ ∃ c, op = .grant x c := by
  simp only [Listed, List.mem_append, List.mem_singleton, exists_or, eq_comm]

theorem granted_concat :
    Granted (history ++ [op]) x c ↔ op = .grant x c ∨ op ≠ .revoke x c ∧ Granted history x c := by
  constructor
  · rintro ⟨before, after, hsplit, hkept⟩
    rcases List.eq_nil_or_concat' after with rfl | ⟨rest, last, rfl⟩
    · exact Or.inl (List.singleton_inj.1 (List.append_inj' hsplit rfl).2)
    · rw [← List.cons_append, ← List.append_assoc] at hsplit
      obtain ⟨hhistory, hlast⟩ := List.append_inj' hsplit rfl
      rw [List.singleton_inj.1 hlast]
      refine Or.inr ⟨fun hrevoke => hkept ?_, before, rest, hhistory, fun h => hkept ?_⟩
      · rw [hrevoke]
        exact List.mem_append_right _ List.mem_cons_self
      · exact List.mem_append_left _ h
  · rintro (rfl | ⟨hop, before, after, rfl, hkept⟩)
    · exact ⟨history, [], rfl, List.not_mem_nil⟩
    · refine ⟨before, after ++ [op], by simp, fun h => ?_⟩
      rcases List.mem_append.1 h with h | h
      · exact hkept h
      · exact hop (List.mem_singleton.1 h).symm

end Concat

/-! ### What a table holds -/

/-- What was granted to an account and not taken away. -/
def entry (t : CapabilityTable) (x : Address) : CapabilitySet :=
  t.grants.getD x CapabilitySet.empty

section Entry

variable (t : CapabilityTable) (a x : Address) (c d : Capability)

theorem has_eq : t.has x c = if x ∈ t.grants then t.entry x c else t.fallback c := by
  unfold has entry
  cases hx : t.grants[x]? with
  | some set =>
    rw [if_pos (Std.TreeMap.mem_iff_isSome_getElem?.2 (by simp [hx])),
      Std.TreeMap.getD_eq_getD_getElem?, hx]
    rfl
  | none => rw [if_neg (by simp [Std.TreeMap.mem_iff_isSome_getElem?, hx])]

theorem mem_grant : x ∈ (t.grant a d).grants ↔ a = x ∨ x ∈ t.grants := by
  simp [grant]

theorem entry_grant :
    (t.grant a d).entry x c = true ↔ (a = x ∧ d = c) ∨ t.entry x c = true := by
  by_cases hx : a = x
  · subst hx
    simp [grant, entry, CapabilitySet.insert, eq_comm (a := c)]
  · simp [grant, entry, Std.TreeMap.getD_insert, hx]

theorem mem_revoke : x ∈ (t.revoke a d).grants ↔ x ∈ t.grants := by
  unfold revoke
  split
  · next set hset =>
    have ha : a ∈ t.grants := Std.TreeMap.mem_iff_isSome_getElem?.2 (by simp [hset])
    by_cases hx : a = x
    · simp [← hx, ha]
    · simp [hx]
  · rfl

/-- An account without an entry has nothing that could be taken away from it. -/
theorem entry_revoke :
    (t.revoke a d).entry x c = true ↔ ¬(a = x ∧ d = c) ∧ t.entry x c = true := by
  unfold revoke entry
  split
  · next set hset =>
    by_cases hx : a = x
    · subst hx
      simp [CapabilitySet.erase, hset, Std.TreeMap.getD_eq_getD_getElem?, eq_comm (a := c)]
    · simp [Std.TreeMap.getD_insert, hx]
  · next hnone =>
    by_cases hx : a = x
    · subst hx
      simp [Std.TreeMap.getD_eq_getD_getElem?, hnone, CapabilitySet.empty]
    · simp [hx]

theorem fallback_revoke : (t.revoke a d).fallback c = t.fallback c := by
  unfold revoke
  split <;> rfl

end Entry

/-- The table holds what the history says: who has an entry, what is in it, and the default. -/
structure Follows (t : CapabilityTable) (history : List Operation) : Prop where
  listed : ∀ x, x ∈ t.grants ↔ Listed history x
  granted : ∀ x c, t.entry x c = true ↔ Granted history x c
  fallback : ∀ c, t.fallback c = true ↔ .grantDefault c ∈ history

theorem follows_empty : Follows {} [] where
  listed x := by simp [Listed]
  granted x c := by simp [Granted, entry, CapabilitySet.empty]
  fallback c := by simp [CapabilitySet.empty]

theorem Follows.perform {t : CapabilityTable} {history : List Operation} (h : t.Follows history)
    (op : Operation) : (t.perform op).Follows (history ++ [op]) := by
  cases op with
  | grant a d =>
    constructor
    · intro x
      simp [CapabilityTable.perform, mem_grant, listed_concat, h.listed, or_comm]
    · intro x c
      simp [CapabilityTable.perform, entry_grant, granted_concat, h.granted]
    · intro c
      simp [CapabilityTable.perform, CapabilityTable.grant, h.fallback]
  | revoke a d =>
    constructor
    · intro x
      simp [CapabilityTable.perform, mem_revoke, listed_concat, h.listed]
    · intro x c
      simp [CapabilityTable.perform, entry_revoke, granted_concat, h.granted]
    · intro c
      simp [CapabilityTable.perform, fallback_revoke, h.fallback]
  | grantDefault d =>
    constructor
    · intro x
      simp [CapabilityTable.perform, CapabilityTable.grantDefault, listed_concat, h.listed]
    · intro x c
      have hentry : (t.grantDefault d).entry x c = t.entry x c := rfl
      simp [CapabilityTable.perform, hentry, granted_concat, h.granted]
    · intro c
      simp [CapabilityTable.perform, CapabilityTable.grantDefault, CapabilitySet.insert, h.fallback,
        or_comm]

theorem follows_ofHistory (history : List Operation) : (ofHistory history).Follows history := by
  induction history using List.reverseRecOn with
  | nil => exact follows_empty
  | append_singleton history op ih =>
    rw [ofHistory_concat]
    exact ih.perform op

/-! ### What a table answers -/

/-- An account that nothing was ever granted to goes by the default, and any other by what was
granted to it and not revoked since. -/
theorem has_ofHistory (history : List Operation) (x : Address) (c : Capability) :
    (ofHistory history).has x c = true ↔
      Granted history x c ∨ ¬Listed history x ∧ .grantDefault c ∈ history := by
  have hfollows := follows_ofHistory history
  rw [has_eq]
  split
  · next hentry =>
    rw [hfollows.granted]
    have hlisted := (hfollows.listed x).1 hentry
    exact ⟨Or.inl, fun h => h.resolve_right fun hnot => hnot.1 hlisted⟩
  · next hentry =>
    rw [hfollows.fallback]
    have hlisted : ¬Listed history x := fun h => hentry ((hfollows.listed x).2 h)
    exact ⟨fun h => Or.inr ⟨hlisted, h⟩, fun h => (h.resolve_left fun hg => hlisted hg.listed).2⟩

theorem not_granted_of_revoke {before after : List Operation} {x : Address} {c : Capability}
    (h : .grant x c ∉ after) : ¬Granted (before ++ .revoke x c :: after) x c := by
  induction after using List.reverseRecOn with
  | nil =>
    rw [granted_concat]
    simp
  | append_singleton after op ih =>
    rw [List.mem_append, not_or, List.mem_singleton] at h
    rw [← List.cons_append, ← List.append_assoc, granted_concat]
    rintro (rfl | ⟨-, hgranted⟩)
    · exact h.2 rfl
    · exact ih h.1 hgranted

/-- After a revocation, and until the capability is granted to the account again, the account has it
exactly if nothing at all is ever granted to the account and the capability is one of the default:
then the account has no entry, and the revocation does nothing. What a table answers about other
accounts and other capabilities does not change. -/
theorem revocation_binds_the_listed (a : Address) (c : Capability) :
    (∀ before after : List Operation, .grant a c ∉ after →
      ((ofHistory (before ++ .revoke a c :: after)).has a c = true ↔
        ¬Listed (before ++ after) a ∧ .grantDefault c ∈ before ++ after)) ∧
    ∀ (t : CapabilityTable) (x : Address) (d : Capability), (x, d) ≠ (a, c) →
      (t.revoke a c).has x d = t.has x d := by
  constructor
  · intro before after hnever
    rw [has_ofHistory, or_iff_right (not_granted_of_revoke hnever)]
    simp [Listed]
  · intro t x d hother
    rw [has_revoke, ite_eq_right_iff]
    rintro ⟨rfl, -⟩
    have hd : d ≠ c := fun h => hother (by rw [h])
    rw [bne_iff_ne.2 hd, Bool.true_and]

/-- An account with an entry stays without the capability while others, and all who have no entry,
get it. -/
theorem revoked_call_stays_revoked :
    .grant 1 .call ∉ [Operation.grant 2 .call, .grantDefault .call, .grant 1 .createContract] ∧
    (ofHistory ([.grant 1 .call] ++ .revoke 1 .call ::
      [.grant 2 .call, .grantDefault .call, .grant 1 .createContract])).has 1 .call = false ∧
    ((2 : Address), Capability.call) ≠ (1, .call) ∧
    ((ofHistory [.grant 1 .call, .grant 2 .call]).revoke 1 .call).has 2 .call = true := by
  have hnever : .grant 1 .call ∉
      [Operation.grant 2 .call, .grantDefault .call, .grant 1 .createContract] := by
    decide
  have hother : ((2 : Address), Capability.call) ≠ (1, .call) := by decide
  obtain ⟨hrevoked, hothers⟩ := revocation_binds_the_listed 1 .call
  refine ⟨hnever, Bool.eq_false_iff.2 fun h => ?_, hother, ?_⟩
  · exact ((hrevoked _ _ hnever).1 h).1 ⟨.call, by decide⟩
  · rw [hothers _ _ _ hother, has_ofHistory]
    exact Or.inl ⟨[.grant 1 .call], [], rfl, List.not_mem_nil⟩

/-- An account without an entry keeps what everyone has, and gets what everyone is given later. -/
theorem default_outlasts_revocation :
    (ofHistory [.grantDefault .call, .revoke 1 .call]).has 1 .call = true ∧
    (ofHistory [.revoke 1 .call, .grantDefault .call]).has 1 .call = true := by
  decide +kernel

end CapabilityTable

end ContractVm
