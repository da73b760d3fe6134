import ContractVm.Account

/-! # Stores

What code can read of accounts and storage is a `View`. What it does to them is a list of `Change`s,
applied one after the other to something `Writable` until one is refused. A `Store` offers both. -/

namespace ContractVm

/-- Read access: the account at an address, and the word in a storage slot. -/
structure View where
  account : Address → Except Fault (Option Account)
  slot : Address → Word → Except Fault Word

namespace View

def existing (v : View) (address : Address) : Except Fault Account := do
  match ← v.account address with
  | some a => return a
  | none => throw (.missingAccount address)

def exists? (v : View) (address : Address) : Except Fault Bool := do
  return (← v.account address).isSome

end View

inductive Change where
  /-- Inserts or replaces the account at its own address. -/
  | put (account : Account)
  /-- Deletes an account together with its storage. -/
  | remove (address : Address)
  /-- Sets a storage slot. -/
  | store (address : Address) (key value : Word)
  deriving Repr, DecidableEq

def Change.address : Change → Address
  | .put account => account.address
  | .remove address => address
  | .store address _ _ => address

/-- Something that takes changes, or refuses them and stays as it is. -/
class Writable (σ : Type) where
  write : σ → Change → Except Fault σ

class Store (σ : Type) extends Writable σ where
  view : σ → View

/-- Applies effects in order until one fails; the effects before it remain. -/
def applyAll {σ α : Type} (f : σ → α → Except Fault σ) : List α → σ → σ × Except Fault Unit
  | [], s => (s, .ok ())
  | a :: rest, s =>
    match f s a with
    | .ok s' => applyAll f rest s'
    | .error fault => (s, .error fault)

theorem applyAll_append {σ α : Type} (f : σ → α → Except Fault σ) (as bs : List α) (s : σ) :
    applyAll f (as ++ bs) s =
      match applyAll f as s with
      | (s, .ok ()) => applyAll f bs s
      | (s, .error fault) => (s, .error fault) := by
  induction as generalizing s with
  | nil => rfl
  | cons a as ih =>
    simp only [List.cons_append, applyAll]
    cases f s a with
    | ok s' => exact ih s'
    | error fault => rfl

end ContractVm
