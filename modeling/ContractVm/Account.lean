import ContractVm.Digest.Keccak
import ContractVm.Fault

/-! # Accounts -/

namespace ContractVm

structure Account where
  address : Address
  balance : Word := 0
  code : Bytes := []
  native : Option String := none
  sequence : Nat := 0
  deriving Repr, DecidableEq

namespace Account

def hasCode (a : Account) : Bool :=
  !a.code.isEmpty

def codeHash (a : Account) : Word :=
  keccak256 a.code

/-- Adds to the balance, which must stay below `2 ^ 256`. -/
def credit (amount : Word) (a : Account) : Except Fault Account :=
  if a.balance.toNat + amount.toNat < Word.modulus then .ok { a with balance := a.balance + amount }
  else .error (.state ("balance overflow for " ++ Address.toHex a.address))

def debit (amount : Word) (a : Account) : Except Fault Account :=
  if amount.toNat ≤ a.balance.toNat then .ok { a with balance := a.balance - amount }
  else .error .insufficientBalance

end Account

end ContractVm
