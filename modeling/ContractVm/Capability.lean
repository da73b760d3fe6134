/-! # Capabilities

What the engine asks the permission layer about before it acts for an account. -/

namespace ContractVm

inductive Capability where
  /-- Run the code of another account. -/
  | call
  /-- Deploy a contract. -/
  | createContract
  /-- Bring a plain account into existence. -/
  | createAccount
  deriving Repr, DecidableEq

def Capability.name : Capability → String
  | .call => "call"
  | .createContract => "create_contract"
  | .createAccount => "create_account"

end ContractVm
