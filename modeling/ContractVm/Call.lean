import ContractVm.Fault

/-! # Calls -/

namespace ContractVm

inductive CallKind where
  /-- The target's code on the target's storage; value moves. -/
  | call
  /-- The target's code on the caller's own storage. -/
  | callCode
  /-- The same, keeping the caller and value of the call in progress. -/
  | delegateCall
  /-- A call that may not write. -/
  | staticCall
  /-- The initialisation of a new contract. -/
  | create
  deriving Repr, DecidableEq

def CallKind.name : CallKind → String
  | .call => "call"
  | .callCode => "callcode"
  | .delegateCall => "delegatecall"
  | .staticCall => "staticcall"
  | .create => "create"

/-- Whether value moves from the caller to the callee before the callee runs. -/
def CallKind.movesValue : CallKind → Bool
  | .call | .callCode | .create => true
  | .delegateCall | .staticCall => false

structure Call where
  /-- Who started the whole execution. -/
  origin : Address
  caller : Address
  /-- The account whose storage the code works on. -/
  callee : Address
  input : Bytes := []
  value : Word := 0
  /-- The gas the call may use. -/
  gas : Nat := 0
  kind : CallKind := .call
  deriving Repr, DecidableEq

end ContractVm
