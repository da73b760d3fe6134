import ContractVm.Gas

/-! # Options -/

namespace ContractVm

structure Options where
  /-- Room set aside for the stack. -/
  stackInitialCapacity : Nat := 1024
  /-- The greatest stack depth; zero for any. -/
  stackMaxDepth : Nat := 1024
  /-- The greatest nesting of calls; zero for any. -/
  callMaxDepth : Nat := 0
  /-- How much memory is there from the start. -/
  memoryInitialCapacity : Nat := 0
  /-- How far memory may grow; zero for the index limit. -/
  memoryMaximumCapacity : Nat := 0x1000000
  /-- What is mixed into the addresses of new contracts. -/
  nonce : Bytes := []
  gas : Schedule := {}
  deriving Repr, DecidableEq

namespace Options

def withNonce (o : Options) (nonce : Bytes) : Options :=
  { o with nonce }

def withSchedule (o : Options) (gas : Schedule) : Options :=
  { o with gas }

def withCallMaxDepth (o : Options) (callMaxDepth : Nat) : Options :=
  { o with callMaxDepth }

end Options

end ContractVm
