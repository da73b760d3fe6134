import Std.Data.TreeMap
import ContractVm.Digest.Keccak
import ContractVm.Fault

/-! # The chain

What contracts can see of the blocks before them. -/

namespace ContractVm

structure Chain where
  height : Nat
  time : Nat
  blockHash : Nat → Except Fault Bytes

namespace Chain

/-- A chain with given hashes. A block without one has the digest of its height in eight bytes, and
there are no blocks after the last. -/
def withHashes (height time : Nat) (hashes : Std.TreeMap Nat Bytes) : Chain :=
  { height
    time
    blockHash := fun n =>
      if height < n then .error (.invalidBlock n)
      else .ok (hashes.getD n (Word.toBytes (keccak256 (Bytes.ofNat 8 n)))) }

def lookback : Nat := 256

/-- The hash of a block before the last one and within the look-back window. -/
def recentHash (chain : Chain) (height : Nat) : Except Fault Bytes :=
  if chain.height ≤ height then .error (.invalidBlock height)
  else if lookback < chain.height - height then .error (.blockOutOfRange height)
  else chain.blockHash height

end Chain

end ContractVm
