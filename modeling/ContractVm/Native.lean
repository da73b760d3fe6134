import Std.Data.TreeMap
import ContractVm.Digest.Ripemd160
import ContractVm.Digest.Sha256
import ContractVm.Ledger
import ContractVm.Native.ExpMod

/-! # Native contracts

Contracts that are functions of their input rather than code. An account names the native contract
that serves it, and a registry finds contracts by name. -/

namespace ContractVm

/-- A function of the input, priced by the length of the input in words. -/
structure Precompile where
  name : String
  address : Address
  baseGas : Nat
  wordGas : Nat
  function : Bytes → Bytes

def Precompile.price (p : Precompile) (input : Bytes) : Nat :=
  capGas (wordsFor input.length * p.wordGas + p.baseGas)

def Precompile.run (p : Precompile) (input : Bytes) (gas : Nat) : Except Fault (Bytes × Nat) :=
  if gas < p.price input then .error .insufficientGas
  else .ok (p.function input, gas - p.price input)

inductive Native where
  | precompile (p : Precompile)
  | expMod

namespace Native

def name : Native → String
  | .precompile p => p.name
  | .expMod => "expmod"

def address : Native → Address
  | .precompile p => p.address
  | .expMod => 5

def run : Native → Bytes → Nat → Except Fault (Bytes × Nat)
  | .precompile p, input, gas => p.run input gas
  | .expMod, input, gas => ExpMod.run input gas

def account (n : Native) : Account :=
  { address := n.address, native := some n.name }

end Native

structure Natives where
  byName : Std.TreeMap String Native := ∅

namespace Natives

def empty : Natives := {}

def register (ns : Natives) (n : Native) : Natives :=
  { byName := ns.byName.insert n.name n }

def get? (ns : Natives) (name : String) : Option Native :=
  ns.byName[name]?

def dispatch (ns : Natives) (account : Account) : Option Native :=
  account.native.bind ns.get?

/-- SHA-256, RIPEMD-160, the identity and modular exponentiation at the addresses 2 to 5. -/
def precompiles : Natives :=
  [.precompile
      { name := "sha256", address := 2, baseGas := 1, wordGas := 1,
        function := fun input => Word.toBytes (sha256 input) },
    .precompile
      { name := "ripemd160", address := 3, baseGas := 1, wordGas := 1,
        function := fun input => Word.toBytes (Word.ofBytes (ripemd160 input)) },
    .precompile
      { name := "identity", address := 4, baseGas := 1, wordGas := 1, function := id },
    .expMod].foldl register empty

/-- Puts the accounts of all contracts into a ledger, in the order of their names. -/
def install (ns : Natives) (ledger : Ledger) : Ledger :=
  ns.byName.values.foldl (fun l n => l.put n.account) ledger

end Natives

end ContractVm
