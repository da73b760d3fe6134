import ContractVm.Digest.Keccak
import ContractVm.Digest.Sha256

/-! # Contract addresses

The address of a new contract is the start of a SHA-256 digest of its creator and a nonce, or the
end of a Keccak digest of its creator, a salt and its initialisation code. A `CreateSequence`
supplies nonces that never repeat. -/

namespace ContractVm

def noncePreimage (creator : Address) (nonce : Bytes) : Bytes :=
  Address.toBytes creator ++ nonce

/-- The address of a contract created under a nonce: the first 20 bytes of the digest. -/
def nonceAddress (creator : Address) (nonce : Bytes) : Address :=
  Address.ofBytes ((Word.toBytes (sha256 (noncePreimage creator nonce))).take 20)

/-- The address of a contract created under a salt: the last 20 bytes of the digest. -/
def saltAddress (creator : Address) (salt : Word) (initCode : Bytes) : Address :=
  Address.ofWord (keccak256
    (0xff :: (Address.toBytes creator ++ Word.toBytes salt ++ Word.toBytes (keccak256 initCode))))

/-- A nonce and the number of addresses derived under it. -/
structure CreateSequence where
  nonce : Bytes := []
  count : Nat := 0
  deriving Repr, DecidableEq

namespace CreateSequence

def nonceLength : Nat := 32

def advance (s : CreateSequence) : CreateSequence :=
  { s with count := s.count + 1 }

/-- The nonce of the latest address: the configured nonce at its fixed length and the count in
eight bytes. -/
def currentNonce (s : CreateSequence) : Bytes :=
  Bytes.fit nonceLength s.nonce ++ Bytes.ofNat 8 s.count

def next (creator : Address) (s : CreateSequence) : Address × CreateSequence :=
  let s := s.advance
  (nonceAddress creator s.currentNonce, s)

end CreateSequence

end ContractVm
