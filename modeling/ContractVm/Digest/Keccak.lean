import ContractVm.Word

/-! # Keccak-256

The sponge over a state of five rows of five 64-bit lanes, with a rate of 136 bytes and the padding
that starts with the byte `0x01`. -/

namespace ContractVm

namespace Keccak

structure Row where
  a : UInt64
  b : UInt64
  c : UInt64
  d : UInt64
  e : UInt64
  deriving Repr, DecidableEq

structure State where
  v : Row
  w : Row
  x : Row
  y : Row
  z : Row
  deriving Repr, DecidableEq

@[inline] def rotate (lane : UInt64) (k : UInt64) : UInt64 :=
  (lane <<< k) ||| (lane >>> (64 - k))

@[inline] def Row.xor (r s : Row) : Row :=
  ⟨r.a ^^^ s.a, r.b ^^^ s.b, r.c ^^^ s.c, r.d ^^^ s.d, r.e ^^^ s.e⟩

def State.xor (s t : State) : State :=
  ⟨s.v.xor t.v, s.w.xor t.w, s.x.xor t.x, s.y.xor t.y, s.z.xor t.z⟩

/-- Adds to every lane the parity of the two neighbouring columns. -/
def theta (s : State) : State :=
  let p := (((s.v.xor s.w).xor s.x).xor s.y).xor s.z
  let q : Row := ⟨p.e ^^^ rotate p.b 1, p.a ^^^ rotate p.c 1, p.b ^^^ rotate p.d 1,
    p.c ^^^ rotate p.e 1, p.d ^^^ rotate p.a 1⟩
  ⟨s.v.xor q, s.w.xor q, s.x.xor q, s.y.xor q, s.z.xor q⟩

/-- Rotates every lane by its own amount and moves it to its new place. -/
def rhoPi (s : State) : State :=
  { v := ⟨s.v.a, rotate s.w.b 44, rotate s.x.c 43, rotate s.y.d 21, rotate s.z.e 14⟩
    w := ⟨rotate s.v.d 28, rotate s.w.e 20, rotate s.x.a 3, rotate s.y.b 45, rotate s.z.c 61⟩
    x := ⟨rotate s.v.b 1, rotate s.w.c 6, rotate s.x.d 25, rotate s.y.e 8, rotate s.z.a 18⟩
    y := ⟨rotate s.v.e 27, rotate s.w.a 36, rotate s.x.b 10, rotate s.y.c 15, rotate s.z.d 56⟩
    z := ⟨rotate s.v.c 62, rotate s.w.d 55, rotate s.x.e 39, rotate s.y.a 41, rotate s.z.b 2⟩ }

@[inline] def chiRow (r : Row) : Row :=
  ⟨r.a ^^^ (~~~r.b &&& r.c), r.b ^^^ (~~~r.c &&& r.d), r.c ^^^ (~~~r.d &&& r.e),
    r.d ^^^ (~~~r.e &&& r.a), r.e ^^^ (~~~r.a &&& r.b)⟩

def chi (s : State) : State :=
  ⟨chiRow s.v, chiRow s.w, chiRow s.x, chiRow s.y, chiRow s.z⟩

def round (s : State) (constant : UInt64) : State :=
  let t := chi (rhoPi (theta s))
  { t with v := { t.v with a := t.v.a ^^^ constant } }

def roundConstants : List UInt64 :=
  [0x0000000000000001, 0x0000000000008082, 0x800000000000808a, 0x8000000080008000,
   0x000000000000808b, 0x0000000080000001, 0x8000000080008081, 0x8000000000008009,
   0x000000000000008a, 0x0000000000000088, 0x0000000080008009, 0x000000008000000a,
   0x000000008000808b, 0x800000000000008b, 0x8000000000008089, 0x8000000000008003,
   0x8000000000008002, 0x8000000000000080, 0x000000000000800a, 0x800000008000000a,
   0x8000000080008081, 0x8000000000008080, 0x0000000080000001, 0x8000000080008008]

def permute (s : State) : State :=
  roundConstants.foldl round s

/-- The lane spelled by eight bytes, least significant first. -/
def laneOf (bs : Bytes) : UInt64 :=
  bs.foldr (fun b acc => (acc <<< 8) ||| b.toUInt64) 0

def lanesOf (block : Bytes) : Array UInt64 :=
  Bytes.foldBlocks 8 (fun lanes bs => lanes.push (laneOf bs)) #[] block

def State.ofBlock (block : Bytes) : State :=
  let l := lanesOf block
  let row (i : Nat) : Row :=
    ⟨l.getD i 0, l.getD (i + 1) 0, l.getD (i + 2) 0, l.getD (i + 3) 0, l.getD (i + 4) 0⟩
  ⟨row 0, row 5, row 10, row 15, row 20⟩

def rate : Nat := 136

/-- What is appended so that the length becomes a multiple of the rate. -/
def padding (length : Nat) : Bytes :=
  let missing := rate - length % rate
  if missing = 1 then [0x81] else 0x01 :: (List.replicate (missing - 2) 0 ++ [0x80])

def bytesOf (lane : UInt64) : Bytes :=
  Bytes.digits 8 lane.toNat

def digest (message : Bytes) : Bytes :=
  let s := Bytes.foldBlocks rate (fun s block => permute (s.xor (State.ofBlock block)))
    (State.ofBlock []) (message ++ padding message.length)
  bytesOf s.v.a ++ bytesOf s.v.b ++ bytesOf s.v.c ++ bytesOf s.v.d

end Keccak

def keccak256 (message : Bytes) : Word :=
  Word.ofBytes (Keccak.digest message)

end ContractVm
