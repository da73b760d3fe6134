import ContractVm.Bytes

/-! # RIPEMD-160

Two lines of eighty steps each run over the same block and are added up at its end. -/

namespace ContractVm

namespace Ripemd160

structure State where
  a : UInt32
  b : UInt32
  c : UInt32
  d : UInt32
  e : UInt32
  deriving Repr, DecidableEq

/-- One step of a line: which round function and constant, which block word, how far to rotate. -/
structure Step where
  mix : UInt32 → UInt32 → UInt32 → UInt32
  constant : UInt32
  index : Nat
  amount : UInt32

@[inline] def rotate (x : UInt32) (k : UInt32) : UInt32 :=
  (x <<< k) ||| (x >>> (32 - k))

def mixers : List (UInt32 → UInt32 → UInt32 → UInt32) :=
  [fun x y z => x ^^^ y ^^^ z,
   fun x y z => (x &&& y) ||| (~~~x &&& z),
   fun x y z => (x ||| ~~~y) ^^^ z,
   fun x y z => (x &&& z) ||| (y &&& ~~~z),
   fun x y z => x ^^^ (y ||| ~~~z)]

def leftConstants : List UInt32 :=
  [0x00000000, 0x5a827999, 0x6ed9eba1, 0x8f1bbcdc, 0xa953fd4e]

def rightConstants : List UInt32 :=
  [0x50a28be6, 0x5c4dd124, 0x6d703ef3, 0x7a6d76e9, 0x00000000]

def leftIndices : List (List Nat) :=
  [[0, 1, 2, 3, 4, 5, 6, 7, 8, 9, 10, 11, 12, 13, 14, 15],
   [7, 4, 13, 1, 10, 6, 15, 3, 12, 0, 9, 5, 2, 14, 11, 8],
   [3, 10, 14, 4, 9, 15, 8, 1, 2, 7, 0, 6, 13, 11, 5, 12],
   [1, 9, 11, 10, 0, 8, 12, 4, 13, 3, 7, 15, 14, 5, 6, 2],
   [4, 0, 5, 9, 7, 12, 2, 10, 14, 1, 3, 8, 11, 6, 15, 13]]

def rightIndices : List (List Nat) :=
  [[5, 14, 7, 0, 9, 2, 11, 4, 13, 6, 15, 8, 1, 10, 3, 12],
   [6, 11, 3, 7, 0, 13, 5, 10, 14, 15, 8, 12, 4, 9, 1, 2],
   [15, 5, 1, 3, 7, 14, 6, 9, 11, 8, 12, 2, 10, 0, 4, 13],
   [8, 6, 4, 1, 3, 11, 15, 0, 5, 12, 2, 13, 9, 7, 10, 14],
   [12, 15, 10, 4, 1, 5, 8, 7, 6, 2, 13, 14, 0, 3, 9, 11]]

def leftAmounts : List (List UInt32) :=
  [[11, 14, 15, 12, 5, 8, 7, 9, 11, 13, 14, 15, 6, 7, 9, 8],
   [7, 6, 8, 13, 11, 9, 7, 15, 7, 12, 15, 9, 11, 7, 13, 12],
   [11, 13, 6, 7, 14, 9, 13, 15, 14, 8, 13, 6, 5, 12, 7, 5],
   [11, 12, 14, 15, 14, 15, 9, 8, 9, 14, 5, 6, 8, 6, 5, 12],
   [9, 15, 5, 11, 6, 8, 13, 12, 5, 12, 13, 14, 11, 8, 5, 6]]

def rightAmounts : List (List UInt32) :=
  [[8, 9, 9, 11, 13, 15, 15, 5, 7, 7, 8, 11, 14, 14, 12, 6],
   [9, 13, 15, 7, 12, 8, 9, 11, 7, 7, 12, 7, 6, 15, 13, 11],
   [9, 7, 15, 11, 8, 6, 6, 14, 12, 13, 5, 14, 13, 13, 7, 5],
   [15, 5, 8, 11, 14, 14, 6, 14, 6, 9, 12, 9, 12, 5, 15, 8],
   [8, 5, 12, 9, 12, 5, 14, 6, 8, 13, 6, 5, 15, 13, 11, 11]]

def line (mixes : List (UInt32 → UInt32 → UInt32 → UInt32)) (constants : List UInt32)
    (indices : List (List Nat)) (amounts : List (List UInt32)) : List Step :=
  ((mixes.zip constants).zip (indices.zip amounts)).flatMap fun ((mix, constant), (is, as)) =>
    (is.zip as).map fun (index, amount) => { mix, constant, index, amount }

def leftLine : List Step := line mixers leftConstants leftIndices leftAmounts

/-- The right line, which takes the round functions in reverse order. -/
def rightLine : List Step := line mixers.reverse rightConstants rightIndices rightAmounts

def initial : State := ⟨0x67452301, 0xefcdab89, 0x98badcfe, 0x10325476, 0xc3d2e1f0⟩

/-- The word spelled by four bytes, least significant first. -/
def wordOf (bs : Bytes) : UInt32 :=
  bs.foldr (fun b acc => (acc <<< 8) ||| b.toUInt32) 0

def advance (words : Array UInt32) (s : State) (step : Step) : State :=
  let t := rotate (s.a + step.mix s.b s.c s.d + words.getD step.index 0 + step.constant)
    step.amount + s.e
  ⟨s.e, t, s.b, rotate s.c 10, s.d⟩

def compress (s : State) (block : Bytes) : State :=
  let words := Bytes.foldBlocks 4 (fun ws bs => ws.push (wordOf bs)) #[] block
  let l := leftLine.foldl (advance words) s
  let r := rightLine.foldl (advance words) s
  ⟨s.b + l.c + r.d, s.c + l.d + r.e, s.d + l.e + r.a, s.e + l.a + r.b, s.a + l.b + r.c⟩

def digest (message : Bytes) : Bytes :=
  let zeros := (119 - message.length % 64) % 64
  let padded := message ++ 0x80 :: (List.replicate zeros 0 ++ Bytes.digits 8 (8 * message.length))
  let s := Bytes.foldBlocks 64 compress initial padded
  [s.a, s.b, s.c, s.d, s.e].flatMap fun w => Bytes.digits 4 w.toNat

end Ripemd160

def ripemd160 (message : Bytes) : Bytes :=
  Ripemd160.digest message

end ContractVm
