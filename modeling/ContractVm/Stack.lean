import ContractVm.Gas
import ContractVm.Signed

/-! # The operand stack

A list of words with the top first. Every push, pop, copy and exchange is paid for first; one that
cannot be paid for, or that finds too few or too many items, records its fault, leaves the items as
they are, and yields zero where a word is expected. -/

namespace ContractVm

/-- The items with the top first, their number, the price of an operation, and the depth allowed
(zero for no bound but the index limit). -/
structure Stack where
  items : List Word := []
  depth : Nat := 0
  price : Nat := 1
  maxDepth : Nat := 0
  depth_eq : depth = items.length := by rfl

namespace Stack

def empty (price maxDepth : Nat) : Stack :=
  { price, maxDepth }

def exceeds (s : Stack) (depth : Nat) : Bool :=
  indexLimit < depth || (0 < s.maxDepth && s.maxDepth < depth)

/-- Puts a word on top without a charge. -/
def place (w : Word) (s : Stack) (m : Meter) : Stack × Meter :=
  if s.exceeds (s.depth + 1) then (s, m.record .stackOverflow)
  else
    ({ s with
        items := w :: s.items
        depth := s.depth + 1
        depth_eq := by simp [s.depth_eq] }, m)

def push (w : Word) (s : Stack) (m : Meter) : Stack × Meter :=
  match m.consume s.price with
  | .ok m => s.place w m
  | .error fault => (s, m.record fault)

def discard (s : Stack) : Stack :=
  { s with items := s.items.tail, depth := s.depth - 1, depth_eq := by simp [s.depth_eq] }

def pop (s : Stack) (m : Meter) : Word × Stack × Meter :=
  match m.consume s.price with
  | .error fault => (0, s, m.record fault)
  | .ok m =>
    match s.items with
    | [] => (0, s, m.record .stackUnderflow)
    | w :: _ => (w, s.discard, m)

/-- Pushes a copy of item `n`, counted from 1 at the top. The copy is charged for, and so is the
push. -/
def dup (n : Nat) (s : Stack) (m : Meter) : Stack × Meter :=
  match m.consume s.price with
  | .error fault => (s, m.record fault)
  | .ok m =>
    match n with
    | 0 => (s, m.record .stackUnderflow)
    | k + 1 =>
      match s.items[k]? with
      | some w => s.push w m
      | none => (s, m.record .stackUnderflow)

/-- Exchanges the top with the item `n` below it. -/
def swap (n : Nat) (s : Stack) (m : Meter) : Stack × Meter :=
  match m.consume s.price with
  | .error fault => (s, m.record fault)
  | .ok m =>
    match n, s.items[0]?, s.items[n]? with
    | _ + 1, some top, some w =>
      ({ s with
          items := (s.items.set 0 w).set n top
          depth_eq := by simp [s.depth_eq] }, m)
    | _, _, _ => (s, m.record .stackUnderflow)

def peek (s : Stack) (m : Meter) : Word × Meter :=
  match s.items with
  | [] => (0, m.record .stackUnderflow)
  | w :: _ => (w, m)

/-- Pops a word that fits in 64 bits; one that does not counts as zero and records a fault. -/
def pop64 (s : Stack) (m : Meter) : Nat × Stack × Meter :=
  let (w, s, m) := s.pop m
  match Word.toNat64? w with
  | some n => (n, s, m)
  | none => (0, s, m.record .integerOverflow)

def popAddress (s : Stack) (m : Meter) : Address × Stack × Meter :=
  let (w, s, m) := s.pop m
  (Address.ofWord w, s, m)

def popSigned (s : Stack) (m : Meter) : Signed × Stack × Meter :=
  let (w, s, m) := s.pop m
  (Signed.ofWord w, s, m)

end Stack

end ContractVm
