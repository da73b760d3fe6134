import ContractVm.Frame
import ContractVm.Ledger

/-! # Towers of frames

A ledger with the frames opened over it. Reads and writes go to the latest frame, or to the ledger
while there is none; `Tower.sync` hands the changes of the latest frame down by one level. -/

namespace ContractVm

/-- A ledger, the frames over it with the latest first, and the depth allowed. -/
structure Tower where
  ledger : Ledger := {}
  frames : List Frame := []
  maxDepth : Nat := 0

namespace Tower

def view (t : Tower) : View :=
  t.frames.foldr Frame.view t.ledger.view

def push (t : Tower) : Except Fault Tower :=
  match t.frames with
  | [] => .ok { t with frames := [Frame.root t.maxDepth] }
  | top :: _ =>
    match top.child with
    | .ok frame => .ok { t with frames := frame :: t.frames }
    | .error fault => .error fault

def pop (t : Tower) : Tower :=
  { t with frames := t.frames.tail }

def write (t : Tower) (change : Change) : Except Fault Tower :=
  match t.frames with
  | [] => .ok { t with ledger := t.ledger.apply change }
  | top :: rest =>
    match top.write change with
    | .ok top => .ok { t with frames := top :: rest }
    | .error fault => .error fault

instance : Store Tower where
  write := write
  view := view

def freeze (t : Tower) : Tower :=
  match t.frames with
  | [] => t
  | top :: rest => { t with frames := { top with readOnly := true } :: rest }

/-- Hands the changes of the latest frame down to what lies under it. -/
def sync (t : Tower) : Tower × Except Fault Unit :=
  match t.frames with
  | [] => (t, .ok ())
  | [top] =>
    let (top, ledger, result) := top.sync t.ledger
    ({ t with ledger, frames := [top] }, result)
  | top :: next :: rest =>
    let (top, next, result) := top.sync next
    ({ t with frames := top :: next :: rest }, result)

def top? (t : Tower) : Option Frame :=
  t.frames.head?

end Tower

end ContractVm
