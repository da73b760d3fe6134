import ContractVm.Frame

/-! # Moving value and accounts

The steps on a frame that move balances, open accounts and close them. A step that fails gives no
frame: the call that it is part of then fails as well, and the frame of a failed call is dropped
without being read. -/

namespace ContractVm

namespace Frame

/-- Moves an amount between two accounts that must exist; moving nothing always works. -/
def transfer (below : View) (sender receiver : Address) (amount : Word) (f : Frame) :
    Except Fault Frame :=
  if amount = 0 then .ok f
  else do
    let a ← (f.view below).existing sender
    let a ← a.debit amount
    let f ← f.write (.put a)
    let b ← (f.view below).existing receiver
    let b ← b.credit amount
    f.write (.put b)

def openAccount (below : View) (address : Address) (f : Frame) : Except Fault Frame := do
  if ← (f.view below).exists? address then throw (.duplicateAccount address)
  f.write (.put { address })

/-- Moves the whole balance of an account to a heir and removes the account. -/
def bequeath (below : View) (address heir : Address) (f : Frame) : Except Fault Frame := do
  let balance := (← (f.view below).existing address).balance
  let b ← (f.view below).existing heir
  let b ← b.credit balance
  let f ← f.write (.put b)
  f.write (.remove address)

def installCode (below : View) (address : Address) (code : Bytes) (f : Frame) :
    Except Fault Frame := do
  let a ← (f.view below).existing address
  if a.hasCode then throw .illegalWrite
  f.write (.put { a with code })

end Frame

end ContractVm
