import ContractVm.Options
import ContractVm.Options.Json

/-! # Options as text

Options are written as a JSON object with a key for each option, or as an array of the options in
their fixed order. What is left out keeps its default, keys that name no option are skipped, and a
key that names one may not occur twice. Numbers are natural numbers below `2 ^ 64`. -/

namespace ContractVm

namespace Json

structure Member (α : Type) where
  name : String
  set : Document → α → Option α

/-- Sets one field by its name; `seen` are the names that were set before. -/
def setByName {α : Type} (fields : List (Member α)) (seen : List String) (record : α)
    (key : String) (value : Document) : Option (List String × α) :=
  match fields.find? (fun f => f.name == key) with
  | none => some (seen, record)
  | some field =>
    if seen.contains key then none
    else (field.set value record).map fun record => (key :: seen, record)

/-- The record an object or an array describes, starting from `record`. -/
def readRecord {α : Type} (fields : List (Member α)) (record : α) : Document → Option α
  | .object entries =>
    (entries.foldlM (fun (seen, record) (key?, value) => do
      setByName fields seen record (← key?) value) ([], record)).map Prod.snd
  | .array items =>
    if items.length ≤ fields.length then
      (items.zip fields).foldlM (fun record (item, field) => field.set item record) record
    else none
  | _ => none

def natBelow (bound : Nat) : Document → Option Nat
  | .number (some n) => if n < bound then some n else none
  | _ => none

def numberMember {α : Type} (name : String) (set : Nat → α → α) : Member α :=
  { name, set := fun document record => (natBelow bound64 document).map (set · record) }

def readBytes : Document → Option Bytes
  | .array items => items.mapM fun item => (natBelow 256 item).map UInt8.ofNat
  | _ => none

end Json

open Json

namespace Schedule

def fields : List (Member Schedule) :=
  [numberMember "base_op" fun n s => { s with baseOp := n },
   numberMember "stack_op" fun n s => { s with stackOp := n },
   numberMember "sha3" fun n s => { s with sha3 := n },
   numberMember "get_account" fun n s => { s with getAccount := n },
   numberMember "storage_update" fun n s => { s with storageUpdate := n },
   numberMember "create_account" fun n s => { s with createAccount := n },
   numberMember "memory_word" fun n s => { s with memoryWord := n },
   numberMember "copy_word" fun n s => { s with copyWord := n }]

end Schedule

namespace Options

def fields : List (Member Options) :=
  [numberMember "data_stack_initial_capacity" fun n o => { o with stackInitialCapacity := n },
   numberMember "data_stack_max_depth" fun n o => { o with stackMaxDepth := n },
   numberMember "call_stack_max_depth" fun n o => { o with callMaxDepth := n },
   numberMember "memory_initial_capacity" fun n o => { o with memoryInitialCapacity := n },
   numberMember "memory_maximum_capacity" fun n o => { o with memoryMaximumCapacity := n },
   { name := "nonce", set := fun document o => (readBytes document).map o.withNonce },
   { name := "gas",
     set := fun document o => (readRecord Schedule.fields {} document).map o.withSchedule }]

def parse (text : String) : Option Options :=
  (Json.parse text).bind (readRecord fields {})

end Options

end ContractVm
