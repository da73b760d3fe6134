import Mathlib
import ContractVm.Proofs.Nested

/-! # How instructions are put together

`Exec.Built` says that a part of an instruction is made of the machine's small operations, and
`Exec.built_step` that every instruction is, but for jumps and pushes, which move the program
counter. What holds of the small operations and is kept by sequencing then holds of instructions, by
induction on how they are built. -/

namespace ContractVm

def Flow.halts : Flow → Bool
  | .halt _ => true
  | _ => false

def Flow.jumps : Flow → Bool
  | .jumped => true
  | _ => false

namespace Opcode

def halts : Opcode → Bool
  | .stop | .ret | .revert | .invalid | .selfDestruct => true
  | _ => false

/-- Whether an instruction moves the program counter itself. -/
def moves : Opcode → Bool
  | .jump | .jumpIf | .push _ => true
  | _ => false

/-- Whether what an instruction does depends on how much gas is left, beyond having enough of it. -/
def readsGas : Opcode → Bool
  | .query .gas | .query .gasLimit | .create _ | .call _ => true
  | _ => false

end Opcode

theorem Query.eval_blind {op : Query} (h : (Opcode.query op).readsGas = false) (env : Env)
    (m : Machine) (meter : Meter) : op.eval env { m with meter } = op.eval env m := by
  cases op with
  | gas => cases h
  | gasLimit => cases h
  | _ => rfl

namespace Exec

variable {α β : Type}

/-- The part is made of small operations and yields a value that satisfies `Φ`. If `blind` holds,
it never looks at the meter but to see whether there is a fault. -/
inductive Built (blind : Prop) : {α : Type} → (α → Prop) → Exec α → Prop where
  | pure {α : Type} {Φ : α → Prop} {a : α} (h : Φ a) : Built blind Φ (pure a)
  | bind {α β : Type} {Ψ : α → Prop} {Φ : β → Prop} {p : Exec α} {f : α → Exec β}
      (hp : Built blind Ψ p) (hf : ∀ a, Built blind Φ (f a)) : Built blind Φ (p >>= f)
  | look {β : Type} {Φ : β → Prop} {f : Machine → Exec β} (hf : ∀ m, Built blind Φ (f m))
      (hb : blind → ∀ (m : Machine) (meter : Meter), f { m with meter } = f m) :
      Built blind Φ (get >>= f)
  | faulty : Built blind (fun _ => True) faulty
  | charge (amount : Nat) : Built blind (fun _ => True) (charge amount)
  | fail (fault : Fault) : Built blind (fun _ => True) (fail fault)
  | attempt {α : Type} (result : Except Fault α) : Built blind (fun _ => True) (attempt result)
  | push (w : Word) : Built blind (fun _ => True) (push w)
  | pop : Built blind (fun _ => True) pop
  | pop64 : Built blind (fun _ => True) pop64
  | popAddress : Built blind (fun _ => True) popAddress
  | dup (n : Nat) : Built blind (fun _ => True) (dup n)
  | swap (n : Nat) : Built blind (fun _ => True) (swap n)
  | readMemory (offset length : Word) : Built blind (fun _ => True) (readMemory offset length)
  | writeMemory (offset : Word) (bs : Bytes) : Built blind (fun _ => True) (writeMemory offset bs)
  | reserveMemory (offset : Word) (length : Nat) :
      Built blind (fun _ => True) (reserveMemory offset length)
  | setReturnData (bs : Bytes) : Built blind (fun _ => True) (setReturnData bs)
  | setFrame (frame : Frame) : Built blind (fun _ => True) (modify fun m => { m with frame })
  | record (event : Event) :
      Built blind (fun _ => True) (modify fun m => { m with trace := m.trace.push event })
  | newAddress (creator : Address) (salt : Option Word) (initCode : Bytes) :
      Built blind (fun _ => True) (newAddress creator salt initCode)

section Rules

variable {blind : Prop} {Φ : β → Prop}

theorem Built.ite {c : Prop} [Decidable c] {p q : Exec β} (hp : Built blind Φ p)
    (hq : Built blind Φ q) : Built blind Φ (if c then p else q) := by
  split
  · exact hp
  · exact hq

theorem Built.attempt_bind {r : Except Fault α} {f : Option α → Exec β}
    (ok : ∀ a, Built blind Φ (f (some a))) (error : Built blind Φ (f none)) :
    Built blind Φ (Exec.attempt r >>= f) := by
  refine (Built.attempt r).bind fun value => ?_
  cases value with
  | none => exact error
  | some a => exact ok a

end Rules

/-! ### Parts of instructions -/

abbrev Composed (blind : Prop) (p : Exec α) : Prop :=
  Built blind (fun _ => True) p

variable (blind : Prop)

theorem built_popMany (n : Nat) : Composed blind (popMany n) := by
  induction n with
  | zero => exact .pure trivial
  | succ n ih => exact Built.pop.bind fun w => ih.bind fun rest => .pure trivial

theorem built_updateFrame (f : Frame → Except Fault Frame) : Composed blind (updateFrame f) := by
  refine .look (fun m => ?_) fun _ _ _ => rfl
  refine .attempt_bind (fun frame => ?_) (.pure trivial)
  exact (Built.setFrame frame).bind fun _ => .pure trivial

theorem built_openAccount (env : Env) (x : Address) : Composed blind (openAccount env x) :=
  .attempt_bind (fun _ => built_updateFrame blind _) (.pure trivial)

theorem built_emit (event : Event) : Composed blind (emit event) :=
  .look (fun _ => .ite (.fail _) (.record event)) fun _ _ _ => rfl

theorem built_writeOutput (offset : Word) (output : Bytes) (size : Nat) :
    Composed blind (writeOutput offset output size) :=
  (Built.reserveMemory offset size).bind fun _ =>
    .ite (.ite (.fail _) (.writeMemory offset _)) (.pure trivial)

theorem built_copyToMemory (env : Env) (data : Bytes) (memOffset : Word) (offset length : Nat) :
    Composed blind (copyToMemory env data memOffset offset length) := by
  refine (Built.charge _).bind fun _ => Built.faulty.bind fun _ => .ite (.pure trivial) ?_
  refine (Built.reserveMemory memOffset length).bind fun _ => .ite ?_ (.pure trivial)
  exact .attempt_bind (fun window => .writeMemory memOffset window) (.pure trivial)

theorem built_copyData (env : Env) (data : Bytes) : Composed blind (copyData env data) :=
  Built.pop.bind fun memOffset => Built.pop64.bind fun offset => Built.pop64.bind fun length =>
    built_copyToMemory blind env data memOffset offset length

theorem built_copyReturnData (env : Env) : Composed blind (copyReturnData env) := by
  refine Built.pop.bind fun memOffset => Built.pop.bind fun offset => ?_
  refine Built.pop.bind fun length => ?_
  refine .look (fun m => ?_) fun _ _ _ => rfl
  split
  · exact (Built.charge _).bind fun _ => .writeMemory memOffset _
  · exact .fail _

theorem built_popAccount (env : Env) (price : Nat) : Composed blind (popAccount env price) :=
  Built.popAddress.bind fun _ => (Built.charge price).bind fun _ =>
    .look (fun _ => .attempt_bind (fun _ => .pure trivial) (.pure trivial)) fun _ _ _ => rfl

theorem built_log (env : Env) (n : Nat) : Composed blind (log env n) := by
  refine Built.pop.bind fun offset => Built.pop.bind fun size => ?_
  refine (built_popMany blind n).bind fun topics => ?_
  refine (Built.readMemory offset size).bind fun data => ?_
  exact Built.faulty.bind fun _ => .ite (.pure trivial) (built_emit blind _)

/-- What `selfDestruct` does once it has paid for the look-up of the heir. -/
def bestow (env : Env) (heir : Address) : Exec Unit := do
  let some present ← attempt (((← get).view env).exists? heir) | return
  if !present then
    charge env.prices.createAccount
    if ← faulty then return
    if !(← openAccount env heir) then return
  if ← faulty then return
  let _ ← updateFrame (Frame.bequeath env.below env.call.callee heir)

theorem selfDestruct_eq (env : Env) :
    selfDestruct env =
      popAddress >>= fun heir => charge env.prices.getAccount >>= fun _ => bestow env heir := rfl

theorem built_bestow (env : Env) (heir : Address) : Composed blind (bestow env heir) := by
  refine .look (fun m => .attempt_bind (fun present => ?_) (.pure trivial)) fun _ _ _ => rfl
  extract_lets rest
  have hrest : Composed blind (rest ()) := Built.faulty.bind fun _ =>
    .ite (.pure trivial) ((built_updateFrame blind _).bind fun _ => .pure trivial)
  refine .ite ?_ hrest
  refine (Built.charge _).bind fun _ => Built.faulty.bind fun _ => .ite (.pure trivial) ?_
  exact (built_openAccount blind env heir).bind fun _ => .ite (.pure trivial) hrest

theorem built_selfDestruct (env : Env) : Composed blind (selfDestruct env) := by
  rw [selfDestruct_eq]
  exact Built.popAddress.bind fun heir => (Built.charge _).bind fun _ => built_bestow blind env heir

theorem built_land (landing : Landing) (result : Except Fault Bytes) :
    Composed blind (land landing result) := by
  cases landing with
  | create address =>
    cases result with
    | ok output => exact .push _
    | error fault => exact (Built.push 0).bind fun _ => .setReturnData _
  | memory offset size =>
    cases result with
    | ok output =>
      exact (Built.push 1).bind fun _ => (built_writeOutput blind offset output size).bind fun _ =>
        .setReturnData output
    | error fault =>
      refine (Built.push 0).bind fun _ => .ite ?_ (.setReturnData _)
      exact (built_writeOutput blind offset _ size).bind fun _ => .setReturnData _

/-! ### Asking for a nested call

The gas to forward depends on what is left. -/

theorem built_popSalt (variant : CreateVariant) : Composed blind (popSalt variant) := by
  cases variant with
  | sequenced => exact .pure trivial
  | salted => exact Built.pop.bind fun salt => .pure trivial

theorem built_findTarget (env : Env) (variant : CallVariant) (target : Address) :
    Composed blind (findTarget env variant target) := by
  refine .look (fun m => .attempt_bind (fun entry => ?_) (.pure trivial)) fun _ _ _ => rfl
  cases entry with
  | some account => exact .pure trivial
  | none =>
    cases variant with
    | plain =>
      exact (built_openAccount blind env target).bind fun _ => .ite (.pure trivial) (.pure trivial)
    | code => exact (Built.fail _).bind fun _ => .pure trivial
    | delegate => exact (Built.fail _).bind fun _ => .pure trivial
    | static => exact (Built.fail _).bind fun _ => .pure trivial

variable {blind}

theorem built_prepareCreate (hb : ¬ blind) (env : Env) (variant : CreateVariant) :
    Composed blind (prepareCreate env variant) := by
  refine (Built.setReturnData []).bind fun _ => Built.pop.bind fun value => ?_
  refine Built.pop.bind fun offset => Built.pop.bind fun size => ?_
  refine (Built.readMemory offset size).bind fun input => (Built.charge _).bind fun _ => ?_
  refine (built_popSalt blind variant).bind fun salt => Built.faulty.bind fun _ => ?_
  refine .ite (.pure trivial) ((Built.newAddress _ salt input).bind fun address => ?_)
  refine .attempt_bind (fun _ => .look (fun m => ?_) fun _ _ _ => rfl) (.pure trivial)
  refine .attempt_bind (fun child => .look (fun m => ?_) fun _ _ _ => rfl) (.pure trivial)
  refine .attempt_bind (fun frame => .look (fun m => ?_) fun h => absurd h hb) (.pure trivial)
  exact (Built.charge _).bind fun _ => .pure trivial

theorem built_prepareCall (hb : ¬ blind) (env : Env) (variant : CallVariant) :
    Composed blind (prepareCall env variant) := by
  refine (Built.setReturnData []).bind fun _ => .attempt_bind (fun _ => ?_) (.pure trivial)
  refine Built.pop64.bind fun gasLimit => Built.popAddress.bind fun target => ?_
  extract_lets rest
  have hrest : ∀ value, Composed blind (rest value) := by
    intro value
    refine Built.pop.bind fun inOffset => Built.pop.bind fun inSize => ?_
    refine Built.pop.bind fun outOffset => Built.pop64.bind fun outSize => ?_
    refine (Built.charge _).bind fun _ => ?_
    refine (built_findTarget blind env variant target).bind fun found => ?_
    cases found with
    | none => exact .pure trivial
    | some account =>
      refine (Built.readMemory inOffset inSize).bind fun input => Built.faulty.bind fun _ => ?_
      refine .ite (.pure trivial) (.look (fun m => ?_) fun _ _ _ => rfl)
      refine .attempt_bind (fun child => .look (fun m => ?_) fun h => absurd h hb) (.pure trivial)
      exact (Built.charge _).bind fun _ => .pure trivial
  split
  · exact Built.pop.bind fun value => hrest value
  · exact hrest env.call.value

/-! ### Instructions -/

/-- The flow ends the run if `halts` says so, and does not jump. -/
structure Straight (halts : Bool) (flow : Flow) : Prop where
  halts : flow.halts = halts
  stays : flow.jumps = false

theorem built_step (env : Env) (op : Opcode) (h : op.moves = false) :
    Built (op.readsGas = false) (Straight op.halts) (step env op) := by
  cases op with
  | jump => cases h
  | jumpIf => cases h
  | push n => cases h
  | stop => exact .pure ⟨rfl, rfl⟩
  | jumpDest => exact .pure ⟨rfl, rfl⟩
  | unary op => exact Built.pop.bind fun x => (Built.push _).bind fun _ => .pure ⟨rfl, rfl⟩
  | binary op =>
    exact Built.pop.bind fun x => Built.pop.bind fun y => (Built.push _).bind fun _ =>
      .pure ⟨rfl, rfl⟩
  | ternary op =>
    exact Built.pop.bind fun x => Built.pop.bind fun y => Built.pop.bind fun z =>
      (Built.push _).bind fun _ => .pure ⟨rfl, rfl⟩
  | query op =>
    refine .look (fun m => (Built.push _).bind fun _ => .pure ⟨rfl, rfl⟩) fun hb m meter => ?_
    rw [Query.eval_blind hb]
  | signExtend =>
    refine Built.pop.bind fun back => .ite ?_ (.pure ⟨rfl, rfl⟩)
    exact Built.pop.bind fun value => (Built.push _).bind fun _ => .pure ⟨rfl, rfl⟩
  | byte =>
    exact Built.pop64.bind fun index => Built.pop.bind fun value =>
      (Built.push _).bind fun _ => .pure ⟨rfl, rfl⟩
  | sha3 =>
    refine (Built.charge _).bind fun _ => Built.pop.bind fun offset => Built.pop.bind fun size => ?_
    exact (Built.readMemory offset size).bind fun data => (Built.push _).bind fun _ =>
      .pure ⟨rfl, rfl⟩
  | balance =>
    refine Built.popAddress.bind fun address => (Built.charge _).bind fun _ => ?_
    refine .look (fun m => .attempt_bind (fun account => ?_) (.pure ⟨rfl, rfl⟩)) fun _ _ _ => rfl
    exact (Built.push _).bind fun _ => .pure ⟨rfl, rfl⟩
  | callDataLoad =>
    refine Built.pop64.bind fun offset => .attempt_bind (fun data => ?_) (.pure ⟨rfl, rfl⟩)
    exact (Built.push _).bind fun _ => .pure ⟨rfl, rfl⟩
  | callDataCopy => exact (built_copyData _ env _).bind fun _ => .pure ⟨rfl, rfl⟩
  | codeCopy => exact (built_copyData _ env _).bind fun _ => .pure ⟨rfl, rfl⟩
  | extCodeSize =>
    refine (built_popAccount _ env _).bind fun found => ?_
    rcases found with ⟨address, _ | _ | account⟩
    · exact .pure ⟨rfl, rfl⟩
    · exact (Built.push _).bind fun _ => .pure ⟨rfl, rfl⟩
    · exact (Built.push _).bind fun _ => .pure ⟨rfl, rfl⟩
  | extCodeCopy =>
    refine (built_popAccount _ env _).bind fun found => ?_
    rcases found with ⟨address, _ | _ | account⟩
    · exact .pure ⟨rfl, rfl⟩
    · exact (Built.fail _).bind fun _ => .pure ⟨rfl, rfl⟩
    · exact (built_copyData _ env _).bind fun _ => .pure ⟨rfl, rfl⟩
  | returnDataCopy => exact (built_copyReturnData _ env).bind fun _ => .pure ⟨rfl, rfl⟩
  | extCodeHash =>
    refine Built.popAddress.bind fun address => .look (fun m => ?_) fun _ _ _ => rfl
    refine .attempt_bind (fun account => ?_) (.pure ⟨rfl, rfl⟩)
    cases account with
    | none => exact (Built.push _).bind fun _ => .pure ⟨rfl, rfl⟩
    | some account => exact (Built.push _).bind fun _ => .pure ⟨rfl, rfl⟩
  | blockHash =>
    refine Built.pop64.bind fun height => .attempt_bind (fun hash => ?_) (.pure ⟨rfl, rfl⟩)
    exact (Built.push _).bind fun _ => .pure ⟨rfl, rfl⟩
  | pop => exact Built.pop.bind fun _ => .pure ⟨rfl, rfl⟩
  | mload =>
    exact Built.pop.bind fun offset => (Built.readMemory offset 32).bind fun data =>
      (Built.push _).bind fun _ => .pure ⟨rfl, rfl⟩
  | mstore =>
    exact Built.pop.bind fun offset => Built.pop.bind fun value =>
      (Built.writeMemory offset _).bind fun _ => .pure ⟨rfl, rfl⟩
  | mstore8 =>
    exact Built.pop.bind fun offset => Built.pop.bind fun value =>
      (Built.writeMemory offset _).bind fun _ => .pure ⟨rfl, rfl⟩
  | sload =>
    refine Built.pop.bind fun key => .look (fun m => ?_) fun _ _ _ => rfl
    refine .attempt_bind (fun value => ?_) (.pure ⟨rfl, rfl⟩)
    exact (Built.push _).bind fun _ => .pure ⟨rfl, rfl⟩
  | sstore =>
    refine Built.pop.bind fun key => Built.pop.bind fun value => (Built.charge _).bind fun _ => ?_
    refine Built.faulty.bind fun _ => .ite ?_ (.pure ⟨rfl, rfl⟩)
    exact (built_updateFrame _ _).bind fun _ => .pure ⟨rfl, rfl⟩
  | dup n => exact (Built.dup _).bind fun _ => .pure ⟨rfl, rfl⟩
  | swap n => exact (Built.swap _).bind fun _ => .pure ⟨rfl, rfl⟩
  | log n => exact (built_log _ env n.val).bind fun _ => .pure ⟨rfl, rfl⟩
  | create variant =>
    refine (built_prepareCreate Bool.noConfusion env variant).bind fun inv => .pure ?_
    cases inv with
    | none => exact ⟨rfl, rfl⟩
    | some inv => exact ⟨rfl, rfl⟩
  | call variant =>
    refine (built_prepareCall Bool.noConfusion env variant).bind fun inv => .pure ?_
    cases inv with
    | none => exact ⟨rfl, rfl⟩
    | some inv => exact ⟨rfl, rfl⟩
  | ret =>
    exact Built.pop.bind fun offset => Built.pop.bind fun size =>
      (Built.readMemory offset size).bind fun output => .pure ⟨rfl, rfl⟩
  | revert =>
    refine Built.pop.bind fun offset => Built.pop.bind fun size => ?_
    exact (Built.readMemory offset size).bind fun output => (Built.fail _).bind fun _ =>
      .pure ⟨rfl, rfl⟩
  | invalid => exact (Built.fail _).bind fun _ => .pure ⟨rfl, rfl⟩
  | selfDestruct => exact (built_selfDestruct _ env).bind fun _ => .pure ⟨rfl, rfl⟩

end Exec

end ContractVm
