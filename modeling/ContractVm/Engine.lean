import ContractVm.Run

/-! # The engine

Executes a call against a store and an event sink. All changes go through a frame that is handed down
to the store only if the call succeeds, and so do the events of nested calls and logs; a record of the
call itself is emitted in any case. -/

namespace ContractVm

/-- The options, native contracts and permissions of an engine, and its sequence of new contract
addresses, which runs on from one execution to the next. -/
structure Engine where
  options : Options
  natives : Natives
  permissions : Permissions
  sequence : CreateSequence

structure Report (σ κ : Type) where
  result : Except Fault Bytes
  /-- The gas left over. -/
  gas : Nat
  store : σ
  sink : κ
  engine : Engine

namespace Engine

def new (options : Options) : Engine :=
  { options
    natives := Natives.precompiles
    permissions := Permissions.allowAll
    sequence := { nonce := options.nonce } }

def setNonce (engine : Engine) (nonce : Bytes) : Engine :=
  { engine with options := engine.options.withNonce nonce, sequence := { nonce } }

def host (engine : Engine) (chain : Chain) : Host :=
  { options := engine.options, natives := engine.natives, permissions := engine.permissions, chain }

/-- Hands the changes of a call down to the store and its events to the sink, if it succeeded; what
was handed down before a refusal stays there. -/
def commit {σ κ : Type} [Store σ] [EventSink κ] (outcome : Outcome) (store : σ) (sink : κ) :
    σ × κ × Except Fault Bytes :=
  match outcome.result with
  | .error fault => (store, sink, .error fault)
  | .ok output =>
    match outcome.frame.sync store with
    | (_, store, .error fault) => (store, sink, .error fault)
    | (_, store, .ok ()) =>
      match outcome.trace.deliver sink with
      | (sink, .error fault) => (store, sink, .error fault)
      | (sink, .ok ()) => (store, sink, .ok output)

/-- Runs code as the callee of a call; `fuel` bounds the run as it does in `run`. -/
def execute {σ κ : Type} [Store σ] [EventSink κ] (engine : Engine) (fuel : Nat) (chain : Chain)
    (store : σ) (sink : κ) (call : Call) (code : Bytes) : Option (Report σ κ) := do
  let outcome ← (engine.host chain).perform fuel (Store.view store)
    (Frame.root engine.options.callMaxDepth) call (.code code) engine.sequence
  let (store, sink, result) := commit outcome store sink
  let (sink, result) := match EventSink.emit sink (.call { call, depth := 0, result }) with
    | .ok sink => (sink, result)
    | .error fault => (sink, result.bind fun _ => .error fault)
  return { result, gas := outcome.gas, store, sink,
           engine := { engine with sequence := outcome.sequence } }

end Engine

end ContractVm
