import ContractVm.Call
import ContractVm.Store

/-! # Events

Running code leaves logs and records of finished calls. They are collected in order, and delivered
to a sink one by one until one is refused. -/

namespace ContractVm

structure Log where
  address : Address
  topics : List Word
  data : Bytes
  deriving Repr, DecidableEq

structure CallRecord where
  call : Call
  depth : Nat
  result : Except Fault Bytes
  deriving Repr

namespace CallRecord

def output (r : CallRecord) : Bytes :=
  match r.result with
  | .ok output => output
  | .error fault => fault.output

def fault? (r : CallRecord) : Option Fault :=
  match r.result with
  | .ok _ => none
  | .error fault => some fault

end CallRecord

inductive Event where
  | log (log : Log)
  | call (record : CallRecord)
  deriving Repr

def Event.isLog : Event → Bool
  | .log _ => true
  | .call _ => false

/-- Something that takes events, or refuses them and stays as it is. -/
class EventSink (κ : Type) where
  emit : κ → Event → Except Fault κ

abbrev Trace := Array Event

instance : EventSink Trace where
  emit trace event := .ok (trace.push event)

def Trace.logs (trace : Trace) : Trace :=
  trace.filter Event.isLog

def Trace.calls (trace : Trace) : Trace :=
  trace.filter fun event => !event.isLog

/-- A sink that takes records of calls but refuses logs. -/
structure LogFree (κ : Type) where
  inner : κ

instance {κ : Type} [EventSink κ] : EventSink (LogFree κ) where
  emit sink
    | .log _ => .error .illegalWrite
    | .call record => (EventSink.emit sink.inner (.call record)).map LogFree.mk

/-- Delivers a trace to a sink until an event is refused. -/
def Trace.deliver {κ : Type} [EventSink κ] (trace : Trace) (sink : κ) : κ × Except Fault Unit :=
  applyAll EventSink.emit trace.toList sink

end ContractVm
