import ContractVm.Instruction

/-! # Running code

The loop over instructions. Before each one the machine stops if a fault was recorded, pays the base
price, and reads the instruction at the program counter. `run` is bounded by the number of
instructions along any chain of nested calls; `none` says that the bound was too small, which is
neither success nor failure. -/

namespace ContractVm

namespace Machine

/-- Pays for the next instruction and reads it. -/
def fetch (env : Env) (m : Machine) : Machine × Except Fault Opcode :=
  match m.meter.fault with
  | some fault => (m, .error fault)
  | none =>
    let m := { m with meter := m.meter.charge env.prices.baseOp }
    match m.meter.fault with
    | some fault => (m, .error fault)
    | none =>
      let byte := env.code.byteAt m.pc
      match Opcode.ofByte? byte with
      | some op => (m, .ok op)
      | none => (m, .error (.unknownOpcode byte))

def advance (m : Machine) : Machine :=
  { m with pc := m.pc + 1 }

/-- The end of a run that stops with an output: a recorded fault takes its place. -/
def halt (m : Machine) (output : Bytes) : Outcome :=
  match m.meter.fault with
  | some fault => m.finish (.error fault)
  | none => m.finish (.ok output)

end Machine

def run : Nat → Env → Machine → Option Outcome
  | 0, _, _ => none
  | fuel + 1, env, m =>
    match m.fetch env with
    | (m, .error fault) => some (m.finish (.error fault))
    | (m, .ok op) =>
      match (Exec.step env op).run m with
      | (.next, m) => run fuel env m.advance
      | (.jumped, m) => run fuel env m
      | (.halt output, m) => some (m.halt output)
      | (.invoke inv, m) =>
        let outcome := match env.host.begin (m.view env) inv.frame inv.call inv.target m.sequence with
          | .over outcome => some outcome
          | .running inner start => run fuel inner start
        match outcome with
        | none => none
        | some outcome => run fuel env ((Exec.resume env inv outcome).run m).2.advance

def Host.perform (host : Host) (fuel : Nat) (below : View) (frame : Frame) (call : Call)
    (target : Target) (sequence : CreateSequence) : Option Outcome :=
  match host.begin below frame call target sequence with
  | .over outcome => some outcome
  | .running env m => run fuel env m

end ContractVm
