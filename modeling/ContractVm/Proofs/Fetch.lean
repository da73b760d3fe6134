import Mathlib
import ContractVm.Proofs.Analysis
import ContractVm.Proofs.Costs
import ContractVm.Proofs.Engine
import ContractVm.Proofs.Parts

/-! # The program counter keeps to instructions

The machine reads the data of a push on its own, and the analysis of the code has marked that data
before. The two agree at every instruction that a run comes to: no instruction moves the program
counter but pushes, which move it over their data, and jumps, which move it to a marked destination.
A jump to any other place leaves a fault, with which the run ends. -/

namespace ContractVm

/-! ### What moves the program counter -/

namespace Exec

theorem Built.stays {blind : Prop} {α : Type} {Φ : α → Prop} {p : Exec α} (h : Built blind Φ p)
    (m : Machine) : (p.run m).2.pc = m.pc ∧ Φ (p.run m).1 := by
  induction h generalizing m with
  | pure h => exact ⟨rfl, h⟩
  | @bind α β Ψ Φ p f _ _ ihp ihf =>
    obtain ⟨hpc, hvalue⟩ := ihf (p.run m).1 (p.run m).2
    exact ⟨hpc.trans (ihp m).1, hvalue⟩
  | look _ _ ih => exact ih m m
  | newAddress creator salt initCode =>
    cases salt with
    | none => exact ⟨rfl, trivial⟩
    | some salt => exact ⟨rfl, trivial⟩
  | _ => exact ⟨rfl, trivial⟩

theorem resume_pc (env : Env) (inv : Invocation) (out : Outcome) (m : Machine) :
    ((resume env inv out).run m).2.pc = m.pc := by
  rcases resume_cases env inv out m with ⟨frame, fault, hrun⟩ | ⟨frame, trace, hrun⟩
  · rw [hrun]
    rfl
  · rw [hrun]
    exact ((built_land True inv.landing out.result).stays (m.received inv out frame trace)).1

/-- Takes the operands of a jump. The value is where it goes, if it is taken. -/
def jumpOperands : Opcode → Exec (Option Nat)
  | .jump => do
    let destination ← pop64
    return some destination
  | .jumpIf => do
    let destination ← pop64
    let condition ← pop
    return if condition = 0 then none else some destination
  | _ => return none

end Exec

/-- The machine at the destination of a jump, or with a fault if it is none. -/
def Machine.jumpedTo (m : Machine) (code : Code) (destination : Nat) : Machine :=
  if code.isJumpDest destination then { m with pc := destination }
  else m.recorded (.invalidJump destination)

namespace Exec

theorem run_jumpTo (env : Env) (destination : Nat) (m : Machine) :
    (jumpTo env destination).run m = (.jumped, m.jumpedTo env.code destination) := by
  unfold jumpTo Machine.jumpedTo
  split
  · rfl
  · rfl

theorem step_jump (env : Env) {op : Opcode} (hop : op = .jump ∨ op = .jumpIf) (m : Machine) :
    (step env op).run m =
      match (jumpOperands op).run m with
      | (none, k) => (.next, k)
      | (some destination, k) => (.jumped, k.jumpedTo env.code destination) := by
  rcases hop with rfl | rfl
  · exact run_jumpTo env _ _
  · have hrun : (step env .jumpIf).run m =
        (if (pop.run (pop64.run m).2).1 = 0 then pure Flow.next
          else jumpTo env (pop64.run m).1).run (pop.run (pop64.run m).2).2 := rfl
    have hoperands : (jumpOperands .jumpIf).run m =
        (if (pop.run (pop64.run m).2).1 = 0 then none else some (pop64.run m).1,
          (pop.run (pop64.run m).2).2) := rfl
    rw [hrun, hoperands]
    by_cases hcondition : (pop.run (pop64.run m).2).1 = 0
    · rw [if_pos hcondition, if_pos hcondition]
      rfl
    · rw [if_neg hcondition, if_neg hcondition]
      exact run_jumpTo env _ _

theorem step_of_jumpOperands {env : Env} {op : Opcode} {m k : Machine} {destination : Nat}
    (h : (jumpOperands op).run m = (some destination, k)) :
    (step env op).run m = (.jumped, k.jumpedTo env.code destination) := by
  have hop : op = .jump ∨ op = .jumpIf := by
    cases op with
    | jump => exact Or.inl rfl
    | jumpIf => exact Or.inr rfl
    | _ => cases h
  rw [step_jump env hop, h]

/-- What is not a jump that is taken leaves the program counter at the end of its data. -/
theorem step_pc (env : Env) {op : Opcode} {m : Machine}
    (h : ((jumpOperands op).run m).1 = none) :
    ((step env op).run m).1.jumps = false ∧
      ((step env op).run m).2.pc = m.pc + op.pushSize := by
  cases hop : op.moves with
  | false =>
    obtain ⟨hpc, hflow⟩ := (built_step env op hop).stays m
    have hsize : op.pushSize = 0 := by
      cases op with
      | push n => cases hop
      | _ => rfl
    rw [hsize]
    exact ⟨hflow.stays, hpc⟩
  | true =>
    cases op with
    | jump => cases h
    | push n => exact ⟨rfl, rfl⟩
    | jumpIf =>
      have hoperands : (jumpOperands .jumpIf).run m =
          (none, ((jumpOperands .jumpIf).run m).2) := Prod.ext h rfl
      rw [step_jump env (Or.inr rfl), hoperands]
      exact ⟨rfl, rfl⟩
    | _ => cases hop

theorem step_jumped {env : Env} {op : Opcode} {m m' : Machine}
    (h : (step env op).run m = (.jumped, m')) :
    ∃ destination k, (jumpOperands op).run m = (some destination, k) ∧
      m' = k.jumpedTo env.code destination := by
  rcases hoperands : (jumpOperands op).run m with ⟨taken, k⟩
  cases taken with
  | none =>
    have hflow := (step_pc env (congrArg Prod.fst hoperands)).1
    rw [h] at hflow
    cases hflow
  | some destination =>
    rw [step_of_jumpOperands hoperands] at h
    exact ⟨destination, k, rfl, (congrArg Prod.snd h).symm⟩

theorem jumpOperands_pc (op : Opcode) (m : Machine) : ((jumpOperands op).run m).2.pc = m.pc := by
  cases op <;> rfl

end Exec

theorem Takes.pc_of_straight {env : Env} {m m' : Machine} {op : Opcode} {flow : Flow}
    (h : Takes env m op flow m') (hflow : flow.jumps = false) :
    m'.pc = m.pc + op.pushSize ∧ Opcode.ofByte? (env.code.byteAt m.pc) = some op := by
  obtain ⟨m₁, hfetch, hstep⟩ := h
  obtain ⟨-, hpc, hbyte⟩ := Machine.fetch_bills hfetch
  refine ⟨?_, hbyte⟩
  rcases hoperands : (Exec.jumpOperands op).run m₁ with ⟨taken, k⟩
  cases taken with
  | none =>
    have hmoved := (Exec.step_pc env (congrArg Prod.fst hoperands)).2
    rw [hstep, hpc] at hmoved
    exact hmoved
  | some destination =>
    rw [Exec.step_of_jumpOperands hoperands] at hstep
    cases hstep
    cases hflow

theorem Takes.pc_of_jumped {env : Env} {m m' : Machine} {op : Opcode}
    (h : Takes env m op .jumped m') : m'.pc = m.pc ∨ env.code.isJumpDest m'.pc = true := by
  obtain ⟨m₁, hfetch, hstep⟩ := h
  obtain ⟨-, hpc, -⟩ := Machine.fetch_bills hfetch
  obtain ⟨destination, k, hoperands, rfl⟩ := Exec.step_jumped hstep
  have hk : k.pc = m₁.pc := by
    rw [← Exec.jumpOperands_pc op m₁, hoperands]
  unfold Machine.jumpedTo
  split
  · next hdest => exact Or.inr hdest
  · exact Or.inl (hk.trans hpc)

/-! ### The program counter and the analysis -/

theorem Code.lt_size_of_isJumpDest {code : Code} {offset : Nat}
    (h : code.isJumpDest offset = true) : offset < code.size := by
  by_contra hend
  have hbyte := (isJumpDest_iff.1 h).1
  rw [byteAt_of_size_le (Nat.not_lt.1 hend)] at hbyte
  exact absurd hbyte (by decide)

/-- The code was analysed, and the program counter is at an instruction, or not far behind the end
of the code. -/
structure InStep (env : Env) (m : Machine) : Prop where
  analysed : ∃ bs, env.code = Code.ofBytes bs
  instruction : env.code.isPushData m.pc = false
  bound : m.pc ≤ env.code.size + 32

theorem InStep.of_start {env : Env} {m : Machine} {bs : Bytes} (hcode : env.code = Code.ofBytes bs)
    (hpc : m.pc = 0) : InStep env m := by
  refine ⟨⟨bs, hcode⟩, ?_, ?_⟩
  · rw [hcode, hpc]
    exact Code.isPushData_zero bs
  · omega

theorem Takes.pc_lt {env : Env} {m m' : Machine} {op : Opcode} {flow : Flow}
    (h : Takes env m op flow m') (hflow : flow.halts = false) : m.pc < env.code.size := by
  obtain ⟨m₁, hfetch, hstep⟩ := h
  obtain ⟨-, -, hbyte⟩ := Machine.fetch_bills hfetch
  by_contra hend
  rw [Code.byteAt_of_size_le (Nat.not_lt.1 hend)] at hbyte
  -- past the end there are only instructions to stop
  obtain rfl : Opcode.stop = op := by
    have hstop : Opcode.ofByte? 0 = some .stop := rfl
    rw [hstop] at hbyte
    exact Option.some.inj hbyte
  cases hstep
  cases hflow

/-- Behind an instruction and its data there is an instruction, or the end of the code. -/
theorem InStep.behind {env : Env} {m m₁ m' : Machine} {op : Opcode} {flow : Flow}
    (h : InStep env m) (ht : Takes env m op flow m₁) (hhalts : flow.halts = false)
    (hjumps : flow.jumps = false) (hm' : m'.pc = m₁.pc + 1) : InStep env m' := by
  obtain ⟨⟨bs, hcode⟩, hinstruction, -⟩ := h
  obtain ⟨hpc, hbyte⟩ := ht.pc_of_straight hjumps
  have hsize := Opcode.pushSize_of_ofByte hbyte
  have hle := Opcode.immediateSize_le (env.code.byteAt m.pc)
  have hlt := ht.pc_lt hhalts
  have hbehind : m'.pc = m.pc + 1 + Opcode.immediateSize (env.code.byteAt m.pc) := by omega
  refine ⟨⟨bs, hcode⟩, ?_, by omega⟩
  rw [hcode, Code.size_ofBytes] at hlt
  rw [hcode] at hinstruction hbehind ⊢
  rw [hbehind]
  exact Code.isPushData_next hlt hinstruction

theorem InStep.proceeds {env : Env} {m m' : Machine} {op : Opcode} (h : InStep env m)
    (hp : Proceeds env m op m') : InStep env m' := by
  cases hp with
  | next ht => exact h.behind ht rfl rfl rfl
  | @nested m₁ inv fuel o ht ho =>
    exact h.behind ht rfl rfl (congrArg (· + 1) (Exec.resume_pc env inv o m₁))
  | jumped ht =>
    rcases ht.pc_of_jumped with hpc | hdest
    · exact ⟨h.analysed, hpc ▸ h.instruction, hpc ▸ h.bound⟩
    · have hlt := Code.lt_size_of_isJumpDest hdest
      exact ⟨h.analysed, (Code.isJumpDest_iff.1 hdest).2, by omega⟩

theorem Begun.inStep {host : Host} {below : View} {frame : Frame} {call : Call}
    {sequence : CreateSequence} {inner : Env} {start : Machine}
    (h : Begun host below frame call sequence (.running inner start)) : InStep inner start := by
  cases h with
  | running _ => exact .of_start rfl rfl

theorem Visits.inStep {env e : Env} {m k : Machine} (h : Visits env m e k) (hm : InStep env m) :
    InStep e k := by
  induction h with
  | here => exact hm
  | later hp _ ih => exact ih (hm.proceeds hp)
  | @inside env inner e m m₁ start k op inv ht hb _ ih =>
    exact ih (hb ▸ inv.begun env m₁).inStep

/-! ### Jumps -/

theorem run_of_fetch_error {env : Env} {m m₁ : Machine} {fault : Fault}
    (h : m.fetch env = (m₁, .error fault)) (fuel : Nat) :
    run (fuel + 1) env m = some (m₁.finish (.error fault)) := by
  simp only [run, h]

theorem run_of_fault {m : Machine} {fault : Fault} (h : m.meter.fault = some fault) (env : Env)
    (fuel : Nat) : run (fuel + 1) env m = some (m.finish (.error fault)) :=
  run_of_fetch_error (Machine.fetch_of_fault h env) fuel

theorem Machine.finish_recorded (m : Machine) (fault : Fault) (result : Except Fault Bytes) :
    (m.recorded fault).finish result = m.finish result := by
  simp only [finish, recorded, Meter.record_gas]

/-- A jump to what is no destination ends the run, with its own fault if there was none before. -/
theorem Takes.run_misjumped {env : Env} {m k : Machine} {op : Opcode} {destination : Nat}
    (h : Takes env m op .jumped (k.jumpedTo env.code destination))
    (hdest : env.code.isJumpDest destination = false) (fuel : Nat) :
    run (fuel + 2) env m =
      some (k.finish (.error (k.meter.fault.getD (.invalidJump destination)))) := by
  have hjumped : k.jumpedTo env.code destination = k.recorded (.invalidJump destination) := by
    rw [Machine.jumpedTo, hdest]
    rfl
  have hfault : (k.recorded (.invalidJump destination)).meter.fault =
      some (k.meter.fault.getD (.invalidJump destination)) := Meter.record_fault _ k.meter
  rw [h.run_jumped (fuel + 1), hjumped, run_of_fault hfault, Machine.finish_recorded]

/-- Wherever a run of some code comes to, the program counter is at an instruction as the analysis
sees it or past the end of the code, and never more than 32 past it. A jump that is taken goes to a
mark which is an instruction; one to any other place ends the run with that destination as its
fault, unless there was a fault before. -/
theorem counter_keeps_to_instructions {env e : Env} {m k : Machine} {code : Bytes}
    (hcode : env.code = Code.ofBytes code) (hstart : m.pc = 0) (hvisits : Visits env m e k) :
    (e.code.size ≤ k.pc ∨ e.code.isPushData k.pc = false) ∧ k.pc ≤ e.code.size + 32 ∧
    (∀ (op : Opcode) (k' : Machine), Takes e k op .jumped k' → ∃ (k₁ k₂ : Machine) (dest : Nat),
      k.fetch e = (k₁, .ok op) ∧ (Exec.jumpOperands op).run k₁ = (some dest, k₂)) ∧
    ∀ (op : Opcode) (k₁ k₂ : Machine) (dest : Nat), k.fetch e = (k₁, .ok op) →
      (Exec.jumpOperands op).run k₁ = (some dest, k₂) →
      (e.code.byteAt dest = 0x5b ∧ e.code.isPushData dest = false ∧
        Takes e k op .jumped { k₂ with pc := dest }) ∨
      ((e.code.byteAt dest ≠ 0x5b ∨ e.code.isPushData dest = true) ∧ ∀ fuel,
        run (fuel + 2) e k =
          some (k₂.finish (.error (k₂.meter.fault.getD (.invalidJump dest))))) := by
  have hstep := hvisits.inStep (.of_start hcode hstart)
  refine ⟨Or.inr hstep.instruction, hstep.bound, ?_, ?_⟩
  · rintro op k' ⟨k₁, hfetch, hjump⟩
    obtain ⟨dest, k₂, hoperands, -⟩ := Exec.step_jumped hjump
    exact ⟨k₁, k₂, dest, hfetch, hoperands⟩
  · intro op k₁ k₂ dest hfetch hoperands
    have htakes : Takes e k op .jumped (k₂.jumpedTo e.code dest) :=
      ⟨k₁, hfetch, Exec.step_of_jumpOperands hoperands⟩
    cases hdest : e.code.isJumpDest dest with
    | true =>
      obtain ⟨hbyte, hdata⟩ := Code.isJumpDest_iff.1 hdest
      rw [Machine.jumpedTo, if_pos hdest] at htakes
      exact Or.inl ⟨hbyte, hdata, htakes⟩
    | false =>
      refine Or.inr ⟨?_, fun fuel => htakes.run_misjumped hdest fuel⟩
      by_contra hmark
      push Not at hmark
      rw [Code.isJumpDest_iff.2 ⟨hmark.1, Bool.eq_false_of_not_eq_true hmark.2⟩] at hdest
      cases hdest

/-- Code with a conditional jump to the mark that the push behind it has as its data. -/
def misjump : Bytes :=
  [0x60, 1, 0x60, 6, 0x57, 0x60, 0x5b]

def misjumpEnv : Env :=
  { relayEnv 0 with code := Code.ofBytes misjump }

theorem jump_into_data_ends_the_run :
    ∃ k k₁ k₂ : Machine,
      Visits misjumpEnv (Machine.start {} 1000 (Frame.root 0) {}) misjumpEnv k ∧
      k.pc ≤ misjumpEnv.code.size + 32 ∧ k.fetch misjumpEnv = (k₁, .ok .jumpIf) ∧
      (Exec.jumpOperands .jumpIf).run k₁ = (some 6, k₂) ∧
      misjumpEnv.code.byteAt 6 = 0x5b ∧ misjumpEnv.code.isPushData 6 = true ∧
      run 2 misjumpEnv k = some (k₂.finish (.error (.invalidJump 6))) := by
  have hrun : ((Machine.start {} 1000 (Frame.root 0) {}).walk misjumpEnv 2).map (fun k =>
      let operands := (Exec.jumpOperands .jumpIf).run (k.fetch misjumpEnv).1
      ((k.fetch misjumpEnv).2, operands.1, operands.2.meter.fault)) =
      some (.ok .jumpIf, some 6, none) := by
    decide +kernel
  obtain ⟨k, hwalk, hvalues⟩ := Option.map_eq_some_iff.1 hrun
  obtain ⟨hop, hvalues⟩ := Prod.mk.inj hvalues
  obtain ⟨hdest, hclear⟩ := Prod.mk.inj hvalues
  have hfetch : k.fetch misjumpEnv = ((k.fetch misjumpEnv).1, .ok .jumpIf) := Prod.ext rfl hop
  have hoperands : (Exec.jumpOperands .jumpIf).run (k.fetch misjumpEnv).1 =
      (some 6, ((Exec.jumpOperands .jumpIf).run (k.fetch misjumpEnv).1).2) := Prod.ext hdest rfl
  have hdata : misjumpEnv.code.isPushData 6 = true := by decide +kernel
  have hvisits := visits_of_walk hwalk
  obtain ⟨-, hbound, -, hjumps⟩ := counter_keeps_to_instructions rfl rfl hvisits
  rcases hjumps _ _ _ _ hfetch hoperands with ⟨-, hinstruction, -⟩ | ⟨-, hends⟩
  · rw [hdata] at hinstruction
    cases hinstruction
  · have hend := hends 0
    rw [hclear] at hend
    exact ⟨k, _, _, hvisits, hbound, hfetch, hoperands, by decide +kernel, hdata, hend⟩

end ContractVm
