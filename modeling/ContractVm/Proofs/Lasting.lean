import Mathlib
import ContractVm.Proofs.Fetch

/-! # What lasts through a run

A property of a machine's stack and memory lasts if every call starts with it and every part of an
instruction keeps it (`lasting_of_parts`). It then holds of all the machines that a run comes to, in
nested calls too (`Visits.lasting`). -/

namespace ContractVm

/-- A property of stacks and memories that holds at the start of every call and that instructions
keep. -/
structure Lasting (P : Machine → Prop) : Prop where
  same : ∀ m m' : Machine, m'.stack = m.stack → m'.memory = m.memory → P m → P m'
  step : ∀ env op m, P m → P ((Exec.step env op).run m).2
  resume : ∀ env inv out m, P m → P ((Exec.resume env inv out).run m).2
  start : ∀ options gas frame sequence, P (Machine.start options gas frame sequence)

section Parts

variable {P : Machine → Prop}
  (hpart : ∀ {α : Type} {p : Exec α} {Φ : α → Prop} {blind : Prop}, Exec.Built blind Φ p →
    ∀ m, P m → P (p.run m).2)
  (hsame : ∀ m m' : Machine, m'.stack = m.stack → m'.memory = m.memory → P m → P m')

include hpart hsame

theorem Exec.step_keeps (env : Env) (op : Opcode) {m : Machine} (hm : P m) :
    P ((step env op).run m).2 := by
  have hjump : ∀ destination k, P k → P ((jumpTo env destination).run k).2 := by
    intro destination k hk
    rw [run_jumpTo, Machine.jumpedTo]
    split
    · exact hsame k _ rfl rfl hk
    · exact hsame k _ rfl rfl hk
  have hpop64 : P (pop64.run m).2 := hpart (Built.pop64 : Composed True _) m hm
  cases hop : op.moves with
  | false => exact hpart (built_step env op hop) m hm
  | true =>
    cases op with
    | jump => exact hjump _ _ hpop64
    | jumpIf =>
      have hpop : P (pop.run (pop64.run m).2).2 := hpart (Built.pop : Composed True _) _ hpop64
      have hrun : (step env .jumpIf).run m =
          (if (pop.run (pop64.run m).2).1 = 0 then pure Flow.next
            else jumpTo env (pop64.run m).1).run (pop.run (pop64.run m).2).2 := rfl
      rw [hrun]
      split
      · exact hpop
      · exact hjump _ _ hpop
    | push n =>
      have hpush : P ((push (Word.ofBytes (env.code.immediate m.pc (n.val + 1)))).run m).2 :=
        hpart (Built.push _ : Composed True _) m hm
      exact hsame ((push _).run m).2 _ rfl rfl hpush
    | _ => cases hop

theorem Exec.resume_keeps (env : Env) (inv : Invocation) (out : Outcome) {m : Machine} (hm : P m) :
    P ((resume env inv out).run m).2 := by
  rcases resume_cases env inv out m with ⟨frame, fault, hrun⟩ | ⟨frame, trace, hrun⟩
  · rw [hrun]
    exact hsame m _ rfl rfl hm
  · rw [hrun]
    have hreceived : P (m.received inv out frame trace) := hsame m _ rfl rfl hm
    exact hpart (built_land True inv.landing out.result) _ hreceived

theorem lasting_of_parts
    (hstart : ∀ options gas frame sequence, P (Machine.start options gas frame sequence)) :
    Lasting P where
  same := hsame
  step env op _ hm := Exec.step_keeps hpart hsame env op hm
  resume env inv out _ hm := Exec.resume_keeps hpart hsame env inv out hm
  start := hstart

end Parts

section Run

variable {P : Machine → Prop}

theorem Takes.lasting {env : Env} {m m' : Machine} {op : Opcode} {flow : Flow}
    (h : Takes env m op flow m') (hP : Lasting P) (hm : P m) : P m' := by
  obtain ⟨m₁, hfetch, hstep⟩ := h
  obtain ⟨meter, rfl, -⟩ := Machine.fetch_meter hfetch
  have hkept := hP.step env op _ (hP.same m { m with meter } rfl rfl hm)
  rw [hstep] at hkept
  exact hkept

theorem Proceeds.lasting {env : Env} {m m' : Machine} {op : Opcode} (h : Proceeds env m op m')
    (hP : Lasting P) (hm : P m) : P m' := by
  cases h with
  | @next m₁ ht => exact hP.same m₁ _ rfl rfl (ht.lasting hP hm)
  | jumped ht => exact ht.lasting hP hm
  | @nested m₁ inv _ o ht _ =>
    have hresumed := hP.resume env inv o m₁ (ht.lasting hP hm)
    exact hP.same ((Exec.resume env inv o).run m₁).2 _ rfl rfl hresumed

theorem Begun.lasting {host : Host} {below : View} {frame : Frame} {call : Call}
    {sequence : CreateSequence} {inner : Env} {start : Machine}
    (h : Begun host below frame call sequence (.running inner start)) (hP : Lasting P) :
    P start := by
  cases h with
  | running _ => exact hP.start _ _ _ _

theorem Visits.lasting {env e : Env} {m k : Machine} (h : Visits env m e k) (hP : Lasting P)
    (hm : P m) : P k := by
  induction h with
  | here => exact hm
  | later hp _ ih => exact ih (hp.lasting hP hm)
  | @inside env inner e m m₁ start k op inv ht hb _ ih =>
    exact ih ((hb ▸ inv.begun env m₁).lasting hP)

end Run

end ContractVm
