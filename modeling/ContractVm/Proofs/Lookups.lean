import Mathlib
import ContractVm.Proofs.Atomicity
import ContractVm.Proofs.Metering
import ContractVm.Proofs.Operands
import ContractVm.Proofs.Delivery

/-! # What account look-ups cost

An instruction that looks an account up pays for the look-up at one place, and its parts before and
behind that place do not depend on the price. Under a price that is higher by `extra` it does the
same up to there, and from there on it is the same instruction on a machine with `extra` less gas
(`Exec.Trails`, `Exec.Spares`). A calling instruction also forwards gas: as much as it is asked to,
as long as that is there in both cases. -/

namespace ContractVm

def Schedule.dearer (prices : Schedule) (extra : Nat) : Schedule :=
  { prices with getAccount := prices.getAccount + extra }

def Env.dearer (env : Env) (extra : Nat) : Env :=
  { env with
    host := { env.host with
      options := { env.host.options with gas := env.prices.dearer extra } } }

namespace Opcode

/-- Whether an instruction looks up the account at an address that it takes from the stack. -/
def looksUp : Opcode → Bool
  | .balance | .extCodeSize | .extCodeCopy | .extCodeHash | .selfDestruct | .call _ => true
  | _ => false

def paidLookups : Opcode → Nat
  | .extCodeHash => 0
  | op => if op.looksUp then 1 else 0

end Opcode

theorem Exec.step_dearer {op : Opcode} (h : op.paidLookups = 0) (env : Env) (extra : Nat) :
    step (env.dearer extra) op = step env op := by
  cases op with
  | balance => cases h
  | extCodeSize => cases h
  | extCodeCopy => cases h
  | selfDestruct => cases h
  | call variant => cases h
  | query op => cases op <;> rfl
  | _ => rfl

namespace Machine

theorem paying_paying (m : Machine) (a b : Nat) : (m.paying a).paying b = m.paying (a + b) := by
  simp only [paying, Nat.sub_sub]

theorem richer_paying (m : Machine) (extra : Nat) : (m.richer extra).paying extra = m := by
  simp only [paying, richer, Meter.richer, Nat.add_sub_cancel]

theorem paying_richer {m : Machine} {extra : Nat} (h : extra ≤ m.meter.gas) :
    (m.paying extra).richer extra = m := by
  simp only [paying, richer, Meter.richer, Nat.sub_add_cancel h]

end Machine

namespace Exec

variable {α β : Type}

/-! ### With less gas -/

/-- The part spends, and it does the same with `extra` less gas if it leaves no fault, that much gas
and a value that satisfies `ok`. -/
structure Spares (extra : Nat) (ok : α → Prop) (p : Exec α) : Prop where
  spends : Spending p
  same : ∀ m : Machine, (p.run m).2.meter.fault = none → extra ≤ (p.run m).2.meter.gas →
    ok (p.run m).1 → p.run (m.paying extra) = ((p.run m).1, (p.run m).2.paying extra)

section Less

variable {extra : Nat} {ok : β → Prop} {f : α → Exec β}

theorem Metered.sparing {p : Exec β} (hp : Metered p) : Spares extra ok p := by
  refine ⟨hp.spends, fun m hf hleft _ => ?_⟩
  have hrich : (m.paying extra).richer extra = m :=
    Machine.paying_richer (hleft.trans (hp.spends m).gas)
  have hsame := @Metered.spares _ p hp (m.paying extra) extra
  rw [hrich] at hsame
  rw [hsame hf hleft, Machine.richer_paying]
  rfl

theorem Composed.sparing {p : Exec β} (hp : Composed True p) : Spares extra ok p :=
  (hp.metered trivial).sparing

theorem Spares.vacuous {p : Exec β} (hp : Spending p) (h : ∀ m, ¬ ok (p.run m).1) :
    Spares extra ok p :=
  ⟨hp, fun m _ _ hok => absurd hok (h m)⟩

theorem Metered.bind_spares {p : Exec α} (hp : Metered p) (hf : ∀ a, Spares extra ok (f a)) :
    Spares extra ok (p >>= f) := by
  refine ⟨fun m => (hp.spends m).trans ((hf _).spends _), fun m hclear hleft hok => ?_⟩
  have hrest := (hf (p.run m).1).spends (p.run m).2
  -- what is left at the end was there in between
  have hp' : Spares extra (fun _ => True) p := hp.sparing
  have hfirst := hp'.same m (hrest.unfaulted hclear) (hleft.trans hrest.gas) trivial
  rw [run_bind, hfirst]
  exact (hf _).same _ hclear hleft hok

theorem Spares.look {f : Machine → Exec β} (hf : ∀ m, Spares extra ok (f m))
    (hb : ∀ m : Machine, f (m.paying extra) = f m) : Spares extra ok (get >>= f) := by
  refine ⟨fun m => (hf m).spends m, fun m hclear hleft hok => ?_⟩
  have hsame : (get >>= f).run (m.paying extra) = (f m).run (m.paying extra) := by
    rw [← hb m]
    rfl
  rw [hsame]
  exact (hf m).same m hclear hleft hok

theorem Spares.ite {c : Prop} [Decidable c] {p q : Exec β} (hp : Spares extra ok p)
    (hq : Spares extra ok q) : Spares extra ok (if c then p else q) := by
  split
  · exact hp
  · exact hq

end Less

/-! ### At a higher price -/

/-- On the machine `m` the part `q` does what `p` does and pays `extra` more, if `p` leaves no
fault, that much gas and a value that satisfies `ok`. -/
def TrailsFrom (m : Machine) (extra : Nat) (ok : α → Prop) (p q : Exec α) : Prop :=
  (p.run m).2.meter.fault = none → extra ≤ (p.run m).2.meter.gas → ok (p.run m).1 →
    q.run m = ((p.run m).1, (p.run m).2.paying extra)

/-- The part `p` spends, and on every machine `q` pays `extra` more. -/
structure Trails (extra : Nat) (ok : α → Prop) (p q : Exec α) : Prop where
  spends : Spending p
  trails : ∀ m, TrailsFrom m extra ok p q

section More

variable {extra : Nat} {ok : β → Prop} {f g : α → Exec β}

theorem Trails.after {p : Exec α} (hp : Spending p) (hfg : ∀ a, Trails extra ok (f a) (g a)) :
    Trails extra ok (p >>= f) (p >>= g) :=
  ⟨fun m => (hp m).trans ((hfg _).spends _), fun m => (hfg (p.run m).1).trails (p.run m).2⟩

theorem Trails.before {p q : Exec α} (hpq : Trails extra (fun _ => True) p q)
    (hf : ∀ a, Spares extra ok (f a)) : Trails extra ok (p >>= f) (q >>= f) := by
  refine ⟨fun m => (hpq.spends m).trans ((hf _).spends _), fun m hclear hleft hok => ?_⟩
  have hrest := (hf (p.run m).1).spends (p.run m).2
  have hfirst := hpq.trails m (hrest.unfaulted hclear) (hleft.trans hrest.gas) trivial
  rw [run_bind, hfirst]
  exact (hf _).same _ hclear hleft hok

theorem trails_charge (amount extra : Nat) :
    Trails extra (fun _ => True) (charge amount) (charge (amount + extra)) := by
  refine ⟨(quiet_charge amount).spending, fun m hclear hleft _ => ?_⟩
  have hclear : (m.meter.charge amount).fault = none := hclear
  have hleft : extra ≤ (m.meter.charge amount).gas := hleft
  have hpaid : amount ≤ m.meter.gas := by
    by_contra hshort
    rw [Meter.charge, Meter.consume_of_lt (Nat.lt_of_not_le hshort)] at hclear
    exact Meter.record_faulty _ _ hclear
  rw [Meter.charge_of_le hpaid] at hleft
  have hboth : amount + extra ≤ m.meter.gas := by
    dsimp only at hleft
    omega
  rw [run_charge hpaid, run_charge hboth, Machine.paying_paying]

theorem Trails.charge {rest : Exec β} (amount : Nat) (h : Spares extra ok rest) :
    Trails extra ok (charge amount >>= fun _ => rest)
      (charge (amount + extra) >>= fun _ => rest) :=
  (trails_charge amount extra).before fun _ => h

theorem TrailsFrom.bind {m : Machine} {p : Exec α}
    (h : TrailsFrom (p.run m).2 extra ok (f (p.run m).1) (g (p.run m).1)) :
    TrailsFrom m extra ok (p >>= f) (p >>= g) :=
  h

theorem TrailsFrom.attempt_bind {m : Machine} {result : Except Fault α}
    {f g : Option α → Exec β} (some : ∀ a, TrailsFrom m extra ok (f (some a)) (g (some a)))
    (none : Trails extra ok (f none) (g none)) :
    TrailsFrom m extra ok (attempt result >>= f) (attempt result >>= g) := by
  cases result with
  | ok a => exact some a
  | error fault => exact none.trails (m.recorded fault)

end More

/-! ### Instructions that look up one account -/

section Single

variable {extra : Nat} (env : Env)

theorem trails_popAccount (price : Nat) :
    Trails extra (fun _ => True) (popAccount env price) (popAccount env (price + extra)) := by
  refine .after quiet_popAddress.spending fun address => .charge price (Composed.sparing ?_)
  exact .look (fun _ => .attempt_bind (fun _ => .pure trivial) (.pure trivial)) fun _ _ _ => rfl

theorem trails_balance :
    Trails extra (fun _ => True) (step env .balance) (step (env.dearer extra) .balance) := by
  refine .after quiet_popAddress.spending fun address => .charge _ (Composed.sparing ?_)
  refine .look (fun m => .attempt_bind (fun account => ?_) (.pure trivial)) fun _ _ _ => rfl
  exact (Built.push _).bind fun _ => .pure trivial

theorem trails_extCodeSize :
    Trails extra (fun _ => True) (step env .extCodeSize)
      (step (env.dearer extra) .extCodeSize) := by
  refine (trails_popAccount env _).before fun found => Composed.sparing ?_
  rcases found with ⟨address, _ | _ | account⟩
  · exact .pure trivial
  · exact (Built.push _).bind fun _ => .pure trivial
  · exact (Built.push _).bind fun _ => .pure trivial

theorem trails_extCodeCopy :
    Trails extra (fun _ => True) (step env .extCodeCopy)
      (step (env.dearer extra) .extCodeCopy) := by
  refine (trails_popAccount env _).before fun found => Composed.sparing ?_
  rcases found with ⟨address, _ | _ | account⟩
  · exact .pure trivial
  · exact (Built.fail _).bind fun _ => .pure trivial
  · exact (built_copyData _ env _).bind fun _ => .pure trivial

theorem trails_selfDestruct :
    Trails extra (fun _ => True) (step env .selfDestruct)
      (step (env.dearer extra) .selfDestruct) := by
  have hpaid : Trails extra (fun _ => True) (selfDestruct env) (selfDestruct (env.dearer extra)) :=
    .after quiet_popAddress.spending fun heir =>
      .charge _ (Composed.sparing (built_bestow _ env heir))
  exact hpaid.before fun _ => Composed.sparing (.pure trivial)

end Single

/-! ### Calls -/

def Grants (limit : Nat) (asked : Option Invocation) : Prop :=
  ∃ inv, asked = some inv ∧ inv.call.gas = limit

section Calls

variable {extra limit : Nat}

theorem spares_none : Spares extra (Grants limit) (pure none) := by
  refine .vacuous (fun m => .refl m.meter) fun m h => ?_
  obtain ⟨inv, hinv, -⟩ := h
  cases hinv

theorem trails_none (q : Exec (Option Invocation)) : Trails extra (Grants limit) (pure none) q := by
  refine ⟨fun m => .refl m.meter, fun m _ _ h => ?_⟩
  obtain ⟨inv, hinv, -⟩ := h
  cases hinv

theorem spares_forward (inv : Nat → Invocation) (h : ∀ gas, (inv gas).call.gas = gas) :
    Spares extra (Grants limit)
      (get >>= fun m : Machine => charge (m.meter.callGas limit) >>= fun _ =>
        pure (some (inv (m.meter.callGas limit)))) := by
  refine ⟨fun m => Meter.spends_charge _ m.meter, fun m _ hleft hok => ?_⟩
  obtain ⟨_, ⟨⟩, hgas⟩ := hok
  rw [h] at hgas
  have hpaid : limit ≤ m.meter.gas := hgas ▸ Meter.callGas_le limit m.meter
  have hleft : extra ≤ (m.meter.charge (m.meter.callGas limit)).gas := hleft
  rw [hgas, Meter.charge_of_le hpaid] at hleft
  have hroom : ¬ m.meter.gas - extra < limit := by
    dsimp only at hleft
    omega
  have hsame : (m.paying extra).meter.callGas limit = limit := if_neg hroom
  show ((some (inv ((m.paying extra).meter.callGas limit))),
      ((charge ((m.paying extra).meter.callGas limit)).run (m.paying extra)).2) =
    (some (inv (m.meter.callGas limit)), ((charge (m.meter.callGas limit)).run m).2.paying extra)
  rw [hsame, hgas, run_charge hpaid, run_charge (Nat.not_lt.1 hroom), Machine.paying_paying,
    Machine.paying_paying, Nat.add_comm]

theorem TrailsFrom.bind64 {m : Machine} {w : Word} {rest : List Word}
    {f g : Nat → Exec (Option Invocation)} (hitems : m.stack.items = w :: rest)
    (h : ∀ gasLimit, Trails extra (Grants gasLimit) (f gasLimit) (g gasLimit)) :
    TrailsFrom m extra (Grants w.toNat) (pop64 >>= f) (pop64 >>= g) := by
  intro hclear hleft hok
  have hrest := (h (pop64.run m).1).spends (pop64.run m).2
  obtain ⟨w', hitems', hw⟩ := plucks_pop64.items m (hrest.unfaulted hclear)
  rw [hitems] at hitems'
  obtain ⟨rfl, -⟩ := List.cons.inj hitems'
  rw [hw] at hok
  exact (h _).trails _ hclear hleft hok

theorem trails_prepareCall (env : Env) (variant : CallVariant) {m : Machine} {w : Word}
    {rest : List Word} (hitems : m.stack.items = w :: rest) :
    TrailsFrom m extra (Grants w.toNat) (prepareCall env variant)
      (prepareCall (env.dearer extra) variant) := by
  refine .bind (.attempt_bind (fun _ => ?_) (trails_none _))
  refine .bind64 hitems fun gasLimit => .after quiet_popAddress.spending fun target => ?_
  extract_lets rest rest'
  have hrest : ∀ value, Trails extra (Grants gasLimit) (rest value) (rest' value) := by
    intro value
    refine .after quiet_pop.spending fun inOffset => .after quiet_pop.spending fun inSize => ?_
    refine .after quiet_pop.spending fun outOffset => .after quiet_pop64.spending fun outSize => ?_
    refine .charge _ (((built_findTarget True env variant target).metered trivial).bind_spares
      fun found => ?_)
    cases found with
    | none => exact spares_none
    | some account =>
      refine ((Built.readMemory inOffset inSize).metered trivial).bind_spares fun input => ?_
      refine (Built.faulty.metered trivial).bind_spares fun _ => .ite spares_none ?_
      refine .look (fun k => ?_) fun _ => rfl
      refine ((Built.attempt _).metered trivial).bind_spares fun child => ?_
      cases child with
      | none => exact spares_none
      | some child =>
        exact spares_forward
          (fun gas =>
            { call :=
                { origin := env.call.origin, caller := (variant.parties env.call target).1,
                  callee := (variant.parties env.call target).2, input, value, gas,
                  kind := variant.kind }
              target := env.host.targetOf account
              frame := { child with readOnly := child.readOnly || variant == .static }
              landing := .memory outOffset outSize })
          fun _ => rfl
  split
  · exact .after quiet_pop.spending fun value => hrest value
  · exact hrest env.call.value

end Calls

theorem prepareCall_of_step {env : Env} {variant : CallVariant} {m m₁ : Machine} {inv : Invocation}
    (h : (step env (.call variant)).run m = (.invoke inv, m₁)) :
    (prepareCall env variant).run m = (some inv, m₁) := by
  have hflow : flowOf ((prepareCall env variant).run m).1 = .invoke inv := congrArg Prod.fst h
  obtain rfl : ((prepareCall env variant).run m).2 = m₁ := congrArg Prod.snd h
  rcases hrun : (prepareCall env variant).run m with ⟨asked, m₁⟩
  rw [hrun] at hflow
  cases asked with
  | none => cases hflow
  | some asked =>
    cases hflow
    rfl

theorem step_call_dearer (env : Env) (variant : CallVariant) {m m₁ : Machine} {inv : Invocation}
    {w : Word} {rest : List Word} {extra : Nat} (hitems : m.stack.items = w :: rest)
    (hrun : (step env (.call variant)).run m = (.invoke inv, m₁))
    (hgranted : inv.call.gas = w.toNat) (hspare : extra ≤ m₁.meter.gas) :
    (step (env.dearer extra) (.call variant)).run m = (.invoke inv, m₁.paying extra) := by
  have hclear := (Stepped.of_run hrun).invoke_unfaulted
  have htrails : TrailsFrom m extra (Grants w.toNat) (prepareCall env variant)
    (prepareCall (env.dearer extra) variant) := trails_prepareCall env variant hitems
  unfold TrailsFrom at htrails
  rw [prepareCall_of_step hrun] at htrails
  have hdear := htrails hclear hspare ⟨inv, rfl, hgranted⟩
  show (flowOf ((prepareCall (env.dearer extra) variant).run m).1,
    ((prepareCall (env.dearer extra) variant).run m).2) = _
  rw [hdear]
  rfl

/-! ### After a call -/

theorem metered_settle (env : Env) (landing : Landing) (output : Bytes) (out : Outcome) :
    Metered (settle env landing output out) := by
  refine .look (fun m => ((Built.attempt _).metered trivial).bind fun child => ?_) fun _ _ => rfl
  cases child with
  | none => exact .pure false
  | some child =>
    refine .look (fun m => ?_) fun _ _ => rfl
    refine ((Built.setFrame _).metered trivial).bind fun _ => ?_
    refine ((Built.attempt _).metered trivial).bind fun settled => ?_
    cases settled with
    | none => exact .pure false
    | some _ =>
      have htrace : Metered (modify fun m => { m with trace := m.trace ++ out.trace }) :=
        fun m => .pure ((), { m with trace := m.trace ++ out.trace })
      exact htrace.bind fun _ => .pure true

section Resuming

variable {env : Env} {inv : Invocation} {out : Outcome} {m : Machine} {extra : Nat}

theorem deliver_paying (hroom : m.meter.gas + out.gas ≤ gasLimit) (hspare : extra ≤ m.meter.gas)
    (hclear : ((deliver inv out).run m).2.meter.fault = none)
    (hleft : extra ≤ ((deliver inv out).run m).2.meter.gas) :
    (deliver inv out).run (m.paying extra) = ((), ((deliver inv out).run m).2.paying extra) := by
  have hrefund : (m.paying extra).meter.refund out.gas =
      { m.meter.refund out.gas with gas := (m.meter.refund out.gas).gas - extra } := by
    have hless : (m.paying extra).meter.gas + out.gas ≤ gasLimit := by
      rw [Machine.paying_gas]
      omega
    have hgas : m.meter.gas - extra + out.gas = m.meter.gas + out.gas - extra := by omega
    rw [Meter.refund_of_le hroom, Meter.refund_of_le hless, Machine.paying_gas, hgas]
    rfl
  have hland : Spares extra (fun _ => True) (land inv.landing out.result) :=
    Composed.sparing (built_land True _ _)
  have hrun : (deliver inv out).run (m.paying extra) = (land inv.landing out.result).run
      (Machine.paying { m with
        trace := m.trace.push (inv.record out), meter := m.meter.refund out.gas } extra) := by
    show (land inv.landing out.result).run { m.paying extra with
      trace := m.trace.push (inv.record out), meter := (m.paying extra).meter.refund out.gas } = _
    rw [hrefund]
    rfl
  rw [hrun]
  exact hland.same _ hclear hleft trivial

theorem deliver_unfaulted (hclear : ((deliver inv out).run m).2.meter.fault = none) :
    m.meter.fault = none :=
  have hland := (quiet_land inv.landing out.result).spending
    { m with trace := m.trace.push (inv.record out), meter := m.meter.refund out.gas }
  hland.unfaulted hclear

theorem resume_paying (hroom : m.meter.gas + out.gas ≤ gasLimit) (hspare : extra ≤ m.meter.gas)
    (hclear : ((resume env inv out).run m).2.meter.fault = none)
    (hleft : extra ≤ ((resume env inv out).run m).2.meter.gas) :
    (resume env inv out).run (m.paying extra) =
      ((), ((resume env inv out).run m).2.paying extra) := by
  cases hr : out.result with
  | error fault =>
    rw [resume_error env inv hr] at hclear hleft ⊢
    rw [resume_error env inv hr]
    exact deliver_paying (m := { m with sequence := out.sequence }) hroom hspare hclear hleft
  | ok output =>
    have hcases :=
      ensures_settle env inv.landing output out { m with sequence := out.sequence } _ rfl
    rw [resume_ok env inv hr] at hclear hleft ⊢
    rw [resume_ok env inv hr]
    rcases hsettle : (settle env inv.landing output out).run { m with sequence := out.sequence }
      with ⟨settled, m₁⟩
    rw [hsettle] at hcases hclear hleft
    dsimp only at hclear hleft ⊢
    cases hcases with
    | done hi hs =>
      have hunfaulted := @deliver_unfaulted inv out _ hclear
      have hsettled : Spares extra (fun _ => True) (settle env inv.landing output out) :=
        (metered_settle env inv.landing output out).sparing
      have hsame := hsettled.same { m with sequence := out.sequence } (by rwa [hsettle])
        (by rwa [hsettle]) trivial
      rw [hsettle] at hsame
      have hrun : (settle env inv.landing output out).run
          { m.paying extra with sequence := out.sequence } = _ := hsame
      rw [hrun]
      exact deliver_paying (m := { m with sequence := out.sequence, frame := _, trace := _ })
        hroom hspare hclear hleft
    | uninstalled hi => exact absurd hclear (Machine.recorded_faulty _ _)
    | refused hi hs => exact absurd hclear (Machine.recorded_faulty _ _)

end Resuming

end Exec

/-! ### The account that a call runs -/

theorem Found.account_eq {env : Env} {variant : CallVariant} {m : Machine} {target : Address}
    {account account' : Account} {frame : Frame} (h : Found env variant m target account' frame)
    (haccount : (m.view env).account target = .ok (some account)) : account' = account := by
  cases h with
  | present h =>
    rw [haccount] at h
    cases h
    rfl
  | opened _ ho =>
    obtain ⟨hnone, -⟩ := Frame.openAccount_eq_ok.1 ho.opened
    have hmissing : (m.view env).account target = .ok none := hnone
    rw [haccount] at hmissing
    cases hmissing

namespace Exec

section Called

variable {α β : Type} {m : Machine} {n : Nat} {φ : Prop} {r : α → Word → Prop} {p : Exec α}
  {f : α → Exec β} {Q : β → Machine → Prop}

theorem Plucks.bind_kept (hp : Plucks r p) (hq : Quiet p)
    (hf : ∀ a, Ensures (fun k => m.Turns m.world k ∧
      m.Gathered (n + 1) (φ ∧ ∃ w, m.stack.items[n]? = some w ∧ r a w) k) (f a) Q) :
    Ensures (fun k => m.Turns m.world k ∧ m.Gathered n φ k) (p >>= f) Q := by
  rintro k ⟨hturns, hk⟩
  obtain ⟨hturns', -⟩ := hq k
  exact hf _ _
    ⟨⟨hturns'.world.trans hturns.world, hturns.meter.trans hturns'.meter⟩, hp.gathered hk⟩

end Called

/-- What a call runs is what is at the address that is second on the stack, if anything is. -/
theorem ensures_target (env : Env) (variant : CallVariant) {m : Machine} {limit target : Word}
    {words : List Word} {account : Account} (hitems : m.stack.items = limit :: target :: words)
    (haccount : (m.view env).account (Address.ofWord target) = .ok (some account)) :
    Ensures (· = m) (prepareCall env variant) fun asked _ =>
      ∀ inv, asked = some inv → inv.target = env.host.targetOf account := by
  have hnone : ∀ {P : Machine → Prop}, Ensures P (pure none) fun asked _ =>
      ∀ inv : Invocation, asked = some inv → inv.target = env.host.targetOf account := by
    intro P k _ inv h
    cases h
  have hstart : Ensures (· = m) (setReturnData []) fun _ k =>
      m.Turns m.world k ∧ m.Gathered 0 True k := by
    rintro _ rfl
    exact ⟨⟨rfl, .refl _⟩, rfl, fun _ => ⟨rfl, trivial⟩⟩
  refine hstart.bind fun _ => .attempt_bind (fun _ _ => ?_) fun fault _ k _ => hnone
  refine plucks_pop64.bind_kept quiet_pop64 fun gasLimit => ?_
  refine plucks_popAddress.bind_kept quiet_popAddress fun address => ?_
  refine .of_eq fun k ⟨hturns, hk⟩ => ?_
  -- the address that was popped is looked up only on a machine without a fault
  have haddress : k.meter.fault = none → address = Address.ofWord target := by
    intro hclear
    obtain ⟨-, -, w, hw, rfl⟩ := hk.taken hclear
    rw [hitems] at hw
    cases hw
    rfl
  extract_lets rest
  have hrest : ∀ value, Ensures (k.Turns k.world) (rest value) fun asked _ =>
      ∀ inv, asked = some inv → inv.target = env.host.targetOf account := by
    intro value
    refine quiet_pop.bind_ensures fun inOffset _ => quiet_pop.bind_ensures fun inSize _ => ?_
    refine quiet_pop.bind_ensures fun outOffset _ => quiet_pop64.bind_ensures fun outSize _ => ?_
    refine (quiet_charge _).bind_ensures fun _ _ => ?_
    refine .of_eq fun k₁ hk₁ => (ensures_findTarget env variant address k₁).bind fun found => ?_
    refine .of_eq ?_
    rintro k₂ (⟨account', frame, rfl, hfound, rfl⟩ | ⟨rfl, -⟩)
    · refine .at ?_ (hk₁.withFrame frame)
      refine (quiet_readMemory inOffset inSize).bind_ensures fun input _ => ?_
      refine .check (fun _ _ _ => hnone) fun k₃ hk₃ hclear => .get_bind fun _ _ => ?_
      refine .attempt_bind (fun child _ => .get_bind fun k₄ _ => ?_) fun _ _ _ _ => hnone
      rintro _ _ inv ⟨⟩
      have hthere : (k₁.view env).account address = .ok (some account) := by
        rw [hk₁.view, haddress (hk₃.meter.unfaulted hclear), ← haccount]
        exact congrArg (fun view : View => view.account _) (hturns.view env)
      exact congrArg env.host.targetOf (hfound.account_eq hthere)
    · exact hnone
  refine Ensures.at (P := k.Turns k.world) ?_ (.refl k)
  split
  · exact quiet_pop.bind_ensures fun value _ => hrest value
  · exact hrest env.call.value

end Exec

/-! ### Whole instructions -/

/-- Performs the whole of an instruction that runs no code but its own: a call that it asks for is
over as soon as it has begun. -/
def complete (env : Env) (op : Opcode) (m : Machine) : Option (Flow × Machine) :=
  match (Exec.step env op).run m with
  | (.invoke inv, m₁) =>
    match inv.begin env m₁ with
    | .over out => some (.next, ((Exec.resume env inv out).run m₁).2)
    | .running _ _ => none
  | (flow, m₁) => some (flow, m₁)

/-- If the instruction calls, then the gas that it asks for is there, and `extra` besides. -/
def Affords (env : Env) (m : Machine) (op : Opcode) (extra : Nat) : Prop :=
  ∀ inv m₁, (Exec.step env op).run m = (.invoke inv, m₁) →
    m.stack.items.head?.map BitVec.toNat = some inv.call.gas ∧ extra ≤ m₁.meter.gas

section Complete

variable {env : Env} {op : Opcode} {m m₁ : Machine}

theorem complete_of_flow {flow : Flow} (h : (Exec.step env op).run m = (flow, m₁))
    (hasks : flow.invocation? = none) : complete env op m = some (flow, m₁) := by
  unfold complete
  rw [h]
  cases flow with
  | invoke inv => cases hasks
  | _ => rfl

theorem complete_of_over {inv : Invocation} {out : Outcome}
    (h : (Exec.step env op).run m = (.invoke inv, m₁)) (hover : inv.begin env m₁ = .over out) :
    complete env op m = some (.next, ((Exec.resume env inv out).run m₁).2) := by
  unfold complete
  rw [h]
  dsimp only
  rw [hover]

theorem complete_cases {flow : Flow} {m' : Machine} (h : complete env op m = some (flow, m')) :
    ((Exec.step env op).run m = (flow, m') ∧ flow.invocation? = none) ∨
    ∃ inv m₁ out, (Exec.step env op).run m = (.invoke inv, m₁) ∧ inv.begin env m₁ = .over out ∧
      flow = .next ∧ m' = ((Exec.resume env inv out).run m₁).2 := by
  rcases hstep : (Exec.step env op).run m with ⟨flow₁, m₁⟩
  cases hflow : flow₁.invocation? with
  | none =>
    rw [complete_of_flow hstep hflow] at h
    cases h
    exact Or.inl ⟨rfl, hflow⟩
  | some inv =>
    obtain rfl := Flow.eq_invoke hflow
    unfold complete at h
    rw [hstep] at h
    dsimp only at h
    rcases hover : inv.begin env m₁ with out | ⟨inner, start⟩
    · rw [hover] at h
      cases h
      exact Or.inr ⟨inv, m₁, out, rfl, hover, rfl, rfl⟩
    · rw [hover] at h
      cases h

end Complete

/-- Prices have no part in a call that is over at once. -/
theorem Host.begin_over {host : Host} {below : View} {frame : Frame} {call : Call} {target : Target}
    {sequence : CreateSequence} {out : Outcome}
    (h : host.begin below frame call target sequence = .over out) (options : Options) :
    { host with options }.begin below frame call target sequence = .over out := by
  unfold begin at h ⊢
  dsimp only at h ⊢
  split at h
  · exact h
  · cases target with
    | native native => exact h
    | code bytes =>
      dsimp only at h ⊢
      split at h
      · next hempty => rwa [if_pos hempty]
      · cases h

theorem Host.begin_empty (host : Host) (below : View) (frame : Frame) (call : Call)
    (sequence : CreateSequence) :
    ∃ out, host.begin below frame call (.code []) sequence = .over out := by
  unfold begin
  dsimp only
  split
  · exact ⟨_, rfl⟩
  · exact ⟨_, rfl⟩

theorem Machine.paying_zero (m : Machine) : m.paying 0 = m := rfl

theorem Exec.step_lookup_dearer {env : Env} {op : Opcode} {m m' : Machine} {flow : Flow}
    {extra : Nat} (hop : op.looksUp = true) (hrun : (step env op).run m = (flow, m'))
    (hasks : flow.invocation? = none) (hclear : m'.meter.fault = none)
    (hspare : op.paidLookups * extra ≤ m'.meter.gas) :
    (step (env.dearer extra) op).run m = (flow, m'.paying (op.paidLookups * extra)) := by
  have hpaid : op.paidLookups = 1 → Trails extra (fun _ => True) (step env op)
      (step (env.dearer extra) op) →
      (step (env.dearer extra) op).run m = (flow, m'.paying (op.paidLookups * extra)) := by
    intro hone htrails
    rw [hone, Nat.one_mul] at hspare ⊢
    have hsame := htrails.trails m
    unfold TrailsFrom at hsame
    rw [hrun] at hsame
    exact hsame hclear hspare trivial
  cases op with
  | balance => exact hpaid rfl (trails_balance env)
  | extCodeSize => exact hpaid rfl (trails_extCodeSize env)
  | extCodeCopy => exact hpaid rfl (trails_extCodeCopy env)
  | selfDestruct => exact hpaid rfl (trails_selfDestruct env)
  | extCodeHash =>
    rw [step_dearer rfl, hrun, Opcode.paidLookups, Nat.zero_mul, Machine.paying_zero]
  | call variant => exact absurd hclear (step_call_next hrun hasks)
  | _ => cases hop

/-- An instruction that looks an account up at an address from the stack pays for the look-up once,
and `extCodeHash` does not pay: when a look-up costs `extra` more, it does the same from the same
machine and leaves `extra` less gas, or as much as before. A call is a case of this if it is over as
soon as it has begun, as it is if it finds an account without code, and if it can forward the gas
that it asks for under both prices. -/
theorem lookups_are_paid_for_but_for_hashes (env : Env) (m : Machine) :
    (∀ (op : Opcode) (extra : Nat) (m' : Machine) (flow : Flow),
      op.looksUp = true →
      m.meter.gas ≤ gasLimit →
      complete env op m = some (flow, m') →
      m'.meter.fault = none →
      op.paidLookups * extra ≤ m'.meter.gas →
      Affords env m op extra →
        complete (env.dearer extra) op m =
          some (flow, m'.paying (op.paidLookups * extra))) ∧
    ∀ (variant : CallVariant) (m₁ : Machine) (inv : Invocation) (limit target : Word)
        (rest : List Word) (account : Account),
      (Exec.step env (.call variant)).run m = (.invoke inv, m₁) →
      m.stack.items = limit :: target :: rest →
      (m.view env).account (Address.ofWord target) = .ok (some account) →
      account.code = [] →
      env.host.natives.dispatch account = none →
        ∃ m', complete env (.call variant) m = some (.next, m') := by
  constructor
  · intro op extra m' flow hop hgas hrun hclear hspare hafford
    rcases complete_cases hrun with ⟨hstep, hasks⟩ | ⟨inv, m₁, out, hstep, hover, rfl, rfl⟩
    · exact complete_of_flow (Exec.step_lookup_dearer hop hstep hasks hclear hspare) hasks
    · rcases (Stepped.of_run hstep).invoke_cases with ⟨variant, rfl, -⟩ | ⟨variant, rfl, hcalls⟩
      · cases hop
      have hone : (Opcode.call variant).paidLookups = 1 := rfl
      rw [hone, Nat.one_mul] at hspare ⊢
      obtain ⟨hlimit, hleft⟩ := hafford inv m₁ hstep
      obtain ⟨w, hhead, hgranted⟩ := Option.map_eq_some_iff.1 hlimit
      obtain ⟨rest, hitems⟩ := List.head?_eq_some_iff.1 hhead
      have hroom : m₁.meter.gas + out.gas ≤ gasLimit := by
        have hback : out.gas ≤ inv.call.gas := Host.begin_gas hover
        have hgiven := hcalls.gas
        omega
      have hdear := Exec.step_call_dearer env variant hitems hstep hgranted.symm hleft
      have hover' : inv.begin (env.dearer extra) (m₁.paying extra) = .over out :=
        Host.begin_over hover _
      have hresume := Exec.resume_paying hroom hleft hclear hspare
      rw [complete_of_over hdear hover']
      exact congrArg (fun r : Unit × Machine => some (Flow.next, r.2)) hresume
  · intro variant m₁ inv limit target rest account hstep hitems haccount hcode hnative
    have hasked := Exec.prepareCall_of_step hstep
    have htarget := Exec.ensures_target env variant hitems haccount m rfl inv (by rw [hasked])
    have hempty : inv.target = .code [] := by
      rw [htarget, Host.targetOf, hnative, hcode]
    obtain ⟨out, hover⟩ := env.host.begin_empty (m₁.view env) inv.frame inv.call m₁.sequence
    rw [← hempty] at hover
    exact ⟨_, complete_of_over hstep hover⟩

def lookupMachine (items : List Word) : Machine :=
  { relayMachine with stack := .ofList items }

def idleCall : Flow × Machine :=
  (Exec.step (relayEnv 0xf1) (.call .plain)).run (lookupMachine [255, 10, 0, 0, 0, 0, 0])

theorem idle_call_pays_for_its_lookup :
    Affords (relayEnv 0xf1) (lookupMachine [255, 10, 0, 0, 0, 0, 0]) (.call .plain) 100 ∧
    ∃ m', complete (relayEnv 0xf1) (.call .plain) (lookupMachine [255, 10, 0, 0, 0, 0, 0]) =
        some (.next, m') ∧
      m'.meter = { gas := 991 } ∧
      complete ((relayEnv 0xf1).dearer 100) (.call .plain)
        (lookupMachine [255, 10, 0, 0, 0, 0, 0]) = some (.next, m'.paying 100) := by
  obtain ⟨hpays, hidle⟩ := lookups_are_paid_for_but_for_hashes (relayEnv 0xf1)
    (lookupMachine [255, 10, 0, 0, 0, 0, 0])
  have hasked : idleCall.1.invocation?.map (·.call.gas) = some 255 := by decide +kernel
  have hleft : idleCall.2.meter.gas = 737 := by decide +kernel
  obtain ⟨inv, hinv, hgas⟩ := Option.map_eq_some_iff.1 hasked
  have hstep : (Exec.step (relayEnv 0xf1) (.call .plain)).run
      (lookupMachine [255, 10, 0, 0, 0, 0, 0]) = (.invoke inv, idleCall.2) :=
    Prod.ext (Flow.eq_invoke hinv) rfl
  have hthere : ((lookupMachine [255, 10, 0, 0, 0, 0, 0]).view (relayEnv 0xf1)).account
      (Address.ofWord 10) = .ok (some { address := 10, balance := 5 }) := by
    decide +kernel
  obtain ⟨m', hm'⟩ := hidle _ _ _ 255 10 [0, 0, 0, 0, 0] _ hstep rfl hthere rfl (by decide)
  have hafford : Affords (relayEnv 0xf1) (lookupMachine [255, 10, 0, 0, 0, 0, 0])
      (.call .plain) 100 := by
    intro inv' m₁ h
    rw [hstep] at h
    cases h
    rw [hgas, hleft]
    exact ⟨rfl, by decide⟩
  have hmeter : (complete (relayEnv 0xf1) (.call .plain)
      (lookupMachine [255, 10, 0, 0, 0, 0, 0])).map (·.2.meter) = some { gas := 991 } := by
    decide +kernel
  rw [hm'] at hmeter
  have hmeter := Option.some.inj hmeter
  have hclear : m'.meter.fault = none := congrArg Meter.fault hmeter
  have hgas' : m'.meter.gas = 991 := congrArg Meter.gas hmeter
  exact ⟨hafford, m', hm', hmeter,
    hpays _ 100 m' _ rfl (by decide) hm' hclear (by rw [hgas']; decide) hafford⟩

/-- Asking for the digest of the code of the account at 10 costs what it did when a look-up costs
100 more. -/
theorem extCodeHash_pays_for_no_lookup :
    ¬ ∀ (env : Env) (op : Opcode) (extra : Nat) (m m' : Machine) (flow : Flow),
      op.looksUp = true → m.meter.gas ≤ gasLimit → complete env op m = some (flow, m') →
      m'.meter.fault = none → extra ≤ m'.meter.gas → Affords env m op extra →
        complete (env.dearer extra) op m = some (flow, m'.paying extra) := by
  intro h
  rcases hstep : (Exec.step (relayEnv 0x3f) .extCodeHash).run (lookupMachine [10])
    with ⟨flow, m'⟩
  have hvalues :
      ((Exec.step (relayEnv 0x3f) .extCodeHash).run (lookupMachine [10])).1.invocation?.isNone =
        true ∧
      ((Exec.step (relayEnv 0x3f) .extCodeHash).run (lookupMachine [10])).2.meter =
        { gas := 998 } := by
    decide +kernel
  have hdear : (complete ((relayEnv 0x3f).dearer 100) .extCodeHash (lookupMachine [10])).map
      (·.2.meter.gas) = some 998 := by
    decide +kernel
  rw [hstep] at hvalues
  obtain ⟨hasks, hmeter⟩ := hvalues
  have hasks := Option.isNone_iff_eq_none.1 hasks
  have hpaid := h (relayEnv 0x3f) .extCodeHash 100 _ m' flow rfl (by decide)
    (complete_of_flow hstep hasks) (congrArg Meter.fault hmeter)
    (by rw [hmeter]; decide) fun inv m₁ h' => by
      rw [hstep] at h'
      cases h'
      cases hasks
  rw [hpaid] at hdear
  have hgas : m'.meter.gas - 100 = 998 := Option.some.inj hdear
  rw [hmeter] at hgas
  cases hgas

end ContractVm
