import Mathlib
import ContractVm.Proofs.Detours
import ContractVm.Proofs.Operands

/-! # Copying into memory

The copying instructions take a window of their source, which reads as zero past its end, and the
source must reach to where the window starts; or, for the return data, a range that must be there as
a whole. With gas and room for it the bytes of the window are all that changes in memory. -/

namespace ContractVm

/-! ### Accesses that are served -/

namespace Memory

theorem Serves.of_fits {limit wordCost : Nat} {a : Access} {s s' : Image} {answer : Answer}
    (h : Serves limit wordCost a s answer s') (hfits : ¬a.Misses limit)
    (hgas : growthPrice wordCost s.capacity (a.grown limit s.capacity) ≤ s.meter.gas) :
    answer = a.answer s.bytes ∧ s'.bytes = a.update s.bytes ∧
      s'.capacity = a.grown limit s.capacity ∧ s'.meter.fault = s.meter.fault := by
  cases h with
  | missed _ hmisses => exact absurd hmisses hfits
  | unpaid _ hunpaid => omega
  | served _ _ => exact ⟨rfl, rfl, rfl, rfl⟩

theorem Capped.served {mem : Memory} (hmem : mem.Capped) {a : Access} {m : Meter}
    (hfits : ¬a.Misses mem.maximum)
    (hgas : growthPrice mem.wordCost mem.capacity (a.grown mem.maximum mem.capacity) ≤ m.gas) :
    (a.perform mem m).1 = a.answer mem.byteAt ∧
      (a.perform mem m).2.1.byteAt = a.update mem.byteAt ∧
      (a.perform mem m).2.1.capacity = a.grown mem.maximum mem.capacity ∧
      (a.perform mem m).2.2.fault = m.fault :=
  (hmem.follows a m).serves.of_fits hfits hgas

/-- The capacity already covers the access. -/
def Access.Covered (capacity : Nat) (a : Access) : Prop :=
  a.length = 0 ∨ a.stop ≤ capacity

theorem Access.Covered.grown {capacity : Nat} {a : Access} (h : a.Covered capacity)
    (limit : Nat) : a.grown limit capacity = capacity := by
  unfold Access.grown Memory.grown
  rcases h with hempty | hinside
  · rw [if_pos hempty]
  · rw [if_pos hinside, ite_self]

theorem Access.covered_grown {limit capacity : Nat} {a : Access} (hfits : ¬a.Misses limit) :
    a.Covered (a.grown limit capacity) := by
  unfold Access.Covered Access.grown
  by_cases hempty : a.length = 0
  · exact Or.inl hempty
  · have hstop : a.stop ≤ limit := by
      unfold Access.Misses at hfits
      omega
    rw [if_neg hempty]
    unfold Memory.grown wordsFor
    right
    split <;> omega

end Memory

/-! ### Making room -/

/-- The price of copying some bytes to `start` once they are at hand: for the words that are copied
and for the words by which memory grows. -/
def Machine.copyCost (m : Machine) (env : Env) (start : Word) (length : Nat) : Nat :=
  env.prices.copyGas length + Memory.growthPrice m.memory.wordCost m.memory.capacity
    ((Memory.Access.reserve start length).grown m.memory.maximum m.memory.capacity)

/-- A machine without a fault can copy some bytes to `start`: they lie within its memory, and it has
the gas to do so after it has paid a fee. -/
structure Machine.CanCopy (m : Machine) (env : Env) (fee : Nat) (start : Word) (length : Nat) :
    Prop where
  fault : m.meter.fault = none
  capped : m.memory.Capped
  inside : ¬(Memory.Access.reserve start length).Misses m.memory.maximum
  gas : fee + m.copyCost env start length ≤ m.meter.gas

/-- The machine `k` is `m` with room for some bytes at `start`, all paid for. -/
structure Machine.Roomy (m : Machine) (start : Word) (length : Nat) (k : Machine) : Prop where
  fault : k.meter.fault = none
  capped : k.memory.Capped
  stack : k.stack = m.stack
  bytes : k.memory.byteAt = m.memory.byteAt
  inside : ¬(Memory.Access.reserve start length).Misses k.memory.maximum
  covered : (Memory.Access.reserve start length).Covered k.memory.capacity

section Room

variable {m k : Machine} {env : Env} {fee : Nat} {start : Word} {length : Nat}

theorem Machine.CanCopy.popped (h : m.CanCopy env (m.stack.price + fee) start length) :
    m.popped.CanCopy env fee start length := by
  have hgas := h.gas
  refine ⟨h.fault, h.capped, h.inside, ?_⟩
  show fee + m.copyCost env start length ≤ m.meter.gas - m.stack.price
  omega

theorem Machine.CanCopy.paying {amount : Nat} (h : m.CanCopy env (amount + fee) start length) :
    (m.paying amount).CanCopy env fee start length := by
  have hgas := h.gas
  refine ⟨h.fault, h.capped, h.inside, ?_⟩
  show fee + m.copyCost env start length ≤ m.meter.gas - amount
  omega

theorem Machine.CanCopy.length_le (h : m.CanCopy env fee start length) : length ≤ indexLimit := by
  have hinside := h.inside
  have hmaximum := h.capped.maximum
  simp only [Memory.Access.Misses, Memory.Access.stop, Memory.Access.length] at hinside
  omega

theorem Memory.Capped.reserve_roomy (hcapped : m.memory.Capped) (hfault : m.meter.fault = none)
    (hinside : ¬(Memory.Access.reserve start length).Misses m.memory.maximum)
    (hgas : Memory.growthPrice m.memory.wordCost m.memory.capacity
      ((Memory.Access.reserve start length).grown m.memory.maximum m.memory.capacity) ≤
      m.meter.gas) :
    ((Exec.reserveMemory start length).run m).1 = true ∧
      m.Roomy start length ((Exec.reserveMemory start length).run m).2 := by
  have hfollows := hcapped.follows (.reserve start length) m.meter
  obtain ⟨hanswer, hbytes, hcapacity, hkept⟩ := hcapped.served hinside hgas
  have hmaximum : ((Exec.reserveMemory start length).run m).2.memory.maximum = m.memory.maximum :=
    hfollows.maximum
  refine ⟨Memory.Answer.reserved.inj hanswer,
    { fault := hkept.trans hfault
      capped := hfollows.capped hcapped
      stack := rfl
      bytes := hbytes
      inside := ?_
      covered := ?_ }⟩
  · rw [hmaximum]
    exact hinside
  · have hcovered : (Memory.Access.reserve start length).Covered
        ((Memory.Access.reserve start length).grown m.memory.maximum m.memory.capacity) :=
      Memory.Access.covered_grown hinside
    rw [← hcapacity] at hcovered
    exact hcovered

/-- The room is made before the bytes are looked at. -/
theorem Machine.CanCopy.roomy (h : m.CanCopy env 0 start length) :
    ∃ k, m.Roomy start length k ∧ ∀ window, (copyBy window env start length).run m =
      match window with
      | .ok bytes => (Exec.writeMemory start bytes).run k
      | .error fault => ((), k.recorded fault) := by
  have hcost := h.gas
  unfold Machine.copyCost at hcost
  have hcharge : (Exec.charge (env.prices.copyGas length)).run m =
      ((), m.paying (env.prices.copyGas length)) := Exec.run_charge (by omega)
  have hgas : Memory.growthPrice m.memory.wordCost m.memory.capacity
      ((Memory.Access.reserve start length).grown m.memory.maximum m.memory.capacity) ≤
      (m.paying (env.prices.copyGas length)).meter.gas := by
    rw [Machine.paying_gas]
    omega
  have hpaid : (m.paying (env.prices.copyGas length)).memory.Capped := h.capped
  obtain ⟨hdone, hroomy⟩ := hpaid.reserve_roomy h.fault h.inside hgas
  refine ⟨_, { hroomy with }, fun window => ?_⟩
  have hclear : (Exec.faulty.run (m.paying (env.prices.copyGas length))).1 = false := by
    show m.meter.fault.isSome = false
    rw [h.fault]
    rfl
  have hsame : (Exec.faulty.run (m.paying (env.prices.copyGas length))).2 =
      m.paying (env.prices.copyGas length) := rfl
  unfold copyBy
  rw [Exec.run_bind, hcharge, Exec.run_bind, hclear, if_neg Bool.false_ne_true, hsame,
    Exec.run_bind, if_pos hdone]
  cases window with
  | ok bytes => rfl
  | error fault => rfl

theorem Machine.Roomy.write (h : m.Roomy start length k) {bytes : Bytes}
    (hlength : bytes.length = length) :
    ((Exec.writeMemory start bytes).run k).2.meter.fault = none ∧
      ((Exec.writeMemory start bytes).run k).2.stack = m.stack ∧
      m.memory.Receives ((Exec.writeMemory start bytes).run k).2.memory start.toNat length bytes := by
  subst hlength
  have hfree : Memory.growthPrice k.memory.wordCost k.memory.capacity
      ((Memory.Access.write start bytes).grown k.memory.maximum k.memory.capacity) ≤
      k.meter.gas := by
    have hcovered : (Memory.Access.write start bytes).Covered k.memory.capacity := h.covered
    rw [hcovered.grown, Memory.growthPrice_self]
    omega
  obtain ⟨-, hbytes, -, hfault⟩ := h.capped.served (a := .write start bytes) h.inside hfree
  refine ⟨hfault.trans h.fault, h.stack, fun i => ?_⟩
  rw [← h.bytes]
  exact congrFun hbytes i

theorem Machine.CanCopy.write {bytes : Bytes} (h : m.CanCopy env 0 start bytes.length) :
    let m' := ((Exec.writeMemory start bytes).run
      ((Exec.charge (env.prices.copyGas bytes.length)).run m).2).2
    m'.meter.fault = none ∧ m'.stack = m.stack ∧
      m.memory.Receives m'.memory start.toNat bytes.length bytes := by
  intro m'
  have hcost := h.gas
  unfold Machine.copyCost at hcost
  have hcharge : (Exec.charge (env.prices.copyGas bytes.length)).run m =
      ((), m.paying (env.prices.copyGas bytes.length)) := Exec.run_charge (by omega)
  have hgas : Memory.growthPrice m.memory.wordCost m.memory.capacity
      ((Memory.Access.write start bytes).grown m.memory.maximum m.memory.capacity) ≤
      (m.paying (env.prices.copyGas bytes.length)).meter.gas := by
    have hsame : (Memory.Access.write start bytes).grown m.memory.maximum m.memory.capacity =
        (Memory.Access.reserve start bytes.length).grown m.memory.maximum m.memory.capacity := rfl
    rw [hsame, Machine.paying_gas]
    omega
  obtain ⟨-, hbytes, -, hfault⟩ := h.capped.served (a := .write start bytes) h.inside hgas
  dsimp only [m']
  rw [hcharge]
  exact ⟨hfault.trans h.fault, rfl, fun i => congrFun hbytes i⟩

/-! ### Windows -/

/-- The machine `m'` comes from `m` by copying `length` bytes of `data` from `offset` on to `start`,
or it has failed because `data` ends before `offset`. -/
structure Copied (data : Bytes) (start offset length : Nat) (m m' : Machine) : Prop where
  fails : m'.meter.fault = some .inputOutOfBounds ↔ data.length < offset
  unchanged : data.length < offset → m'.memory.byteAt = m.memory.byteAt
  clear : offset ≤ data.length → m'.meter.fault = none
  receives : offset ≤ data.length →
    m.memory.Receives m'.memory start length (data.drop offset)

theorem Copied.of_memory {data : Bytes} {start offset length : Nat} {m k m' : Machine}
    (h : Copied data start offset length k m') (hmemory : k.memory = m.memory) :
    Copied data start offset length m m' := by
  refine ⟨h.fails, ?_, h.clear, ?_⟩
  · rw [← hmemory]
    exact h.unchanged
  · rw [← hmemory]
    exact h.receives

theorem Memory.Receives.of_window {mem mem' : Memory} {offset : Nat} {data : Bytes} {start : Nat}
    (h : mem.Receives mem' start length (Bytes.window offset length data)) :
    mem.Receives mem' start length (data.drop offset) := by
  intro i
  rw [h i]
  split
  · next hi => exact Bytes.getD_fit (by omega) _
  · rfl

theorem Machine.CanCopy.copied (h : m.CanCopy env 0 start length) (data : Bytes) (offset : Nat) :
    ((copyBy (copyWindow data offset length) env start length).run m).2.stack = m.stack ∧
      Copied data start.toNat offset length m
        ((copyBy (copyWindow data offset length) env start length).run m).2 := by
  obtain ⟨k, hroomy, hrun⟩ := h.roomy
  rw [hrun]
  by_cases hoffset : data.length < offset
  · have hwindow : copyWindow data offset length = .error .inputOutOfBounds := if_pos hoffset
    have hfault : (k.recorded .inputOutOfBounds).meter.fault = some .inputOutOfBounds := by
      show (k.meter.record .inputOutOfBounds).fault = _
      rw [Meter.record_fault, hroomy.fault]
      rfl
    rw [hwindow]
    exact ⟨hroomy.stack,
      { fails := ⟨fun _ => hoffset, fun _ => hfault⟩
        unchanged := fun _ => hroomy.bytes
        clear := fun hle => absurd hoffset (Nat.not_lt.2 hle)
        receives := fun hle => absurd hoffset (Nat.not_lt.2 hle) }⟩
  · have hwindow : copyWindow data offset length = .ok (Bytes.window offset length data) := by
      rw [copyWindow, if_neg hoffset, if_neg (Nat.not_lt.2 h.length_le)]
    obtain ⟨hclear, hstack, hreceives⟩ := hroomy.write (Bytes.length_window offset length data)
    rw [hwindow]
    refine ⟨hstack,
      { fails := ⟨fun hfault => ?_, fun hlt => absurd hlt hoffset⟩
        unchanged := fun hlt => absurd hlt hoffset
        clear := fun _ => hclear
        receives := fun _ => hreceives.of_window }⟩
    rw [hclear] at hfault
    cases hfault

end Room

/-! ### Instructions -/

section Instructions

variable {m : Machine} {env : Env} {start offset length : Word} {rest : List Word}

/-- The instruction is followed by the next one, with the words `rest` left on the stack and a
window of `data` copied. -/
def Copies (env : Env) (m : Machine) (op : Opcode) (data : Bytes) (start offset length : Word)
    (rest : List Word) : Prop :=
  ((Exec.step env op).run m).1 = .next ∧ ((Exec.step env op).run m).2.stack.items = rest ∧
    Copied data start.toNat offset.toNat length.toNat m ((Exec.step env op).run m).2

theorem copies_of_run {op : Opcode} {data : Bytes} {m' : Machine}
    (hrun : (Exec.step env op).run m = (.next, m'))
    (h : m'.stack.items = rest ∧ Copied data start.toNat offset.toNat length.toNat m m') :
    Copies env m op data start offset length rest := by
  unfold Copies
  rw [hrun]
  exact ⟨rfl, h.1, h.2⟩

theorem Machine.CanCopy.length_lt {fee : Nat} (h : m.CanCopy env fee start length.toNat) :
    length.toNat < bound64 := by
  have hlength := h.length_le
  unfold indexLimit at hlength
  unfold bound64
  omega

theorem Machine.popped_three (hitems : m.stack.items = start :: offset :: length :: rest)
    (hgas : 3 * m.stack.price ≤ m.meter.gas) :
    (m.popped.stack.items = offset :: length :: rest ∧
      m.popped.stack.price ≤ m.popped.meter.gas) ∧
    (m.popped.popped.stack.items = length :: rest ∧
      m.popped.popped.stack.price ≤ m.popped.popped.meter.gas) ∧
    m.popped.popped.popped.stack.items = rest := by
  simp only [Machine.popped_items, Machine.popped_price, Machine.popped_gas, hitems, List.tail_cons,
    true_and, and_true]
  omega

theorem Machine.CanCopy.popped_three (h : m.CanCopy env (3 * m.stack.price) start length.toNat) :
    m.popped.popped.popped.CanCopy env 0 start length.toNat := by
  have hfee : 3 * m.stack.price = m.stack.price + (m.stack.price + (m.stack.price + 0)) := by omega
  rw [hfee] at h
  exact h.popped.popped.popped

theorem Machine.CanCopy.copyData (hcopy : m.CanCopy env (3 * m.stack.price) start length.toNat)
    (hitems : m.stack.items = start :: offset :: length :: rest) (hoffset : offset.toNat < bound64)
    (data : Bytes) :
    ((Exec.copyData env data).run m).2.stack.items = rest ∧
      Copied data start.toNat offset.toNat length.toNat m ((Exec.copyData env data).run m).2 := by
  have hgas := hcopy.gas
  obtain ⟨⟨hitems₁, hgas₁⟩, ⟨hitems₂, hgas₂⟩, hrest⟩ := Machine.popped_three hitems (by omega)
  have hrun : (Exec.copyData env data).run m =
      (copyBy (copyWindow data offset.toNat length.toNat) env start length.toNat).run
        m.popped.popped.popped := by
    unfold Exec.copyData
    rw [Exec.run_bind, Exec.run_pop hitems (by omega), Exec.run_bind,
      Exec.run_pop64 hitems₁ hgas₁ hoffset, Exec.run_bind,
      Exec.run_pop64 hitems₂ hgas₂ hcopy.length_lt]
    rfl
  obtain ⟨hstack, hcopied⟩ := hcopy.popped_three.copied data offset.toNat
  rw [hrun, hstack]
  exact ⟨hrest, hcopied.of_memory rfl⟩

theorem Machine.CanCopy.extCodeCopy {address : Word} {account : Account}
    (hcopy : m.CanCopy env (4 * m.stack.price + env.prices.getAccount) start length.toNat)
    (hitems : m.stack.items = address :: start :: offset :: length :: rest)
    (hoffset : offset.toNat < bound64)
    (haccount : (m.view env).account (Address.ofWord address) = .ok (some account)) :
    Copies env m .extCodeCopy account.code start offset length rest := by
  have hgas := hcopy.gas
  have hfee : 4 * m.stack.price + env.prices.getAccount =
      m.stack.price + (env.prices.getAccount + 3 * m.stack.price) := by omega
  rw [hfee] at hcopy
  have hpaid : (m.popped.paying env.prices.getAccount).CanCopy env (3 * m.stack.price) start
      length.toNat := hcopy.popped.paying
  have hprice : env.prices.getAccount ≤ m.popped.meter.gas := by
    rw [Machine.popped_gas]
    omega
  have hfound : (Exec.popAccount env env.prices.getAccount).run m =
      ((Address.ofWord address, some (some account)), m.popped.paying env.prices.getAccount) := by
    unfold Exec.popAccount
    rw [Exec.run_bind, Exec.run_popAddress hitems (by omega), Exec.run_bind,
      Exec.run_charge hprice, Exec.run_bind]
    have hview : ((get : Exec Machine).run (m.popped.paying env.prices.getAccount)).1.view env =
        m.view env := rfl
    rw [hview, haccount]
    rfl
  have hleft : (m.popped.paying env.prices.getAccount).stack.items =
      start :: offset :: length :: rest := by simp [hitems]
  have hrun : (Exec.step env .extCodeCopy).run m =
      (.next, ((Exec.copyData env account.code).run (m.popped.paying env.prices.getAccount)).2) := by
    unfold Exec.step
    rw [Exec.run_bind, hfound]
    exact Exec.run_bind _ _ _
  obtain ⟨hrest, hcopied⟩ := hpaid.copyData hleft hoffset account.code
  exact copies_of_run hrun ⟨hrest, hcopied.of_memory rfl⟩

/-! ### The return data -/

theorem Exec.run_copyReturnData (env : Env)
    (hitems : m.stack.items = start :: offset :: length :: rest)
    (hgas : 3 * m.stack.price ≤ m.meter.gas) :
    (Exec.copyReturnData env).run m =
      if offset.toNat + length.toNat ≤ m.returnData.length then
        (Exec.writeMemory start ((m.returnData.drop offset.toNat).take length.toNat)).run
          ((Exec.charge (env.prices.copyGas length.toNat)).run m.popped.popped.popped).2
      else ((), m.popped.popped.popped.recorded .returnDataOutOfBounds) := by
  obtain ⟨⟨hitems₁, hgas₁⟩, ⟨hitems₂, hgas₂⟩, -⟩ := Machine.popped_three hitems hgas
  unfold copyReturnData
  rw [run_bind, run_pop hitems (by omega), run_bind, run_pop hitems₁ hgas₁, run_bind,
    run_pop hitems₂ hgas₂, run_bind]
  have hdata : ((get : Exec Machine).run m.popped.popped.popped).1.returnData = m.returnData := rfl
  rw [hdata, Bytes.slice?]
  by_cases hrange : offset.toNat + length.toNat ≤ m.returnData.length
  · have hsize : ((m.returnData.drop offset.toNat).take length.toNat).length = length.toNat := by
      rw [List.length_take, List.length_drop]
      omega
    rw [if_pos ⟨Nat.le_add_right _ _, hrange⟩, if_pos hrange, Nat.add_sub_cancel_left]
    dsimp only
    rw [run_bind, hsize]
    rfl
  · rw [if_neg fun h => hrange h.2, if_neg hrange]
    rfl

theorem Meter.charge_strains (amount : Nat) (m : Meter) : m.Strains (m.charge amount) := by
  unfold charge
  split
  · next h => exact .of_eq (consume_fault h)
  · next h => exact strains_record (Or.inl (consume_error h)) m

/-- Only a range that is not there as a whole makes the return data too short: what else can fail is
for lack of gas or of memory. -/
theorem Exec.copyReturnData_fails (env : Env)
    (hitems : m.stack.items = start :: offset :: length :: rest) (hfault : m.meter.fault = none)
    (hgas : 3 * m.stack.price ≤ m.meter.gas) :
    ((Exec.copyReturnData env).run m).2.meter.fault = some .returnDataOutOfBounds ↔
      m.returnData.length < offset.toNat + length.toNat := by
  rw [run_copyReturnData env hitems hgas]
  by_cases hrange : offset.toNat + length.toNat ≤ m.returnData.length
  · rw [if_pos hrange]
    have hstrains : m.popped.popped.popped.meter.Strains _ :=
      (Meter.charge_strains (env.prices.copyGas length.toNat) _).trans
        (Memory.write_strains start ((m.returnData.drop offset.toNat).take length.toNat) m.memory _)
    refine ⟨fun hfails => ?_, fun hlt => absurd hrange (Nat.not_le.2 hlt)⟩
    rcases hstrains.fault _ hfails with hkept | hshort | ⟨text, hshort⟩
    · rw [Machine.popped_fault, Machine.popped_fault, Machine.popped_fault, hfault] at hkept
      cases hkept
    · cases hshort
    · cases hshort
  · rw [if_neg hrange]
    refine ⟨fun _ => Nat.not_le.1 hrange, fun _ => ?_⟩
    show (m.popped.popped.popped.meter.record .returnDataOutOfBounds).fault = _
    rw [Meter.record_fault, Machine.popped_fault, Machine.popped_fault, Machine.popped_fault, hfault]
    rfl

theorem Machine.CanCopy.copyReturnData
    (hcopy : m.CanCopy env (3 * m.stack.price) start length.toNat)
    (hitems : m.stack.items = start :: offset :: length :: rest)
    (hrange : offset.toNat + length.toNat ≤ m.returnData.length) :
    ((Exec.copyReturnData env).run m).2.stack.items = rest ∧
      ((Exec.copyReturnData env).run m).2.meter.fault = none ∧
      m.memory.Receives ((Exec.copyReturnData env).run m).2.memory start.toNat length.toNat
        (m.returnData.drop offset.toNat) := by
  have hgas := hcopy.gas
  have hsize : ((m.returnData.drop offset.toNat).take length.toNat).length = length.toNat := by
    rw [List.length_take, List.length_drop]
    omega
  obtain ⟨-, -, hrest⟩ := Machine.popped_three hitems (by omega)
  have hlast := hcopy.popped_three
  rw [← hsize] at hlast
  obtain ⟨hclear, hstack, hreceives⟩ := hlast.write
  rw [Exec.run_copyReturnData env hitems (by omega), if_pos hrange]
  rw [hsize] at hclear hstack hreceives
  refine ⟨(congrArg Stack.items hstack).trans hrest, hclear, fun i => ?_⟩
  rw [hreceives i]
  split
  · next hi =>
    have hinside : i - start.toNat < length.toNat := by omega
    rw [List.getD_eq_getElem?_getD, List.getElem?_take, if_pos hinside,
      List.getD_eq_getElem?_getD]
  · rfl

end Instructions

/-- A copy takes exactly its window, or fails because its source does not reach that far. The memory
of every machine that an execution comes to is bounded, and so no execution comes to where a length
would be beyond the index limit. -/
theorem copies_are_exact_windows (env : Env) (m : Machine) (start offset length : Word)
    (rest : List Word) :
    (m.stack.items = start :: offset :: length :: rest → offset.toNat < bound64 →
      m.CanCopy env (3 * m.stack.price) start length.toNat →
      Copies env m .callDataCopy env.call.input start offset length rest ∧
        Copies env m .codeCopy env.code.toBytes start offset length rest) ∧
    (∀ (address : Word) (account : Account),
      m.stack.items = address :: start :: offset :: length :: rest → offset.toNat < bound64 →
      (m.view env).account (Address.ofWord address) = .ok (some account) →
      m.CanCopy env (4 * m.stack.price + env.prices.getAccount) start length.toNat →
      Copies env m .extCodeCopy account.code start offset length rest) ∧
    (m.stack.items = start :: offset :: length :: rest → m.meter.fault = none →
      3 * m.stack.price ≤ m.meter.gas →
      (((Exec.step env .returnDataCopy).run m).2.meter.fault = some .returnDataOutOfBounds ↔
        m.returnData.length < offset.toNat + length.toNat)) ∧
    (m.stack.items = start :: offset :: length :: rest →
      m.CanCopy env (3 * m.stack.price) start length.toNat →
      offset.toNat + length.toNat ≤ m.returnData.length →
      ((Exec.step env .returnDataCopy).run m).1 = .next ∧
        ((Exec.step env .returnDataCopy).run m).2.stack.items = rest ∧
        ((Exec.step env .returnDataCopy).run m).2.meter.fault = none ∧
        m.memory.Receives ((Exec.step env .returnDataCopy).run m).2.memory start.toNat
          length.toNat (m.returnData.drop offset.toNat)) ∧
    (∀ (host : Host) (below : View) (frame : Frame) (call : Call) (target : Target)
      (sequence : CreateSequence) (env e : Env) (m k : Machine),
      host.begin below frame call target sequence = .running env m → Visits env m e k →
      k.memory.Bounded) ∧
    (∀ (detour : Detour) (host : Host) (fuel : Nat) (below : View) (frame : Frame) (call : Call)
      (target : Target) (sequence : CreateSequence),
      detour.perform host fuel below frame call target sequence =
        host.perform fuel below frame call target sequence) ∧
    ∀ (fuel : Nat) (env : Env) (m : Machine), Detour.faults.run fuel env m = run fuel env m := by
  have hreturnData : (Exec.step env .returnDataCopy).run m =
      (.next, ((Exec.copyReturnData env).run m).2) := Exec.run_bind _ _ m
  refine ⟨fun hitems hoffset hcopy => ?_, fun address account hitems hoffset haccount hcopy => ?_,
    fun hitems hfault hgas => ?_, fun hitems hcopy hrange => ?_,
    fun host below frame call target sequence env e m k hbegin hvisits => ?_, Detour.perform_eq,
    Detour.run_faults⟩
  · exact ⟨copies_of_run (Exec.run_bind _ _ m) (hcopy.copyData hitems hoffset _),
      copies_of_run (Exec.run_bind _ _ m) (hcopy.copyData hitems hoffset _)⟩
  · exact hcopy.extCodeCopy hitems hoffset haccount
  · rw [hreturnData]
    exact Exec.copyReturnData_fails env hitems hfault hgas
  · rw [hreturnData]
    exact ⟨rfl, hcopy.copyReturnData hitems hrange⟩
  · have hbegun := hbegin ▸ host.begun below frame call target sequence
    exact hvisits.lasting lasting_bounded (hbegun.lasting lasting_bounded)

/-- A machine with some operands and six bytes of memory that are not zero. -/
def copyMachine (items : List Word) : Machine :=
  { Machine.start {} 1000 (Frame.root 0) {} with
    memory := (Memory.empty 0 32 0).store 0 [7, 7, 7, 7, 7, 7]
    stack := .ofList items
    returnData := [1, 2, 3] }

def copyEnv : Env :=
  { relayEnv 0x37 with call := { relayCall with input := [10, 20, 30, 40] } }

theorem copyMachine_canCopy (items : List Word) {fee length : Nat} (hfee : fee ≤ 1000)
    (hlength : length ≤ 31) : (copyMachine items).CanCopy copyEnv fee 1 length := by
  have hcopy : copyEnv.prices.copyGas length = 0 := by
    show capGas (wordsFor length * 0) = 0
    rfl
  have hgrowth : ∀ old new, Memory.growthPrice (copyMachine items).memory.wordCost old new = 0 := by
    intro old new
    show capGas ((wordsFor new - wordsFor old) * 0) = 0
    rfl
  have hbounded := Memory.empty_bounded 0 32 0
  refine ⟨rfl, ⟨hbounded.capacity, hbounded.maximum⟩, ?_, ?_⟩
  · show ¬(bound64 ≤ 1 ∨ bound64 ≤ length ∨ 0 < length ∧ indexLimit < 1 + length)
    unfold bound64 indexLimit
    omega
  · unfold Machine.copyCost
    rw [hcopy, hgrowth]
    exact hfee

/-- Two bytes are left of the input, and zeros follow them; an offset near the largest word does not
wrap around. -/
theorem copies_end_in_zeros :
    (copyMachine [1, 2, 4, 9]).stack.items = [1, 2, 4, 9] ∧
    (copyMachine [1, 2, 4, 9]).CanCopy copyEnv 3 1 4 ∧
    Copies copyEnv (copyMachine [1, 2, 4, 9]) .callDataCopy [10, 20, 30, 40] 1 2 4 [9] ∧
    (List.range 7).map ((Exec.step copyEnv .callDataCopy).run
      (copyMachine [1, 2, 4, 9])).2.memory.byteAt = [7, 30, 40, 0, 0, 7, 0] ∧
    (copyEnv.below.account 12 = .ok (some { address := 12, code := [0x60, 1, 0x60, 1, 0x55, 0] })) ∧
    Copies copyEnv (copyMachine [12, 1, 7, 4, 9]) .extCodeCopy [0x60, 1, 0x60, 1, 0x55, 0] 1 7 4
      [9] ∧
    ((Exec.step copyEnv .extCodeCopy).run (copyMachine [12, 1, 7, 4, 9])).2.meter.fault =
      some .inputOutOfBounds ∧
    ((Exec.step copyEnv .returnDataCopy).run
      (copyMachine [1, BitVec.allOnes 256, 2, 9])).2.meter.fault = some .returnDataOutOfBounds ∧
    (List.range 4).map ((Exec.step copyEnv .returnDataCopy).run
      (copyMachine [1, 1, 2, 9])).2.memory.byteAt = [7, 2, 3, 7] := by
  have hcan : (copyMachine [1, 2, 4, 9]).CanCopy copyEnv 3 1 4 :=
    copyMachine_canCopy _ (by decide) (by decide)
  have hcanExt : (copyMachine [12, 1, 7, 4, 9]).CanCopy copyEnv 5 1 4 :=
    copyMachine_canCopy _ (by decide) (by decide)
  have hcanReturn : (copyMachine [1, 1, 2, 9]).CanCopy copyEnv 3 1 2 :=
    copyMachine_canCopy _ (by decide) (by decide)
  have haccount : copyEnv.below.account 12 =
      .ok (some { address := 12, code := [0x60, 1, 0x60, 1, 0x55, 0] }) := by
    decide +kernel
  have hseen : ((copyMachine [12, 1, 7, 4, 9]).view copyEnv).account (Address.ofWord 12) =
      .ok (some { address := 12, code := [0x60, 1, 0x60, 1, 0x55, 0] }) := by
    decide +kernel
  obtain ⟨hwindow, -⟩ := copies_are_exact_windows copyEnv (copyMachine [1, 2, 4, 9]) 1 2 4 [9]
  have hcopies := (hwindow rfl (by decide) hcan).1
  obtain ⟨-, hext, -⟩ :=
    copies_are_exact_windows copyEnv (copyMachine [12, 1, 7, 4, 9]) 1 7 4 [9]
  have hextCopies := hext 12 _ rfl (by decide) hseen hcanExt
  obtain ⟨-, -, hfails, -⟩ := copies_are_exact_windows copyEnv
    (copyMachine [1, BitVec.allOnes 256, 2, 9]) 1 (BitVec.allOnes 256) 2 [9]
  obtain ⟨-, -, -, hreturn, -⟩ :=
    copies_are_exact_windows copyEnv (copyMachine [1, 1, 2, 9]) 1 1 2 [9]
  obtain ⟨-, -, -, hreturned⟩ := hreturn rfl hcanReturn (by decide)
  refine ⟨rfl, hcan, hcopies, ?_, haccount, hextCopies, hextCopies.2.2.fails.2 (by decide),
    (hfails rfl rfl (by decide)).2 (by decide), ?_⟩
  · rw [List.map_congr_left fun i _ => hcopies.2.2.receives (by decide) i]
    decide +kernel
  · rw [List.map_congr_left fun i _ => hreturned i]
    decide +kernel

end ContractVm
