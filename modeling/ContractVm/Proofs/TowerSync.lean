import Mathlib
import ContractVm.Proofs.Overlay
import ContractVm.Tower

/-! # Syncing a tower

The towers that arise when frames are opened, closed, frozen, written to and synced from the top keep
two facts: their frames are coherent, and a frame over a read-only one is empty. They suffice to say
what a sync does. It makes the level below read as the top did, and it fails only where a pending
write meets an account that the frame just below has removed. -/

namespace ContractVm

namespace Tower

/-- The towers over a ledger that are reached by working on the top only. -/
inductive Reachable : Tower → Prop where
  | ground (ledger : Ledger) (maxDepth : Nat) : Reachable { ledger, maxDepth }
  | push {t t' : Tower} (ht : Reachable t) (h : t.push = .ok t') : Reachable t'
  | pop {t : Tower} (ht : Reachable t) : Reachable t.pop
  | freeze {t : Tower} (ht : Reachable t) : Reachable t.freeze
  | write {t t' : Tower} {c : Change} (ht : Reachable t) (h : t.write c = .ok t') : Reachable t'
  | sync {t t' : Tower} (ht : Reachable t) (h : t.sync = (t', .ok ())) : Reachable t'

/-- A frame over a read-only one is read-only as well and has nothing to hand down. -/
def Guarded (upper lower : Frame) : Prop :=
  lower.readOnly = true → upper.readOnly = true ∧ upper.accounts = ∅ ∧ upper.slots = ∅

structure Sound (t : Tower) : Prop where
  coherent : ∀ f ∈ t.frames, f.Coherent
  guarded : t.frames.IsChain Guarded

theorem Sound.of_cons {t : Tower} {top : Frame} {rest : List Frame} (ht : t.Sound)
    (h : t.frames = top :: rest) : top.Coherent ∧ ∀ f ∈ rest, f.Coherent := by
  have hc := ht.coherent
  rw [h] at hc
  exact ⟨hc top List.mem_cons_self, fun f hf => hc f (List.mem_cons_of_mem _ hf)⟩

/-- Accepted changes keep a frame guarded: over a read-only frame none are accepted. -/
theorem Guarded.writes {f g lower : Frame} (h : Guarded f lower) (hw : f.Writes g) :
    Guarded g lower := by
  intro hro
  obtain ⟨hf, ha, hs⟩ := h hro
  obtain rfl := hw.eq_of_readOnly hf
  exact ⟨hf, ha, hs⟩

theorem isChain_replace {f g : Frame} {rest : List Frame} (h : (f :: rest).IsChain Guarded)
    (hg : ∀ lower, Guarded f lower → Guarded g lower) : (g :: rest).IsChain Guarded := by
  cases rest with
  | nil => exact .singleton g
  | cons lower rest =>
    rw [List.isChain_cons_cons] at h ⊢
    exact ⟨hg lower h.1, h.2⟩

theorem Sound.push {t t' : Tower} (ht : t.Sound) (h : t.push = .ok t') : t'.Sound := by
  unfold Tower.push at h
  split at h
  · next hf =>
    cases h
    constructor
    · intro f hf
      obtain rfl := List.mem_singleton.1 hf
      exact Frame.coherent_of_empty rfl
    · exact .singleton _
  · next top rest hf =>
    have hguard := ht.guarded
    rw [hf] at hguard
    split at h
    · next child hchild =>
      cases h
      unfold Frame.child at hchild
      split at hchild
      · cases hchild
      · cases hchild
        constructor
        · intro f hmem
          rcases List.mem_cons.1 hmem with rfl | hmem
          · exact Frame.coherent_of_empty rfl
          · exact ht.coherent f hmem
        · rw [hf, List.isChain_cons_cons]
          exact ⟨fun hro => ⟨hro, rfl, rfl⟩, hguard⟩
    · cases h

theorem Sound.pop {t : Tower} (ht : t.Sound) : t.pop.Sound := by
  constructor
  · exact fun f hf => ht.coherent f (List.mem_of_mem_tail hf)
  · exact ht.guarded.tail

theorem Sound.freeze {t : Tower} (ht : t.Sound) : t.freeze.Sound := by
  unfold Tower.freeze
  split
  · exact ht
  · next top rest hf =>
    obtain ⟨htop, hrest⟩ := ht.of_cons hf
    have hguard := ht.guarded
    rw [hf] at hguard
    constructor
    · intro f hmem
      rcases List.mem_cons.1 hmem with rfl | hmem
      · exact { keyed := htop.keyed, swept := htop.swept }
      · exact hrest f hmem
    · exact isChain_replace hguard fun lower hg hro => ⟨rfl, (hg hro).2⟩

theorem Sound.write {t t' : Tower} {c : Change} (ht : t.Sound) (h : t.write c = .ok t') :
    t'.Sound := by
  unfold Tower.write at h
  split at h
  · cases h
    exact { coherent := ht.coherent, guarded := ht.guarded }
  · next top rest hf =>
    obtain ⟨htop, hrest⟩ := ht.of_cons hf
    have hguard := ht.guarded
    rw [hf] at hguard
    split at h
    · next top' hw =>
      cases h
      constructor
      · intro f hmem
        rcases List.mem_cons.1 hmem with rfl | hmem
        · exact htop.write hw
        · exact hrest f hmem
      · exact isChain_replace hguard fun lower hg => hg.writes (.single hw)
    · cases h

/-! ### What a sync does -/

theorem sync_single {t : Tower} {top : Frame} (h : t.frames = [top]) :
    t.sync = ({ t with ledger := (top.sync t.ledger).2.1, frames := [(top.sync t.ledger).1] },
      (top.sync t.ledger).2.2) := by
  simp only [sync, h]

theorem sync_cons {t : Tower} {top next : Frame} {rest : List Frame}
    (h : t.frames = top :: next :: rest) :
    t.sync = ({ t with frames := (top.sync next).1 :: (top.sync next).2.1 :: rest },
      (top.sync next).2.2) := by
  simp only [sync, h]

theorem Sound.sync {t t' : Tower} (ht : t.Sound) (h : t.sync = (t', .ok ())) : t'.Sound := by
  rcases hf : t.frames with _ | ⟨top, _ | ⟨next, rest⟩⟩
  · simp only [Tower.sync, hf] at h
    cases h
    exact ht
  · rw [sync_single hf] at h
    obtain ⟨rfl, hok⟩ := Prod.mk.inj h
    constructor
    · intro f hmem
      obtain rfl := List.mem_singleton.1 hmem
      rw [Frame.sync_fst_of_ok hok]
      exact Frame.coherent_of_empty rfl
    · exact .singleton _
  · rw [sync_cons hf] at h
    obtain ⟨rfl, hok⟩ := Prod.mk.inj h
    obtain ⟨htop, hrest⟩ := ht.of_cons hf
    have hguard := ht.guarded
    rw [hf, List.isChain_cons_cons] at hguard
    have hw : next.Writes (top.sync next).2.1 := Frame.sync_writes rfl
    constructor
    · intro f hmem
      rw [Frame.sync_fst_of_ok hok] at hmem
      rcases List.mem_cons.1 hmem with rfl | hmem
      · exact Frame.coherent_of_empty rfl
      · rcases List.mem_cons.1 hmem with rfl | hmem
        · exact hw.coherent (hrest next List.mem_cons_self)
        · exact hrest f (List.mem_cons_of_mem _ hmem)
    · rw [Frame.sync_fst_of_ok hok, List.isChain_cons_cons]
      refine ⟨fun hro => ?_, isChain_replace hguard.2 fun lower hg => hg.writes hw⟩
      exact ⟨(hguard.1 (hw.keeps.1 ▸ hro)).1, rfl, rfl⟩

theorem Reachable.sound {t : Tower} (ht : t.Reachable) : t.Sound := by
  induction ht with
  | ground ledger maxDepth => exact ⟨fun f hf => (List.not_mem_nil hf).elim, .nil⟩
  | push _ h ih => exact ih.push h
  | pop _ ih => exact ih.pop
  | freeze _ ih => exact ih.freeze
  | write _ h ih => exact ih.write h
  | sync _ h ih => exact ih.sync h

theorem Sound.view_sync {t t' : Tower} (ht : t.Sound) (h : t.sync = (t', .ok ())) :
    t'.pop.view = t.view ∧ t'.view = t.view := by
  rcases hf : t.frames with _ | ⟨top, _ | ⟨next, rest⟩⟩
  · simp only [Tower.sync, hf] at h
    cases h
    simp [Tower.pop, view, hf]
  · rw [sync_single hf] at h
    obtain ⟨rfl, hok⟩ := Prod.mk.inj h
    obtain ⟨l, hl, hview⟩ := (ht.of_cons hf).1.sync_ledger t.ledger
    simp only [Tower.pop, view, hf, Frame.sync_fst_of_ok hok, hl, List.tail_cons, List.foldr_cons,
      List.foldr_nil]
    exact ⟨hview, (Frame.view_of_empty rfl rfl _).trans hview⟩
  · rw [sync_cons hf] at h
    obtain ⟨rfl, hok⟩ := Prod.mk.inj h
    have hview := (ht.of_cons hf).1.view_sync (h := (top.sync next).2.1) (Prod.ext rfl hok)
      (rest.foldr Frame.view t.ledger.view)
    simp only [Tower.pop, view, hf, Frame.sync_fst_of_ok hok, List.tail_cons, List.foldr_cons]
    exact ⟨hview, (Frame.view_of_empty rfl rfl _).trans hview⟩

/-- Whether a frame holds an account update or a storage write for an address. -/
def Pending (f : Frame) (x : Address) : Prop :=
  (∃ a, f.accounts[x]? = some (some a)) ∨ ∃ key value : Word, (f.slots.getD x ∅)[key]? = some value

theorem exists_blocked_iff {top next : Frame} (htop : top.Coherent) :
    (∃ c, top.Holds c ∧ next.Blocks c) ↔ ∃ x, next.removed x = true ∧ Pending top x := by
  constructor
  · rintro ⟨c, hh, x, hw, hx⟩
    cases c with
    | put a =>
      cases hw
      exact ⟨a.address, hx, Or.inl ⟨a, hh⟩⟩
    | remove r => cases hw
    | store r key value =>
      cases hw
      exact ⟨x, hx, Or.inr ⟨key, value, hh⟩⟩
  · rintro ⟨x, hx, ⟨a, ha⟩ | ⟨key, value, hv⟩⟩
    · obtain rfl : a.address = x := htop.keyed ha
      exact ⟨.put a, ha, a.address, rfl, hx⟩
    · exact ⟨.store x key value, hv, x, rfl, hx⟩

/-- Handing down to a frame fails, and then as an illegal write, exactly if something is pending for an
address that the frame has removed. -/
theorem Guarded.sync_error_iff {top next : Frame} (hguard : Guarded top next)
    (htop : top.Coherent) (fault : Fault) :
    (top.sync next).2.2 = .error fault ↔
      fault = .illegalWrite ∧ ∃ x, next.removed x = true ∧ Pending top x := by
  rw [← exists_blocked_iff htop]
  cases hro : next.readOnly with
  | true =>
    -- nothing is pending over a read-only frame
    obtain ⟨-, ha, hs⟩ := hguard hro
    have hnone : top.changes = [] := Frame.changes_of_empty ha hs
    have hres : (top.sync next).2.2 = .ok () := by rw [Frame.sync_snd, hnone, applyAll]
    constructor
    · intro h
      rw [hres] at h
      cases h
    · rintro ⟨-, c, hc, -⟩
      have hmem := htop.mem_changes.2 hc
      rw [hnone] at hmem
      cases hmem
  | false =>
    rcases htop.sync_result hro with ⟨hblock, hres⟩ | ⟨hfree, hres⟩
    · rw [hres]
      constructor
      · intro h
        cases h
        exact ⟨rfl, hblock⟩
      · rintro ⟨rfl, -⟩
        rfl
    · rw [hres]
      constructor
      · intro h
        cases h
      · rintro ⟨-, c, hc, hb⟩
        exact absurd hb (hfree c hc)

theorem Sound.sync_error_iff {t : Tower} {top next : Frame} {rest : List Frame} (ht : t.Sound)
    (hf : t.frames = top :: next :: rest) (fault : Fault) :
    t.sync.2 = .error fault ↔
      fault = .illegalWrite ∧ ∃ x, next.removed x = true ∧ Pending top x := by
  have htop : top.Coherent := (ht.of_cons hf).1
  have hguard := ht.guarded
  rw [hf, List.isChain_cons_cons] at hguard
  rw [sync_cons hf]
  exact hguard.1.sync_error_iff htop fault

/-- A sync commits exactly the view of the top frame: where it succeeds, the level below reads as the
top did and so does the top itself. It always succeeds over the ledger; over another frame it fails,
as an illegal write, exactly if the top has something pending for an address that the frame below has
removed. -/
theorem sync_commits_view {t : Tower} (ht : t.Reachable) :
    (∀ t', t.sync = (t', .ok ()) → t'.pop.view = t.view ∧ t'.view = t.view) ∧
    (∀ top, t.frames = [top] → t.sync.2 = .ok ()) ∧
    (∀ top next rest, t.frames = top :: next :: rest → ∀ fault,
      (t.sync.2 = .error fault ↔
        fault = .illegalWrite ∧ ∃ x, next.removed x = true ∧ Pending top x)) := by
  have hs : t.Sound := ht.sound
  refine ⟨fun t' h => hs.view_sync h, fun top hf => ?_, fun top next rest hf fault => ?_⟩
  · obtain ⟨l, hl, -⟩ := (hs.of_cons hf).1.sync_ledger t.ledger
    rw [sync_single hf, hl]
  · exact hs.sync_error_iff hf fault

/-- Over a frame that removed account 1, a frame that opened it again cannot be synced, while one that
wrote to account 2 can be, and then the lower frame reads as the upper did. -/
theorem sync_refuses_revival :
    (∃ t : Tower, t.Reachable ∧ t.view.account 1 = .ok (some { address := 1 }) ∧
      t.sync.2 = .error .illegalWrite) ∧
    (∃ t t' : Tower, t.Reachable ∧ t.sync = (t', .ok ()) ∧ t.view.slot 2 7 = .ok 9 ∧
      t'.pop.view = t.view) := by
  have lower : Reachable _ := .write (c := .remove 1) (.push (.ground {} 0) rfl) rfl
  have revived : Reachable _ := .write (c := .put { address := 1 }) (.push lower rfl) rfl
  have stored : Reachable _ := .write (c := .store 2 7 9) (.push lower rfl) rfl
  refine ⟨⟨_, revived, rfl, ?_⟩, ⟨_, _, stored, rfl, rfl, ?_⟩⟩
  · refine ((sync_commits_view revived).2.2 _ _ _ rfl _).2 ⟨rfl, 1, rfl, Or.inl ⟨_, rfl⟩⟩
  · exact ((sync_commits_view stored).1 _ rfl).1

end Tower

end ContractVm
