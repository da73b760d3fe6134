import Mathlib
import ContractVm.Proofs.Identity
import ContractVm.Proofs.TowerSync

/-! # Refused syncs

A sync that is refused is not taken back. The frame below keeps what it was given before the refused
change, and the top has dropped its accounts, or its slots too if it had come to them. What the
frame below had removed stays removed, and nothing further down is touched. -/

namespace ContractVm

theorem applyAll_refused {σ α : Type} {f : σ → α → Except Fault σ} {effects : List α} {s t : σ}
    {fault : Fault} (h : applyAll f effects s = (t, .error fault)) :
    ∃ given refused left, effects = given ++ refused :: left ∧ applyAll f given s = (t, .ok ()) ∧
      f t refused = .error fault := by
  induction effects generalizing s with
  | nil => cases h
  | cons a rest ih =>
    simp only [applyAll] at h
    cases ha : f s a with
    | error reason =>
      simp only [ha] at h
      cases h
      exact ⟨[], a, rest, rfl, rfl, ha⟩
    | ok s' =>
      simp only [ha] at h
      obtain ⟨given, refused, left, hsplit, hgiven, hrefused⟩ := ih h
      have hcons : applyAll f (a :: given) s = (t, .ok ()) := by
        simp only [applyAll, ha]
        exact hgiven
      exact ⟨a :: given, refused, left, by rw [hsplit, List.cons_append], hcons, hrefused⟩

def Change.isStore : Change → Bool
  | .store _ _ _ => true
  | .put _ | .remove _ => false

namespace Frame

theorem sync_fst {σ : Type} [Writable σ] (f : Frame) (below : σ) :
    ∃ slots, (f.sync below).1 = { f with accounts := ∅, slots } ∧
      (slots = ∅ ∨ slots = f.slots) := by
  unfold sync
  cases applyAll Writable.write f.accountChanges below with
  | mk below' result =>
    cases result with
    | error fault => exact ⟨f.slots, rfl, Or.inr rfl⟩
    | ok u => exact ⟨∅, rfl, Or.inl rfl⟩

theorem Coherent.sync_refused {f g g' : Frame} {fault : Fault} (hf : f.Coherent)
    (h : (f.sync g).2 = (g', .error fault)) :
    ∃ given refused left, f.changes = given ++ refused :: left ∧
      applyAll Writable.write given g = (g', .ok ()) ∧ g'.write refused = .error fault ∧
      (f.sync g).1 =
        { f with accounts := ∅, slots := if refused.isStore then ∅ else f.slots } := by
  unfold sync at h ⊢
  cases haccounts : applyAll Writable.write f.accountChanges g with
  | mk g₁ result =>
    rw [haccounts] at h
    cases result with
    | error reason =>
      cases h
      obtain ⟨given, refused, left, hsplit, hgiven, hrefused⟩ := applyAll_refused haccounts
      have hmem : refused ∈ f.accountChanges := by simp [hsplit]
      have haccount : refused.isStore = false := by
        have hno := (hf.mem_accountChanges.1 hmem).1
        cases refused with
        | put a => rfl
        | remove r => rfl
        | store r key value => exact absurd rfl (hno r key value)
      have hchanges : f.changes = given ++ refused :: (left ++ f.slotChanges) := by
        simp [changes, hsplit]
      exact ⟨given, refused, _, hchanges, hgiven, hrefused, by rw [haccount]; rfl⟩
    | ok u =>
      have hslots : applyAll Writable.write f.slotChanges g₁ = (g', .error fault) := h
      obtain ⟨given, refused, left, hsplit, hgiven, hrefused⟩ := applyAll_refused hslots
      have hmem : refused ∈ f.slotChanges := by simp [hsplit]
      obtain ⟨r, key, value, rfl, -⟩ := mem_slotChanges.1 hmem
      have hchanges : f.changes = (f.accountChanges ++ given) ++ .store r key value :: left := by
        simp [changes, hsplit]
      have hall : applyAll Writable.write (f.accountChanges ++ given) g = (g', .ok ()) := by
        rw [applyAll_append, haccounts]
        exact hgiven
      exact ⟨_, _, left, hchanges, hall, hrefused, rfl⟩

/-- What was refused is a change to an address that the frame below had removed from the start. -/
theorem Coherent.refused_blocks {f g g' : Frame} {fault : Fault} {given left : List Change}
    {refused : Change} (hf : f.Coherent) (hro : g.readOnly = false)
    (hchanges : f.changes = given ++ refused :: left)
    (hgiven : applyAll Writable.write given g = (g', .ok ()))
    (hrefused : g'.write refused = .error fault) : fault = .illegalWrite ∧ g.Blocks refused := by
  have hwrites : g.Writes g' := by
    have hw := applyAll_writes given g
    rw [hgiven] at hw
    exact hw
  have hblocks : g'.Blocks refused := by
    by_contra hfree
    obtain ⟨g₂, hg₂⟩ := write_of_not_blocks (hwrites.keeps.1.trans hro) hfree
    rw [hrefused] at hg₂
    cases hg₂
  have hfault : fault = .illegalWrite := by
    rw [write_of_blocks hblocks] at hrefused
    exact (Except.error.inj hrefused).symm
  obtain ⟨x, hx, hremoved⟩ := hblocks
  have hmem : refused ∈ f.changes := by simp [hchanges]
  have hbefore : g.removed x = true := by
    rcases (applyAll_removed hgiven).1 hremoved with hremoved | hgone
    · exact hremoved
    · have hremove : .remove x ∈ f.changes := by simp [hchanges, hgone]
      exact absurd hx (hf.apart x hremove refused hmem)
  exact ⟨hfault, x, hx, hbefore⟩

theorem Holds.apply_view {f : Frame} {c : Change} (h : f.Holds c) (hf : f.Coherent) (below : View) :
    (f.view below).apply c = f.view below := by
  cases c with
  | put a =>
    have ha : f.accounts[a.address]? = some (some a) := h
    ext x
    · by_cases hx : a.address = x
      · subst hx
        simp [View.apply, view, account, ha]
      · simp [View.apply, hx]
    · rfl
  | remove r =>
    have hr : f.accounts[r]? = some none := h
    have hremoved : f.removed r = true := removed_iff.2 hr
    ext x
    · by_cases hx : r = x
      · subst hx
        simp [View.apply, view, account, hr]
      · simp [View.apply, hx]
    · next k =>
      by_cases hx : r = x
      · subst hx
        simp [View.apply, view, slot, hf.swept hr k, hremoved]
      · simp [View.apply, hx]
  | store r key value =>
    have hv : (f.slots.getD r ∅)[key]? = some value := h
    ext x
    · rfl
    · next k =>
      by_cases hx : r = x ∧ key = k
      · obtain ⟨rfl, rfl⟩ := hx
        simp [View.apply, view, slot, hv]
      · simp [View.apply, hx]

theorem Coherent.slot_of_removed {f : Frame} {x : Address} (hf : f.Coherent)
    (h : f.removed x = true) (below : View) (key : Word) : (f.view below).slot x key = .ok 0 := by
  simp [view, slot, hf.swept (removed_iff.1 h) key, h]

end Frame

namespace Tower

/-- The towers over a ledger that any operations on the top lead to, refused syncs among them. -/
inductive Attained : Tower → Prop where
  | ground (ledger : Ledger) (maxDepth : Nat) : Attained { ledger, maxDepth }
  | push {t t' : Tower} (ht : Attained t) (h : t.push = .ok t') : Attained t'
  | pop {t : Tower} (ht : Attained t) : Attained t.pop
  | freeze {t : Tower} (ht : Attained t) : Attained t.freeze
  | write {t t' : Tower} {c : Change} (ht : Attained t) (h : t.write c = .ok t') : Attained t'
  | sync {t : Tower} (ht : Attained t) : Attained t.sync.1

theorem Guarded.sync {top next : Frame} (h : Guarded top next) :
    Guarded (top.sync next).1 (top.sync next).2.1 := by
  have hwrites : next.Writes (top.sync next).2.1 := Frame.sync_writes rfl
  obtain ⟨slots, hfst, hslots⟩ := top.sync_fst next
  intro hro
  rw [hwrites.keeps.1] at hro
  obtain ⟨htop, -, hnone⟩ := h hro
  rw [hfst]
  refine ⟨htop, rfl, ?_⟩
  rcases hslots with hslots | hslots
  · exact hslots
  · exact hslots.trans hnone

/-- A sync fails only between two frames, and the frame below can be written to. -/
theorem Sound.frames_of_refused {t t' : Tower} {fault : Fault} (ht : t.Sound)
    (h : t.sync = (t', .error fault)) :
    ∃ top next rest, t.frames = top :: next :: rest ∧ next.readOnly = false := by
  have hresult : t.sync.2 = .error fault := by rw [h]
  rcases hf : t.frames with _ | ⟨top, _ | ⟨next, rest⟩⟩
  · simp [Tower.sync, hf] at hresult
  · obtain ⟨l, hl, -⟩ := (ht.of_cons hf).1.sync_ledger t.ledger
    rw [sync_single hf, hl] at hresult
    cases hresult
  · refine ⟨top, next, rest, rfl, ?_⟩
    have hguard := ht.guarded
    rw [hf, List.isChain_cons_cons] at hguard
    by_contra hro
    obtain ⟨-, ha, hs⟩ := hguard.1 (by simpa using hro)
    rw [sync_cons hf, Frame.sync_snd, Frame.changes_of_empty ha hs] at hresult
    cases hresult

theorem Sound.sync_fst {t : Tower} (ht : t.Sound) : t.sync.1.Sound := by
  cases hresult : t.sync.2 with
  | ok u => exact ht.sync (Prod.ext rfl hresult)
  | error fault =>
    obtain ⟨top, next, rest, hf, -⟩ := ht.frames_of_refused (Prod.ext rfl hresult)
    obtain ⟨-, hrest⟩ := ht.of_cons hf
    have hguard := ht.guarded
    rw [hf, List.isChain_cons_cons] at hguard
    have hwrites : next.Writes (top.sync next).2.1 := Frame.sync_writes rfl
    obtain ⟨slots, hfst, -⟩ := top.sync_fst next
    have htop : (top.sync next).1.Coherent := by
      rw [hfst]
      exact Frame.coherent_of_empty rfl
    rw [sync_cons hf]
    constructor
    · intro f hmem
      rcases List.mem_cons.1 hmem with rfl | hmem
      · exact htop
      · rcases List.mem_cons.1 hmem with rfl | hmem
        · exact hwrites.coherent (hrest next List.mem_cons_self)
        · exact hrest f (List.mem_cons_of_mem _ hmem)
    · rw [List.isChain_cons_cons]
      exact ⟨hguard.1.sync, isChain_replace hguard.2 fun lower hg => hg.writes hwrites⟩

theorem Attained.sound {t : Tower} (ht : t.Attained) : t.Sound := by
  induction ht with
  | ground ledger maxDepth => exact ⟨fun f hf => (List.not_mem_nil hf).elim, .nil⟩
  | push _ h ih => exact ih.push h
  | pop _ ih => exact ih.pop
  | freeze _ ih => exact ih.freeze
  | write _ h ih => exact ih.write h
  | sync _ ih => exact ih.sync_fst

/-- The slots that a frame still holds after a refusal. -/
def leftSlots (top : Frame) (refused : Change) : List Change :=
  if refused.isStore then [] else top.slotChanges

theorem view_leftSlots (top : Frame) (refused : Change) (below : View) :
    Frame.view { top with accounts := ∅, slots := if refused.isStore then ∅ else top.slots } below =
      (leftSlots top refused).foldl View.apply below := by
  unfold leftSlots
  cases refused.isStore with
  | true => exact Frame.view_of_empty rfl rfl below
  | false =>
    have hf : Frame.Coherent { top with accounts := ∅ } := Frame.coherent_of_empty rfl
    have hchanges : Frame.changes { top with accounts := ∅ } = top.slotChanges := rfl
    have hview := hf.foldl_changes below
    rw [hchanges] at hview
    exact hview.symm

/-- A sync is refused at a change to an address that the frame below has removed. That frame then
has the changes before this one, and keeps what it removed; the frames and the ledger under it are
as they were. The top, which read as the refused change says, has none of its accounts any more, and
its slots only if it was an account that was refused. -/
theorem refused_sync_leaves_a_beginning {t t' : Tower} {fault : Fault} (ht : t.Attained)
    (h : t.sync = (t', .error fault)) :
    fault = .illegalWrite ∧ t'.pop.pop = t.pop.pop ∧
      ∃ top next rest given refused left, t.frames = top :: next :: rest ∧
        top.changes = given ++ refused :: left ∧
        (∀ c ∈ given, ¬next.Blocks c) ∧ next.Blocks refused ∧
        t'.pop.view = given.foldl View.apply t.pop.view ∧
        (∀ x, next.removed x = true →
          t'.pop.view.account x = .ok none ∧ ∀ key, t'.pop.view.slot x key = .ok 0) ∧
        t.view.apply refused = t.view ∧
        t'.view = (leftSlots top refused).foldl View.apply t'.pop.view := by
  have hs : t.Sound := ht.sound
  obtain ⟨top, next, rest, hf, hro⟩ := hs.frames_of_refused h
  obtain ⟨htop, hrest⟩ := hs.of_cons hf
  rw [sync_cons hf] at h
  obtain ⟨rfl, hresult⟩ := Prod.mk.inj h
  have hsync : (top.sync next).2 = ((top.sync next).2.1, .error fault) := Prod.ext rfl hresult
  obtain ⟨given, refused, left, hchanges, hgiven, hrefused, hfst⟩ := htop.sync_refused hsync
  obtain ⟨hfault, hblocks⟩ := htop.refused_blocks hro hchanges hgiven hrefused
  have hwrites : next.Writes (top.sync next).2.1 := Frame.sync_writes rfl
  have hnext : (top.sync next).2.1.Coherent := hwrites.coherent (hrest next List.mem_cons_self)
  have hholds : top.Holds refused := htop.mem_changes.1 (by simp [hchanges])
  refine ⟨hfault, by simp [Tower.pop, hf], top, next, rest, given, refused, left, hf, hchanges,
    Frame.applyAll_not_blocks hgiven, hblocks, ?_, ?_, ?_, ?_⟩
  · simp only [Tower.pop, view, hf, List.tail_cons, List.foldr_cons]
    exact applyAll_view (fun g => g.view (rest.foldr Frame.view t.ledger.view))
      (fun hw => Frame.view_write hw _) hgiven
  · intro x hx
    have hremoved := hwrites.removed hx
    exact ⟨Frame.account_of_removed hremoved _, hnext.slot_of_removed hremoved _⟩
  · rw [view, hf]
    exact hholds.apply_view htop _
  · simp only [Tower.pop, view, List.tail_cons, List.foldr_cons, hfst]
    exact view_leftSlots top refused _

/-! ### A frame that opens a removed account -/

/-- Over a frame that removed account 2, a frame that opened the accounts 1 and 2. -/
def bothOpened : Tower :=
  { frames :=
      [{ accounts := (Std.TreeMap.empty.insert 1 (some { address := 1 })).insert 2
          (some { address := 2 })
         depth := 1 },
        { accounts := Std.TreeMap.empty.insert 2 none }] }

theorem bothOpened_attained : bothOpened.Attained := by
  have lower : Attained _ := .write (c := .remove 2) (.push (.ground {} 0) rfl) rfl
  have first : Attained _ := .write (c := .put { address := 1 }) (.push lower rfl) rfl
  exact .write (c := .put { address := 2 }) first rfl

theorem bothOpened_refused :
    bothOpened.sync = (bothOpened.sync.1, .error .illegalWrite) := rfl

theorem first_account_is_handed_down :
    bothOpened.Attained ∧ bothOpened.sync = (bothOpened.sync.1, .error .illegalWrite) ∧
      bothOpened.sync.1.pop.view = bothOpened.pop.view.apply (.put { address := 1 }) ∧
      bothOpened.sync.1.view = bothOpened.sync.1.pop.view := by
  obtain ⟨-, -, top, next, rest, given, refused, left, hf, hchanges, -, hblocks, hbelow, -, -,
      hview⟩ :=
    refused_sync_leaves_a_beginning bothOpened_attained bothOpened_refused
  cases hf
  have hsplit : [.put { address := 1 }, .put { address := 2 }] = given ++ refused :: left :=
    hchanges
  cases given with
  | nil =>
    cases hsplit
    obtain ⟨x, hx, hremoved⟩ := hblocks
    cases hx
    cases hremoved
  | cons c given =>
    cases given with
    | nil =>
      cases hsplit
      exact ⟨bothOpened_attained, bothOpened_refused, hbelow, hview⟩
    | cons d given => simp at hsplit

theorem refused_sync_changes_both_views :
    bothOpened.Attained ∧ bothOpened.sync.2 = .error .illegalWrite ∧
      bothOpened.sync.1.pop.view ≠ bothOpened.pop.view ∧
      bothOpened.sync.1.view ≠ bothOpened.view := by
  refine ⟨bothOpened_attained, rfl, fun hbelow => ?_, fun hown => ?_⟩
  · have hopened : bothOpened.sync.1.pop.view.account 1 = .ok (some { address := 1 }) := rfl
    have hmissing : bothOpened.pop.view.account 1 = .ok none := rfl
    rw [hbelow, hmissing] at hopened
    cases hopened
  · have hlost : bothOpened.sync.1.view.account 2 = .ok none := rfl
    have hopened : bothOpened.view.account 2 = .ok (some { address := 2 }) := rfl
    rw [hown, hopened] at hlost
    cases hlost

end Tower

end ContractVm
