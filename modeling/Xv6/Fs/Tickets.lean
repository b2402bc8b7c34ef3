import Xv6.Fs.Itable

/-!
# What a step of the inode table leaves alone

A step changes one ticket, `a.ticket`, and at most one inode: one that ticket has
locked or is freeing, or a free one that it claims.  So an inode stays as it is
while another ticket has it locked (`locked_step`).  A ticket that was locked
once is `Firm`: its inode stays allocated, with its type, for as long as the
ticket is not given up (`firm_step`, `firm_type`).
-/

namespace Xv6.Fs.Itable

open Function (update_self update_of_ne)

def Act.ticket {δ : Type} : Act δ → Nat
  | .iget k _ | .claim k _ _ | .ialloced k | .idup _ k | .ilock k | .store k _ _ | .grow k _ | .itrunc k
  | .iunlock k | .iput k | .iputFree k | .iputLast k => k

def Act.opens {δ : Type} : Act δ → Option Nat
  | .iget k _ | .claim k _ _ | .idup _ k => some k
  | _ => none

/-- The inode that the ticket of a step refers to afterwards. -/
def Act.target {δ : Type} (s : St δ) : Act δ → Nat
  | .iget _ i | .claim _ i _ => i
  | .idup k _ => (s.tk k).inum
  | a => (s.tk a.ticket).inum

/-- The step is on an inode that its ticket has locked. -/
def Act.usesLock {δ : Type} : Act δ → Bool
  | .store _ _ _ | .grow _ _ | .itrunc _ | .iunlock _ => true
  | _ => false

def Act.writes {δ : Type} : Act δ → Bool
  | .store _ _ _ | .grow _ _ | .itrunc _ | .claim _ _ _ | .iputFree _ => true
  | _ => false

section
variable {δ : Type} [Content δ] {s s' : St δ} {a : Act δ} {k : Nat}

/-! ## Other tickets -/

section
variable (e : Effect s a s')
include e

theorem Effect.tk (hk : k ≠ a.ticket) : s'.tk k = s.tk k := by
  cases e <;> first
    | exact update_of_ne hk _ _
    | rfl

theorem Effect.live (hk : k ≠ a.ticket) : k ∈ s'.live ↔ k ∈ s.live := by
  cases e <;> first
    | rfl
    | exact Finset.mem_insert.trans (or_iff_right hk)
    | exact Finset.mem_erase.trans (and_iff_right hk)

theorem Effect.inum : (s'.tk a.ticket).inum = a.target s := by
  cases e with
  | hold | claim | idup | ilock | iunlock | iputDecide | iputFree =>
    simp [openTk, setStage, setEnt, setDino, Act.ticket, Act.target]
  | ialloced k i v n hk hst => simp [openTk, Act.ticket, Act.target, hst]
  | store | grow | itrunc | iputDrop | iputLast => rfl

theorem Effect.live_or (hk : k ∈ s'.live) : k ∈ s.live ∨ a.opens = some k := by
  by_cases hne : k = a.ticket
  · subst hne
    cases e with
    | hold | claim | idup => exact Or.inr rfl
    | ialloced k i v n hk0 | ilock k hk0 | store k n d hk0 | grow k b hk0 | itrunc k hk0 | iunlock k hk0
    | iputDrop k hk0 | iputDecide k hk0 | iputFree k hk0 | iputLast k hk0 => exact Or.inl hk0
  · exact Or.inl ((e.live hne).mp hk)

theorem Effect.ne_ticket (ha : a.usesLock = false) (hk : k ∈ s.live)
    (hl : (s.tk k).stage = .locked) : k ≠ a.ticket := by
  rintro rfl
  have hno : ∀ {st : Stage}, (s.tk a.ticket).stage = st → st = .locked := fun h => h.symm.trans hl
  cases e with
  | hold k i v n hn | claim k i ty hn | idup k0 k hk0 hn => exact hn hk
  | store | grow | itrunc | iunlock => cases ha
  | ialloced k i v n hk0 hst => cases hno (show (s.tk k).stage = .claimed by rw [hst])
  | ilock k hk0 hst | iputDrop k hk0 hst | iputDecide k hk0 hst => rcases hst with hst | hst <;> cases hno hst
  | iputFree k hk0 hst | iputLast k hk0 hst => cases hno hst

theorem Effect.frame (ha : a.writes = false) : s'.dino = s.dino ∧ s'.used = s.used ∧ s'.panic = s.panic := by
  cases e with
  | store | grow | itrunc | claim | iputFree => cases ha
  | hold | ialloced | idup | ilock | iunlock | iputDrop | iputDecide | iputLast => exact ⟨rfl, rfl, rfl⟩

/-- The inode that a step changes is locked or being freed by its ticket, or claimed. -/
theorem Effect.dino (j : Nat) : s'.dino j = s.dino j ∨ (s.dino j).type = 0 ∨
    (a.ticket ∈ s.live ∧ (s.tk a.ticket).inum = j ∧
      ((s.tk a.ticket).stage = .locked ∨ (s.tk a.ticket).stage = .freeing)) := by
  cases e with
  | claim k i ty hk hty hfree =>
    by_cases hj : j = i
    · exact Or.inr (Or.inl (hj ▸ hfree))
    · exact Or.inl (update_of_ne hj _ _)
  | store k n d hk hl | grow k b hk hl | itrunc k hk hl =>
    by_cases hj : j = (s.tk k).inum
    · exact Or.inr (Or.inr ⟨hk, hj.symm, Or.inl hl⟩)
    · exact Or.inl (update_of_ne hj _ _)
  | iputFree k hk hst =>
    by_cases hj : j = (s.tk k).inum
    · exact Or.inr (Or.inr ⟨hk, hj.symm, Or.inr hst⟩)
    · exact Or.inl (update_of_ne hj _ _)
  | hold | ialloced | idup | ilock | iunlock | iputDrop | iputDecide | iputLast => exact Or.inl rfl

end

/-- While a ticket has an inode locked, no other ticket changes the inode. -/
theorem locked_step (h : Base s) (e : Effect s a s') (hk : k ∈ s.live) (hl : (s.tk k).stage = .locked)
    (hne : k ≠ a.ticket) : k ∈ s'.live ∧ s'.tk k = s.tk k ∧ s'.dino (s.tk k).inum = s.dino (s.tk k).inum := by
  refine ⟨(e.live hne).mpr hk, e.tk hne, ?_⟩
  rcases e.dino (s.tk k).inum with hd | h0 | ⟨hlive, hi, hst⟩
  · exact hd
  · exact absurd h0 (h.owned hk (Or.inl hl)).2.2
  · exact absurd (h.only_lock hlive hi hst hk rfl (Or.inl hl)) hne

/-! ## Firm tickets -/

theorem Effect.valid (e : Effect s a s') {j : Nat} (hne : (refs s j).Nonempty) (hv : (s.ent j).valid = true) :
    (s'.ent j).valid = true ∨
      (a.ticket ∈ s.live ∧ (s.tk a.ticket).inum = j ∧ (s.tk a.ticket).stage = .freeing) := by
  have hset : ∀ {t : St δ} {i : Nat} {E : Entry δ}, t.ent = Function.update s.ent i E →
      (j = i → E.valid = true) → (t.ent j).valid = true := by
    intro t i E ht hE
    rw [ht]
    by_cases hj : j = i
    · rw [hj, update_self]
      exact hE hj
    · rw [update_of_ne hj]
      exact hv
  have hkeep : ∀ {i : Nat} {v : Bool},
      (v = (s.ent i).valid ∧ (refs s i).Nonempty) ∨ (v = false ∧ refs s i = ∅) → j = i → v = true := by
    rintro i v (⟨rfl, _⟩ | ⟨_, he⟩) rfl
    · exact hv
    · rw [he] at hne
      exact absurd hne Finset.not_nonempty_empty
  cases e with
  | hold k i v n hk hw => exact Or.inl (hset rfl (hkeep hw))
  | claim => exact Or.inl hv
  | ialloced k i v n hk hst hw => exact Or.inl (hset rfl (hkeep hw))
  | idup k k' => exact Or.inl (hset rfl fun hj => by rw [hj] at hv; exact hv)
  | ilock k => exact Or.inl (hset rfl fun _ => rfl)
  | store k | grow k | itrunc k | iunlock k | iputDrop k | iputDecide k | iputLast k =>
    exact Or.inl (hset rfl fun hj => by rw [hj] at hv; exact hv)
  | iputFree k hk hst =>
    by_cases hj : j = (s.tk k).inum
    · exact Or.inr ⟨hk, hj.symm, hst⟩
    · left
      show (Function.update s.ent (s.tk k).inum _ j).valid = true
      rw [update_of_ne hj]
      exact hv

/-- A ticket that has been locked: until it is given up, its entry is valid and no
other ticket frees the inode. -/
def Firm (s : St δ) (k : Nat) : Prop :=
  k ∈ s.live → (s.tk k).stage ≠ .claimed ∧ (s.tk k).stage ≠ .fresh ∧
    ((s.tk k).stage = .idle ∨ (s.tk k).stage = .locked → (entOf s k).valid = true ∧
      ∀ k' ∈ s.live, k' ≠ k → (s.tk k').inum = (s.tk k).inum → (s.tk k').stage ≠ .freeing)

omit [Content δ] in
theorem firm_of_locked (h : Base s) (hl : k ∈ s.live → (s.tk k).stage = .locked) : Firm s k := by
  intro hk
  rw [hl hk]
  refine ⟨nofun, nofun, fun _ => ⟨h.lockedValid k hk (Or.inl (hl hk)), ?_⟩⟩
  intro k' hk' hne hi hst
  exact hne (h.only_lock hk rfl (Or.inl (hl hk)) hk' hi (Or.inr hst))

theorem Effect.freeing (h : Base s) (e : Effect s a s') {k' : Nat} (hk' : k' ∈ s'.live)
    (hst : (s'.tk k').stage = .freeing) : (k' ∈ s.live ∧ s'.tk k' = s.tk k' ∧ (s.tk k').stage = .freeing) ∨
      (k' = a.ticket ∧ (s'.tk k').inum = (s.tk k').inum ∧ refs s (s.tk k').inum = {k'}) := by
  by_cases hne : k' = a.ticket
  · right
    subst hne
    cases e with
    | iputDecide k hk hs0 href hv hn hl =>
      have hi : ((setStage (setEnt s (s.tk k).inum { entOf s k with lock := some k }) k .freeing).tk k).inum =
          (s.tk k).inum := by
        rw [setStage_tk_self]
        rfl
      refine ⟨rfl, hi, ?_⟩
      have hmem : k ∈ refs s (s.tk k).inum := by
        refine mem_refs.mpr ⟨hk, rfl, ?_⟩
        rcases hs0 with hs0 | hs0 <;> rw [hs0] <;> decide
      have hcard : (refs s (s.tk k).inum).card = 1 := by
        have hc := h.count (s.tk k).inum
        rw [entOf] at href
        omega
      obtain ⟨x, hx⟩ := Finset.card_eq_one.mp hcard
      rw [hx] at hmem
      exact hx.trans (by rw [Finset.mem_singleton.mp hmem]; rfl)
    | hold | claim | ialloced | idup =>
      exfalso
      simp [openTk, Act.ticket] at hst
    | ilock | iunlock | iputFree =>
      exfalso
      simp [setStage, Act.ticket] at hst
    | store k n d hk hl | grow k b hk hl | itrunc k hk hl =>
      exfalso
      have hst' : (s.tk k).stage = .freeing := hst
      rw [hl] at hst'
      cases hst'
    | iputDrop k | iputLast k => exact absurd hk' (Finset.notMem_erase k s.live)
  · left
    rw [e.tk hne] at hst
    exact ⟨(e.live hne).mp hk', e.tk hne, hst⟩

theorem Effect.usable (e : Effect s a s') (hopen : a.opens ≠ some k) (hk : k ∈ s'.live)
    (hst : (s'.tk k).stage = .idle ∨ (s'.tk k).stage = .locked) : k ∈ s.live ∧ (s'.tk k).inum = (s.tk k).inum ∧
      ((s.tk k).stage = .idle ∨ (s.tk k).stage = .locked ∨ (s.tk k).stage = .fresh) := by
  by_cases hne : k = a.ticket
  · subst hne
    cases e with
    | hold | claim | idup => exact absurd rfl hopen
    | ialloced k i v n hk0 hst0 =>
      exfalso
      simp [openTk, Act.ticket] at hst
    | ilock k hk0 hst0 =>
      refine ⟨hk0, ?_, ?_⟩
      · show ((setStage _ k .locked).tk k).inum = _
        rw [setStage_tk_self]
        rfl
      · exact hst0.imp_right Or.inr
    | iunlock k hk0 hl =>
      refine ⟨hk0, ?_, Or.inr (Or.inl hl)⟩
      show ((setStage _ k .idle).tk k).inum = _
      rw [setStage_tk_self]
      rfl
    | store k n d hk0 hl | grow k b hk0 hl | itrunc k hk0 hl => exact ⟨hk0, rfl, Or.inr (Or.inl hl)⟩
    | iputDrop k | iputLast k => exact absurd hk (Finset.notMem_erase k s.live)
    | iputDecide k | iputFree k =>
      exfalso
      simp [setStage, Act.ticket] at hst
  · rw [e.tk hne] at hst ⊢
    exact ⟨(e.live hne).mp hk, rfl, hst.imp_right Or.inl⟩

omit [Content δ] in
theorem Firm.not_new (hf : Firm s k) (hk : k ∈ s.live)
    (hst : (s.tk k).stage = .idle ∨ (s.tk k).stage = .locked ∨ (s.tk k).stage = .fresh) :
    (s.tk k).stage = .idle ∨ (s.tk k).stage = .locked := by
  rcases hst with hst | hst | hst
  · exact Or.inl hst
  · exact Or.inr hst
  · exact absurd hst (hf hk).2.1

/-- A firm ticket stays firm. -/
theorem firm_step (h : Base s) (e : Effect s a s') (hopen : a.opens ≠ some k) (hf : Firm s k) : Firm s' k := by
  intro hk'
  refine ⟨?_, ?_, fun hst' => ?_⟩
  · intro hst
    by_cases hne : k = a.ticket
    · subst hne
      cases e with
      | hold | claim | idup => exact hopen rfl
      | ialloced => simp [openTk, Act.ticket] at hst
      | ilock | iunlock | iputDecide | iputFree => simp [setStage, Act.ticket] at hst
      | store k n d hk0 | grow k b hk0 | itrunc k hk0 => exact (hf hk0).1 hst
      | iputDrop k | iputLast k => exact Finset.notMem_erase k s.live hk'
    · rw [e.tk hne] at hst
      exact (hf ((e.live hne).mp hk')).1 hst
  · intro hst
    by_cases hne : k = a.ticket
    · subst hne
      cases e with
      | hold | claim | idup => exact hopen rfl
      | ialloced k i v n hk0 hst0 => exact (hf hk0).1 (by simp [Act.ticket, hst0])
      | ilock | iunlock | iputDecide | iputFree => simp [setStage, Act.ticket] at hst
      | store k n d hk0 | grow k b hk0 | itrunc k hk0 => exact (hf hk0).2.1 hst
      | iputDrop k | iputLast k => exact Finset.notMem_erase k s.live hk'
    · rw [e.tk hne] at hst
      exact (hf ((e.live hne).mp hk')).2.1 hst
  · obtain ⟨hk, hi, hst⟩ := e.usable hopen hk' hst'
    have hst := hf.not_new hk hst
    obtain ⟨hv, hno⟩ := (hf hk).2.2 hst
    have hmem : k ∈ refs s (s.tk k).inum := by
      refine mem_refs.mpr ⟨hk, rfl, ?_⟩
      rcases hst with hst | hst <;> rw [hst] <;> decide
    have hnf : (s.tk k).stage ≠ .freeing := by
      rcases hst with hst | hst <;> rw [hst] <;> decide
    rw [entOf, hi]
    constructor
    · rcases e.valid ⟨k, hmem⟩ hv with hv' | ⟨hlive, hi', hfr⟩
      · exact hv'
      · by_cases hne : a.ticket = k
        · rw [hne] at hfr
          exact absurd hfr hnf
        · exact absurd hfr (hno _ hlive hne hi')
    · intro k' hk1 hne hi1 hfr
      rcases e.freeing h hk1 hfr with ⟨h1, h2, h3⟩ | ⟨_, h2, h3⟩
      · rw [h2] at hi1
        exact hno k' h1 hne hi1 h3
      · rw [← h2, hi1] at h3
        rw [h3] at hmem
        exact hne (Finset.mem_singleton.mp hmem).symm

/-- While a firm ticket is idle or locked, its inode keeps its type. -/
theorem firm_type (h : Base s) (e : Effect s a s') (hopen : a.opens ≠ some k) (hf : Firm s k) (hk' : k ∈ s'.live)
    (hst' : (s'.tk k).stage = .idle ∨ (s'.tk k).stage = .locked) :
    k ∈ s.live ∧ ((s.tk k).stage = .idle ∨ (s.tk k).stage = .locked) ∧
      (s'.tk k).inum = (s.tk k).inum ∧ (s'.dino (s'.tk k).inum).type = (s.dino (s.tk k).inum).type := by
  obtain ⟨hk, hi, hst⟩ := e.usable hopen hk' hst'
  have hst := hf.not_new hk hst
  obtain ⟨hv, hno⟩ := (hf hk).2.2 hst
  have hmem : k ∈ refs s (s.tk k).inum := by
    refine mem_refs.mpr ⟨hk, rfl, ?_⟩
    rcases hst with hst | hst <;> rw [hst] <;> decide
  refine ⟨hk, hst, hi, ?_⟩
  rw [hi]
  cases e with
  | hold | ialloced | idup | ilock | iunlock | iputDrop | iputDecide | iputLast => rfl
  | claim k0 i ty hk0 hty hfree =>
    have hne : (s.tk k).inum ≠ i := by
      rintro rfl
      exact (h.valid _ ⟨k, hmem⟩ hv).2 hfree
    exact congrArg Dinode.type (update_of_ne hne _ _)
  | store k0 n d hk0 hl | grow k0 b hk0 hl | itrunc k0 hk0 hl =>
    show (Function.update s.dino (s.tk k0).inum _ (s.tk k).inum).type = _
    by_cases hj : (s.tk k).inum = (s.tk k0).inum
    · have hm : (entOf s k0).mem.type = (s.dino (s.tk k0).inum).type := by rw [(h.locked hk0 hl).2]
      rw [hj, update_self]
      exact hm
    · rw [update_of_ne hj]
  | iputFree k0 hk0 hfr =>
    have hne : (s.tk k).inum ≠ (s.tk k0).inum := by
      intro hj
      by_cases hkk : k0 = k
      · subst hkk
        rcases hst with hst | hst <;> rw [hst] at hfr <;> cases hfr
      · exact hno k0 hk0 hkk hj.symm hfr
    exact congrArg Dinode.type (update_of_ne hne _ _)

end

end Xv6.Fs.Itable
