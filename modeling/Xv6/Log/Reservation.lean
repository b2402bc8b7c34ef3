import Mathlib.Algebra.Order.BigOperators.Group.Finset
import Xv6.Log.Isolation

/-!
# The reservation of `begin_op`

`begin_op` admits an operation when `MAXOPBLOCKS` blocks for it and for every
outstanding operation still fit into `LOGSIZE`; `log_write` panics with "too big
a transaction" when `log.lh.n` has reached `log.size - 1`, on an image of `mkfs`
one less than `LOGSIZE`, and also when it would absorb the block.

With at most `k` distinct blocks in each operation, the header and what the
operations in progress may still add to it stay within a bound `B` (`Reserve`).
For `k = MAXOPBLOCKS` the bound is `LOGSIZE`, which the panic is below; for one
block less it is `LOGSIZE - 2`, and no `log_write` panics.
-/

namespace Xv6.Log.Isolation

open Function
open Xv6.Log (Geometry mkfsLog)

variable {k B : Nat} {lg : Geometry}

section
variable {ι β : Type}

/-- The blocks that operation `o` has passed to `log_write`. -/
def opBlocks (s : St ι β) (o : Nat) : Finset Nat :=
  ((s.writes.filter fun w => w.1 = o).map fun w => w.2.2).toFinset

/-- The blocks passed to `log_write` since the last commit started. -/
def transBlocks (s : St ι β) : Finset Nat :=
  ((s.writes.filter fun w => w.2.1 = s.epoch).map fun w => w.2.2).toFinset

/-- The blocks that the operation of `p` has passed to `log_write`. -/
def blocksOf (s : St ι β) (p : ι) : Finset Nat :=
  match s.phase p with
  | .inOp o => opBlocks s o
  | _ => ∅

/-- Each operation passes at most `k` distinct blocks to `log_write`. -/
def Within (k : Nat) (s : St ι β) : Act ι β → Prop
  | .logWrite p b => (insert b (blocksOf s p)).card ≤ k
  | _ => True

instance (k : Nat) (s : St ι β) (a : Act ι β) : Decidable (Within k s a) :=
  match a with
  | .logWrite p b => inferInstanceAs (Decidable ((insert b (blocksOf s p)).card ≤ k))
  | .beginOp _ | .modify _ _ _ | .endOp _ | .commit _ => inferInstanceAs (Decidable True)

/-- `log_write` is called with at most `LOGSIZE - 2` distinct blocks in the transaction. -/
def Spare (s : St ι β) : Act ι β → Prop
  | .logWrite _ _ => (transBlocks s).card ≤ LOGSIZE - 2
  | _ => True

/-- The header and what the operations in progress may add to it fit into `B`. -/
structure Reserve (k B : Nat) (s : St ι β) : Prop where
  inv : Inv s
  nodup : s.lh.Nodup
  fits : ∃ F : Finset ι, (∀ p, p ∈ F ↔ InOp s p) ∧ s.lh.length + ∑ p ∈ F, (k - (blocksOf s p).card) ≤ B

variable {s : St ι β}

variable {p : ι} {b o : Nat} {s' : St ι β}

theorem mem_opBlocks : b ∈ opBlocks s o ↔ ∃ e, (o, e, b) ∈ s.writes := by
  simp [opBlocks]

theorem mem_transBlocks : b ∈ transBlocks s ↔ ∃ o, (o, s.epoch, b) ∈ s.writes := by
  simp [transBlocks]

theorem blocksOf_inOp (h : s.phase p = .inOp o) : blocksOf s p = opBlocks s o := by
  rw [blocksOf, h]

theorem blocksOf_congr (hw : s'.writes = s.writes) (h' : s'.phase p = .inOp o)
    (h : s.phase p = .inOp o) : blocksOf s' p = blocksOf s p := by
  rw [blocksOf_inOp h', blocksOf_inOp h, opBlocks, hw]
  rfl

theorem Reserve.card_trans (h : Reserve k B s) (hc : s.committing = false) : (transBlocks s).card = s.lh.length := by
  have he : transBlocks s = s.lh.toFinset := by
    ext b
    rw [mem_transBlocks, List.mem_toFinset]
    exact (h.inv.lhWritten hc b).symm
  rw [he, List.toFinset_card_of_nodup h.nodup]

theorem Inv.transBlocks_empty (h : Inv s) (hc : s.committing = true) : (transBlocks s).card = 0 := by
  rw [Finset.card_eq_zero, Finset.eq_empty_iff_forall_notMem]
  intro b hb
  obtain ⟨o, ho⟩ := mem_transBlocks.mp hb
  exact absurd ((h.pending o b ho).1.symm.trans hc) nofun

theorem Reserve.length_le (h : Reserve k B s) : s.lh.length ≤ B := by
  obtain ⟨F, _, hF⟩ := h.fits
  omega

variable [DecidableEq ι]

/-! ## Steps -/

omit [DecidableEq ι] in
theorem Reserve.shrink (h : Reserve k B s) (hi : Inv s') (hw : s'.writes = s.writes)
    (hl : s'.lh = s.lh ∨ s'.lh = []) (hop : ∀ q o, s'.phase q = .inOp o → s.phase q = .inOp o) : Reserve k B s' := by
  obtain ⟨F, hF, hfit⟩ := h.fits
  obtain ⟨F', hF', _⟩ := hi.counted
  have hsub : F' ⊆ F := by
    intro q hq
    obtain ⟨o, ho⟩ := (hF' q).mp hq
    exact (hF q).mpr ⟨o, hop q o ho⟩
  have hsame : ∑ q ∈ F', (k - (blocksOf s' q).card) = ∑ q ∈ F', (k - (blocksOf s q).card) := by
    refine Finset.sum_congr rfl fun q hq => ?_
    obtain ⟨o, ho⟩ := (hF' q).mp hq
    rw [blocksOf_congr hw ho (hop q o ho)]
  have hle : ∑ q ∈ F', (k - (blocksOf s q).card) ≤ ∑ q ∈ F, (k - (blocksOf s q).card) :=
    Finset.sum_le_sum_of_subset hsub
  refine ⟨hi, ?_, F', hF', ?_⟩
  · rcases hl with hl | hl <;> rw [hl]
    · exact h.nodup
    · exact List.nodup_nil
  · have hlen : s'.lh.length ≤ s.lh.length := by
      rcases hl with hl | hl <;> rw [hl]
      exact Nat.zero_le _
    omega

/-- The bounds with which `begin_op` may admit an operation. -/
structure Fits (k B : Nat) : Prop where
  one : k ≤ B
  more : ∀ m n, 2 ≤ n → m + n * MAXOPBLOCKS ≤ LOGSIZE → m + n * k ≤ B

theorem Reserve.begun (hk : Fits k B) (h : Reserve k B s)
    (hp : s.phase p = .idle ∨ s.phase p = .woken) (hc : s.committing = false)
    (hroom : ¬ s.lh.length + (s.outstanding + 1) * MAXOPBLOCKS > LOGSIZE) :
    Reserve k B { setPhase s p (.inOp s.nextOp) with
      outstanding := s.outstanding + 1, nextOp := s.nextOp + 1 } := by
  obtain ⟨F, hF, hfit⟩ := h.fits
  obtain ⟨F0, hF0, hcard⟩ := h.inv.counted
  have hFF : F0 = F := by
    ext q
    rw [hF0, hF]
  subst hFF
  have hpF : p ∉ F0 := by
    rw [hF]
    rintro ⟨o, ho⟩
    rcases hp with hp | hp <;> rw [hp] at ho <;> cases ho
  refine ⟨h.inv.begun hp hc, h.nodup, insert p F0, fun q => ?_, ?_⟩
  · by_cases hq : q = p <;> simp [InOp, setPhase, hq, hF]
  · -- the others have at most `k` blocks to go, and so has the new operation
    rw [Finset.sum_insert hpF]
    have hsame : ∀ q ∈ F0, k - (blocksOf ({ setPhase s p (.inOp s.nextOp) with
        outstanding := s.outstanding + 1, nextOp := s.nextOp + 1 } : St ι β) q).card = k - (blocksOf s q).card := by
      intro q hq
      have hqp : q ≠ p := fun hc => hpF (hc ▸ hq)
      obtain ⟨o, ho⟩ := (hF q).mp hq
      have ho' : (setPhase s p (.inOp s.nextOp)).phase q = .inOp o := (update_of_ne hqp _ _).trans ho
      exact congrArg (fun F : Finset Nat => k - F.card) (blocksOf_congr rfl ho' ho)
    rw [Finset.sum_congr rfl hsame]
    have hsum : ∑ q ∈ F0, (k - (blocksOf s q).card) ≤ F0.card * k := by
      have := Finset.sum_le_card_nsmul F0 (fun q => k - (blocksOf s q).card) k fun q _ => Nat.sub_le _ _
      simpa using this
    rcases Nat.eq_zero_or_pos F0.card with h0 | hpos
    · have hno : ∀ q, ¬ InOp s q := by
        intro q hq
        rw [Finset.card_eq_zero.mp h0] at hF
        exact absurd ((hF q).mpr hq) (Finset.notMem_empty q)
      have hlh := h.inv.drained hc hno
      rw [h0, Nat.zero_mul] at hsum
      show s.lh.length + _ ≤ B
      rw [hlh]
      have := hk.one
      simp only [List.length_nil]
      omega
    · have hroom' : s.lh.length + (F0.card + 1) * MAXOPBLOCKS ≤ LOGSIZE := by
        rw [hcard] at hroom
        exact_mod_cast not_lt.mp hroom
      have := hk.more s.lh.length (F0.card + 1) (by omega) hroom'
      rw [Nat.add_mul, Nat.one_mul] at this
      show s.lh.length + _ ≤ B
      omega

omit [DecidableEq ι] in
theorem opBlocks_cons {e : Nat} (hw : s'.writes = (o, e, b) :: s.writes) (o' : Nat) :
    opBlocks s' o' = if o' = o then insert b (opBlocks s o') else opBlocks s o' := by
  ext x
  by_cases ho : o' = o
  · rw [if_pos ho, Finset.mem_insert, mem_opBlocks, mem_opBlocks, hw, ho]
    simp [exists_or]
  · rw [if_neg ho, mem_opBlocks, mem_opBlocks, hw]
    simp [ho]

omit [DecidableEq ι] in
theorem Reserve.logged (h : Reserve k B s) (hi : Inv s')
    (hp : s.phase p = .inOp o) (hb : (insert b (opBlocks s o)).card ≤ k) (hph : s'.phase = s.phase)
    (hlh : s'.lh = if b ∈ s.lh then s.lh else s.lh ++ [b]) (hw : s'.writes = (o, s.epoch, b) :: s.writes) :
    Reserve k B s' := by
  classical
  obtain ⟨F, hF, hfit⟩ := h.fits
  have hc := h.inv.not_committing ⟨o, hp⟩
  have hpF : p ∈ F := (hF p).mpr ⟨o, hp⟩
  -- the blocks of an operation in progress are in the header
  have hsub : ∀ x ∈ opBlocks s o, x ∈ s.lh := by
    intro x hx
    obtain ⟨e, he⟩ := mem_opBlocks.mp hx
    rw [h.inv.opNow p o e x hp he] at he
    exact (h.inv.lhWritten hc x).mpr ⟨o, he⟩
  have hself : (blocksOf s' p).card = (insert b (opBlocks s o)).card := by
    rw [blocksOf_inOp (by rw [hph]; exact hp), opBlocks_cons hw, if_pos rfl]
  have hother : ∀ q ∈ F.erase p, k - (blocksOf s' q).card = k - (blocksOf s q).card := by
    intro q hq
    obtain ⟨hqp, hqF⟩ := Finset.mem_erase.mp hq
    obtain ⟨o', ho'⟩ := (hF q).mp hqF
    have hne : o' ≠ o := fun he => hqp (h.inv.opInj q p o (he ▸ ho') hp)
    rw [blocksOf_inOp (by rw [hph]; exact ho'), blocksOf_inOp ho', opBlocks_cons hw, if_neg hne]
  refine ⟨hi, ?_, F, fun q => by rw [hF, InOp, InOp, hph], ?_⟩
  · rw [hlh]
    split
    · exact h.nodup
    · next hnb =>
      rw [List.nodup_append]
      refine ⟨h.nodup, List.nodup_singleton b, fun x hx y hy => ?_⟩
      rw [List.mem_singleton.mp hy]
      rintro rfl
      exact hnb hx
  · rw [← Finset.add_sum_erase F _ hpF, Finset.sum_congr rfl hother, hself, hlh]
    rw [← Finset.add_sum_erase F _ hpF, blocksOf_inOp hp] at hfit
    split
    · have hmono : (opBlocks s o).card ≤ (insert b (opBlocks s o)).card :=
        Finset.card_le_card (Finset.subset_insert _ _)
      omega
    · next hnb =>
      have hins : (insert b (opBlocks s o)).card = (opBlocks s o).card + 1 :=
        Finset.card_insert_of_notMem fun hx => hnb (hsub b hx)
      rw [List.length_append, List.length_singleton]
      omega

theorem reserve_step (hk : Fits k B) (h : Reserve k B s) (a : Act ι β)
    (hok : Within k s a) (hs : step lg s a = some s') : Reserve k B s' := by
  have hi := inv_step h.inv a hs
  have hset : ∀ {p : ι} {ph : Phase} {q : ι} {o : Nat}, (setPhase s p ph).phase q = .inOp o →
      (∀ o, ph ≠ .inOp o) → s.phase q = .inOp o := by
    intro p ph q o hq hph
    obtain ⟨-, hq⟩ | ⟨-, hq⟩ := phase_set.mp hq
    · exact absurd hq (hph o)
    · exact hq
  have hwake : ∀ {t : St ι β} {q : ι} {o : Nat}, (wakeup t).phase q = .inOp o → t.phase q = .inOp o := by
    intro t q o hq
    simp only [wakeup] at hq
    split at hq
    · cases hq
    · exact hq
  cases (step_cases hs).2 with
  | begun hp hc hroom => exact h.begun hk hp hc hroom
  | modify | tooBig | outside | committing => exact h.shrink hi rfl (Or.inl rfl) fun _ _ hq => hq
  | logged hp =>
    rw [Within, blocksOf_inOp hp] at hok
    exact h.logged hi hp hok rfl rfl rfl
  | sleep | lastEnded => exact h.shrink hi rfl (Or.inl rfl) fun _ _ hq => hset hq (by rintro _ ⟨⟩)
  | turn =>
    refine h.shrink hi rfl ?_ fun _ _ hq => hset hq (by rintro _ ⟨⟩)
    dsimp only
    split
    · exact Or.inr rfl
    · exact Or.inl rfl
  | ended | finish => exact h.shrink hi rfl (Or.inl rfl) fun _ _ hq => hset (hwake hq) (by rintro _ ⟨⟩)

omit [DecidableEq ι] in
theorem reserve_initial (buf logBlk : Nat → β) : Reserve k B (initial buf logBlk : St ι β) :=
  ⟨inv_initial buf logBlk, List.nodup_nil, ∅, by simp [InOp, initial], Nat.zero_le _⟩

variable {ok : St ι β → Act ι β → Prop}

theorem reserve_reach (hk : Fits k B)
    (hok : ∀ s a, ok s a → Within k s a) (h : Run.Reach (step lg) ok Initial s) : Reserve k B s := by
  refine h.invariant (Reserve k B) ?_ fun s a s' hI ha hs => reserve_step hk hI a (hok s a ha) hs
  rintro _ ⟨buf, logBlk, rfl⟩
  exact reserve_initial buf logBlk

/-! ## Too big a transaction -/

theorem logWrite_tooBig (hlg : lg.size = LOGSIZE) (h : Reserve k B s) (hp : InOp s p) (hn : s.panic = none) (b : Nat) :
    (∃ s', step lg s (.logWrite p b) = some s' ∧ s'.panic = some .tooBig) ↔ LOGSIZE - 1 ≤ (transBlocks s).card := by
  obtain ⟨o, ho⟩ := hp
  rw [h.card_trans (h.inv.not_committing ⟨o, ho⟩)]
  have hstep : step lg s (.logWrite p b) = logWrite lg s p b := by simp [step, hn]
  rw [hstep]
  simp only [logWrite, ho, hlg]
  constructor
  · rintro ⟨s', hs, ht⟩
    split at hs
    · next hbig => omega
    · split at hs
      · cases hs
        cases ht
      · cases hs
        rw [hn] at ht
        cases ht
  · intro hle
    rw [if_pos (Or.inr hle)]
    exact ⟨_, rfl, rfl⟩

theorem tooBig_step {a : Act ι β} (hs : step lg s a = some s')
    (ht : s'.panic = some .tooBig) : ∃ p b, a = .logWrite p b ∧ InOp s p ∧ s.panic = none := by
  obtain ⟨h0, he⟩ := step_cases hs
  cases he with
  | tooBig hp | outside hp | logged hp => exact ⟨_, _, rfl, ⟨_, hp⟩, h0⟩
  | committing => cases ht
  | _ => exact absurd (h0.symm.trans ht) nofun

theorem no_tooBig (hlg : lg.size = LOGSIZE) (hk : Fits k B) (hok : ∀ s a, ok s a → Within k s a)
    (hroom : ∀ s a, Reserve k B s → ok s a → Spare s a)
    (h : Run.Reach (step lg) ok Initial s) : s.panic ≠ some .tooBig := by
  induction h with
  | start h =>
    obtain ⟨buf, logBlk, rfl⟩ := h
    exact nofun
  | next a hr ha hs ih =>
    intro ht
    obtain ⟨p, b, rfl, hp, hn⟩ := tooBig_step hs ht
    have hres := reserve_reach hk hok hr
    have hsp : (transBlocks _).card ≤ LOGSIZE - 2 := hroom _ _ hres ha
    have hle := (logWrite_tooBig hlg hres hp hn b).mp ⟨_, hs, ht⟩
    have : LOGSIZE = 30 := rfl
    omega

theorem fits_max : Fits MAXOPBLOCKS LOGSIZE :=
  ⟨by decide, fun _ _ _ h => h⟩

theorem fits_less : Fits (MAXOPBLOCKS - 1) (LOGSIZE - 2) := by
  refine ⟨by decide, fun m n hn h => ?_⟩
  simp only [MAXOPBLOCKS, LOGSIZE] at h ⊢
  omega

/-- With the log of `mkfs`: a `log_write` panics with "too big a transaction" exactly
when the operations of the transaction have passed `LOGSIZE - 1` distinct blocks to
it before; a run in which they have passed fewer at every `log_write` does not
panic, in particular one whose operations pass fewer than `MAXOPBLOCKS` each. -/
theorem log_reservation (lg : Geometry) (hlg : lg.size = LOGSIZE) (s : St ι β) :
    (Run.Reach (step lg) (fun s a => Within MAXOPBLOCKS s a ∧ Spare s a) Initial s → s.panic ≠ some .tooBig) ∧
    (Run.Reach (step lg) (Within MAXOPBLOCKS) Initial s → ∀ p b, InOp s p → s.panic = none →
      ((∃ s', step lg s (.logWrite p b) = some s' ∧ s'.panic = some .tooBig) ↔ ¬ Spare s (.logWrite p b))) ∧
    (Run.Reach (step lg) (Within (MAXOPBLOCKS - 1)) Initial s → s.panic ≠ some .tooBig) := by
  refine ⟨fun h => ?_, fun h p b hp hn => ?_, fun h => ?_⟩
  · exact no_tooBig hlg fits_max (fun _ _ ha => ha.1) (fun _ _ _ ha => ha.2) h
  · rw [logWrite_tooBig hlg (reserve_reach fits_max (fun _ _ ha => ha) h) hp hn b]
    show _ ↔ ¬ (transBlocks s).card ≤ LOGSIZE - 2
    have : LOGSIZE = 30 := rfl
    omega
  · refine no_tooBig hlg fits_less (fun _ _ ha => ha) (fun s a hres ha => ?_) h
    cases a with
    | logWrite p b =>
      show (transBlocks s).card ≤ LOGSIZE - 2
      rcases hc : s.committing with _ | _
      · rw [hres.card_trans hc]
        exact hres.length_le
      · rw [hres.inv.transBlocks_empty hc]
        exact Nat.zero_le _
    | _ => trivial

end

/-- Three processes begin an operation, and each passes ten blocks to `log_write`. -/
def threeFullOps : List (Act (Fin 3) Nat) :=
  [.beginOp 0, .beginOp 1, .beginOp 2] ++ (List.range 30).map fun i => .logWrite ⟨i / 10 % 3, Nat.mod_lt _
  (by decide)⟩ (100 + i)

/-- The thirtieth `log_write` panics. -/
theorem three_full_ops_panic : ∃ s : St (Fin 3) Nat,
    Run.Reach (step mkfsLog) (Within MAXOPBLOCKS) Initial s ∧ s.panic = some .tooBig ∧ s.lh.length = LOGSIZE - 1 := by
  have hview : (Run.runOk (step mkfsLog) (Within MAXOPBLOCKS) (initial (fun _ => 0) fun _ => 0) threeFullOps).map
      (fun s => (s.panic, s.lh.length)) = some (some .tooBig, LOGSIZE - 1) := by
    decide +kernel
  obtain ⟨s, hs, hv⟩ := Option.map_eq_some_iff.mp hview
  simp only [Prod.mk.injEq] at hv
  exact ⟨s, Run.Reach.of_runOk _ (.start ⟨_, _, rfl⟩) hs, hv.1, hv.2⟩

theorem log_reservation_one_op : ∃ s : St (Fin 2) Nat,
    Run.Reach (step mkfsLog) (Within (MAXOPBLOCKS - 1)) Initial s ∧ s.lh = [100, 101] ∧ s.panic ≠ some .tooBig := by
  have hview : (Run.runOk (step mkfsLog) (Within (MAXOPBLOCKS - 1)) (initial (fun _ => 0) fun _ => 0)
      [.beginOp (0 : Fin 2), .logWrite 0 100, .logWrite 0 101, .logWrite 0 100]).map (fun s => s.lh) =
      some [100, 101] := by
    decide +kernel
  obtain ⟨s, hs, hv⟩ := Option.map_eq_some_iff.mp hview
  have hr : Run.Reach (step mkfsLog) (Within (MAXOPBLOCKS - 1)) Initial s :=
    Run.Reach.of_runOk _ (.start ⟨_, _, rfl⟩) hs
  exact ⟨s, hr, hv, (log_reservation mkfsLog rfl s).2.2 hr⟩

end Xv6.Log.Isolation
