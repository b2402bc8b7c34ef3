import Xv6.Lib.Monitor
import Xv6.Log.Isolation

/-!
# Waiting in `begin_op`

The critical sections of `Xv6.Log.Isolation` under `log.lock`, with `sleep` and
`wakeup` step by step as in `Monitor`.  A process that `begin_op` has put to sleep
waits for something: a commit, or an operation that is still open
(`begin_op_waiters`).
-/

namespace Xv6.Log.Waiters

open Function
open Isolation (Act Phase InOp Committer setPhase wakeup)
open Monitor (Next)

/-! ## The system -/

/-- What a process has to do under `log.lock`: a section, or nothing but `release`. -/
inductive Code (ι β : Type)
  | act (a : Act ι β)
  | release

section
variable {ι β : Type} [DecidableEq ι]

/-- Stores into buffers and the steps of `commit()` run without `log.lock`. -/
def needsLock (s : Isolation.St ι β) : Act ι β → Bool
  | .beginOp _ | .logWrite _ _ | .endOp _ => true
  | .modify _ _ _ => false
  | .commit p => s.phase p = .commit .finish

/-- The section that led to `s` calls `wakeup(&log)` at its end. -/
def wakes (s : Isolation.St ι β) : Act ι β → Bool
  | .endOp p | .commit p => s.phase p = .idle
  | _ => false

/-- `p` is back from `sleep`, perhaps by `kill` and not by `wakeup`. -/
def awake (s : Isolation.St ι β) (p : ι) : Isolation.St ι β :=
  if s.phase p = .asleep then setPhase s p .woken else s

/-- A section of `p`.  `begin_op` looks again when `sleep` returns. -/
def body (lg : Geometry) (s : Isolation.St ι β) (p : ι) :
    Code ι β → Option (Isolation.St ι β × Next (Code ι β) Unit)
  | .release => some (s, .leave)
  | .act a => (Isolation.step lg (awake s p) a).map fun s' =>
      (s', if s'.phase p = .asleep then .sleep () (.act a) else if wakes s' a then .wake () .release else .leave)

/-- `procs` is the process table. -/
def sys (lg : Geometry) (procs : List ι) :
    Monitor.Sys ι (Isolation.St ι β) (Code ι β) Unit (Act ι β) (Act ι β) Empty where
  stopped s := s.panic.isSome
  start s p a :=
    if a.actor = p ∧ needsLock s a = true then (Isolation.step lg s a).map fun _ => (s, .act a) else none
  idle s p a := if a.actor = p ∧ needsLock s a = false then Isolation.step lg s a else none
  env _ e := nomatch e
  body := body lg
  procs := procs

abbrev State (ι β : Type) := Monitor.St ι (Isolation.St ι β) (Code ι β) Unit

def Reachable (lg : Geometry) (procs : List ι) (s : State ι β) : Prop :=
  Monitor.Reachable (sys lg procs) Isolation.Initial s

end

/-! ## What a section takes away -/

section
variable {ι β : Type} [DecidableEq ι] {lg : Geometry} {s s' : Isolation.St ι β} {a : Act ι β} {p : ι}

/-- What a process asleep in `begin_op` waits for. -/
def Blocked (s : Isolation.St ι β) : Prop :=
  s.committing = true ∨ s.lh.length + (s.outstanding + 1) * MAXOPBLOCKS > LOGSIZE

omit [DecidableEq ι] in
theorem Blocked.mono (h : Blocked s) (hc : s.committing = true → s'.committing = true)
    (hl : s.lh.length ≤ s'.lh.length) (ho : s.outstanding ≤ s'.outstanding) : Blocked s' := by
  rcases h with h | h
  · exact Or.inl (hc h)
  · refine Or.inr ?_
    unfold MAXOPBLOCKS LOGSIZE at *
    omega

/-- `q` is in no operation and commits nothing. -/
def Out (s : Isolation.St ι β) (q : ι) : Prop := ¬InOp s q ∧ ¬Committer s q

omit [DecidableEq ι] in
theorem Out.congr {q : ι} (h : Out s q) (hq : s'.phase q = s.phase q ∨ s'.phase q = .woken) : Out s' q := by
  refine ⟨fun ⟨o, ho⟩ => ?_, fun ⟨pc, hpc⟩ => ?_⟩
  · rcases hq with hq | hq
    · exact h.1 ⟨o, hq.symm.trans ho⟩
    · cases hq.symm.trans ho
  · rcases hq with hq | hq
    · exact h.2 ⟨pc, hq.symm.trans hpc⟩
    · cases hq.symm.trans hpc

theorem phase_of_step (hs : Isolation.step lg s a = some s') {q : ι} (hq : q ≠ a.actor) :
    s'.phase q = s.phase q ∨ s'.phase q = .woken := by
  have hset : ∀ x, (setPhase s a.actor x).phase q = s.phase q := fun x => update_of_ne hq _ _
  have hwake : ∀ t : Isolation.St ι β, t.phase q = s.phase q →
      (wakeup t).phase q = s.phase q ∨ (wakeup t).phase q = .woken := by
    intro t ht
    simp only [wakeup, ht]
    split
    · exact .inr rfl
    · exact .inl rfl
  cases (Isolation.step_cases hs).2 with
  | sleep | begun | lastEnded | turn => exact .inl (hset _)
  | modify | tooBig | outside | logged | committing => exact .inl rfl
  | ended | finish => exact hwake _ (hset _)

theorem out_of_step (hs : Isolation.step lg s a = some s') (q : ι) (hq : q ≠ a.actor) (h : Out s q) : Out s' q :=
  h.congr (phase_of_step hs hq)

/-- Only `begin_op` puts a process to sleep, and there is something to wait for then. -/
theorem sleeper_of_step (hs : Isolation.step lg s a = some s') (h0 : s.phase p ≠ .asleep) (h1 : s'.phase p = .asleep) :
    a = .beginOp p ∧ Blocked s' := by
  have hset : ∀ {q x}, x ≠ .asleep → (setPhase s q x).phase p ≠ .asleep := fun hx hp =>
    (Isolation.phase_set.mp hp).elim (fun h => hx h.2) fun h => h0 h.2
  have hwake : ∀ t : Isolation.St ι β, (wakeup t).phase p ≠ .asleep := by
    intro t hp
    simp only [wakeup] at hp
    split at hp
    · cases hp
    · contradiction
  cases (Isolation.step_cases hs).2 with
  | sleep _ hb =>
    obtain ⟨rfl, -⟩ | ⟨-, hp⟩ := Isolation.phase_set.mp h1
    · exact ⟨rfl, hb⟩
    · exact absurd hp h0
  | begun | lastEnded | turn => exact absurd h1 (hset (by simp))
  | modify | tooBig | outside | logged | committing => exact absurd h1 h0
  | ended | finish => exact absurd h1 (hwake _)

/-- What others wait for ends only with a `wakeup`. -/
theorem blocked_or_wakes (h : Isolation.Inv s) (hs : Isolation.step lg s a = some s') :
    (Blocked s → Blocked s') ∨ needsLock s a = true ∧ wakes s' a = true := by
  cases (Isolation.step_cases hs).2 with
  | sleep | modify | tooBig | outside => exact .inl id
  | begun => exact .inl fun hb => hb.mono id le_rfl (Int.le_add_one le_rfl)
  | logged =>
    refine .inl fun hb => hb.mono id ?_ le_rfl
    dsimp only
    split
    · exact le_rfl
    · simp
  | committing _ hc => exact .inl fun _ => .inl hc
  | lastEnded => exact .inl fun _ => .inl rfl
  | turn _ _ hp =>
    -- until its last section the committer is the one the others wait for
    exact .inl fun _ => .inl (h.committer.mpr ⟨_, _, hp⟩)
  | ended => exact .inr ⟨rfl, by simp [wakes, wakeup, setPhase]⟩
  | finish hp => exact .inr ⟨by simp [needsLock, hp], by simp [wakes, wakeup, setPhase]⟩

theorem awake_inv (h : Isolation.Inv s) (p : ι) : Isolation.Inv (awake s p) := by
  unfold awake
  split
  · next hp => exact h.aside (.inr (.inr hp)) (.inr rfl)
  · exact h

theorem awake_blocked : Blocked (awake s p) ↔ Blocked s := by
  unfold awake
  split <;> rfl

theorem awake_asleep : (awake s p).phase p ≠ .asleep := by
  unfold awake
  split
  · simp [setPhase]
  · assumption

theorem awake_out {q : ι} (h : Out s q) : Out (awake s p) q := by
  refine h.congr ?_
  unfold awake
  split
  · by_cases hq : q = p
    · exact .inr (by simp [setPhase, hq])
    · exact .inl (update_of_ne hq _ _)
  · exact .inl rfl

omit [DecidableEq ι] in
/-- Whoever waits waits for a process that will call `wakeup`. -/
theorem Blocked.someone (h : Isolation.Inv s) (hb : Blocked s) :
    (s.committing = true ∧ ∃ p, Committer s p) ∨ (1 ≤ s.outstanding ∧ ∃ p, InOp s p) := by
  cases hc : s.committing with
  | true => exact Or.inl ⟨rfl, h.committer.mp hc⟩
  | false =>
    obtain ⟨F, hF, hcard⟩ := h.counted
    rcases F.eq_empty_or_nonempty with rfl | ⟨p, hp⟩
    · -- with no operation open the header is empty, and there is room for one
      have hlh := h.drained hc fun p hp => absurd ((hF p).mpr hp) (Finset.notMem_empty p)
      rcases hb with hb | hb
      · exact absurd (hc.symm.trans hb) Bool.false_ne_true
      · rw [hlh, hcard, List.length_nil, Finset.card_empty] at hb
        exact absurd hb (by decide)
    · refine Or.inr ⟨?_, p, (hF p).mp hp⟩
      rw [hcard]
      exact_mod_cast Finset.card_pos.mpr ⟨p, hp⟩

end

/-! ## Sections and sleepers -/

section
variable {ι β : Type} [DecidableEq ι] {lg : Geometry} {procs : List ι} {s s' : Isolation.St ι β} {p q : ι} {a : Act ι β}

/-- A section is its process's own, and a process in `begin_op` is in no operation. -/
def Fits (s : Isolation.St ι β) (p : ι) : Code ι β → Prop
  | .act a => a.actor = p ∧ (a = .beginOp p → Out s p)
  | .release => True

omit [DecidableEq ι] in
theorem Fits.mono {k : Code ι β} (h : Fits s q k) (ho : Out s q → Out s' q) : Fits s' q k := by
  cases k with
  | act a => exact ⟨h.1, fun ha => ho (h.2 ha)⟩
  | release => trivial

/-- The log is in order, and every process has the code of a section. -/
structure Inv (s : Isolation.St ι β) (c : ι → Option (Code ι β)) : Prop where
  log : Isolation.Inv s
  fits : ∀ p k, c p = some k → Fits s p k

variable {c : ι → Option (Code ι β)}

theorem Inv.set (h : Inv s c) (hs : Isolation.Inv s') (hother : ∀ q, q ≠ p → Out s q → Out s' q)
    {x : Option (Code ι β)} (hx : ∀ k, x = some k → Fits s' p k) : Inv s' (update c p x) :=
  ⟨hs, (forall_update_iff c fun q y => ∀ k, y = some k → Fits s' q k).mpr
    ⟨hx, fun q hq k hk => (h.fits q k hk).mono (hother q hq)⟩⟩

omit [DecidableEq ι] in
theorem asleep_of_next {b : Bool} {a' : Code ι β} {ch : Unit} {k : Code ι β} {ph : Phase}
    (hn : (if ph = .asleep then .sleep () a' else if b then .wake () .release else .leave : Next (Code ι β) Unit) =
      .sleep ch k) : ph = .asleep ∧ k = a' := by
  split at hn
  · next hp =>
    cases hn
    exact ⟨hp, rfl⟩
  · split at hn <;> cases hn

theorem Inv.body (h : Inv s c) {k : Code ι β} (hp : c p = some k) {n : Next (Code ι β) Unit}
    (hb : body lg s p k = some (s', n)) : Inv s' (update c p n.code) := by
  cases k with
  | release =>
    cases hb
    exact h.set h.log (fun _ _ => id) nofun
  | act a =>
    obtain ⟨rfl, -⟩ := h.fits p _ hp
    obtain ⟨s1, hs, heq⟩ := Option.map_eq_some_iff.mp hb
    cases heq
    refine h.set (Isolation.inv_step (awake_inv h.log _) a hs)
      (fun q hq ho => out_of_step hs q hq (awake_out ho)) fun k hk => ?_
    split at hk
    · next hsleep =>
      cases hk
      refine ⟨rfl, fun _ => ⟨fun ⟨o, ho⟩ => ?_, fun ⟨pc, hpc⟩ => ?_⟩⟩
      · cases hsleep.symm.trans ho
      · cases hsleep.symm.trans hpc
    · split at hk <;> cases hk
      trivial

theorem rule (lg : Geometry) (procs : List ι) :
    Monitor.Rule (sys (β := β) lg procs) Isolation.Initial fun s _ c => Inv s c where
  init := by
    rintro _ ⟨buf, logBlk, rfl⟩
    exact ⟨Isolation.inv_initial buf logBlk, nofun⟩
  acquire _ _ _ _ h _ := h
  enter s l c p a s' k _ h _ hs := by
    obtain ⟨⟨ha, -⟩, hmap⟩ := Option.ite_none_right_eq_some.mp hs
    obtain ⟨s1, hstep, heq⟩ := Option.map_eq_some_iff.mp hmap
    cases heq
    refine h.set h.log (fun _ _ => id) fun k hk => ?_
    cases hk
    refine ⟨ha, ?_⟩
    rintro rfl
    -- `begin_op` is called outside of operations
    have hout : ∀ {p}, s.phase p = .idle ∨ s.phase p = .woken → Out s p := by
      rintro p hp
      refine ⟨fun ⟨o, ho⟩ => ?_, fun ⟨pc, hpc⟩ => ?_⟩
      · rcases hp with hp | hp <;> cases hp.symm.trans ho
      · rcases hp with hp | hp <;> cases hp.symm.trans hpc
    cases (Isolation.step_cases hstep).2 with
    | sleep hp => exact hout hp
    | begun hp => exact hout hp
  idle s l c p a s' _ h hp hs := by
    obtain ⟨⟨rfl, -⟩, hstep⟩ := Option.ite_none_right_eq_some.mp hs
    have hset := h.set (p := a.actor) (x := none) (Isolation.inv_step h.log a hstep) (out_of_step hstep) nofun
    rwa [← hp, update_eq_self] at hset
  env _ _ _ e := nomatch e
  body s c p k s' n _ h hp hb := h.body hp hb

theorem waits (lg : Geometry) (procs : List ι) :
    Monitor.Waits (sys (β := β) lg procs) (fun s _ c => Inv s c) fun s _ => Blocked s where
  sleep s c p k s' ch k' _ h hp hb := by
    cases k with
    | release => cases hb
    | act a =>
      obtain ⟨rfl, -⟩ := h.fits p _ hp
      obtain ⟨s1, hs, heq⟩ := Option.map_eq_some_iff.mp hb
      obtain ⟨rfl, hn⟩ := Prod.mk.inj heq
      exact (sleeper_of_step hs awake_asleep (asleep_of_next hn).1).2
  body s c p k s' n ch _ h hp hb hW hn := by
    cases k with
    | release =>
      cases hb
      exact hW
    | act a =>
      obtain ⟨rfl, -⟩ := h.fits p _ hp
      obtain ⟨s1, hs, heq⟩ := Option.map_eq_some_iff.mp hb
      cases heq
      rcases blocked_or_wakes (awake_inv h.log _) hs with hq | ⟨-, hw⟩
      · exact hq (awake_blocked.mpr hW)
      · by_cases hsl : s'.phase a.actor = .asleep
        · exact (sleeper_of_step hs awake_asleep hsl).2
        · exact absurd ((if_neg hsl).trans (if_pos hw)) (hn .release)
  enter s l c p a s' k ch _ hs hW := by
    obtain ⟨-, hs⟩ := Option.ite_none_right_eq_some.mp hs
    obtain ⟨s1, -, heq⟩ := Option.map_eq_some_iff.mp hs
    cases heq
    exact hW
  idle s l c p a s' ch h hs hW := by
    obtain ⟨⟨-, hn⟩, hstep⟩ := Option.ite_none_right_eq_some.mp hs
    exact (blocked_or_wakes h.log hstep).elim (· hW) fun hl => nomatch hn.symm.trans hl.1
  env _ _ _ e := nomatch e

/-- **`begin_op` strands nobody.**  While `log.lock` is free, a process that is
asleep on `&log` waits for a commit or for room in the log, and some process that
is not asleep is committing or in an operation. -/
theorem begin_op_waiters (lg : Geometry) (procs : List ι) (hall : ∀ p, p ∈ procs) (s : State ι β)
    (h : Reachable lg procs s) (hl : s.lock = none) (q : ι) (k : Code ι β) (hq : s.point q = .sleeping () k) :
    (s.shared.committing = true ∨ s.shared.lh.length + (s.shared.outstanding + 1) * MAXOPBLOCKS > LOGSIZE) ∧
      ∃ p, (∀ k, s.point p ≠ .sleeping () k) ∧
        (s.shared.committing = true ∧ Committer s.shared p ∨ 1 ≤ s.shared.outstanding ∧ InOp s.shared p) := by
  obtain ⟨l, -, hI⟩ := ((rule lg procs).reach h).inv
  have hb : Blocked s.shared := (waits lg procs).sleeping (rule lg procs) hall h hl hq
  -- a sleeper is in `begin_op`
  have hout : ∀ {p k}, s.point p = .sleeping () k → Out s.shared p := by
    intro p k hp
    have hbed : ∃ r, k = .act (.beginOp r) := by
      refine Monitor.Reachable.bed (P := fun k => ∃ r, k = .act (.beginOp r)) ?_ h p k (by rw [hp]; rfl)
      intro m r k m' ch k' hb
      cases k with
      | release => cases hb
      | act a =>
        obtain ⟨s1, hs, heq⟩ := Option.map_eq_some_iff.mp hb
        obtain ⟨rfl, hn⟩ := Prod.mk.inj heq
        obtain ⟨hsl, rfl⟩ := asleep_of_next hn
        exact ⟨r, congrArg Code.act (sleeper_of_step hs awake_asleep hsl).1⟩
    obtain ⟨r, rfl⟩ := hbed
    obtain ⟨rfl, ho⟩ := hI.fits p _ (show Monitor.code s p = _ by rw [Monitor.code, hp]; rfl)
    exact ho rfl
  refine ⟨hb, ?_⟩
  rcases hb.someone hI.log with ⟨hc, p, hp⟩ | ⟨ho, p, hp⟩
  · exact ⟨p, fun k hs => (hout hs).2 hp, Or.inl ⟨hc, hp⟩⟩
  · exact ⟨p, fun k hs => (hout hs).1 hp, Or.inr ⟨ho, hp⟩⟩

end

/-- Three operations are open, and a fourth process sleeps. -/
theorem begin_op_waiters_full :
    ∃ (s : State (Fin 4) Nat) (k : Code (Fin 4) Nat), Reachable mkfsLog (List.finRange 4) s ∧ s.lock = none ∧
      s.point 3 = .sleeping () k ∧ ∃ p, (∀ k, s.point p ≠ .sleeping () k) ∧
        (s.shared.committing = true ∧ Committer s.shared p ∨ 1 ≤ s.shared.outstanding ∧ InOp s.shared p) := by
  let moves : List (Monitor.Move (Fin 4) (Act (Fin 4) Nat) (Act (Fin 4) Nat) Empty) :=
    [.enter 0 (.beginOp 0), .go 0, .go 0, .enter 1 (.beginOp 1), .go 1, .go 1, .enter 2 (.beginOp 2), .go 2, .go 2,
      .enter 3 (.beginOp 3), .go 3, .go 3, .go 3, .go 3, .go 3]
  let r := Run.run (Monitor.step (sys mkfsLog (List.finRange 4)))
    ⟨Isolation.initial (fun _ => 0) fun _ => 0, none, fun _ => .rest⟩ moves
  have hr : Reachable mkfsLog (List.finRange 4) (r.get rfl) :=
    Run.Reach.of_run (fun _ _ => trivial) moves (.start ⟨⟨_, _, rfl⟩, rfl, fun _ => rfl⟩) (Option.some_get _).symm
  exact ⟨r.get rfl, .act (.beginOp 3), hr, rfl, rfl,
    (begin_op_waiters mkfsLog (List.finRange 4) List.mem_finRange _ hr rfl 3 _ rfl).2⟩

end Xv6.Log.Waiters
