import Xv6.Proc.Switch

/-!
# Each process runs on one processor

The invariant behind `sched` and `scheduler`: a context is current on at most one
processor, a processor's locks are those its current context knows of, a RUNNING
process is current somewhere or chosen by a scheduler that holds its lock, and a
process that is RUNNABLE or SLEEPING and current nowhere waits in `sched`, or in
`forkret`, for its lock to come with the processor.
-/

namespace Xv6.Proc

open Cpus
open Function (update update_apply update_eq_self update_of_ne update_self)

/-! ## The invariant -/

/-- The process is current on no processor. -/
def Off (s : Mem) (p : Pr) : Prop := ∀ c, s.ctx c ≠ .proc p

/-- The process waits to be taken up by a scheduler. -/
structure Resumable (l : Local) (p : Pr) : Prop where
  held : l.held = [.proc p]
  st : ∀ q, l.st q = if q = p then some .RUNNING else none

/-- The scheduler has switched to the process. -/
structure Away (l : Local) (p : Pr) : Prop where
  held : l.held = [.proc p]
  st : ∀ q, l.st q = none
  pick : l.pick = none
  on : l.on = some p

/-- What a process, and what a scheduler, never has. -/
def Kind : Ctx → Local → Prop
  | .proc p, l => l.self = some p ∧ l.pick = none ∧ l.on = none
  | .sched _, l => l.self = none ∧ l.own = none

/-- Processor `c` has the locks `held`. -/
structure Locks (f : Lock → Option Nat) (g : Nat → Nat) (c : Nat) (held : List Lock) : Prop where
  mem : ∀ lk, lk ∈ held ↔ f lk = some c
  nodup : held.Nodup
  noff : g c = held.length

structure Inv (s : Mem) (Λ : Ctx → Local) : Prop where
  kind : ∀ t, Kind t (Λ t)
  ctx : ∀ c, s.ctx c = .sched c ∨ ∃ p, s.ctx c = .proc p
  inj : ∀ c d p, s.ctx c = .proc p → s.ctx d = .proc p → c = d
  cur : ∀ c p, s.ctx c = .proc p → s.cur c = some p
  curS : ∀ c, s.ctx c = .sched c → s.cur c = (Λ (.sched c)).on
  locks : ∀ c, Locks s.lock s.noff c (Λ (s.ctx c)).held
  known : ∀ c p x, (Λ (s.ctx c)).st p = some x → .proc p ∈ (Λ (s.ctx c)).held ∧ (s.slot p).state = x
  running : ∀ c p, s.ctx c = .proc p → .proc p ∉ (Λ (.proc p)).held → (s.slot p).state = .RUNNING
  away : ∀ c p, s.ctx c = .proc p → Away (Λ (.sched c)) p
  picked : ∀ c p, s.ctx c = .sched c → (Λ (.sched c)).pick = some p →
    .proc p ∈ (Λ (.sched c)).held ∧ (s.slot p).state = .RUNNING ∧ Off s p ∧ Resumable (Λ (.proc p)) p
  on : ∀ c p, s.ctx c = .sched c → (Λ (.sched c)).on = some p → .proc p ∈ (Λ (.sched c)).held ∧ Off s p
  off : ∀ p, Off s p → ((s.slot p).state = .RUNNABLE ∨ (s.slot p).state = .SLEEPING → Resumable (Λ (.proc p)) p) ∧
    ((s.slot p).state = .RUNNING → ∃ c, s.ctx c = .sched c ∧ (Λ (.sched c)).pick = some p)
  own : ∀ p np r, (Λ (.proc p)).own = some (np, r) →
    (s.slot np).state = .USED ∧ Off s np ∧ (r = true → Λ (.proc np) = start (.proc np))
  ownInj : ∀ p q np r r', (Λ (.proc p)).own = some (np, r) → (Λ (.proc q)).own = some (np, r') → p = q

variable {l : Local} {d : Nat} {x : ProcState}

section
variable {s s' : Mem} {Λ : Ctx → Local} {c : Nat} {p : Pr}

theorem kind_update {t : Ctx} (h : ∀ t, Kind t (Λ t)) (hl : Kind t l) (u : Ctx) : Kind u (update Λ t l u) :=
  (Function.forall_update_iff Λ Kind).mpr ⟨hl, fun u _ => h u⟩ u

theorem Inv.selfP (h : Inv s Λ) (p : Pr) : (Λ (.proc p)).self = some p := (h.kind (.proc p)).1

theorem Inv.selfS (h : Inv s Λ) (c : Nat) : (Λ (.sched c)).self = none := (h.kind (.sched c)).1

theorem Inv.ownS (h : Inv s Λ) (c : Nat) : (Λ (.sched c)).own = none := (h.kind (.sched c)).2

theorem Inv.pickP (h : Inv s Λ) (p : Pr) : (Λ (.proc p)).pick = none := (h.kind (.proc p)).2.1

theorem turned {g : Nat → Ctx} {t u : Ctx} (hd : update g c t d = u) (hne : t ≠ u) : d ≠ c ∧ g d = u := by
  by_cases hdc : d = c
  · rw [hdc, update_self] at hd
    exact absurd hd hne
  · exact ⟨hdc, (update_of_ne hdc ..).symm.trans hd⟩

theorem Inv.ctx_inj (h : Inv s Λ) (he : s.ctx c = s.ctx d) : c = d := by
  rcases h.ctx c with hc | ⟨p, hc⟩
  · rcases h.ctx d with hd | ⟨q, hd⟩
    · rw [hc, hd] at he
      cases he
      rfl
    · rw [hc, hd] at he
      cases he
  · exact h.inj c d p hc (he ▸ hc)

theorem Inv.update_ctx (h : Inv s Λ) (hd : d ≠ c) : update Λ (s.ctx c) l (s.ctx d) = Λ (s.ctx d) :=
  update_of_ne (fun he => hd (h.ctx_inj he)) _ _

theorem Inv.ne_sched (h : Inv s Λ) (hd : s.ctx d = .proc p) : Ctx.sched d ≠ s.ctx c := by
  intro he
  rcases h.ctx c with hc | ⟨q, hc⟩
  · rw [hc] at he
    cases he
    rw [hd] at hc
    cases hc
  · rw [hc] at he
    cases he

theorem Inv.held (h : Inv s Λ) (c : Nat) (lk : Lock) : lk ∈ (Λ (s.ctx c)).held ↔ s.lock lk = some c :=
  (h.locks c).mem lk

/-- The lock of a slot is held by one processor. -/
theorem Inv.holder (h : Inv s Λ) {lk : Lock} (hc : lk ∈ (Λ (s.ctx c)).held) (hd : lk ∈ (Λ (s.ctx d)).held) : c = d :=
  Option.some.inj (((h.held c lk).mp hc).symm.trans ((h.held d lk).mp hd))

theorem update_keep {α β γ : Type} [DecidableEq α] (f : β → γ) {g : α → β} {a : α} {b : β} (hf : f b = f (g a))
    (x : α) :
    f (update g a b x) = f (g x) := by
  by_cases hx : x = a
  · rw [hx, update_self, hf]
  · rw [update_of_ne hx]

theorem setSlot_state (s : Mem) (p : Pr) (x : Slot) (q : Pr) :
    ((s.setSlot p x).slot q).state = if q = p then x.state else (s.slot q).state := by
  show (update s.slot p x q).state = _
  by_cases hq : q = p
  · rw [hq, update_self, if_pos rfl]
  · rw [update_of_ne hq, if_neg hq]

section
variable (h : Inv s Λ)
include h

theorem Inv.switch_held {t u : Ctx} (hc : s.ctx c = t) (hu : u ≠ t) (hh : (Λ u).held = (Λ t).held) (d : Nat) :
    (update Λ t l (update s.ctx c u d)).held = (Λ (s.ctx d)).held := by
  by_cases hd : d = c
  · rw [hd, update_self, update_of_ne hu, hh, hc]
  · rw [update_of_ne hd, ← hc, h.update_ctx hd]

theorem Inv.relock {f : Lock → Option Nat} {g : Nat → Nat} (hself : l.self = (Λ (s.ctx c)).self)
    (hown : l.own = (Λ (s.ctx c)).own) (hpick : l.pick = (Λ (s.ctx c)).pick)
    (hon : l.on = (Λ (s.ctx c)).on) (hlock : ∀ k d, d ≠ c → (f k = some d ↔ s.lock k = some d))
    (hlocks : Locks f g c l.held) (hnoff : ∀ d, d ≠ c → g d = s.noff d)
    (hst : ∀ p x, l.st p = some x → .proc p ∈ l.held ∧ (s.slot p).state = x)
    (hrun : ∀ p, s.ctx c = .proc p → .proc p ∉ l.held → (s.slot p).state = .RUNNING)
    (hkeep : ∀ p, l.pick = some p ∨ l.on = some p → .proc p ∈ (Λ (s.ctx c)).held → .proc p ∈ l.held) :
    Inv { s with lock := f, noff := g } (update Λ (s.ctx c) l) := by
  have hown' := update_keep Local.own hown
  have hpick' := update_keep Local.pick hpick
  have hon' := update_keep Local.on hon
  have hoffP : ∀ {q}, Off s q → update Λ (s.ctx c) l (.proc q) = Λ (.proc q) :=
    fun ho => update_of_ne (fun he => ho c he.symm) _ _
  -- what a scheduler holds for the sake of a process, it keeps
  have hsched : ∀ d q, s.ctx d = .sched d → (Λ (.sched d)).pick = some q ∨ (Λ (.sched d)).on = some q →
      .proc q ∈ (Λ (.sched d)).held → .proc q ∈ (update Λ (s.ctx c) l (.sched d)).held := by
    intro d q hd hq hin
    by_cases hdc : d = c
    · subst hdc
      rw [← hd] at hq hin ⊢
      rw [update_self]
      rw [← hpick, ← hon] at hq
      exact hkeep q hq hin
    · rw [← hd, h.update_ctx hdc, hd]
      exact hin
  constructor
  case kind =>
    refine kind_update h.kind ?_
    have hk := h.kind (s.ctx c)
    rcases h.ctx c with hc | ⟨q, hc⟩ <;> rw [hc] at hk hself hown hpick hon ⊢
    · exact ⟨hself.trans hk.1, hown.trans hk.2⟩
    · exact ⟨hself.trans hk.1, hpick.trans hk.2.1, hon.trans hk.2.2⟩
  case ctx => exact h.ctx
  case inj => exact h.inj
  case cur => exact h.cur
  case curS => simp only [hon']; exact h.curS
  case locks =>
    intro d
    by_cases hdc : d = c
    · rw [hdc, update_self]
      exact hlocks
    · rw [h.update_ctx hdc]
      have hd := h.locks d
      exact ⟨fun k => (hd.mem k).trans (hlock k d hdc).symm, hd.nodup, (hnoff d hdc).trans hd.noff⟩
  case known =>
    intro d q x
    by_cases hdc : d = c
    · rw [hdc, update_self]
      exact hst q x
    · rw [h.update_ctx hdc]
      exact h.known d q x
  case running =>
    intro d q hd
    by_cases hdc : d = c
    · subst hdc
      rw [← hd, update_self]
      exact hrun q hd
    · rw [← hd, h.update_ctx hdc, hd]
      exact h.running d q hd
  case away =>
    intro d q hd
    rw [update_of_ne (h.ne_sched hd)]
    exact h.away d q hd
  case picked =>
    intro d q
    simp only [hpick']
    intro hd hq
    obtain ⟨h1, h2, h3, h4⟩ := h.picked d q hd hq
    exact ⟨hsched d q hd (.inl hq) h1, h2, h3, by rw [hoffP h3]; exact h4⟩
  case on =>
    intro d q
    simp only [hon']
    intro hd hq
    obtain ⟨h1, h2⟩ := h.on d q hd hq
    exact ⟨hsched d q hd (.inr hq) h1, h2⟩
  case off =>
    intro q hq
    simp only [hpick']
    rw [hoffP hq]
    exact h.off q hq
  case own =>
    intro q np r
    simp only [hown']
    intro ho
    obtain ⟨h1, h2, h3⟩ := h.own q np r ho
    exact ⟨h1, h2, by rw [hoffP h2]; exact h3⟩
  case ownInj => simp only [hown']; exact h.ownInj

theorem Inv.congr (hslot : ∀ p, (s'.slot p).state = (s.slot p).state) (hlock : s'.lock = s.lock)
    (hnoff : s'.noff = s.noff) (hcur : s'.cur = s.cur) (hctx : s'.ctx = s.ctx) : Inv s' Λ := by
  refine { h with ctx := ?_, inj := ?_, cur := ?_, curS := ?_, locks := ?_, known := ?_,
                  running := ?_, away := ?_, picked := ?_, on := ?_, off := ?_, own := ?_ } <;>
    simp only [Off, hslot, hlock, hnoff, hcur, hctx]
  exacts [h.ctx, h.inj, h.cur, h.curS, h.locks, h.known, h.running, h.away, h.picked, h.on,
    h.off, h.own]

theorem Inv.learn (c : Nat) {st : Pr → Option ProcState}
    (hst : ∀ p x, st p = some x → .proc p ∈ (Λ (s.ctx c)).held ∧ (s.slot p).state = x) :
    Inv s (update Λ (s.ctx c) { Λ (s.ctx c) with st := st }) := by
  refine h.relock rfl rfl rfl rfl (fun _ _ _ => Iff.rfl) (h.locks c) (fun _ _ => rfl) hst ?_ fun _ _ => id
  intro p hp
  rw [hp]
  exact h.running c p hp

/-- A process that is not RUNNING, and whose lock another context holds, is current nowhere. -/
theorem Inv.off_of_held (hp : .proc p ∈ (Λ (s.ctx c)).held) (hne : s.ctx c ≠ .proc p)
    (hrun : (s.slot p).state ≠ .RUNNING) : Off s p := by
  intro d hd
  refine hrun (h.running d p hd fun hin => ?_)
  rw [← hd] at hin
  rw [h.holder hp hin] at hne
  exact hne hd

theorem Inv.change {b : Slot} (hp : .proc p ∈ (Λ (s.ctx c)).held) (hx : b.state = x)
    (hself : l.self = (Λ (s.ctx c)).self) (hheld : l.held = (Λ (s.ctx c)).held) (hon : l.on = (Λ (s.ctx c)).on)
    (hst : ∀ q y, l.st q = some y → (q = p ∧ y = x) ∨ (q ≠ p ∧ (Λ (s.ctx c)).st q = some y))
    (hrun : s.ctx c = .proc p ∨ (s.slot p).state ≠ .RUNNING)
    (hpick : (l.pick = (Λ (s.ctx c)).pick ∧ x ≠ .RUNNING ∧ l.pick ≠ some p) ∨
      (s.ctx c = .sched c ∧ l.pick = some p ∧ x = .RUNNING ∧ (Λ (s.ctx c)).pick = none))
    (hres : s.ctx c ≠ .proc p → x = .RUNNABLE ∨ x = .SLEEPING ∨ x = .RUNNING → Resumable (Λ (.proc p)) p)
    (hown1 : ∀ q r, (Λ (.proc q)).own = some (p, r) → s.ctx c = .proc q)
    (hown2 : ∀ np r, l.own = some (np, r) → (np ≠ p ∧ (Λ (s.ctx c)).own = some (np, r)) ∨
      (np = p ∧ r = false ∧ x = .USED ∧ s.ctx c ≠ .proc p))
    (hownS : l.self = none → l.own = none) : Inv (s.setSlot p b) (update Λ (s.ctx c) l) := by
  have hheld' := update_keep Local.held hheld
  have hon' := update_keep Local.on hon
  have hoffP : ∀ {q}, Off s q → update Λ (s.ctx c) l (.proc q) = Λ (.proc q) :=
    fun ho => update_of_ne (fun he => ho c he.symm) _ _
  have hOffp : s.ctx c ≠ .proc p → Off s p := fun hne => h.off_of_held hp hne (hrun.resolve_left hne)
  have hother : ∀ {q}, q ≠ p → ((s.setSlot p b).slot q).state = (s.slot q).state := fun hq => by
    rw [setSlot_state, if_neg hq]
  have hctx : (s.setSlot p b).ctx = s.ctx := rfl
  have hsame : ((s.setSlot p b).slot p).state = x := by rw [setSlot_state, if_pos rfl, hx]
  -- a scheduler's choice: the current context's own, or another's, of another process
  have hpick' : ∀ d, s.ctx d = .sched d → d ≠ c → update Λ (s.ctx c) l (.sched d) = Λ (.sched d) := by
    intro d hd hdc
    rw [← hd]
    exact h.update_ctx hdc
  constructor
  case kind =>
    refine kind_update h.kind ?_
    have hk := h.kind (s.ctx c)
    rcases h.ctx c with hc | ⟨q, hc⟩ <;> rw [hc] at hk hself hon hpick ⊢
    · exact ⟨hself.trans hk.1, hownS (hself.trans hk.1)⟩
    · exact ⟨hself.trans hk.1, (hpick.resolve_right fun hs => nomatch hs.1).1.trans hk.2.1, hon.trans hk.2.2⟩
  case ctx => exact h.ctx
  case inj => exact h.inj
  case cur => exact h.cur
  case curS => simp only [hon']; exact h.curS
  case locks => simp only [hheld']; exact h.locks
  case known =>
    intro d q y
    simp only [hctx, hheld']
    by_cases hd : d = c
    · rw [hd, update_self]
      intro hy
      rcases hst q y hy with ⟨rfl, rfl⟩ | ⟨hq, hy'⟩
      · exact ⟨hp, hsame⟩
      · rw [hother hq]
        exact h.known c q y hy'
    · rw [h.update_ctx hd]
      intro hy
      obtain ⟨h1, h2⟩ := h.known d q y hy
      refine ⟨h1, ?_⟩
      rw [hother ?_, h2]
      rintro rfl
      exact hd (h.holder h1 hp)
  case running =>
    intro d q
    simp only [hctx, hheld']
    intro hd hin
    by_cases hq : q = p
    · subst hq
      have hdc : d ≠ c := by
        rintro rfl
        rw [hd] at hp
        exact hin hp
      exact absurd (h.running d q hd hin) (hrun.resolve_left fun hc => hdc (h.inj d c q hd hc))
    · rw [hother hq]
      exact h.running d q hd hin
  case away =>
    intro d q hd
    rw [update_of_ne (h.ne_sched hd)]
    exact h.away d q hd
  case picked =>
    intro d q
    simp only [hctx, hheld']
    intro hd hq
    -- the chosen process keeps its state if it is not the slot
    have hkeep : (Λ (.sched d)).pick = some q → q ≠ p → .proc q ∈ (Λ (.sched d)).held ∧
      ((s.setSlot p b).slot q).state = .RUNNING ∧ Off s q ∧
        Resumable (update Λ (s.ctx c) l (.proc q)) q := by
      intro hpk hqp
      obtain ⟨h1, h2, h3, h4⟩ := h.picked d q hd hpk
      exact ⟨h1, by rw [hother hqp]; exact h2, h3, by rw [hoffP h3]; exact h4⟩
    by_cases hdc : d = c
    · subst hdc
      have hl : update Λ (s.ctx d) l (.sched d) = l := by rw [← hd, update_self]
      rw [hl] at hq
      rcases hpick with ⟨h1, _, h3⟩ | ⟨_, h2, h3, _⟩
      · rw [hd] at h1
        exact hkeep (h1 ▸ hq) fun hc => h3 (hc ▸ hq)
      · have hqp : q = p := Option.some.inj (hq.symm.trans h2)
        subst hqp
        have hne : s.ctx d ≠ .proc q := by
          rw [hd]
          nofun
        rw [← hd]
        exact ⟨hp, hsame.trans h3, hOffp hne, by rw [hoffP (hOffp hne)]; exact hres hne (.inr (.inr h3))⟩
    · rw [hpick' d hd hdc] at hq
      refine hkeep hq ?_
      rintro rfl
      have := (h.picked d q hd hq).1
      rw [← hd] at this
      exact hdc (h.holder this hp)
  case on => simp only [hon', hheld']; exact h.on
  case off =>
    intro q hq
    rw [hoffP hq]
    by_cases hqp : q = p
    · subst hqp
      rw [hsame]
      refine ⟨fun hx => hres (hq c) (hx.imp_right Or.inl), fun hx => ?_⟩
      rcases hpick with ⟨_, h2, _⟩ | ⟨h1, h2, _⟩
      · exact absurd hx h2
      · exact ⟨c, h1, by rw [← h1, update_self]; exact h2⟩
    · rw [hother hqp]
      refine ⟨(h.off q hq).1, fun hx => ?_⟩
      obtain ⟨d, hd, hpk⟩ := (h.off q hq).2 hx
      refine ⟨d, hd, ?_⟩
      by_cases hdc : d = c
      · subst hdc
        rw [← hd, update_self]
        rw [← hd] at hpk
        rcases hpick with ⟨h1, _⟩ | ⟨_, _, _, h4⟩
        · rw [h1, hpk]
        · rw [hpk] at h4
          cases h4
      · rw [hpick' d hd hdc, hpk]
  case own =>
    intro q np r
    have hkeep : (Λ (.proc q)).own = some (np, r) → np ≠ p → ((s.setSlot p b).slot np).state = .USED ∧ Off s np ∧
        (r = true → update Λ (s.ctx c) l (.proc np) = start (.proc np)) := by
      intro ho hnp
      obtain ⟨h1, h2, h3⟩ := h.own q np r ho
      exact ⟨by rw [hother hnp]; exact h1, h2, by rw [hoffP h2]; exact h3⟩
    by_cases ht : .proc q = s.ctx c
    · rw [ht, update_self]
      intro ho
      rcases hown2 np r ho with ⟨h1, h2⟩ | ⟨rfl, rfl, h3, h4⟩
      · rw [← ht] at h2
        exact hkeep h2 h1
      · exact ⟨hsame.trans h3, hOffp h4, nofun⟩
    · rw [update_of_ne ht]
      intro ho
      refine hkeep ho ?_
      rintro rfl
      exact ht (hown1 q r ho).symm
  case ownInj =>
    have hcase : ∀ {q1 q2 np r1 r2}, .proc q1 = s.ctx c → .proc q2 ≠ s.ctx c → l.own = some (np, r1) →
        (Λ (.proc q2)).own = some (np, r2) → q1 = q2 := by
      intro q1 q2 np r1 r2 h1 h2 ho1 ho2
      rcases hown2 np r1 ho1 with ⟨_, ho⟩ | ⟨rfl, _⟩
      · rw [← h1] at ho
        exact h.ownInj q1 q2 np r1 r2 ho ho2
      · exact absurd (hown1 q2 r2 ho2).symm h2
    intro q1 q2 np r1 r2
    by_cases h1 : .proc q1 = s.ctx c
    · by_cases h2 : .proc q2 = s.ctx c
      · intro _ _
        exact Ctx.proc.inj (h1.trans h2.symm)
      · rw [h1, update_self, update_of_ne h2]
        exact hcase h1 h2
    · by_cases h2 : .proc q2 = s.ctx c
      · rw [h2, update_self, update_of_ne h1]
        exact fun ho1 ho2 => (hcase h2 h1 ho2 ho1).symm
      · rw [update_of_ne h1, update_of_ne h2]
        exact h.ownInj q1 q2 np r1 r2

theorem Inv.acquire {lk : Lock} (hpre : lk ∉ (Λ (s.ctx c)).held) (hfree : s.lock lk = none) :
    Inv { s with lock := update s.lock lk (some c), noff := update s.noff c (s.noff c + 1) }
      (update Λ (s.ctx c) ((Λ (s.ctx c)).take lk)) := by
  have hlock : ∀ k d, d ≠ c → (update s.lock lk (some c) k = some d ↔ s.lock k = some d) := by
    intro k d hdc
    by_cases hk : k = lk
    · subst hk
      rw [update_self, hfree]
      exact ⟨fun hc => absurd (Option.some.inj hc).symm hdc, nofun⟩
    · rw [update_of_ne hk]
  refine h.relock rfl rfl rfl rfl hlock ⟨fun k => ?_, List.nodup_cons.mpr ⟨hpre, (h.locks c).nodup⟩, ?_⟩
    (fun d hdc => update_of_ne hdc _ _) ?_ ?_ ?_
  · show k ∈ lk :: _ ↔ _
    rw [List.mem_cons, h.held c k]
    by_cases hk : k = lk
    · subst hk
      simp
    · simp [hk]
  · rw [update_self, (h.locks c).noff]
    rfl
  · intro q x
    show (if lk = .proc q ∧ (Λ (s.ctx c)).self = some q then _ else _) = some x → _
    split
    · next hc =>
      intro hx
      cases hx
      refine ⟨by rw [← hc.1]; exact List.mem_cons_self, ?_⟩
      -- a process that does not hold its own lock is RUNNING
      have hctx : s.ctx c = .proc q := by
        rcases h.ctx c with hs | ⟨r, hr⟩
        · rw [hs, h.selfS c] at hc
          cases hc.2
        · rw [hr, h.selfP r] at hc
          rw [hr, Option.some.inj hc.2]
      rw [hctx, hc.1] at hpre
      exact h.running c q hctx hpre
    · intro hx
      obtain ⟨h1, h2⟩ := h.known c q x hx
      exact ⟨List.mem_cons_of_mem _ h1, h2⟩
  · intro q hq hin
    refine h.running c q hq fun hc => hin ?_
    rw [← hq] at hc
    exact List.mem_cons_of_mem _ hc
  · exact fun q _ hin => List.mem_cons_of_mem _ hin

theorem Inv.release {lk : Lock} (hpre : lk ∈ (Λ (s.ctx c)).held)
    (hmay : ∀ p, lk = .proc p → (Λ (s.ctx c)).MayRelease p) :
    Inv { s with lock := update s.lock lk none, noff := update s.noff c (s.noff c - 1) }
      (update Λ (s.ctx c) ((Λ (s.ctx c)).drop lk)) := by
  have hhold : s.lock lk = some c := (h.held c lk).mp hpre
  have hmem : ∀ k, k ∈ ((Λ (s.ctx c)).held.erase lk) ↔ k ≠ lk ∧ k ∈ (Λ (s.ctx c)).held :=
    fun k => (h.locks c).nodup.mem_erase_iff
  refine h.relock rfl rfl rfl rfl ?_ ⟨fun k => ?_, (h.locks c).nodup.erase lk, ?_⟩
    (fun d hdc => update_of_ne hdc _ _) ?_ ?_ ?_
  · intro k d hdc
    show update s.lock lk none k = some d ↔ _
    by_cases hk : k = lk
    · subst hk
      rw [update_self, hhold]
      exact ⟨nofun, fun hc => absurd (Option.some.inj hc).symm hdc⟩
    · rw [update_of_ne hk]
  · show k ∈ (Λ (s.ctx c)).held.erase lk ↔ update s.lock lk none k = some c
    rw [hmem k, h.held c k]
    by_cases hk : k = lk
    · subst hk
      simp
    · simp [hk]
  · rw [update_self, (h.locks c).noff]
    exact (List.length_erase_of_mem hpre).symm
  · intro q x
    show (if lk = .proc q then none else (Λ (s.ctx c)).st q) = some x → _
    split
    · exact nofun
    · next hne =>
      intro hx
      obtain ⟨h1, h2⟩ := h.known c q x hx
      exact ⟨(hmem _).mpr ⟨Ne.symm hne, h1⟩, h2⟩
  · intro q hq hin
    by_cases hk : lk = .proc q
    · have hself : (Λ (s.ctx c)).self = some q := by rw [hq, h.selfP]
      exact (h.known c q _ ((hmay q hk).1 hself)).2
    · refine h.running c q hq fun hc => hin ?_
      rw [← hq] at hc
      exact (hmem _).mpr ⟨Ne.symm hk, hc⟩
  · intro q hq hin
    refine (hmem _).mpr ⟨?_, hin⟩
    intro hc
    obtain ⟨_, h2, h3⟩ := hmay q hc.symm
    exact hq.elim h2 h3

theorem Inv.newContext (hown : (Λ (s.ctx c)).own = some (p, false)) :
    Inv s (update (update Λ (s.ctx c) { Λ (s.ctx c) with own := some (p, true) }) (.proc p)
      (start (.proc p))) := by
  obtain ⟨o, ho⟩ : ∃ o, s.ctx c = .proc o := by
    refine (h.ctx c).resolve_left fun hs => ?_
    rw [hs, h.ownS c] at hown
    cases hown
  rw [ho] at hown ⊢
  obtain ⟨hused, hoff, -⟩ := h.own o p false hown
  have hop : o ≠ p := by
    rintro rfl
    exact hoff c ho
  generalize hΛ : update (update Λ (.proc o) { Λ (.proc o) with own := some (p, true) }) (.proc p)
    (start (.proc p)) = Λ'
  have hnew : Λ' (.proc p) = start (.proc p) := by rw [← hΛ, update_self]
  have howner : Λ' (.proc o) = { Λ (.proc o) with own := some (p, true) } := by
    rw [← hΛ, update_of_ne (by simpa using hop), update_self]
  have hother : ∀ t, t ≠ .proc p → t ≠ .proc o → Λ' t = Λ t := by
    intro t h1 h2
    rw [← hΛ, update_of_ne h1, update_of_ne h2]
  have hsch : ∀ d, Λ' (.sched d) = Λ (.sched d) := fun d => hother _ nofun nofun
  -- only what is owned differs at a current context, and nothing where no context is current
  have hset : ∀ {γ : Type} (f : Local → γ), (∀ l w, f { l with own := w } = f l) → ∀ t, t ≠ .proc p → f (Λ' t) =
    f (Λ t) := by
    intro γ f hf t ht
    by_cases hto : t = .proc o
    · rw [hto, howner, hf]
    · rw [hother t ht hto]
  have hheld := hset Local.held fun _ _ => rfl
  have hst := hset Local.st fun _ _ => rfl
  have hres : ∀ q, q ≠ p → Resumable (Λ (.proc q)) q → Resumable (Λ' (.proc q)) q := fun q hq hr =>
    ⟨by rw [hheld _ (by simpa using hq)]; exact hr.held, by rw [hst _ (by simpa using hq)]; exact hr.st⟩
  constructor
  case kind =>
    rw [← hΛ]
    exact kind_update (kind_update h.kind (h.kind (.proc o))) ⟨rfl, rfl, rfl⟩
  case ctx => exact h.ctx
  case inj => exact h.inj
  case cur => exact h.cur
  case curS => simp only [hsch]; exact h.curS
  case locks =>
    intro d
    rw [hheld _ (hoff d)]
    exact h.locks d
  case known =>
    intro d
    rw [hheld _ (hoff d), hst _ (hoff d)]
    exact h.known d
  case running =>
    intro d q hd
    rw [← hd, hheld _ (hoff d), hd]
    exact h.running d q hd
  case away => simp only [hsch]; exact h.away
  case picked =>
    intro d q hd
    rw [hsch]
    intro hq
    obtain ⟨h1, h2, h3, h4⟩ := h.picked d q hd hq
    refine ⟨h1, h2, h3, hres q ?_ h4⟩
    rintro rfl
    rw [hused] at h2
    cases h2
  case on => simp only [hsch]; exact h.on
  case off =>
    intro q hq
    simp only [hsch]
    refine ⟨fun hx => hres q ?_ ((h.off q hq).1 hx), (h.off q hq).2⟩
    rintro rfl
    rw [hused] at hx
    exact hx.elim nofun nofun
  case own =>
    intro q np r hq
    by_cases hqp : q = p
    · rw [hqp, hnew] at hq
      cases hq
    · by_cases hqo : q = o
      · rw [hqo, howner] at hq
        cases hq
        exact ⟨hused, hoff, fun _ => hnew⟩
      · rw [hother _ (by simpa using hqp) (by simpa using hqo)] at hq
        obtain ⟨h1, h2, h3⟩ := h.own q np r hq
        refine ⟨h1, h2, fun hr => ?_⟩
        rw [hother _ ?_ (fun hc => h2 c (ho.trans hc.symm)), h3 hr]
        intro hc
        cases hc
        exact hqo (h.ownInj q o p r false hq hown)
  case ownInj =>
    intro q1 q2 np r1 r2
    have hback : ∀ q r, (Λ' (.proc q)).own = some (np, r) → ∃ r', (Λ (.proc q)).own = some (np, r') := by
      intro q r hq
      by_cases hqp : q = p
      · rw [hqp, hnew] at hq
        cases hq
      · by_cases hqo : q = o
        · rw [hqo, howner] at hq
          cases hq
          exact ⟨false, hqo ▸ hown⟩
        · rw [hother _ (by simpa using hqp) (by simpa using hqo)] at hq
          exact ⟨r, hq⟩
    intro h1 h2
    obtain ⟨r1', h1'⟩ := hback q1 r1 h1
    obtain ⟨r2', h2'⟩ := hback q2 r2 h2
    exact h.ownInj q1 q2 np r1' r2' h1' h2'

theorem Inv.ctx_sched (hs : (Λ (s.ctx c)).self = none) : s.ctx c = .sched c := by
  refine (h.ctx c).resolve_right fun hp => ?_
  obtain ⟨p, hp⟩ := hp
  rw [hp, h.selfP p] at hs
  cases hs

theorem Inv.ctx_proc (hs : (Λ (s.ctx c)).self = some p) : s.ctx c = .proc p := by
  rcases h.ctx c with hc | ⟨q, hc⟩
  · rw [hc, h.selfS c] at hs
    cases hs
  · rw [hc, h.selfP q] at hs
    rw [hc, Option.some.inj hs]

theorem Inv.setCur {v : Option Pr} (hs : (Λ (s.ctx c)).self = none)
    (hv : v = none ∧ (Λ (s.ctx c)).pick = none ∨ (Λ (s.ctx c)).on = none ∧ v = (Λ (s.ctx c)).pick) :
    Inv { s with cur := update s.cur c v } (update Λ (s.ctx c) { Λ (s.ctx c) with on := v }) := by
  have hc := h.ctx_sched hs
  rw [hc] at hv ⊢
  have hheld := update_keep (g := Λ) Local.held (a := .sched c) (b := { Λ (.sched c) with on := v }) rfl
  have hst := update_keep (g := Λ) Local.st (a := .sched c) (b := { Λ (.sched c) with on := v }) rfl
  have hpick := update_keep (g := Λ) Local.pick (a := .sched c) (b := { Λ (.sched c) with on := v }) rfl
  have hproc : ∀ q, update Λ (.sched c) { Λ (.sched c) with on := v } (.proc q) = Λ (.proc q) :=
    fun q => update_of_ne (by nofun) _ _
  have hsch : ∀ d, d ≠ c → update Λ (.sched c) { Λ (.sched c) with on := v } (.sched d) = Λ (.sched d) :=
    fun d hd => update_of_ne (by simpa using hd) _ _
  constructor
  case kind => exact kind_update h.kind (h.kind (.sched c))
  case ctx => exact h.ctx
  case inj => exact h.inj
  case cur =>
    intro d q hd
    have hdc : d ≠ c := by
      rintro rfl
      rw [hc] at hd
      cases hd
    show update s.cur c v d = _
    rw [update_of_ne hdc]
    exact h.cur d q hd
  case curS =>
    intro d hd
    show update s.cur c v d = _
    by_cases hdc : d = c
    · rw [hdc, update_self, update_self]
    · rw [update_of_ne hdc, hsch d hdc]
      exact h.curS d hd
  case locks => simp only [hheld]; exact h.locks
  case known => simp only [hheld, hst]; exact h.known
  case running => simp only [hheld]; exact h.running
  case away =>
    intro d q hd
    rw [hsch d ?_]
    · exact h.away d q hd
    · rintro rfl
      rw [hc] at hd
      cases hd
  case picked => simp only [hpick, hheld, hproc]; exact h.picked
  case on =>
    intro d q hd
    rw [hheld]
    by_cases hdc : d = c
    · subst hdc
      rw [update_self]
      intro hq
      replace hq : v = some q := hq
      rcases hv with ⟨h1, _⟩ | ⟨_, h2⟩
      · rw [h1] at hq
        cases hq
      · obtain ⟨h3, _, h5, _⟩ := h.picked d q hc (h2 ▸ hq)
        exact ⟨h3, h5⟩
    · rw [hsch d hdc]
      exact h.on d q hd
  case off => simp only [hpick, hproc]; exact h.off
  case own => simp only [hproc]; exact h.own
  case ownInj => simp only [hproc]; exact h.ownInj

theorem Inv.swtch (hs : (Λ (s.ctx c)).self = none) (hpk : (Λ (s.ctx c)).pick = some p)
    (hon : (Λ (s.ctx c)).on = some p) (hh : (Λ (s.ctx c)).held = [.proc p]) :
    Inv { s with ctx := update s.ctx c (.proc p) }
      (update Λ (s.ctx c) { Λ (s.ctx c) with pick := none, st := fun _ => none }) := by
  have hc := h.ctx_sched hs
  rw [hc] at hpk hon hh ⊢
  obtain ⟨-, hrun, hoffp, hres⟩ := h.picked c p hc hpk
  generalize hl : ({ Λ (.sched c) with pick := none, st := fun _ => none } : Local) = l
  have hproc : ∀ q, update Λ (.sched c) l (.proc q) = Λ (.proc q) :=
    fun q => update_of_ne (by nofun) _ _
  have hsch : ∀ d, d ≠ c → update Λ (.sched c) l (.sched d) = Λ (.sched d) :=
    fun d hd => update_of_ne (by simpa using hd) _ _
  have hcur : ∀ d, d ≠ c → update Λ (.sched c) l (s.ctx d) = Λ (s.ctx d) := fun d hd => hc ▸ h.update_ctx hd
  have hnow : ∀ d, ({ s with ctx := update s.ctx c (.proc p) } : Mem).ctx d =
      if d = c then .proc p else s.ctx d := fun d => update_apply ..
  have hheld : ∀ d, (update Λ (.sched c) l (({ s with ctx := update s.ctx c (.proc p) } : Mem).ctx d)).held =
      (Λ (s.ctx d)).held := h.switch_held hc (by nofun) (hres.held.trans hh.symm)
  have hoff : ∀ q, Off { s with ctx := update s.ctx c (.proc p) } q → Off s q ∧ q ≠ p := by
    intro q hq
    constructor
    · intro d hd
      by_cases hdc : d = c
      · rw [hdc, hc] at hd
        cases hd
      · exact hq d ((update_of_ne hdc ..).trans hd)
    · rintro rfl
      exact hq c (update_self ..)
  have hoff' : ∀ q, q ≠ p → Off s q → Off { s with ctx := update s.ctx c (.proc p) } q := by
    intro q hqp hq d hd
    exact hq d (turned hd (by simpa using hqp.symm)).2
  -- the lock of the process is not with another scheduler
  have hnot : ∀ d q, d ≠ c → s.ctx d = .sched d → .proc q ∈ (Λ (.sched d)).held → q ≠ p := by
    intro d q hdc hd hq hqp
    have hin : Lock.proc p ∈ (Λ (s.ctx c)).held := by
      rw [hc, hh]
      exact List.mem_singleton_self _
    rw [hqp, ← hd] at hq
    exact hdc (h.holder hq hin)
  constructor
  case kind => exact kind_update h.kind (by rw [← hl]; exact h.kind (.sched c))
  case ctx =>
    intro d
    rw [hnow]
    split
    · exact .inr ⟨p, rfl⟩
    · exact h.ctx d
  case inj =>
    intro d e q hd he
    rw [hnow] at hd he
    split at hd
    · cases hd
      split at he
      · simp_all
      · exact absurd he (hoffp e)
    · split at he
      · cases he
        exact absurd hd (hoffp d)
      · exact h.inj d e q hd he
  case cur =>
    intro d q hd
    rw [hnow] at hd
    split at hd
    · next hdc =>
      cases hd
      rw [hdc]
      exact (h.curS c hc).trans hon
    · exact h.cur d q hd
  case curS =>
    intro d hd
    obtain ⟨hdc, hd⟩ := turned hd (by nofun)
    rw [hsch d hdc]
    exact h.curS d hd
  case locks => simp only [hheld]; exact h.locks
  case known =>
    intro d q x
    rw [hnow]
    split
    · rw [hproc, hres.held, hres.st]
      intro hx
      split at hx
      · next hq =>
        cases hx
        rw [hq]
        exact ⟨List.mem_singleton_self _, hrun⟩
      · cases hx
    · next hdc =>
      rw [hcur d hdc]
      exact h.known d q x
  case running =>
    intro d q hd
    rw [hnow] at hd
    rw [hproc]
    split at hd
    · cases hd
      exact fun _ => hrun
    · exact h.running d q hd
  case away =>
    intro d q hd
    rw [hnow] at hd
    split at hd
    · next hdc =>
      cases hd
      rw [hdc, update_self, ← hl]
      exact ⟨hh, fun _ => rfl, rfl, hon⟩
    · next hdc =>
      rw [hsch d hdc]
      exact h.away d q hd
  case picked =>
    intro d q hd
    obtain ⟨hdc, hd⟩ := turned hd (by nofun)
    rw [hsch d hdc, hproc]
    intro hq
    obtain ⟨h1, h2, h3, h4⟩ := h.picked d q hd hq
    exact ⟨h1, h2, hoff' q (hnot d q hdc hd h1) h3, h4⟩
  case on =>
    intro d q hd
    obtain ⟨hdc, hd⟩ := turned hd (by nofun)
    rw [hsch d hdc]
    intro hq
    obtain ⟨h1, h2⟩ := h.on d q hd hq
    exact ⟨h1, hoff' q (hnot d q hdc hd h1) h2⟩
  case off =>
    intro q hq
    obtain ⟨hq, hqp⟩ := hoff q hq
    rw [hproc]
    refine ⟨(h.off q hq).1, fun hx => ?_⟩
    obtain ⟨d, hd, hpd⟩ := (h.off q hq).2 hx
    have hdc : d ≠ c := by
      rintro rfl
      exact hqp (Option.some.inj (hpd.symm.trans hpk))
    refine ⟨d, (update_of_ne hdc ..).trans hd, ?_⟩
    rw [hsch d hdc]
    exact hpd
  case own =>
    intro q np r
    rw [hproc, hproc]
    intro hq
    obtain ⟨h1, h2, h3⟩ := h.own q np r hq
    refine ⟨h1, hoff' np ?_ h2, h3⟩
    rintro rfl
    rw [show (s.slot np).state = .USED from h1] at hrun
    cases hrun
  case ownInj => simp only [hproc]; exact h.ownInj

theorem Inv.sched (hs : (Λ (s.ctx c)).self = some p)
    (hh : (Λ (s.ctx c)).held = [.proc p]) (hst : (Λ (s.ctx c)).st p = some x) (hx : x ≠ .RUNNING) :
    Inv { s with ctx := update s.ctx c (.sched c) } (update Λ (s.ctx c) (Λ (s.ctx c)).resumed) := by
  have hc := h.ctx_proc hs
  have hstate := (h.known c p x hst).2
  rw [hc] at hs hh hst ⊢
  have haway := h.away c p hc
  generalize hl : (Λ (.proc p)).resumed = l
  have hlheld : l.held = [.proc p] := by
    rw [← hl]
    exact hh
  have hproc : ∀ q, q ≠ p → update Λ (.proc p) l (.proc q) = Λ (.proc q) :=
    fun q hq => update_of_ne (by simpa using hq) _ _
  have hsch : ∀ d, update Λ (.proc p) l (.sched d) = Λ (.sched d) :=
    fun d => update_of_ne (by nofun) _ _
  have hown := update_keep (g := Λ) Local.own (a := .proc p) (b := l) (by rw [← hl]; rfl)
  have hcur : ∀ d, d ≠ c → update Λ (.proc p) l (s.ctx d) = Λ (s.ctx d) := fun d hd => hc ▸ h.update_ctx hd
  have hnow : ∀ d, ({ s with ctx := update s.ctx c (.sched c) } : Mem).ctx d =
      if d = c then .sched c else s.ctx d := fun d => update_apply ..
  have hheld : ∀ d, (update Λ (.proc p) l (({ s with ctx := update s.ctx c (.sched c) } : Mem).ctx d)).held =
      (Λ (s.ctx d)).held := h.switch_held hc (by nofun) (haway.held.trans hh.symm)
  have hprocd : ∀ {d q}, update s.ctx c (.sched c) d = .proc q → d ≠ c ∧ s.ctx d = .proc q :=
    fun hd => turned hd (by nofun)
  have hoff : ∀ q, q ≠ p → Off { s with ctx := update s.ctx c (.sched c) } q → Off s q := by
    intro q hqp hq d hd
    by_cases hdc : d = c
    · rw [hdc, hc] at hd
      cases hd
      exact hqp rfl
    · exact hq d ((update_of_ne hdc ..).trans hd)
  have hoff' : ∀ q, Off s q → Off { s with ctx := update s.ctx c (.sched c) } q := by
    intro q hq d hd
    exact hq d (hprocd hd).2
  have hoffp : Off { s with ctx := update s.ctx c (.sched c) } p := by
    intro d hd
    obtain ⟨h1, h2⟩ := hprocd hd
    exact h1 (h.inj d c p h2 hc)
  have hne : ∀ q, Off s q → q ≠ p := by
    rintro q hq rfl
    exact hq c hc
  have hresp : Resumable l p := by
    refine ⟨hlheld, fun q => ?_⟩
    rw [← hl]
    show (if _ then _ else _) = _
    rw [hs]
    by_cases hq : q = p
    · rw [hq, if_pos rfl, if_pos rfl]
    · rw [if_neg hq, if_neg fun hc => hq (Option.some.inj hc).symm]
  constructor
  case kind => exact kind_update h.kind (by rw [← hl]; exact h.kind (.proc p))
  case ctx =>
    intro d
    rw [hnow]
    split
    · next hdc => exact .inl (by rw [hdc])
    · exact h.ctx d
  case inj =>
    intro d e q hd he
    exact h.inj d e q (hprocd hd).2 (hprocd he).2
  case cur =>
    intro d q hd
    exact h.cur d q (hprocd hd).2
  case curS =>
    intro d hd
    rw [hsch]
    by_cases hdc : d = c
    · rw [hdc]
      exact (h.cur c p hc).trans haway.on.symm
    · rw [hnow, if_neg hdc] at hd
      exact h.curS d hd
  case locks => simp only [hheld]; exact h.locks
  case known =>
    intro d q y
    rw [hnow]
    split
    · rw [hsch, haway.st]
      nofun
    · next hdc =>
      rw [hcur d hdc]
      exact h.known d q y
  case running =>
    intro d q hd
    obtain ⟨hdc, hd⟩ := hprocd hd
    rw [hproc q fun hq => hdc (h.inj d c q hd (hq ▸ hc))]
    exact h.running d q hd
  case away =>
    intro d q hd
    rw [hsch]
    exact h.away d q (hprocd hd).2
  case picked =>
    intro d q hd
    rw [hsch]
    intro hq
    by_cases hdc : d = c
    · rw [hdc, haway.pick] at hq
      cases hq
    · rw [hnow, if_neg hdc] at hd
      obtain ⟨h1, h2, h3, h4⟩ := h.picked d q hd hq
      exact ⟨h1, h2, hoff' q h3, by rw [hproc q (hne q h3)]; exact h4⟩
  case on =>
    intro d q hd
    rw [hsch]
    intro hq
    by_cases hdc : d = c
    · rw [hdc, haway.on] at hq
      cases hq
      rw [hdc, haway.held]
      exact ⟨List.mem_singleton_self _, hoffp⟩
    · rw [hnow, if_neg hdc] at hd
      obtain ⟨h1, h2⟩ := h.on d q hd hq
      exact ⟨h1, hoff' q h2⟩
  case off =>
    intro q hq
    by_cases hqp : q = p
    · subst hqp
      rw [update_self]
      exact ⟨fun _ => hresp, fun hr => absurd (hstate.symm.trans hr) hx⟩
    · have ho := hoff q hqp hq
      rw [hproc q hqp]
      refine ⟨(h.off q ho).1, fun hr => ?_⟩
      obtain ⟨d, hd, hpd⟩ := (h.off q ho).2 hr
      have hdc : d ≠ c := by
        rintro rfl
        rw [hc] at hd
        cases hd
      exact ⟨d, (update_of_ne hdc ..).trans hd, by rw [hsch]; exact hpd⟩
  case own =>
    intro q np r
    rw [hown]
    intro hq
    obtain ⟨h1, h2, h3⟩ := h.own q np r hq
    exact ⟨h1, hoff' np h2, by rw [hproc np (hne np h2)]; exact h3⟩
  case ownInj => simp only [hown]; exact h.ownInj

theorem Inv.own_ne {np : Pr} {r : Bool} (hown : (Λ (s.ctx c)).own = some (np, r)) :
    ∃ q, s.ctx c = .proc q ∧ (Λ (.proc q)).own = some (np, r) ∧ (s.slot np).state = .USED ∧ Off s np := by
  rcases h.ctx c with hc | ⟨q, hc⟩
  · rw [hc, h.ownS c] at hown
    cases hown
  · rw [hc] at hown
    obtain ⟨h1, h2, _⟩ := h.own q np r hown
    exact ⟨q, hc, hown, h1, h2⟩

theorem Inv.pick_ne (hr : (s.slot p).state ≠ .RUNNING) : (Λ (s.ctx c)).pick ≠ some p := by
  intro hpk
  rcases h.ctx c with hc | ⟨q, hc⟩
  · rw [hc] at hpk
    exact hr (h.picked c p hc hpk).2.1
  · rw [hc, h.pickP q] at hpk
    cases hpk

end

theorem Local.setSt_known {x : Option ProcState} {q : Pr} {y : ProcState} (hy : (l.setSt p x).st q = some y) :
    (q = p ∧ x = some y) ∨ (q ≠ p ∧ l.st q = some y) := by
  replace hy : update l.st p x q = some y := hy
  by_cases hq : q = p
  · subst hq
    rw [update_self] at hy
    exact .inl ⟨rfl, hy⟩
  · rw [update_of_ne hq] at hy
    exact .inr ⟨hq, hy⟩

theorem Local.setSt_known_some {q : Pr} {y : ProcState}
    (hy : (l.setSt p (some x)).st q = some y) : (q = p ∧ y = x) ∨ (q ≠ p ∧ l.st q = some y) :=
  (Local.setSt_known hy).imp_left fun h => ⟨h.1, (Option.some.inj h.2).symm⟩

section
variable (h : Inv s Λ) (hp : .proc p ∈ (Λ (s.ctx c)).held)
include h hp

theorem Inv.change_self {b : Slot} {k : Pr → Option SleepCall} {t : Pr → Bool} {ex : List (Int × Int)}
    (hs : (Λ (s.ctx c)).self = some p) (hb : b.state = x) (hx : x ≠ .RUNNING) :
    Inv { s.setSlot p b with call := k, tested := t, exits := ex }
      (update Λ (s.ctx c) ((Λ (s.ctx c)).setSt p (some x))) := by
  have hc := h.ctx_proc hs
  refine .congr (h.change hp hb rfl rfl rfl (fun _ _ => Local.setSt_known_some) (.inl hc) (.inl ⟨rfl, hx, ?_⟩)
    (absurd hc) ?_ ?_ ?_) (fun _ => rfl) rfl rfl rfl rfl
  · show (Λ (s.ctx c)).pick ≠ some p
    rw [hc, h.pickP p]
    nofun
  · intro q r hq
    exact absurd hc ((h.own q p r hq).2.1 c)
  · intro np r hown
    replace hown : (Λ (s.ctx c)).own = some (np, r) := hown
    refine .inl ⟨?_, hown⟩
    rintro rfl
    obtain ⟨_, _, _, _, hoff⟩ := h.own_ne hown
    exact hoff c hc
  · intro hn
    exact absurd (hs.symm.trans hn) nofun

theorem Inv.change_runnable {b : Slot} (hpick : (Λ (s.ctx c)).pick ≠ some p) (hrun : (s.slot p).state ≠ .RUNNING)
    (hx : b.state = .RUNNABLE) (hself : l.self = (Λ (s.ctx c)).self) (hheld : l.held = (Λ (s.ctx c)).held)
    (hon : l.on = (Λ (s.ctx c)).on)
    (hpk : l.pick = (Λ (s.ctx c)).pick)
    (hst : ∀ q y, l.st q = some y → (q = p ∧ y = .RUNNABLE) ∨ (q ≠ p ∧ (Λ (s.ctx c)).st q = some y))
    (hres : Resumable (Λ (.proc p)) p) (hown1 : ∀ q r, (Λ (.proc q)).own = some (p, r) → s.ctx c = .proc q)
    (hown2 : ∀ np r, l.own = some (np, r) → np ≠ p ∧ (Λ (s.ctx c)).own = some (np, r)) :
    Inv (s.setSlot p b) (update Λ (s.ctx c) l) := by
  refine h.change hp hx hself hheld hon hst (.inr hrun) (.inl ⟨hpk, nofun, ?_⟩)
    (fun _ _ => hres) hown1 (fun np r ho => .inl (hown2 np r ho)) ?_
  · rw [hpk]
    exact hpick
  · intro hn
    rcases ho : l.own with _ | ⟨np, r⟩
    · rfl
    · have := (hown2 np r ho).2
      rw [h.ctx_sched (hself ▸ hn), h.ownS c] at this
      cases this

theorem Inv.setState (hm : (Λ (s.ctx c)).MaySet p x) :
    Inv (s.setSlot p { s.slot p with state := x }) (update Λ (s.ctx c) (upd (.setState p x) (Λ (s.ctx c)) ())) := by
  have hst : ∀ q y, (upd (.setState p x) (Λ (s.ctx c)) ()).st q = some y →
      (q = p ∧ y = x) ∨ (q ≠ p ∧ (Λ (s.ctx c)).st q = some y) := fun q y hy =>
    Local.setSt_known_some (l := Λ (s.ctx c)) hy
  have hknown : ∀ y, (Λ (s.ctx c)).st p = some y → (s.slot p).state = y := fun y hy => (h.known c p y hy).2
  rcases hm with ⟨hs, _, rfl⟩ | ⟨hs, hr, rfl, hpk, hon⟩ | ⟨hs, hr, rfl⟩ | ⟨_, _, ho, rfl⟩
  · have hupd : upd (.setState p .RUNNABLE) (Λ (s.ctx c)) () = (Λ (s.ctx c)).setSt p (some .RUNNABLE) :=
      Local.ext rfl rfl rfl (if_neg fun hc => hc.2 hs) rfl rfl
    rw [hupd]
    exact h.change_self hp hs rfl nofun
  · have hc := h.ctx_sched hs
    have hstate := hknown _ hr
    have hne : (s.slot p).state ≠ .RUNNING := by
      rw [hstate]
      nofun
    have hoffp : Off s p := h.off_of_held hp (by rw [hc]; nofun) hne
    refine h.change hp rfl rfl rfl rfl hst (.inr hne) (.inr ⟨hc, rfl, rfl, hpk⟩)
      (fun _ _ => (h.off p hoffp).1 (.inl hstate)) ?_ ?_ ?_
    · intro q r hq
      rw [(h.own q p r hq).1] at hstate
      cases hstate
    · intro np r hown
      replace hown : (if _ then none else (Λ (s.ctx c)).own) = some (np, r) := hown
      rw [hc, h.ownS c, ite_self] at hown
      cases hown
    · intro _
      show (if _ then none else (Λ (s.ctx c)).own) = none
      rw [hc, h.ownS c, ite_self]
  · have hstate := hknown _ hr
    have hne : (s.slot p).state ≠ .RUNNING := by
      rw [hstate]
      nofun
    have hoffp : Off s p := h.off_of_held hp (fun hc => hs (by rw [hc, h.selfP])) hne
    refine h.change_runnable hp (h.pick_ne hne) hne rfl rfl rfl rfl rfl hst
      ((h.off p hoffp).1 (.inr hstate)) ?_ ?_
    · intro q r hq
      rw [(h.own q p r hq).1] at hstate
      cases hstate
    · intro np r hown
      replace hown : (if _ then none else (Λ (s.ctx c)).own) = some (np, r) := hown
      split at hown
      · cases hown
      · refine ⟨?_, hown⟩
        rintro rfl
        obtain ⟨_, _, _, hu, _⟩ := h.own_ne hown
        rw [hu] at hstate
        cases hstate
  · obtain ⟨q0, hc, ho', hstate, hoffp⟩ := h.own_ne ho
    have hne : (s.slot p).state ≠ .RUNNING := by
      rw [hstate]
      nofun
    have hs : (Λ (s.ctx c)).self ≠ some p := fun hs => hoffp c (h.ctx_proc hs)
    refine h.change_runnable hp (h.pick_ne hne) hne rfl rfl rfl rfl rfl hst ?_ ?_ ?_
    · rw [(h.own q0 p true ho').2.2 rfl]
      exact ⟨rfl, fun _ => rfl⟩
    · intro q r hq
      rw [h.ownInj q q0 p r true hq ho', hc]
    · intro np r hown
      replace hown : (if _ then none else (Λ (s.ctx c)).own) = some (np, r) := hown
      rw [if_pos ⟨ho, hs⟩] at hown
      cases hown

theorem Inv.wake {ch : Chan} (hs : (Λ (s.ctx c)).self ≠ some p) :
    Inv (if (s.slot p).state = .SLEEPING ∧ (s.slot p).chan = ch then s.setSlot p
    { s.slot p with state := .RUNNABLE } else s)
      (update Λ (s.ctx c) ((Λ (s.ctx c)).setSt p none)) := by
  have hst : ∀ q y, ((Λ (s.ctx c)).setSt p none).st q = some y → q ≠ p ∧ (Λ (s.ctx c)).st q = some y :=
    fun q y hy => (Local.setSt_known hy).resolve_left fun hc => absurd hc.2 nofun
  split
  · next hsl =>
    have hne : (s.slot p).state ≠ .RUNNING := by
      rw [hsl.1]
      nofun
    have hoffp : Off s p := h.off_of_held hp (fun hc => hs (by rw [hc, h.selfP])) hne
    refine h.change_runnable hp (h.pick_ne hne) hne rfl rfl rfl rfl rfl
      (fun q y hy => .inr (hst q y hy)) ((h.off p hoffp).1 (.inr hsl.1)) ?_ ?_
    · intro q r hq
      exact absurd ((h.own q p r hq).1.symm.trans hsl.1) nofun
    · intro np r hown
      refine ⟨?_, hown⟩
      rintro rfl
      obtain ⟨_, _, _, hu, _⟩ := h.own_ne hown
      exact absurd (hu.symm.trans hsl.1) nofun
  · exact h.learn c fun q y hy => h.known c q y (hst q y hy).2

theorem Inv.found {o : Pr} {pid : Int}
    (hs : (Λ (s.ctx c)).self = some o) (hne : o ≠ p) (hst : (Λ (s.ctx c)).st p = some .UNUSED) :
    Inv (s.setSlot p { s.slot p with pid := pid, state := .USED })
      (update Λ (s.ctx c) { (Λ (s.ctx c)).setSt p (some .USED) with own := some (p, false) }) := by
  have hstate := (h.known c p _ hst).2
  have hc := h.ctx_proc hs
  have hcp : s.ctx c ≠ .proc p := by
    rw [hc]
    intro he
    cases he
    exact hne rfl
  have hrun : (s.slot p).state ≠ .RUNNING := by
    rw [hstate]
    nofun
  refine h.change hp rfl rfl rfl rfl (fun _ _ => Local.setSt_known_some) (.inr hrun)
    (.inl ⟨rfl, nofun, h.pick_ne hrun⟩) (fun _ hx => by rcases hx with hx | hx | hx <;> cases hx) ?_ ?_ ?_
  · intro q r hq
    exact absurd ((h.own q p r hq).1.symm.trans hstate) nofun
  · intro np r ho
    cases ho
    exact .inr ⟨rfl, rfl, rfl, hcp⟩
  · intro hn
    exact absurd (hs.symm.trans hn) nofun

theorem Inv.freeproc {o : Pr} (hs : (Λ (s.ctx c)).self = some o)
    (hf : (Λ (s.ctx c)).st p = some .ZOMBIE ∨ ∃ r, (Λ (s.ctx c)).own = some (p, r)) :
    Inv (s.setSlot p Slot.free) (update Λ (s.ctx c)
      { (Λ (s.ctx c)).setSt p (some .UNUSED) with
        own := if (Λ (s.ctx c)).own.map Prod.fst = some p then none else (Λ (s.ctx c)).own }) := by
  have hstate : (s.slot p).state = .ZOMBIE ∨ (s.slot p).state = .USED ∧ ∃ r, (Λ (s.ctx c)).own = some (p, r) := by
    rcases hf with hz | ⟨r, ho⟩
    · exact .inl (h.known c p _ hz).2
    · obtain ⟨_, _, _, hu, _⟩ := h.own_ne ho
      exact .inr ⟨hu, r, ho⟩
  have hrun : (s.slot p).state ≠ .RUNNING := by
    rcases hstate with hz | ⟨hu, _⟩
    · rw [hz]
      nofun
    · rw [hu]
      nofun
  refine h.change hp rfl rfl rfl rfl (fun _ _ => Local.setSt_known_some) (.inr hrun)
    (.inl ⟨rfl, nofun, h.pick_ne hrun⟩) (fun _ hx => by rcases hx with hx | hx | hx <;> cases hx) ?_ ?_ ?_
  · intro q r hq
    rcases hstate with hz | ⟨_, r', ho⟩
    · exact absurd ((h.own q p r hq).1.symm.trans hz) nofun
    · obtain ⟨q0, hc, ho', _⟩ := h.own_ne ho
      rw [hc, h.ownInj q q0 p r r' hq ho']
  · intro np r ho
    replace ho : (if (Λ (s.ctx c)).own.map Prod.fst = some p then none else (Λ (s.ctx c)).own) = some (np, r) := ho
    split at ho
    · cases ho
    · next hne =>
      refine .inl ⟨?_, ho⟩
      rintro rfl
      exact hne (by rw [ho]; rfl)
  · intro hn
    exact absurd (hs.symm.trans hn) nofun

end

theorem Inv.exec (h : Inv s Λ) {β : Type} (o : Op β) {x : Choice} {b : β} {fresh : Option Ctx}
    (hpre : pre o (Λ (s.ctx c))) (he : Proc.exec o (s.ctx c) c x s = .done b s' fresh) :
    res o (Λ (s.ctx c)) b ∧ Inv s' (renew start (update Λ (s.ctx c) (upd o (Λ (s.ctx c)) b)) fresh) := by
  have hsame : ∀ {s'}, Inv s' Λ → Inv s' (update Λ (s.ctx c) (Λ (s.ctx c))) := fun hi => by
    rwa [update_eq_self]
  -- operations that leave states, locks and contexts alone
  have hquiet : ∀ {s' : Mem}, (∀ p, (s'.slot p).state = (s.slot p).state) → s'.lock = s.lock → s'.noff = s.noff →
      s'.cur = s.cur → s'.ctx = s.ctx → Inv s' (update Λ (s.ctx c) (Λ (s.ctx c))) :=
    fun h1 h2 h3 h4 h5 => hsame (h.congr h1 h2 h3 h4 h5)
  have hslot : ∀ {p : Pr} {y : Slot}, y.state = (s.slot p).state → ∀ q, ((s.setSlot p y).slot q).state =
    (s.slot q).state := by
    intro p y hy q
    rw [setSlot_state]
    split
    · next hq => rw [hq, hy]
    · rfl
  cases o with
  | myproc =>
    cases he
    refine ⟨?_, hsame h⟩
    rcases h.ctx c with hc | ⟨p, hc⟩
    · rw [hc]
      exact .inr ⟨h.selfS c, h.curS c hc⟩
    · rw [hc]
      exact .inl ((h.cur c p hc).trans (h.selfP p).symm)
  | acquire lk =>
    obtain ⟨hfree, rfl, rfl⟩ := exec_acquire he
    exact ⟨trivial, h.acquire hpre hfree⟩
  | release lk =>
    obtain ⟨_, rfl, rfl⟩ := exec_release he
    exact ⟨trivial, h.release hpre.1 hpre.2⟩
  | slot p =>
    cases he
    refine ⟨fun y hy => (h.known c p y hy).2, ?_⟩
    show Inv s (update Λ (s.ctx c) (if _ then _ else _))
    split
    · next hin =>
      refine h.learn c fun q y hy => ?_
      rcases Local.setSt_known hy with ⟨rfl, hy⟩ | ⟨_, hy⟩
      · exact ⟨hin, Option.some.inj hy⟩
      · exact h.known c q y hy
    · exact hsame h
  | setState p y =>
    cases he
    exact ⟨trivial, h.setState hpre.1 hpre.2⟩
  | sleepOn p ch | zombie p status =>
    cases he
    exact ⟨trivial, h.change_self hpre.1 hpre.2.1 rfl nofun⟩
  | wake p ch =>
    cases he
    exact ⟨trivial, h.wake hpre.1 hpre.2.1⟩
  | found p pid =>
    cases he
    obtain ⟨h1, ⟨q, h2, h3, _⟩, h4, _⟩ := hpre
    exact ⟨trivial, h.found h1 h2 h3 h4⟩
  | freeproc p =>
    cases he
    obtain ⟨h1, ⟨q, h2, _⟩, h3⟩ := hpre
    exact ⟨trivial, h.freeproc h1 h2 (h3.imp_left And.left)⟩
  | newContext p =>
    cases he
    exact ⟨trivial, h.newContext hpre⟩
  | setCur v =>
    cases he
    exact ⟨trivial, h.setCur hpre.1 hpre.2⟩
  | swtch p =>
    cases he
    exact ⟨trivial, h.swtch hpre.1 hpre.2.1 hpre.2.2.1 hpre.2.2.2⟩
  | sched =>
    obtain ⟨p, y, h1, h2, h3, h4⟩ := hpre
    obtain ⟨rfl, rfl⟩ := exec_sched he
    exact ⟨trivial, h.sched h1 h2 h3 h4⟩
  | panic => cases he
  | clearChan p | setKilled p | setParent p q =>
    cases he
    exact ⟨trivial, hquiet (hslot rfl) rfl rfl rfl rfl⟩
  | cpuid | killed p mark | nextpid | choose | files | pipe | pput ch | ptake ok | pclose w | ticks | tick | cons
    | setCons co | sleepCall p ch lk | sleepRet p | wakeupRet ch | untest p | waitRet p pp pid status
    | readRet n count =>
      cases he
      exact ⟨trivial, hquiet (fun _ => rfl) rfl rfl rfl rfl⟩

theorem Inv.quiet (h : Inv s Λ) (hn : s.noff c = 0) : (Λ (s.ctx c)).Quiet := by
  have hheld : (Λ (s.ctx c)).held = [] := List.eq_nil_of_length_eq_zero ((h.locks c).noff.symm.trans hn)
  have hno : ∀ lk, lk ∉ (Λ (s.ctx c)).held := fun lk => by
    rw [hheld]
    exact List.not_mem_nil
  have hst : (Λ (s.ctx c)).st = fun _ => none := by
    funext p
    rcases hx : (Λ (s.ctx c)).st p with _ | x
    · rfl
    · exact absurd (h.known c p x hx).1 (hno _)
  refine ⟨hheld, hst, ?_, ?_⟩
  · rcases h.ctx c with hc | ⟨p, hc⟩
    · rw [hc] at hno ⊢
      rcases hx : (Λ (.sched c)).pick with _ | p
      · rfl
      · exact absurd (h.picked c p hc hx).1 (hno _)
    · rw [hc]
      exact h.pickP p
  · rcases h.ctx c with hc | ⟨p, hc⟩
    · rw [hc] at hno ⊢
      rcases hx : (Λ (.sched c)).on with _ | p
      · rfl
      · exact absurd (h.on c p hc hx).1 (hno _)
    · rw [hc]
      exact (h.kind (.proc p)).2.2

end

/-! ## All runs -/

theorem sound : Sound machine logic (fun _ _ _ => True) Inv Local.User Local.Quiet start where
  done o _ _ _ _ _ _ _ hI hpre _ he := hI.exec o hpre he
  isQuiet _ _ _ hI hn := hI.quiet (of_decide_eq_true hn)
  code t l hl := wp_mono (fun _ _ h => h ▸ hl) _ l (wp_usertrap hl t)
  handler d _ hl := wp_kerneltrap hl d
  entry
    | .proc p => wp_forkret p
    | .sched _ => wp_scheduler rfl rfl ⟨rfl, rfl, rfl, rfl⟩

theorem inv_boot (data : Nat → UInt8) : Inv (bootMem data) start where
  kind
    | .proc _ => ⟨rfl, rfl, rfl⟩
    | .sched _ => ⟨rfl, rfl⟩
  ctx _ := .inl rfl
  inj _ _ _ hc := nomatch hc
  cur _ _ hc := nomatch hc
  curS _ _ := rfl
  locks _ := ⟨fun _ => ⟨nofun, nofun⟩, List.nodup_nil, rfl⟩
  known _ _ _ hx := nomatch hx
  running _ _ hc := nomatch hc
  away _ _ hc := nomatch hc
  picked _ _ _ hp := nomatch hp
  on _ _ _ ho := nomatch ho
  off p _ := by
    refine ⟨fun _ => ⟨rfl, fun _ => rfl⟩, fun hx => ?_⟩
    replace hx : (if p = initproc then _ else Slot.free).state = .RUNNING := hx
    split at hx <;> cases hx
  own _ _ _ ho := nomatch ho
  ownInj _ _ _ _ _ ho := nomatch ho

theorem good_initial (s : State) (h : Initial s) : Good logic Inv Local.User s := by
  obtain ⟨data, rfl⟩ := h
  exact ⟨start, inv_boot data, sound.entry⟩

theorem good {s : State} (h : Reachable s) : Good logic Inv Local.User s :=
  sound.reach_all (fun _ _ _ => trivial) good_initial h

section
variable {s s' : Mem} {Λ : Ctx → Local} {c : Nat} {p : Pr}

/-- The lock of a process is held across a context switch: by a scheduler, while the
process is current nowhere, or by the process itself, which is not RUNNING any more. -/
def Across (s : Mem) (c : Nat) (p : Pr) : Prop :=
  s.lock (.proc p) = some c ∧ (s.ctx c = .sched c ∧ Off s p ∨ s.ctx c = .proc p ∧ (s.slot p).state ≠ .RUNNING)

theorem Inv.cur_inj (h : Inv s Λ) (hc : s.cur c = some p) (hd : s.cur d = some p) : c = d := by
  -- a scheduler that has the process in `c->proc` holds its lock, and no processor is at it
  have hsched : ∀ {c}, s.ctx c = .sched c → s.cur c = some p → .proc p ∈ (Λ (s.ctx c)).held ∧ Off s p := by
    intro c hc hp
    rw [h.curS c hc] at hp
    rw [hc]
    exact h.on c p hc hp
  have hproc : ∀ {c q}, s.ctx c = .proc q → s.cur c = some p → s.ctx c = .proc p := by
    intro c q hc hp
    rw [h.cur c q hc] at hp
    cases hp
    exact hc
  rcases h.ctx c with h1 | ⟨q, h1⟩ <;> rcases h.ctx d with h2 | ⟨r, h2⟩
  · exact h.holder (hsched h1 hc).1 (hsched h2 hd).1
  · exact absurd (hproc h2 hd) ((hsched h1 hc).2 d)
  · exact absurd (hproc h1 hc) ((hsched h2 hd).2 c)
  · exact h.inj c d p (hproc h1 hc) (hproc h2 hd)

theorem Inv.running_iff (h : Inv s Λ) (hw : ∀ c, ¬ Across s c p) :
    (s.slot p).state = .RUNNING ↔ ∃! c, s.cur c = some p := by
  constructor
  · intro hr
    by_cases ho : Off s p
    · obtain ⟨c, hc, hpk⟩ := (h.off p ho).2 hr
      have hin := (h.picked c p hc hpk).1
      rw [← hc] at hin
      exact absurd ⟨(h.held c _).mp hin, .inl ⟨hc, ho⟩⟩ (hw c)
    · obtain ⟨c, hc⟩ := not_forall.mp ho
      rw [not_not] at hc
      exact ⟨c, h.cur c p hc, fun d hd => h.cur_inj hd (h.cur c p hc)⟩
  · rintro ⟨c, hc, -⟩
    rcases h.ctx c with h1 | ⟨q, h1⟩
    · have hon := h.on c p h1 ((h.curS c h1).symm.trans hc)
      rw [← h1] at hon
      exact absurd ⟨(h.held c _).mp hon.1, .inl ⟨h1, hon.2⟩⟩ (hw c)
    · have hq : q = p := Option.some.inj ((h.cur c q h1).symm.trans hc)
      subst hq
      by_contra hne
      have hin : Lock.proc q ∈ (Λ (.proc q)).held := by
        by_contra hin
        exact hne (h.running c q h1 hin)
      rw [← h1] at hin
      exact hw c ⟨(h.held c _).mp hin, .inr ⟨h1, hne⟩⟩

/-- From the state change on, until `c->proc` is cleared, the processor has the lock. -/
theorem Inv.locked (h : Inv s Λ) (hc : s.cur c = some p) (hx : (s.slot p).state ≠ .RUNNING ∨ s.ctx c = .sched c) :
    s.lock (.proc p) = some c := by
  rcases h.ctx c with h1 | ⟨q, h1⟩
  · have hin := (h.on c p h1 ((h.curS c h1).symm.trans hc)).1
    rw [← h1] at hin
    exact (h.held c _).mp hin
  · have hq : q = p := Option.some.inj ((h.cur c q h1).symm.trans hc)
    subst hq
    have hne : (s.slot q).state ≠ .RUNNING := hx.resolve_right fun hc => by
      rw [h1] at hc
      cases hc
    refine (h.held c _).mp ?_
    rw [h1]
    by_contra hin
    exact hne (h.running c q h1 hin)

/-- A context that becomes current was saved, and its scheduler had the lock. -/
theorem Inv.entered (h : Inv s Λ) {β : Type} (o : Op β) {x : Choice} {b : β} {fresh : Option Ctx}
    (hpre : pre o (Λ (s.ctx c))) (he : Proc.exec o (s.ctx c) c x s = .done b s' fresh)
    (hp : s'.ctx d = .proc p) (hne : s.ctx d ≠ .proc p) :
    s.ctx d = .sched d ∧ s.cur d = some p ∧ Off s p ∧ s.lock (.proc p) = some d := by
  cases o with
  | swtch q =>
    cases he
    replace hp : update s.ctx c (.proc q) d = .proc p := hp
    by_cases hd : d = c
    · subst hd
      rw [update_self] at hp
      cases hp
      obtain ⟨hs, _, hon, hh⟩ := hpre
      have hc := h.ctx_sched hs
      refine ⟨hc, (h.curS d hc).trans (hc ▸ hon), (h.on d p hc (hc ▸ hon)).2, (h.held d _).mp ?_⟩
      rw [hh]
      exact List.mem_singleton_self _
    · rw [update_of_ne hd] at hp
      exact absurd hp hne
  | sched =>
    obtain ⟨rfl, rfl⟩ := exec_sched he
    replace hp : update s.ctx c (.sched c) d = .proc p := hp
    by_cases hd : d = c
    · rw [hd, update_self] at hp
      cases hp
    · rw [update_of_ne hd] at hp
      exact absurd hp hne
  | acquire lk =>
    obtain ⟨_, rfl, rfl⟩ := exec_acquire he
    exact absurd hp hne
  | release lk =>
    obtain ⟨_, rfl, rfl⟩ := exec_release he
    exact absurd hp hne
  | wake q ch =>
    cases he
    refine absurd ?_ hne
    rw [← hp]
    split <;> rfl
  | panic => cases he
  | _ =>
    cases he
    exact absurd hp hne

/-- While a process is being switched out, its lock stays with the processor. -/
theorem Inv.keeps_lock (h : Inv s Λ) {β : Type} (o : Op β) {x : Choice} {b : β} {fresh : Option Ctx}
    (hpre : pre o (Λ (s.ctx c))) (he : Proc.exec o (s.ctx c) c x s = .done b s' fresh) (hcur : s.cur d = some p)
    (hx : (s.slot p).state ≠ .RUNNING ∨ s.ctx d = .sched d) : s'.lock (.proc p) = some d := by
  have hlock := h.locked hcur hx
  cases o with
  | acquire lk =>
    obtain ⟨hfree, rfl, rfl⟩ := exec_acquire he
    show update s.lock lk (some c) (.proc p) = some d
    rw [update_of_ne ?_]
    · exact hlock
    · rintro rfl
      rw [hfree] at hlock
      cases hlock
  | release lk =>
    obtain ⟨hhold, rfl, rfl⟩ := exec_release he
    show update s.lock lk none (.proc p) = some d
    rw [update_of_ne ?_]
    · exact hlock
    · rintro rfl
      -- the process would be RUNNING, or `c->proc` cleared
      have hdc : c = d := Option.some.inj (hhold.symm.trans hlock)
      subst hdc
      obtain ⟨hrun, _, hon⟩ := hpre.2 p rfl
      rcases h.ctx c with hc | ⟨q, hc⟩
      · rw [hc] at hon
        exact hon ((h.curS c hc).symm.trans hcur)
      · have hq : q = p := Option.some.inj ((h.cur c q hc).symm.trans hcur)
        subst hq
        have hst := (h.known c q _ (hrun (by rw [hc, h.selfP]))).2
        refine hx.elim (fun hne => hne hst) fun hs => ?_
        rw [hc] at hs
        cases hs
  | sched =>
    obtain ⟨rfl, rfl⟩ := exec_sched he
    exact hlock
  | wake q ch =>
    cases he
    rw [← hlock]
    split <;> rfl
  | panic => cases he
  | _ =>
    cases he
    exact hlock

end

/-- Two processors never have the same process in `c->proc`.  Unless its lock is held
across a switch, a process is RUNNING exactly when one processor has it.  From the
change of its state to the release by the scheduler, the lock is with the processor
that ran the process.  Only its scheduler enters a process, which then is current
nowhere, and whose lock that scheduler holds. -/
theorem runs_on_one_cpu {s : State} (h : Reachable s) :
    (∀ c d p, s.shared.cur c = some p → s.shared.cur d = some p → c = d) ∧
    (∀ p, (∀ c, ¬ Across s.shared c p) → ((s.shared.slot p).state = .RUNNING ↔ ∃! c, s.shared.cur c = some p)) ∧
    (∀ c p, s.shared.cur c = some p → (s.shared.slot p).state ≠ .RUNNING ∨ s.shared.ctx c = .sched c →
      s.shared.lock (.proc p) = some c ∧ ∀ a s', step machine s a = some s' → s'.shared.lock (.proc p) = some c) ∧
    ∀ a s', step machine s a = some s' → ∀ c p, s'.shared.ctx c = .proc p → s.shared.ctx c ≠ .proc p →
      s.shared.ctx c = .sched c ∧ s.shared.cur c = some p ∧ Off s.shared p ∧ s.shared.lock (.proc p) = some c := by
  obtain ⟨Λ, hI, hw⟩ := good h
  refine ⟨fun c d p => hI.cur_inj, fun p => hI.running_iff, fun c p hc hx => ⟨hI.locked hc hx, ?_⟩, ?_⟩
  · intro a s' hs
    rcases shared_of_step hw hs with he | ⟨β, o, d, x, b, fresh, _, hpre, he⟩
    · rw [he]
      exact hI.locked hc hx
    · exact hI.keeps_lock o hpre he hc hx
  · intro a s' hs c p hp hne
    rcases shared_of_step hw hs with he | ⟨β, o, d, x, b, fresh, _, hpre, he⟩
    · rw [he] at hp
      exact absurd hp hne
    · exact hI.entered o hpre he hp hne

/-- The scheduler of processor 0 takes up the first process. -/
theorem runs_on_one_cpu_init : ∃ s, Reachable s ∧ (s.shared.slot initproc).state = .RUNNING ∧
    ∃! c, s.shared.cur c = some initproc := by
  have hview : (Run.run (step machine) (boot fun _ => 0) (steps 0 9)).map
      (fun s => ((s.shared.slot initproc).state, s.shared.lock (.proc initproc))) = some (.RUNNING, none) := by
    decide +kernel
  obtain ⟨s, hs, hv⟩ := Option.map_eq_some_iff.mp hview
  have hr : Reachable s := Run.Reach.of_run (fun _ _ => trivial) _ (.start ⟨_, rfl⟩) hs
  obtain ⟨hrun, hfree⟩ := Prod.ext_iff.mp hv
  refine ⟨s, hr, hrun, ((runs_on_one_cpu hr).2.1 initproc fun c hc => ?_).mp hrun⟩
  exact absurd (hfree.symm.trans hc.1) nofun

end Xv6.Proc
