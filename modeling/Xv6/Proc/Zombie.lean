import Xv6.Proc.Wakeup

/-!
# A waiting parent never sleeps on a zombie

All that makes a process a ZOMBIE child of another happens under `wait_lock`: `exit`
wakes the parent before it becomes a ZOMBIE, and `reparent` wakes the first process
after it has given it a child.  A process that comes to sleep in `wait` has looked at
all slots since it took `wait_lock`.
-/

namespace Xv6.Proc.Zombie

open Cpus
open Function (update update_eq_self update_of_ne update_self)
open Wakeup (Known isSlot)

/-! ## The layer -/

/-- What a context that holds `wait_lock` knows about parents and children. -/
@[ext] structure Kin where
  /-- Slots that are no ZOMBIE children of the process. -/
  scanned : List Pr
  /-- The parent of the process, when it has read it. -/
  parent : Option (Option Pr)
  /-- It has given a child to the first process and has not woken it since. -/
  debt : Bool

def Kin.fresh : Kin := ⟨[], none, false⟩

def Kin.read (x : Kin) (self : Option Pr) (p : Pr) (b : Slot) : Kin :=
  { x with
    scanned := if b.state = .ZOMBIE ∧ b.parent = self then x.scanned else p :: x.scanned
    parent := if self = some p then some b.parent else x.parent }

def pre {β : Type} (o : Op β) (l : Local × Known) (x : Kin) : Prop :=
  match o with
  | .release lk => lk = .wait → x.debt = false
  | .sleepCall p ch lk => ∀ r, ch = .proc r → r = p ∧ lk = .wait ∧ ∀ z, z ∈ x.scanned
  | .zombie _ _ => ∃ par, x.parent = some par ∧ chanOf par ∈ l.2.woken
  | _ => True

def upd {β : Type} (o : Op β) (l : Local × Known) (x : Kin) (b : β) : Kin :=
  match o with
  | .acquire lk | .release lk => if lk = .wait then .fresh else x
  | .slot p => if .wait ∈ l.1.held then x.read l.1.self p b else x
  | .setParent _ _ => ⟨[], none, x.debt || l.1.own.isNone⟩
  | .zombie _ _ => { x with scanned := [] }
  | .wakeupRet ch => if ch = .proc initproc ∧ l.1.self ≠ some initproc then { x with debt := false } else x
  | _ => x

def layer : Layer Op (Local × Known) Kin := ⟨pre, fun _ _ _ _ => True, upd⟩

/-- A process that sleeps in `wait`, or is about to and does not look again. -/
def Waits (s : Mem) (q : Pr) : Prop :=
  ∃ sl, s.call q = some ⟨.proc q, .wait, sl⟩ ∧ (sl = false ∨ (s.slot q).state = .SLEEPING)

/-- The slot is not a ZOMBIE with this parent. -/
def NoZombie (s : Mem) (q z : Pr) : Prop := (s.slot z).state = .ZOMBIE → (s.slot z).parent ≠ some q

/-- What the process `q` has seen is so. -/
structure Kin.Ok (s : Mem) (q : Pr) (x : Kin) : Prop where
  scanned : ∀ z, z ∈ x.scanned → NoZombie s q z
  parent : ∀ par, x.parent = some par → (s.slot q).parent = par

theorem Kin.Ok.fresh (s : Mem) (q : Pr) : Kin.Ok s q .fresh := ⟨nofun, nofun⟩

structure Inv (s : Mem) (Λ : Ctx → Local × Known) (N : Ctx → Kin) : Prop where
  kin : ∀ p r lk sl, s.call p = some ⟨.proc r, lk, sl⟩ → r = p ∧ lk = .wait
  seen : ∀ c q, s.ctx c = .proc q → Kin.Ok s q (N (.proc q))
  waits : ∀ q, Waits s q → (∀ z, NoZombie s q z) ∨
    (q = initproc ∧ ∃ c, s.lock .wait = some c ∧ (N (s.ctx c)).debt = true)
  rest : ∀ t, .wait ∉ (Λ t).1.held → N t = .fresh

variable {x : Kin} {l : Local × Known} {p : Pr}

section
variable {s s' : Mem} {Λ Λ' : Ctx → Local × Known} {N : Ctx → Kin} {c : Nat} {p : Pr}

theorem Inv.fresh (hi : Proc.Inv s fun t => (Λ t).1) (h : Inv s Λ N) (hw : s.lock .wait ≠ some c) :
    N (s.ctx c) = .fresh :=
  h.rest _ fun hin => hw ((hi.held c _).mp hin)

theorem Inv.held_congr (h : Inv s Λ N) (hheld : ∀ t, (Λ' t).1.held = (Λ t).1.held) : Inv s Λ' N :=
  { h with rest := fun t ht => h.rest t (hheld t ▸ ht) }

theorem Waits.of_slot {q : Pr} {y : Slot} (hslot : s'.slot = update s.slot p y) (hcall : s'.call = s.call)
    (hy : y.state = .SLEEPING → (s.slot p).state = .SLEEPING) (h : Waits s' q) : Waits s q := by
  obtain ⟨sl, h1, h2⟩ := h
  rw [hcall] at h1
  refine ⟨sl, h1, h2.imp_right fun hx => ?_⟩
  rw [hslot] at hx
  by_cases hq : q = p
  · rw [hq, update_self] at hx
    exact hq ▸ hy hx
  · rwa [update_of_ne hq] at hx

theorem NoZombie.slot {q z : Pr} {y : Slot} (hslot : s'.slot = update s.slot p y)
    (hy : z = p → y.state = .ZOMBIE → y.parent ≠ some q) (h : z ≠ p → NoZombie s q z) : NoZombie s' q z := by
  rw [NoZombie, hslot]
  by_cases hz : z = p
  · rw [hz, update_self]
    exact hy hz
  · rw [update_of_ne hz]
    exact h hz

/-- The holder of `wait_lock` owes the wakeup of the first process. -/
theorem Inv.owes {q : Pr} (h : Inv s Λ N) (hw : s.lock .wait = some c) (hq : Waits s q) :
    (∀ z, NoZombie s q z) ∨ (q = initproc ∧ (N (s.ctx c)).debt = true) := by
  refine (h.waits q hq).imp_right fun ⟨hq, d, hd, hdebt⟩ => ⟨hq, ?_⟩
  rwa [Option.some.inj (hd.symm.trans hw)] at hdebt

theorem Inv.frame (h : Inv s Λ N) (hlock : s'.lock = s.lock) (hctx : s'.ctx = s.ctx)
    (hkin : ∀ p r lk sl, s'.call p = some ⟨.proc r, lk, sl⟩ → r = p ∧ lk = .wait)
    (hz : ∀ q z, NoZombie s q z → NoZombie s' q z)
    (hpar : ∀ d q, s.ctx d = .proc q → (s'.slot q).parent = (s.slot q).parent)
    (hwaits : ∀ q, Waits s' q → Waits s q) : Inv s' Λ N where
  kin := hkin
  seen d q hd := by
    rw [hctx] at hd
    have ho := h.seen d q hd
    exact ⟨fun z hin => hz q z (ho.scanned z hin), fun par hp => (hpar d q hd).trans (ho.parent par hp)⟩
  waits q hq := by
    rw [hlock, hctx]
    exact (h.waits q (hwaits q hq)).imp_left fun hn z => hz q z (hn z)
  rest := h.rest

theorem Inv.mine (hi : Proc.Inv s fun t => (Λ t).1) (h : Inv s Λ N) (hw : s.lock .wait = some c)
    (hlock : s'.lock = s.lock) (hctx : s'.ctx = s.ctx)
    (hkin : ∀ p r lk sl, s'.call p = some ⟨.proc r, lk, sl⟩ → r = p ∧ lk = .wait)
    (hseen : ∀ q, s.ctx c = .proc q → Kin.Ok s' q x)
    (hwaits : ∀ q, Waits s' q → (∀ z, NoZombie s' q z) ∨ (q = initproc ∧ x.debt = true)) :
    Inv s' Λ (update N (s.ctx c) x) := by
  have hother : ∀ d, d ≠ c → N (s.ctx d) = .fresh := fun d hd =>
    Inv.fresh hi h fun hc => hd (Option.some.inj (hc.symm.trans hw))
  have hnow : ∀ d, update N (s.ctx c) x (s.ctx d) = if d = c then x else N (s.ctx d) := by
    intro d
    by_cases hd : d = c
    · rw [if_pos hd, hd, update_self]
    · rw [if_neg hd, update_of_ne fun he => hd (hi.ctx_inj he)]
  constructor
  case kin => exact hkin
  case seen =>
    intro d q hd
    rw [hctx] at hd
    rw [← hd, hnow]
    split
    · next hdc => exact hseen q (hdc ▸ hd)
    · next hdc =>
      rw [hother d hdc]
      exact .fresh s' q
  case waits =>
    intro q hq
    rw [hlock, hctx]
    refine (hwaits q hq).imp_right fun hd => ⟨hd.1, c, hw, ?_⟩
    rw [update_self]
    exact hd.2
  case rest =>
    intro t ht
    rw [update_of_ne ?_]
    · exact h.rest t ht
    · rintro rfl
      exact ht ((hi.held c _).mpr hw)

theorem Inv.relock (h : Inv s Λ N) {lk : Lock} {f : Lock → Option Nat} {g : Nat → Nat}
    (hlock : lk ≠ .wait → f .wait = s.lock .wait)
    (hheld : lk ≠ .wait → .wait ∉ l.1.held → .wait ∉ (Λ (s.ctx c)).1.held)
    (hwait : lk = .wait → ∀ d, s.lock .wait = some d → d = c ∧ (N (s.ctx c)).debt = false) :
    Inv { s with lock := f, noff := g } (update Λ (s.ctx c) l)
      (update N (s.ctx c) (if lk = .wait then .fresh else N (s.ctx c))) := by
  -- a context knows no more than before
  have hnow : ∀ t, update N (s.ctx c) (if lk = .wait then .fresh else N (s.ctx c)) t = N t ∨
      t = s.ctx c ∧ lk = .wait ∧
        update N (s.ctx c) (if lk = .wait then .fresh else N (s.ctx c)) t = .fresh := by
    intro t
    by_cases ht : t = s.ctx c
    · by_cases hlk : lk = .wait
      · rw [ht, update_self, if_pos hlk]
        exact .inr ⟨rfl, hlk, rfl⟩
      · rw [ht, update_self, if_neg hlk]
        exact .inl rfl
    · exact .inl (update_of_ne ht ..)
  constructor
  case kin => exact h.kin
  case seen =>
    intro d q hd
    rcases hnow (.proc q) with he | ⟨_, _, he⟩ <;> rw [he]
    · exact ⟨(h.seen d q hd).scanned, (h.seen d q hd).parent⟩
    · exact .fresh _ q
  case waits =>
    intro q hq
    rcases h.waits q hq with hn | ⟨hq, d, hd, hdebt⟩
    · exact .inl hn
    · have hlk : lk ≠ .wait := by
        intro hlk
        obtain ⟨rfl, hf⟩ := hwait hlk d hd
        rw [hf] at hdebt
        cases hdebt
      refine .inr ⟨hq, d, (hlock hlk).trans hd, ?_⟩
      rcases hnow (s.ctx d) with he | ⟨_, hc, _⟩
      · rw [he]
        exact hdebt
      · exact absurd hc hlk
  case rest =>
    intro t ht
    by_cases htc : t = s.ctx c
    · subst htc
      rw [update_self] at ht ⊢
      split
      · rfl
      · next hlk => exact h.rest _ (hheld hlk ht)
    · rw [update_of_ne htc] at ht ⊢
      exact h.rest t ht

theorem Inv.switch (hi : Proc.Inv s fun t => (Λ t).1) (h : Inv s Λ N) {t : Ctx}
    (hold : (Λ (s.ctx c)).1.held = [.proc p]) (hnew : (Λ t).1.held = [.proc p]) :
    Inv { s with ctx := update s.ctx c t } Λ N := by
  have hcur : ∀ {d q}, update s.ctx c t d = .proc q → N (.proc q) = .fresh ∨ s.ctx d = .proc q := by
    intro d q hd
    by_cases hdc : d = c
    · rw [hdc, update_self] at hd
      rw [← hd]
      exact .inl (h.rest t (by rw [hnew]; simp))
    · exact .inr ((update_of_ne hdc ..).symm.trans hd)
  constructor
  case kin => exact h.kin
  case seen =>
    intro d q hd
    rcases hcur hd with hf | hd
    · rw [hf]
      exact .fresh _ q
    · exact ⟨(h.seen d q hd).scanned, (h.seen d q hd).parent⟩
  case waits =>
    intro q hq
    refine (h.waits q hq).imp_right fun ⟨hq, d, hd, hdebt⟩ => ⟨hq, d, hd, ?_⟩
    have hdc : d ≠ c := by
      rintro rfl
      have hin := (hi.held d _).mpr hd
      rw [hold] at hin
      cases List.mem_singleton.mp hin
    show (N (update s.ctx c t d)).debt = true
    rw [update_of_ne hdc]
    exact hdebt
  case rest => exact h.rest

theorem Inv.newContext (h : Inv s Λ N) (hoff : Off s p) (hheld : ∀ t, t ≠ .proc p → (Λ' t).1.held = (Λ t).1.held) :
    Inv s Λ' (update N (.proc p) .fresh) where
  kin := h.kin
  seen d q hd := by
    rw [update_of_ne (hd ▸ hoff d)]
    exact h.seen d q hd
  waits q hq := by
    refine (h.waits q hq).imp_right fun ⟨hi, d, hd, hdebt⟩ => ⟨hi, d, hd, ?_⟩
    rw [update_of_ne (hoff d)]
    exact hdebt
  rest t ht := by
    by_cases htp : t = .proc p
    · rw [htp, update_self]
    · rw [update_of_ne htp]
      rw [hheld t htp] at ht
      exact h.rest t ht

theorem Inv.frame_slot (h : Inv s Λ N) {y : Slot}
    (hz : y.state = .ZOMBIE → (s.slot p).state = .ZOMBIE ∧ y.parent = (s.slot p).parent)
    (hpar : y.parent = (s.slot p).parent ∨ Off s p) (hsleep : y.state = .SLEEPING → (s.slot p).state = .SLEEPING) :
    Inv (s.setSlot p y) Λ N := by
  have hslot : (s.setSlot p y).slot = update s.slot p y := rfl
  refine h.frame rfl rfl h.kin (fun q z hn => .slot hslot ?_ fun _ => hn) (fun d q hd => ?_) fun q hq =>
    hq.of_slot hslot rfl hsleep
  · rintro rfl hx
    obtain ⟨h1, h2⟩ := hz hx
    rw [h2]
    exact hn h1
  · rw [hslot]
    by_cases hq : q = p
    · subst hq
      rw [update_self]
      exact hpar.resolve_right fun ho => ho d hd
    · rw [update_of_ne hq]

theorem not_waits (hw : Wakeup.Inv s (fun t => (Λ t).1) fun t => (Λ t).2) {q : Pr}
    (hl : s.lock .wait = some c) (ht : (Λ (s.ctx c)).2.Tested (.proc q) q) (hne : s.ctx c ≠ .proc q) : ¬ Waits s q := by
  rintro ⟨sl, hc, hx⟩
  obtain ⟨h1, h2⟩ := hw.tested c q (.proc q) .wait ht hl hne sl hc
  rcases hx with hx | hx
  · rw [h1] at hx
    cases hx
  · exact h2 hx

section
variable (hi : Proc.Inv s fun t => (Λ t).1)
include hi

theorem Inv.zombie (hw : Wakeup.Inv s (fun t => (Λ t).1) fun t => (Λ t).2)
    (h : Inv s Λ N) {status : Int} {par : Option Pr} (hpre : Proc.pre (.zombie p status) (Λ (s.ctx c)).1)
    (hcall : (Λ (s.ctx c)).2.call = none) (hpar : (N (s.ctx c)).parent = some par)
    (hwoken : chanOf par ∈ (Λ (s.ctx c)).2.woken) :
    Inv { s.setSlot p { s.slot p with xstate := status, state := .ZOMBIE } with
        exits := s.exits ++ [((s.slot p).pid, status)] } Λ
      (update N (s.ctx c) { N (s.ctx c) with scanned := [] }) := by
  obtain ⟨_, hs, _, hin, _⟩ := hpre
  have hc := hi.ctx_proc hs
  have hlock : s.lock .wait = some c := (hi.held c _).mp hin
  have hparent : (s.slot p).parent = par := (h.seen c p hc).parent par (by rw [← hc]; exact hpar)
  generalize hs' : ({ s.setSlot p { s.slot p with xstate := status, state := .ZOMBIE } with
        exits := s.exits ++ [((s.slot p).pid, status)] } : Mem) = s'
  have hslot : s'.slot = update s.slot p { s.slot p with xstate := status, state := .ZOMBIE } := by
    rw [← hs']
    rfl
  have hcalls : s'.call = s.call := by rw [← hs']; rfl
  refine Inv.mine hi h hlock (by rw [← hs']; rfl) (by rw [← hs']; rfl) (by rw [hcalls]; exact h.kin) ?_ ?_
  · intro q hq
    rw [hc] at hq
    cases hq
    refine ⟨nofun, fun par' hp => ?_⟩
    rw [hslot, update_self]
    exact (h.seen c p hc).parent par' (by rw [← hc]; exact hp)
  · intro q hq
    have hqw : Waits s q := hq.of_slot hslot hcalls nofun
    refine (h.owes hlock hqw).imp_left fun hn z => .slot hslot ?_ fun _ => hn z
    rintro rfl _ hpq
    replace hpq : (s.slot z).parent = some q := hpq
    -- the parent has been woken
    rw [hparent] at hpq
    rw [hpq] at hwoken
    refine not_waits hw hlock (.inr hwoken) ?_ hqw
    intro hcq
    obtain ⟨sl, h1, _⟩ := hqw
    rw [← hw.mirror q, ← hcq, hcall] at h1
    cases h1

theorem Inv.setParent (h : Inv s Λ N) {r : Pr} (hpre : Proc.pre (.setParent p r) (Λ (s.ctx c)).1) :
    Inv (s.setSlot p { s.slot p with parent := some r }) Λ
      (update N (s.ctx c) ⟨[], none, (N (s.ctx c)).debt || (Λ (s.ctx c)).1.own.isNone⟩) := by
  obtain ⟨hin, o, hs, hcase⟩ := hpre
  have hlock : s.lock .wait = some c := (hi.held c _).mp hin
  have hslot : (s.setSlot p { s.slot p with parent := some r }).slot = update s.slot p
    { s.slot p with parent := some r } := rfl
  refine Inv.mine hi h hlock rfl rfl h.kin (fun _ _ => ⟨nofun, nofun⟩) fun q hq => ?_
  have hqw : Waits s q := hq.of_slot hslot rfl id
  rcases hcase with ⟨hown, _⟩ | ⟨hown, hr, _⟩
  · -- `fork`: the slot is not a ZOMBIE
    obtain ⟨_, _, _, hused, _⟩ := hi.own_ne hown
    rcases h.owes hlock hqw with hn | ⟨hq', hdebt⟩
    · exact .inl fun z => .slot hslot (fun _ hx => absurd (hused.symm.trans hx) nofun) fun _ => hn z
    · exact .inr ⟨hq', by rw [hdebt]; rfl⟩
  · by_cases hq' : q = initproc
    · exact .inr ⟨hq', by rw [hown]; exact Bool.or_true _⟩
    · refine .inl fun z => .slot hslot (fun _ _ => ?_) fun _ => ?_
      · rw [hr]
        exact fun hc => hq' (Option.some.inj hc).symm
      · exact (h.waits q hqw).elim (fun hn => hn z) fun hc => absurd hc.1 hq'

theorem Inv.read (h : Inv s Λ N) (hin : .wait ∈ (Λ (s.ctx c)).1.held) (p : Pr) :
    Inv s Λ (update N (s.ctx c) ((N (s.ctx c)).read (Λ (s.ctx c)).1.self p (s.slot p))) := by
  have hlock : s.lock .wait = some c := (hi.held c _).mp hin
  have hself : ∀ q, s.ctx c = .proc q → (Λ (s.ctx c)).1.self = some q := fun q hq => by rw [hq]; exact hi.selfP q
  refine Inv.mine hi h hlock rfl rfl h.kin (fun q hq => ?_) fun q hq => h.owes hlock hq
  have ho := h.seen c q hq
  rw [← hq] at ho
  refine ⟨fun z hz => ?_, fun par hp => ?_⟩
  · replace hz : z ∈ (if (s.slot p).state = .ZOMBIE ∧ (s.slot p).parent = (Λ (s.ctx c)).1.self
      then (N (s.ctx c)).scanned else p :: (N (s.ctx c)).scanned) := hz
    split at hz
    · exact ho.scanned z hz
    · next hno =>
      rcases List.mem_cons.mp hz with he | he
      · subst he
        rw [hself q hq] at hno
        exact fun hx hpar => hno ⟨hx, hpar⟩
      · exact ho.scanned z he
  · replace hp : (if (Λ (s.ctx c)).1.self = some p then some (s.slot p).parent else (N (s.ctx c)).parent) =
      some par := hp
    split at hp
    · next hsp =>
      rw [hself q hq] at hsp
      cases hsp
      exact Option.some.inj hp
    · exact ho.parent par hp

theorem Inv.wakeupRet (hw : Wakeup.Inv s (fun t => (Λ t).1) fun t => (Λ t).2)
    (h : Inv s Λ N) {ch : Chan} (hpre : Wakeup.pre (.wakeupRet ch) (Λ (s.ctx c)).1 (Λ (s.ctx c)).2) :
    Inv s Λ (update N (s.ctx c) (if ch = .proc initproc ∧ (Λ (s.ctx c)).1.self ≠ some initproc then
      { N (s.ctx c) with debt := false } else N (s.ctx c))) := by
  by_cases hin : s.lock .wait = some c
  case neg =>
    have hx : (if ch = .proc initproc ∧ (Λ (s.ctx c)).1.self ≠ some initproc then
        { N (s.ctx c) with debt := false } else N (s.ctx c)) = N (s.ctx c) := by
      rw [Inv.fresh hi h hin]
      split <;> rfl
    rw [hx, update_eq_self]
    exact h
  case pos =>
  split
  case isFalse =>
    rw [update_eq_self]
    exact h
  case isTrue hch =>
    refine Inv.mine hi h hin rfl rfl h.kin (fun q hq => ?_) fun q hq => ?_
    · have ho := h.seen c q hq
      rw [← hq] at ho
      exact ⟨ho.scanned, ho.parent⟩
    · rcases h.waits q hq with hn | ⟨hq', _⟩
      · exact .inl hn
      · -- the first process is awake
        subst hq'
        have hall : (Λ (s.ctx c)).1.held.all isSlot = false := by
          by_contra ha
          rw [Bool.not_eq_false, List.all_eq_true] at ha
          exact absurd (ha _ ((hi.held c _).mpr hin)) nofun
        have hne : s.ctx c ≠ .proc initproc := fun hc => hch.2 (by rw [hc]; exact hi.selfP _)
        refine absurd hq (not_waits hw hin (.inl ?_) hne)
        rw [← hch.1]
        exact (hpre hall initproc).resolve_left hch.2

theorem Inv.sleepCall (h : Inv s Λ N) {ch : Chan} {lk : Lock} (hpre : Proc.pre (.sleepCall p ch lk) (Λ (s.ctx c)).1)
    (hpre' : ∀ r, ch = .proc r → r = p ∧ lk = .wait ∧ ∀ z, z ∈ (N (s.ctx c)).scanned) :
    Inv { s with call := update s.call p (some ⟨ch, lk, false⟩) } Λ N := by
  obtain ⟨hs, hh, _⟩ := hpre
  have hc := hi.ctx_proc hs
  have hkin : ∀ q r lk' sl, update s.call p (some ⟨ch, lk, false⟩) q = some ⟨.proc r, lk', sl⟩ →
      r = q ∧ lk' = .wait := by
    intro q r lk' sl hq
    by_cases hqp : q = p
    · subst hqp
      rw [update_self] at hq
      cases hq
      exact ⟨(hpre' r rfl).1, (hpre' r rfl).2.1⟩
    · rw [update_of_ne hqp] at hq
      exact h.kin q r lk' sl hq
  -- others wait as before
  have hother : ∀ q, q ≠ p → Waits { s with call := update s.call p (some ⟨ch, lk, false⟩) } q → Waits s q := by
    rintro q hqp ⟨sl, h1, h2⟩
    exact ⟨sl, (update_of_ne hqp ..).symm.trans h1, h2⟩
  by_cases hr : ∃ r, ch = .proc r
  · obtain ⟨r, hr⟩ := hr
    obtain ⟨_, hlk, hall⟩ := hpre' r hr
    have hlock : s.lock .wait = some c := by
      refine (hi.held c _).mp ?_
      rw [hh, hlk]
      exact List.mem_singleton_self _
    rw [show N = update N (s.ctx c) (N (s.ctx c)) from (update_eq_self ..).symm]
    refine Inv.mine hi h hlock rfl rfl hkin (fun q hq => ?_) fun q hq => ?_
    · rw [hq]
      exact ⟨(h.seen c q hq).scanned, (h.seen c q hq).parent⟩
    · by_cases hqp : q = p
      · subst hqp
        exact .inl fun z => (h.seen c q hc).scanned z (by rw [← hc]; exact hall z)
      · exact h.owes hlock (hother q hqp hq)
  · refine h.frame rfl rfl hkin (fun _ _ hn => hn) (fun _ _ _ => rfl) fun q hq => ?_
    by_cases hqp : q = p
    · subst hqp
      obtain ⟨sl, h1, _⟩ := hq
      replace h1 : update s.call q (some ⟨ch, lk, false⟩) q = _ := h1
      rw [update_self] at h1
      cases h1
      exact absurd ⟨q, rfl⟩ hr
    · exact hother q hqp hq

theorem Inv.exec (hw : Wakeup.Inv s (fun t => (Λ t).1) fun t => (Λ t).2) (h : Inv s Λ N)
    {β : Type} (o : Op β) {x : Choice} {b : β} {fresh : Option Ctx} (hpre1 : Proc.pre o (Λ (s.ctx c)).1)
    (hpre2 : Wakeup.pre o (Λ (s.ctx c)).1 (Λ (s.ctx c)).2) (hpre : pre o (Λ (s.ctx c)) (N (s.ctx c)))
    (he : Proc.exec o (s.ctx c) c x s = .done b s' fresh) : Inv s' (renew (fun t => (Proc.start t, Wakeup.start))
        (update Λ (s.ctx c) ((Wakeup.layer.full logic).upd o (Λ (s.ctx c)) b)) fresh)
      (renew (fun _ => .fresh) (update N (s.ctx c) (upd o (Λ (s.ctx c)) (N (s.ctx c)) b)) fresh) := by
  have hheld : ∀ {l : Local × Known}, l.1.held = (Λ (s.ctx c)).1.held → ∀ t,
      (update Λ (s.ctx c) l t).1.held = (Λ t).1.held :=
    fun hl => update_keep (fun l : Local × Known => l.1.held) hl
  have hkeep : ∀ {s' l N'}, l.1.held = (Λ (s.ctx c)).1.held → Inv s' Λ N' → Inv s' (update Λ (s.ctx c) l) N' :=
    fun hl h => h.held_congr (hheld hl)
  have hsame : ∀ {s' l}, l.1.held = (Λ (s.ctx c)).1.held → Inv s' Λ N →
      Inv s' (update Λ (s.ctx c) l) (update N (s.ctx c) (N (s.ctx c))) := by
    intro s' l hl h
    rw [update_eq_self]
    exact hkeep hl h
  -- operations that change no slot, call, lock or context
  have hquiet : ∀ {s' : Mem} {l : Local × Known}, s'.slot = s.slot → s'.call = s.call → s'.lock = s.lock →
      s'.ctx = s.ctx → l.1.held = (Λ (s.ctx c)).1.held →
      Inv s' (update Λ (s.ctx c) l) (update N (s.ctx c) (N (s.ctx c))) := by
    intro s' l h1 h2 h3 h4 hl
    refine hsame hl (h.frame h3 h4 (by rw [h2]; exact h.kin) (fun q z hn => ?_)
      (fun _ q _ => by rw [h1]) fun q hq => ?_)
    · rwa [NoZombie, h1]
    · rwa [Waits, h1, h2] at hq
  cases o with
  | acquire lk =>
    obtain ⟨hfree, rfl, rfl⟩ := exec_acquire he
    refine h.relock (fun hlk => update_of_ne hlk.symm ..) ?_ ?_
    · exact fun _ hin hw => hin (List.mem_cons_of_mem _ hw)
    · rintro rfl d hd
      rw [hfree] at hd
      cases hd
  | release lk =>
    obtain ⟨hhold, rfl, rfl⟩ := exec_release he
    refine h.relock (fun hlk => update_of_ne hlk.symm ..) ?_ ?_
    · exact fun hlk hin hw => hin ((List.mem_erase_of_ne hlk.symm).mpr hw)
    · rintro rfl d hd
      exact ⟨Option.some.inj (hd.symm.trans hhold), hpre rfl⟩
  | slot p =>
    cases he
    obtain ⟨_, hl⟩ := upd_slot (Λ (s.ctx c)).1 p (s.slot p)
    replace hl := congrArg Local.held hl
    show Inv s _ (update N (s.ctx c) (if _ then _ else _))
    split
    · next hin => exact hkeep hl (Inv.read hi h hin p)
    · exact hquiet rfl rfl rfl rfl hl
  | setState p y =>
    cases he
    refine hsame rfl (h.frame_slot ?_ (.inl rfl) ?_)
    all_goals
      rintro rfl
      exact hpre1.2.runs.elim nofun nofun
  | sleepOn p ch =>
    cases he
    obtain ⟨lk, hx⟩ := hpre2
    have hc := hi.ctx_proc hpre1.2.1
    have hk : s.call p = some ⟨ch, lk, false⟩ := by rw [← hw.mirror p, ← hc, hx]
    have hcall : ∀ q k, update s.call p ((s.call p).map fun k => { k with slept := true }) q = some k →
        (q ≠ p ∧ s.call q = some k) ∨ (q = p ∧ k = ⟨ch, lk, true⟩) := by
      intro q k hq
      by_cases hqp : q = p
      · rw [hqp, update_self, hk] at hq
        exact .inr ⟨hqp, (Option.some.inj hq).symm⟩
      · rw [update_of_ne hqp] at hq
        exact .inl ⟨hqp, hq⟩
    refine hsame rfl (h.frame rfl rfl (fun q r lk' sl hq => ?_) (fun q z hn => .slot rfl nofun fun _ => hn)
      (fun _ q _ => ?_) fun q hq => ?_)
    · rcases hcall q _ hq with ⟨_, hq⟩ | ⟨hqp, hq⟩
      · exact h.kin q r lk' sl hq
      · cases hq
        rw [hqp]
        exact h.kin p r lk false hk
    · show (update s.slot p _ q).parent = _
      by_cases hq : q = p
      · rw [hq, update_self]
      · rw [update_of_ne hq]
    · obtain ⟨sl, h1, h2⟩ := hq
      rcases hcall q _ h1 with ⟨hqp, hq⟩ | ⟨hqp, hq⟩
      · refine ⟨sl, hq, h2.imp_right fun hx => ?_⟩
        replace hx : (update s.slot p _ q).state = _ := hx
        rwa [update_of_ne hqp] at hx
      · cases hq
        subst hqp
        exact ⟨false, hk, .inl rfl⟩
  | sleepCall p ch lk =>
    cases he
    exact hsame rfl (Inv.sleepCall hi h hpre1 hpre)
  | sleepRet p =>
    cases he
    have hcall : ∀ q k, update s.call p none q = some k → s.call q = some k := by
      intro q k hq
      by_cases hqp : q = p
      · rw [hqp, update_self] at hq
        cases hq
      · rwa [update_of_ne hqp] at hq
    refine hsame rfl (h.frame rfl rfl (fun q r lk sl hq => h.kin q r lk sl (hcall q _ hq)) (fun _ _ hn => hn)
      (fun _ _ _ => rfl) fun q hq => ?_)
    obtain ⟨sl, h1, h2⟩ := hq
    exact ⟨sl, hcall q _ h1, h2⟩
  | zombie p status =>
    cases he
    obtain ⟨par, hpar, hwoken⟩ := hpre
    exact hkeep rfl (Inv.zombie hi hw h hpre1 hpre2 hpar hwoken)
  | setParent p r =>
    cases he
    exact hkeep rfl (Inv.setParent hi h hpre1)
  | wakeupRet ch =>
    cases he
    exact hkeep rfl (Inv.wakeupRet hi hw h hpre2)
  | wake p ch =>
    cases he
    show Inv (if _ then _ else _) _ (update N (s.ctx c) (N (s.ctx c)))
    split
    · exact hsame rfl (h.frame_slot nofun (.inl rfl) nofun)
    · exact hquiet rfl rfl rfl rfl rfl
  | found p pid =>
    cases he
    exact hsame rfl (h.frame_slot nofun (.inl rfl) nofun)
  | freeproc p =>
    cases he
    obtain ⟨hin, ⟨o, hs, hne⟩, hst⟩ := hpre1
    have hcp : s.ctx c ≠ .proc p := by
      rw [hi.ctx_proc hs]
      intro hc
      cases hc
      exact hne rfl
    have hoff : Off s p := by
      rcases hst with ⟨hz, _⟩ | ⟨r, ho⟩
      · refine hi.off_of_held hin hcp ?_
        rw [(hi.known c p _ hz).2]
        nofun
      · obtain ⟨_, _, _, _, hoff⟩ := hi.own_ne ho
        exact hoff
    exact hsame rfl (h.frame_slot nofun (.inr hoff) nofun)
  | clearChan p | setKilled p =>
    cases he
    exact hsame rfl (h.frame_slot (fun hx => ⟨hx, rfl⟩) (.inl rfl) fun hx => hx)
  | newContext p =>
    cases he
    obtain ⟨_, _, _, _, hoff⟩ := hi.own_ne hpre1
    have hN : Inv s Λ (update N (s.ctx c) (N (s.ctx c))) := by rwa [update_eq_self]
    refine Inv.newContext hN hoff fun t ht => ?_
    rw [renew_of_ne ht]
    exact hheld (l := (Wakeup.layer.full logic).upd (.newContext p) (Λ (s.ctx c)) ()) rfl t
  | swtch p =>
    cases he
    obtain ⟨hs, hpk, _, hh⟩ := hpre1
    have hc := hi.ctx_sched hs
    exact hsame rfl (Inv.switch hi h hh (hi.picked c p hc (hc ▸ hpk)).2.2.2.held)
  | sched =>
    obtain ⟨p, y, hs, hh, _, _⟩ := hpre1
    obtain ⟨rfl, rfl⟩ := exec_sched he
    exact hsame rfl (Inv.switch hi h hh (hi.away c p (hi.ctx_proc hs)).held)
  | panic => cases he
  | myproc | cpuid | killed p mark | nextpid | setCur v | choose | files | pipe | pput ch | ptake ok | pclose w | ticks
    | tick | cons | setCons co | untest p | waitRet p pp pid status | readRet n count =>
      cases he
      exact hquiet rfl rfl rfl rfl rfl

end

end

/-! ## The code -/

abbrev below : Logic Op (Local × Known) := Wakeup.layer.full logic

/-- No child was given away without a wakeup; `R` is about the context. -/
structure Settled (R : Local → Prop) (l : Local × Known) (x : Kin) : Prop where
  debt : x.debt = false
  rest : .wait ∉ l.1.held → x = .fresh
  ctx : R l.1

section
variable {R : Local → Prop}

theorem keeps_same {β : Type} {o : Op β} (hpre : ∀ l x, Settled R l x → pre o l x) (hupd : ∀ l x b, upd o l x b = x)
    (hheld : ∀ l b, (Proc.upd o l b).held = l.held) (hR : ∀ l b, R l → R (Proc.upd o l b)) :
    layer.Keeps below (Settled R) (perform o) :=
  Layer.keeps_op fun l x h _ => ⟨hpre l x h, fun b _ _ => by
    show Settled R (below.upd o l b) (upd o l x b)
    rw [hupd]
    refine ⟨h.debt, fun hw => h.rest ?_, hR _ b h.ctx⟩
    replace hw : Lock.wait ∉ (Proc.upd o l.1 b).held := hw
    rwa [hheld] at hw⟩

theorem keeps_common (hR : Wakeup.OnSelf R) {β : Type} (o : Op β) (ho : o.Common) :
    layer.Keeps below (Settled R) (perform o) := by
  cases o with
  | acquire lk =>
    refine Layer.keeps_op fun l x h _ => ⟨trivial, fun _ _ _ => ?_⟩
    show Settled R _ (if lk = .wait then .fresh else x)
    refine ⟨?_, fun hw => ?_, hR l.1 _ rfl rfl h.ctx⟩
    · split
      · rfl
      · exact h.debt
    · split
      · rfl
      · exact h.rest fun hin => hw (List.mem_cons_of_mem _ hin)
  | release lk =>
    refine Layer.keeps_op fun l x h _ => ⟨fun _ => h.debt, fun _ _ _ => ?_⟩
    show Settled R _ (if lk = .wait then .fresh else x)
    refine ⟨?_, fun hw => ?_, hR l.1 _ rfl rfl h.ctx⟩
    · split
      · rfl
      · exact h.debt
    · split
      · rfl
      · next hlk => exact h.rest fun hin => hw ((List.mem_erase_of_ne (Ne.symm hlk)).mpr hin)
  | slot p =>
    refine Layer.keeps_op fun l x h _ => ⟨trivial, fun b _ _ => ?_⟩
    obtain ⟨_, hl⟩ := upd_slot l.1 p b
    show Settled R (Proc.upd (.slot p) l.1 b, l.2) (if .wait ∈ l.1.held then x.read l.1.self p b else x)
    rw [hl]
    refine ⟨?_, fun hw => (if_neg hw).trans (h.rest hw), hR l.1 _ rfl rfl h.ctx⟩
    split <;> exact h.debt
  | sched =>
    exact keeps_same (fun _ _ _ => trivial) (fun _ _ _ => rfl) (fun _ _ => rfl) fun l _ => hR l _ rfl rfl
  | myproc | cpuid | panic | choose | files | ticks | tick | cons | setCons co =>
    exact keeps_same (fun _ _ _ => trivial) (fun _ _ _ => rfl) (fun _ _ => rfl) fun _ _ h => h
  | _ => exact absurd ho nofun

theorem plain (hR : Wakeup.OnSelf R) : Plain (layer.Keeps below (Settled R)) := ⟨layer.closed_keeps below _,
    keeps_common hR _⟩

/-- Operations that are not about parents and children. -/
def Aside {β : Type} : Op β → Prop
  | .setKilled _ | .killed _ _ | .nextpid | .found _ _ | .newContext _ | .freeproc _ | .pipe | .pput _ | .ptake _
  | .pclose _ | .untest _ | .waitRet _ _ _ _ | .readRet _ _ | .wake _ _ | .sleepOn _ _ | .clearChan _ | .sleepRet _
  | .swtch _ | .setState _ _ => True
  | _ => False

theorem keeps_aside (hR : Wakeup.OnSelf R) {β : Type} (o : Op β) (ho : Aside o) :
    layer.Keeps below (Settled R) (perform o) := by
  cases o with
  | setKilled p | killed p mark | nextpid | found p pid | newContext p | freeproc p | pipe | pput ch | ptake ok
  | pclose w | untest p | waitRet p pp pid status | readRet n count | wake p ch | sleepOn p ch | clearChan p
  | sleepRet p | swtch p | setState p y =>
      exact keeps_same (fun _ _ _ => trivial) (fun _ _ _ => rfl) (fun _ _ => rfl) fun l _ => hR l _ rfl rfl
  | _ => exact absurd ho nofun

theorem keeps_wakeup (hR : Wakeup.OnSelf R) (ch : Chan) : layer.Keeps below (Settled R) (wakeup ch) := by
  refine wakeup_of (plain hR) (fun p => keeps_aside hR _ trivial) ?_
  refine Layer.keeps_op fun l x h _ => ⟨trivial, fun _ _ _ => ?_⟩
  show Settled R _ (if ch = .proc initproc ∧ l.1.self ≠ some initproc then { x with debt := false } else x)
  split
  · refine ⟨rfl, fun hw => ?_, h.ctx⟩
    rw [h.rest hw]
    rfl
  · exact ⟨h.debt, h.rest, h.ctx⟩

theorem keeps_sleep (hR : Wakeup.OnSelf R) {ch : Chan} (hch : ∀ r, ch ≠ .proc r) (lk : Lock) :
    layer.Keeps below (Settled R) (sleep ch lk) := by
  refine sleep_of (plain hR) (fun p => ?_) (fun p => keeps_aside hR _ trivial)
    (fun p => keeps_aside hR _ trivial) fun p => keeps_aside hR _ trivial
  exact keeps_same (fun _ _ _ r hr => absurd hr (hch r)) (fun _ _ _ => rfl) (fun _ _ => rfl) fun l _ => hR l _ rfl rfl

theorem onSelf_self (p : Pr) : Wakeup.OnSelf fun l => l.self = some p := fun _ _ hs _ h => hs.trans h

theorem onSelf_proc : Wakeup.OnSelf fun l => l.self ≠ none := fun _ _ hs _ h hn => h (hs.symm.trans hn)

theorem wp_me (hs : l.1.self ≠ none) :
    wp (layer.over below) me (fun p l' => l' = (l, x) ∧ l.1.self = some p) (l, x) := by
  unfold me
  refine wp_op (fun _ => trivial) fun b hb => ?_
  have hb' : b = l.1.self := hb.2.1.1.resolve_right fun hc => hs hc.1
  cases b with
  | none => exact absurd hb'.symm hs
  | some p => exact ⟨rfl, hb'.symm⟩

/-- A process that holds `wait_lock` and owes no wakeup. -/
structure Locked (p : Pr) (l : Local × Known) (x : Kin) : Prop where
  held : .wait ∈ l.1.held
  self : l.1.self = some p
  debt : x.debt = false

/-- What stays the same, and what is new, after `wakeup(ch)` with `wait_lock` held. -/
structure Woke (ch : Chan) (p : Pr) (x : Kin) (l' : (Local × Known) × Kin) : Prop where
  held : .wait ∈ l'.1.1.held
  self : l'.1.1.self = some p
  woken : ch ∈ l'.1.2.woken
  parent : l'.2.parent = x.parent
  debt : ch = .proc initproc ∨ x.debt = false → l'.2.debt = false

/-- In the loop of `wakeup`, between two slots. -/
def Between (p : Pr) (x : Kin) (l' : (Local × Known) × Kin) : Prop :=
  .wait ∈ l'.1.1.held ∧ l'.1.1.self = some p ∧ l'.2 = x

theorem wp_wakeup (hw : .wait ∈ l.1.held) (hs : l.1.self = some p)
    (hp : p ≠ initproc) (ch : Chan) : wp (layer.over below) (wakeup ch) (fun _ l' => Woke ch p x l') (l, x) := by
  unfold wakeup
  -- the loop gives back the locks of the slots
  have hloop : wp (layer.over below) (forEach (wakeSlot ch) procs) (fun _ l' => Between p x l') (l, x) := by
    refine wp_forEach (fun _ => Between p x) (fun _ h => h) ?_ ⟨hw, hs, rfl⟩
    rintro q _ ⟨l1, x1⟩ ⟨h1, h2, h3⟩
    unfold wakeSlot
    refine wp_op (fun _ => trivial) fun b _ => ?_
    show wp (layer.over below) (if b ≠ some q then _ else _) _ _
    split
    · refine wp_op (fun _ => trivial) fun _ _ => wp_op (fun _ => trivial) fun _ _ => ?_
      refine wp_perform (fun _ hc => nomatch hc) fun _ _ => ⟨?_, h2, h3⟩
      exact (List.mem_erase_of_ne (by nofun)).mpr (List.mem_cons_of_mem _ h1)
    · exact ⟨h1, h2, h3⟩
  refine wp_call hloop fun _ l' h' => ?_
  obtain ⟨⟨l1, k⟩, x1⟩ := l'
  obtain ⟨h1, h2, h3⟩ := h'
  replace h3 : x1 = x := h3
  subst h3
  refine wp_perform (fun _ => trivial) fun _ _ => ?_
  have hall : l1.held.all isSlot = false := by
    by_contra ha
    rw [Bool.not_eq_false, List.all_eq_true] at ha
    exact absurd (ha _ h1) nofun
  have hself : l1.self ≠ some initproc := by
    rw [show l1.self = some p from h2]
    exact fun hc => hp (Option.some.inj hc)
  refine ⟨h1, h2, ?_, ?_, fun hd => ?_⟩
  · show ch ∈ (if l1.held.all isSlot then k else { k with woken := ch :: k.woken }).woken
    rw [hall]
    exact List.mem_cons_self
  · show (if ch = .proc initproc ∧ l1.self ≠ some initproc then { x1 with debt := false } else x1).parent = _
    split <;> rfl
  · show (if ch = .proc initproc ∧ l1.self ≠ some initproc then { x1 with debt := false } else x1).debt = _
    split
    · rfl
    · next hno => exact hd.resolve_left fun hc => hno ⟨hc, hself⟩

theorem Locked.read (h : Locked p l x) (q : Pr) (b : Slot) :
    Locked p (below.upd (.slot q) l b) (layer.upd (.slot q) l x b) := by
  obtain ⟨_, hl⟩ := upd_slot l.1 q b
  refine ⟨?_, (congrArg Local.self hl).trans h.self, ?_⟩
  · show .wait ∈ (Proc.upd (.slot q) l.1 b).held
    rw [hl]
    exact h.held
  · show (if .wait ∈ l.1.held then x.read l.1.self q b else x).debt = false
    split <;> exact h.debt

theorem wp_reparent (hp : p ≠ initproc) (h : Locked p l x) :
    wp (layer.over below) (reparent p) (fun _ l' => Locked p l'.1 l'.2) (l, x) := by
  refine wp_forEach (fun _ (l' : (Local × Known) × Kin) => Locked p l'.1 l'.2) (fun _ h => h) ?_ h
  rintro q _ ⟨l1, x1⟩ h1
  unfold reparentSlot
  refine wp_op (fun _ => trivial) fun b _ => ?_
  have h2 := Locked.read h1 q b
  show wp (layer.over below) (if b.parent = some p then _ else _) _ _
  split
  · refine wp_op (fun _ => trivial) fun _ _ => ?_
    refine wp_mono (fun _ l' hl => ?_) _ _ (wp_wakeup h2.held h2.self hp _)
    exact ⟨hl.held, hl.self, hl.debt (.inl rfl)⟩
  · exact h2

theorem keeps_exit (hclose : ∀ p f, layer.Keeps below (Settled (·.self = some p)) (fileclose f)) (status : Int) :
    layer.Keeps below (Settled (·.self ≠ none)) (exit status) := by
  intro l x h
  unfold exit
  refine wp_call (wp_me h.ctx) fun p l' hl => ?_
  obtain ⟨rfl, hs⟩ := hl
  show wp (layer.over below) (if p = initproc then _ else _) _ _
  split
  case isTrue => exact wp_perform (fun _ => trivial) fun _ hb => absurd hb.2.1.1 id
  case isFalse hp =>
  have hself : Settled (·.self = some p) l x := ⟨h.debt, h.rest, hs⟩
  refine wp_op (fun _ => trivial) fun fs _ => ?_
  refine wp_call ((layer.closed_keeps below _).forEach (hclose p) fs l x hself) fun _ l' h1 => ?_
  obtain ⟨l1, x1⟩ := l'
  refine wp_op (fun _ => trivial) fun _ _ => ?_
  have h2 : Locked p (below.upd (.acquire .wait) l1 ()) .fresh := ⟨List.mem_cons_self, h1.ctx, rfl⟩
  refine wp_call (wp_reparent hp h2) fun _ l' h3 => ?_
  obtain ⟨l3, x3⟩ := l'
  -- its own parent is read and woken
  refine wp_op (fun _ => trivial) fun b _ => ?_
  have h4 := Locked.read h3 p b
  have hpar : (layer.upd (.slot p) l3 x3 b).parent = some b.parent := by
    show (if .wait ∈ l3.1.held then x3.read l3.1.self p b else x3).parent = _
    rw [if_pos h3.held]
    exact if_pos h3.self
  refine wp_call (wp_wakeup h4.held h4.self hp (chanOf b.parent)) fun _ l' h5 => ?_
  obtain ⟨⟨l5, k5⟩, x5⟩ := l'
  refine wp_op (fun _ => trivial) fun _ _ => ?_
  refine wp_op (fun _ => ⟨b.parent, h5.parent.trans hpar, h5.woken⟩) fun _ _ => ?_
  refine wp_op (fun _ _ => h5.debt (.inr h4.debt)) fun _ _ => ?_
  refine wp_op (fun _ => trivial) fun _ _ => ?_
  exact wp_perform (fun _ => trivial) fun _ hb => absurd hb.2.1.1 id

/-- The scan has come to `pps`: the slots before are no ZOMBIE children. -/
structure Scanning (p : Pr) (pps : List Pr) (l : Local × Known) (x : Kin) : Prop extends Locked p l x where
  scanned : ∀ z, z ∈ pps ∨ z ∈ x.scanned

theorem Scanning.read {pp : Pr} {pps : List Pr} (h : Scanning p (pp :: pps) l x) (b : Slot) :
    Locked p (below.upd (.slot pp) l b) (layer.upd (.slot pp) l x b) ∧
    (∀ z, z ∈ pp :: pps ∨ z ∈ (layer.upd (.slot pp) l x b).scanned) ∧
    (¬ (b.state = .ZOMBIE ∧ b.parent = some p) → ∀ z, z ∈ pps ∨ z ∈ (layer.upd (.slot pp) l x b).scanned) := by
  have hx : (layer.upd (.slot pp) l x b).scanned =
      if b.state = .ZOMBIE ∧ b.parent = some p then x.scanned else pp :: x.scanned := by
    show (if .wait ∈ l.1.held then x.read l.1.self pp b else x).scanned = _
    rw [if_pos h.held, ← h.self]
    rfl
  refine ⟨h.toLocked.read pp b, fun z => (h.scanned z).imp_right fun hz => ?_, fun hno z => ?_⟩
  · rw [hx]
    split
    · exact hz
    · exact List.mem_cons_of_mem _ hz
  · rw [hx, if_neg hno]
    rcases h.scanned z with hz | hz
    · rcases List.mem_cons.mp hz with he | he
      · exact .inr (by rw [he]; exact List.mem_cons_self)
      · exact .inl he
    · exact .inr (List.mem_cons_of_mem _ hz)

theorem Locked.relock {pp : Pr} (h : Locked p l x) :
    Locked p (below.upd (.acquire (.proc pp)) l ()) x ∧ Locked p (below.upd (.release (.proc pp)) l ()) x :=
  ⟨⟨List.mem_cons_of_mem _ h.held, h.self, h.debt⟩, (List.mem_erase_of_ne (by nofun)).mpr h.held, h.self, h.debt⟩

theorem Locked.unlock (h : Locked p l x) : Settled (·.self = some p) (below.upd (.release .wait) l ()) .fresh :=
  ⟨rfl, fun _ => rfl, h.self⟩

theorem wp_waitScan {addr : Bool} (pps : List Pr) : ∀ havekids {l : Local × Known} {x : Kin},
    Scanning p pps l x → wp (layer.over below) (waitScan p addr pps havekids)
      (fun r l' => (∀ k, r = .inl k → Scanning p [] l'.1 l'.2) ∧ ∀ v, r = .inr v → Settled (·.self = some p) l'.1 l'.2)
      (l, x) := by
  induction pps with
  | nil => exact fun _ _ _ h => ⟨fun _ _ => h, fun _ hr => by cases hr⟩
  | cons pp pps ih =>
    intro havekids l x h
    unfold waitScan
    refine wp_op (fun _ => trivial) fun b _ => ?_
    obtain ⟨h1, h2, h3⟩ := h.read b
    show wp (layer.over below) (if b.parent = some p then _ else _) _ _
    split
    case isFalse hno => exact ih havekids ⟨h1, h3 fun hc => hno hc.2⟩
    case isTrue =>
    refine wp_op (fun _ => trivial) fun _ _ => ?_
    have h4 : Scanning p (pp :: pps) (below.upd (.acquire (.proc pp)) (below.upd (.slot pp) l b) ())
        (layer.upd (.slot pp) l x b) := ⟨h1.relock.1, h2⟩
    refine wp_op (fun _ => trivial) fun sl _ => ?_
    obtain ⟨h5, _, h6⟩ := h4.read sl
    show wp (layer.over below) (if sl.state = .ZOMBIE then _ else _) _ _
    split
    case isFalse hno =>
      refine wp_op (fun _ hc => by cases hc) fun _ _ => ?_
      exact ih true ⟨h5.relock.2, h6 fun hc => hno hc.1⟩
    case isTrue =>
      refine wp_op (fun _ => trivial) fun ok _ => ?_
      show wp (layer.over below) (if (addr && !ok) = true then _ else _) _ _
      split
      · refine wp_op (fun _ hc => by cases hc) fun _ _ => ?_
        refine wp_op (fun _ _ => h5.debt) fun _ _ => ⟨fun _ hr => (by cases hr), fun _ _ => ?_⟩
        exact h5.relock.2.unlock
      · refine wp_op (fun _ => trivial) fun _ _ => wp_op (fun _ => trivial) fun _ _ => ?_
        refine wp_op (fun _ hc => by cases hc) fun _ _ => ?_
        refine wp_op (fun _ _ => h5.debt) fun _ _ => ⟨fun _ hr => (by cases hr), fun _ _ => ?_⟩
        exact ⟨rfl, fun _ => rfl, h5.self⟩

theorem wp_sleep (h : Scanning p [] l x) :
    wp (layer.over below) (sleep (.proc p) .wait) (fun _ l' => Locked p l'.1 l'.2) (l, x) := by
  unfold sleep
  refine wp_call (wp_me (by rw [h.self]; nofun)) fun q l' hl => ?_
  obtain ⟨rfl, hq⟩ := hl
  have hqp : q = p := Option.some.inj (hq.symm.trans h.self)
  subst hqp
  refine wp_op (fun _ r hr => ?_) fun _ _ => ?_
  · cases hr
    exact ⟨rfl, rfl, fun z => (h.scanned z).resolve_left List.not_mem_nil⟩
  refine wp_op (fun _ => trivial) fun _ _ => ?_
  refine wp_op (fun _ _ => h.debt) fun _ _ => ?_
  refine wp_op (fun _ => trivial) fun _ _ => wp_op (fun _ => trivial) fun _ _ => wp_op (fun _ => trivial) fun _ _ => ?_
  refine wp_op (fun _ hc => nomatch hc) fun _ _ => wp_op (fun _ => trivial) fun _ _ => ?_
  exact wp_perform (fun _ => trivial) fun _ _ => ⟨List.mem_cons_self, h.self, rfl⟩

theorem wp_killed {mark : Bool} (h : Scanning p [] l x) :
    wp (layer.over below) (killed p mark) (fun _ l' => Scanning p [] l'.1 l'.2) (l, x) := by
  unfold killed
  refine wp_op (fun _ => trivial) fun _ _ => wp_op (fun _ => trivial) fun k _ => ?_
  refine wp_op (fun _ hc => nomatch hc) fun _ _ => ?_
  exact ⟨(h.toLocked.relock.1.relock.2 :
    Locked p (below.upd (.release (.proc p)) (below.upd (.acquire (.proc p)) l ()) ()) x), h.scanned⟩

theorem keeps_wait (addr : Bool) : layer.Keeps below (Settled (·.self ≠ none)) (wait addr) := by
  intro l x h
  unfold wait
  refine wp_call (wp_me h.ctx) fun p l' hl => ?_
  obtain ⟨rfl, hs⟩ := hl
  have hproc : ∀ {l x}, Settled (·.self = some p) l x → Settled (·.self ≠ none) l x := fun h =>
    ⟨h.debt, h.rest, by rw [h.ctx]; nofun⟩
  refine wp_op (fun _ => trivial) fun _ _ => ?_
  have h1 : Locked p (below.upd (.acquire .wait) l ()) .fresh := ⟨List.mem_cons_self, hs, rfl⟩
  refine wp_iterate (fun _ (l' : (Local × Known) × Kin) => Locked p l'.1 l'.2) h1 fun _ l' h2 => ?_
  have h3 : Scanning p procs l'.1 l'.2 := ⟨h2, fun z => .inl (List.mem_finRange z)⟩
  refine wp_call (wp_waitScan procs false h3) fun r l' h4 => ?_
  obtain ⟨l4, x4⟩ := l'
  match r with
  | .inr v => exact hproc (h4.2 v rfl)
  | .inl false => exact wp_op (fun _ _ => (h4.1 false rfl).debt) fun _ _ => hproc (h4.1 false rfl).toLocked.unlock
  | .inl true =>
    refine wp_call (wp_killed (h4.1 true rfl)) fun k l' h6 => ?_
    show wp (layer.over below) (if k = true then _ else _) _ _
    split
    · exact wp_op (fun _ _ => h6.debt) fun _ _ => hproc h6.toLocked.unlock
    · exact wp_call (wp_sleep h6) fun _ _ h => h

theorem wp_allocproc (hR : Wakeup.OnSelf R) (h : Settled R l x) :
    wp (layer.over below) allocproc (fun r l' => Settled R l'.1 l'.2 ∧ (r ≠ none → l'.1.1.own ≠ none)) (l, x) := by
  have hT := plain hR
  have hback : ∀ (p : Pr) {l' : (Local × Known) × Kin}, Settled R l'.1 l'.2 →
      wp (layer.over below) (do freeproc p; release (.proc p); pure (none : Option Pr))
        (fun r l' => Settled R l'.1 l'.2 ∧ (r ≠ none → l'.1.1.own ≠ none)) l' := by
    intro p l' h'
    refine wp_call (keeps_aside hR (.freeproc p) trivial _ _ h') fun _ l' h' => ?_
    exact wp_call (hT.one (o := .release (.proc p)) trivial _ _ h') fun _ l' h' => ⟨h', absurd rfl⟩
  unfold allocproc
  refine wp_call (findUnused_of hT l x h) fun r l' h' => ?_
  cases r with
  | none => exact ⟨h', absurd rfl⟩
  | some p =>
    have hpid := allocpid_of hT (keeps_aside hR .nextpid trivial)
    refine wp_call (hpid _ _ h') fun pid l' h' => ?_
    refine wp_call (keeps_aside hR (.found p pid) trivial _ _ h') fun _ l' h' => ?_
    refine wp_call (hT.one (o := .choose) trivial _ _ h') fun b l' h' => ?_
    cases b with
    | false => exact hback p h'
    | true =>
      refine wp_call (hT.one (o := .choose) trivial _ _ h') fun b l' h' => ?_
      cases b with
      | false => exact hback p h'
      | true =>
        refine wp_op (fun _ => trivial) fun _ _ => ⟨⟨h'.debt, h'.rest, hR l'.1.1 _ rfl rfl h'.ctx⟩, fun _ => ?_⟩
        exact (nofun : some (p, true) ≠ none)

theorem keeps_fork (hR : Wakeup.OnSelf R) : layer.Keeps below (Settled R) fork := by
  have hT := plain hR
  intro l x h
  unfold fork
  refine wp_call (me_of hT l x h) fun p l' h' => ?_
  refine wp_call (wp_allocproc hR h') fun r l' h' => ?_
  obtain ⟨h', hown⟩ := h'
  cases r with
  | none => exact h'
  | some np =>
    replace hown := hown nofun
    refine wp_op (fun _ => trivial) fun b _ => ?_
    cases b with
    | false =>
      refine wp_call (keeps_aside hR (.freeproc np) trivial _ _ h') fun _ l' h' => ?_
      exact wp_call (hT.one (o := .release (.proc np)) trivial _ _ h') fun _ l' h' => h'
    | true =>
      obtain ⟨l1, x1⟩ := l'
      refine wp_op (fun _ => trivial) fun sl _ => wp_op (fun _ hc => nomatch hc) fun _ _ => ?_
      obtain ⟨_, hl⟩ := upd_slot l1.1 np sl
      refine wp_op (fun _ => trivial) fun _ _ => wp_op (fun _ => trivial) fun _ _ => ?_
      refine wp_op (fun _ _ => ?_) fun _ _ => ?_
      · show (false || (Proc.upd (.slot np) l1.1 sl).own.isNone) = false
        rw [hl, Bool.false_or, Option.isNone_eq_false_iff, Option.isSome_iff_ne_none]
        exact hown
      refine wp_op (fun _ => trivial) fun _ _ => wp_op (fun _ => trivial) fun _ _ => ?_
      refine wp_op (fun _ hc => nomatch hc) fun _ _ => ⟨rfl, fun _ => rfl, ?_⟩
      refine hR (Proc.upd (.slot np) l1.1 sl) _ rfl rfl ?_
      rw [hl]
      exact hR l1.1 _ rfl rfl h'.ctx

theorem keeps_pipeclose (hR : Wakeup.OnSelf R) (w : Bool) : layer.Keeps below (Settled R) (pipeclose w) :=
  pipeclose_of (plain hR) (keeps_aside hR _ trivial) (keeps_wakeup hR _)

theorem keeps_fileclose (hR : Wakeup.OnSelf R) (f : File) : layer.Keeps below (Settled R) (fileclose f) := by
  have hT := plain hR
  refine fileclose_of hT (keeps_pipeclose hR) (fun n m => ?_) fun n m => otherWake_of hT (keeps_wakeup hR _)
  exact otherSleep_of hT (keeps_sleep hR (by nofun) _)

theorem keeps_usertrap (t : Trap) : layer.Keeps below (Settled (·.self ≠ none)) (usertrap t) := by
  have hT := plain onSelf_proc
  have haside := fun {β : Type} => keeps_aside (β := β) onSelf_proc
  have hwake := keeps_wakeup onSelf_proc
  have hkilled := fun p mark => killed_of hT (haside (.killed p mark) trivial)
  refine usertrap_of_parts hT hkilled (fun p _ => haside _ trivial) (yield_of hT fun p => haside _ trivial)
    (fun pid _ => kill_of hT (fun p => haside _ trivial) fun p => haside _ trivial) hwake
    (fun n m => keeps_sleep onSelf_proc (by nofun) _)
    (keeps_sleep onSelf_proc (by nofun) _) (keeps_sleep onSelf_proc (by nofun) _) (keeps_fork onSelf_proc)
    (keeps_pipeclose onSelf_proc) (fun _ => keeps_exit fun p => keeps_fileclose (onSelf_self p)) keeps_wait
    (fun buf n => ?_) fun mapped n => ?_
  · exact pipewrite_of hT (haside _ trivial) (fun p => hkilled p true) (fun p => haside _ trivial)
      (fun ch => haside _ trivial) (hwake _) (keeps_sleep onSelf_proc (by nofun) _)
  · exact piperead_of hT (haside _ trivial) (fun p => hkilled p true) (fun ok => haside _ trivial)
      (fun n i => haside _ trivial) (hwake _) (keeps_sleep onSelf_proc (by nofun) _)

theorem onSelf_any : Wakeup.OnSelf fun _ => True := fun _ _ _ _ h => h

theorem keeps_scheduler : layer.Keeps below (Settled fun _ => True) scheduler :=
  scheduler_of (plain onSelf_any) (fun _ => keeps_aside onSelf_any _ trivial)
    (fun _ => keeps_same (fun _ _ _ => trivial) (fun _ _ _ => rfl) (fun _ _ => rfl) fun _ _ h => h)
    fun _ => keeps_aside onSelf_any _ trivial

theorem keeps_kerneltrap (d : Dev) : layer.Keeps below (Settled fun _ => True) (kerneltrap d) := by
  have hT := plain onSelf_any
  exact kerneltrap_of hT (devintr_of hT (keeps_wakeup onSelf_any _) (keeps_wakeup onSelf_any _)
    fun _ => keeps_wakeup onSelf_any _) (yield_of hT fun p => keeps_aside onSelf_any _ trivial)

end

/-! ## All runs -/

theorem sound : Layer.Sound machine below layer (fun _ _ _ => True) Wakeup.Both Inv
    (fun l => l.1.User ∧ Wakeup.Stays none Wakeup.NotOn l.1 l.2) (fun l => l.1.Quiet ∧ Wakeup.Interruptible l.2)
    (Settled (·.self ≠ none)) (fun _ x => x = .fresh) (fun t => (Proc.start t, Wakeup.start)) (fun _ => .fresh) where
  done o c x s Λ N b s' fresh hi h hpre hpre' _ he _ _ := ⟨trivial, Inv.exec hi.1 hi.2 h o hpre.1 hpre.2 hpre' he⟩
  isQuiet s Λ N c hi h hn := by
    have hq := hi.1.quiet (of_decide_eq_true hn)
    exact h.rest _ hq.notMem
  code t l x _ hx := (keeps_usertrap t).ends hx fun _ h _ => h
  handler d l x hl hx := by
    subst hx
    refine (keeps_kerneltrap d).ends ⟨rfl, fun _ => rfl, trivial⟩ fun l' h he => h.rest ?_
    rw [he]
    exact hl.1.notMem
  entry
    | .proc p => by
      have hk := forkret_of (plain onSelf_proc)
      have hx : Settled (·.self ≠ none) (Proc.start (.proc p), Wakeup.start) .fresh := ⟨rfl, fun _ => rfl, nofun⟩
      exact hk.ends hx fun _ h _ => h
    | .sched c => by
      have hx : Settled (fun _ => True) (Proc.start (.sched c), Wakeup.start) .fresh := ⟨rfl, fun _ => rfl, trivial⟩
      exact keeps_scheduler.ends hx fun _ h hu => ⟨h.debt, h.rest, hu.1.self⟩

theorem inv_boot (data : Nat → UInt8) : Inv (bootMem data) (fun t => (Proc.start t, Wakeup.start)) fun _ => .fresh where
  kin _ _ _ _ hc := nomatch hc
  seen _ _ hc := nomatch hc
  waits _ hq := nomatch hq.choose_spec.1
  rest _ _ := rfl

theorem good {s : State} (h : Reachable s) : ∃ Λ : Ctx → (Local × Known) × Kin,
    Wakeup.Both s.shared (fun t => (Λ t).1) ∧ Inv s.shared (fun t => (Λ t).1) fun t => (Λ t).2 := by
  have hfull := sound.full Wakeup.sound_full
  have hg := hfull.reach_all (fun _ _ _ => trivial) (fun s hs => ?_) h
  · obtain ⟨Λ, hI, _⟩ := hg
    exact ⟨Λ, hI⟩
  · obtain ⟨data, rfl⟩ := hs
    exact ⟨fun t => ((Proc.start t, Wakeup.start), .fresh),
      ⟨⟨Proc.inv_boot data, Wakeup.inv_boot data⟩, inv_boot data⟩, hfull.entry⟩

/-- When `wait_lock` is free, a process that is SLEEPING in `wait` has no ZOMBIE child. -/
theorem waiting_has_no_zombie {s : State} (h : Reachable s) (hfree : s.shared.lock .wait = none) (q : Pr)
    (hs : (s.shared.slot q).state = .SLEEPING) (hch : (s.shared.slot q).chan = .proc q) :
    ∀ z, (s.shared.slot z).parent = some q → (s.shared.slot z).state ≠ .ZOMBIE := by
  obtain ⟨Λ, ⟨_, hw⟩, hI⟩ := good h
  obtain ⟨lk, hc⟩ := hw.asleep q hs
  rw [hch] at hc
  have hlk := (hI.kin q q lk true hc).2
  subst hlk
  intro z hp hz
  rcases hI.waits q ⟨true, hc, .inr hs⟩ with hn | ⟨_, c, hl, _⟩
  · exact hn z hz hp
  · rw [hfree] at hl
    cases hl

/-- The first process has forked a child and waits for it. -/
theorem waiting_has_no_zombie_init : ∃ s : State, Reachable s ∧ (s.shared.slot initproc).state = .SLEEPING ∧
    (s.shared.slot 1).parent = some initproc ∧ (s.shared.slot 1).state ≠ .ZOMBIE := by
  have hview : (Run.run (step machine) (boot fun _ => 0) (steps 0 9 ++ .call 0 (.syscall .fork) :: steps 0 29 ++
      .call 0 (.syscall (.wait false)) :: steps 0 85)).map
        (fun s => (s.shared.lock .wait, (s.shared.slot initproc).state,
        (s.shared.slot initproc).chan, (s.shared.slot 1).parent)) =
      some (none, .SLEEPING, .proc initproc, some initproc) := by
    decide +kernel
  obtain ⟨s, hs, hv⟩ := Option.map_eq_some_iff.mp hview
  have hr : Reachable s := Run.Reach.of_run (fun _ _ => trivial) _ (.start ⟨_, rfl⟩) hs
  simp only [Prod.mk.injEq] at hv
  obtain ⟨hfree, hsl, hch, hpar⟩ := hv
  exact ⟨s, hr, hsl, hpar, waiting_has_no_zombie hr hfree initproc hsl hch 1 hpar⟩

end Xv6.Proc.Zombie
