import Xv6.Proc.OneCpu
import Xv6.Proc.Parts

/-!
# No lost wakeup

A process in `sleep(chan, lk)` gives up `lk` only after it has its own lock, and it is
SLEEPING before it gives up that one.  A context that holds `lk` and then gets the
lock of the process therefore finds it SLEEPING on `chan`, or woken already.  After
its `wakeup(chan)` it knows so of every other process, as long as it holds `lk`.
-/

namespace Xv6.Proc.Wakeup

open Cpus
open Function (update update_eq_self update_of_ne update_self)

/-! ## The layer -/

def isSlot : Lock → Bool
  | .proc _ => true
  | _ => false

/-- What a context knows about `sleep` and `wakeup`. -/
@[ext] structure Known where
  /-- The call of `sleep` that the process is in. -/
  call : Option SleepCall
  /-- The slots that it has tested, since it took or gave up a lock that is not a slot's. -/
  seen : List (Chan × Pr)
  /-- The channels for which it has tested all slots. -/
  woken : List Chan

def Known.forget (x : Known) : Known := { x with seen := [], woken := [] }

def pre {β : Type} (o : Op β) (l : Local) (x : Known) : Prop :=
  match o with
  | .release lk => ∀ ch k, x.call = some ⟨ch, k, false⟩ → lk = k ∧ ∃ p, l.self = some p ∧ .proc p ∈ l.held
  | .sched => ∀ k, x.call = some k → k.slept = true
  | .sleepOn _ ch => ∃ lk, x.call = some ⟨ch, lk, false⟩
  | .clearChan p => l.st p = some .RUNNING
  | .sleepRet p => .proc p ∉ l.held
  | .zombie _ _ => x.call = none
  | .wakeupRet ch => l.held.all isSlot = false → ∀ p, l.self = some p ∨ (ch, p) ∈ x.seen
  | _ => True

def upd {β : Type} (o : Op β) (l : Local) (x : Known) (_ : β) : Known :=
  match o with
  | .acquire lk | .release lk => if isSlot lk then x else x.forget
  | .sleepCall _ ch lk => { x with call := some ⟨ch, lk, false⟩ }
  | .sleepOn _ _ => { x with call := x.call.map fun k => { k with slept := true } }
  | .sleepRet _ => { x with call := none }
  | .wake p ch => if l.held.all isSlot then x else { x with seen := (ch, p) :: x.seen }
  | .wakeupRet ch => if l.held.all isSlot then x else { x with woken := ch :: x.woken }
  | _ => x

def layer : Layer Op Local Known := ⟨pre, fun _ _ _ _ => True, upd⟩

def start : Known := ⟨none, [], []⟩

/-- The slot was tested, alone or in a `wakeup` that has returned. -/
def Known.Tested (x : Known) (ch : Chan) (p : Pr) : Prop := (ch, p) ∈ x.seen ∨ ch ∈ x.woken

/-- A process in `sleep(ch, lk)` has been woken. -/
def Awake (s : Mem) (p : Pr) (ch : Chan) (lk : Lock) : Prop :=
  ∀ sl, s.call p = some ⟨ch, lk, sl⟩ → sl = true ∧ (s.slot p).state ≠ .SLEEPING

/-- Not a process that could be in a call. -/
def Dead (x : ProcState) : Prop := x = .UNUSED ∨ x = .USED ∨ x = .ZOMBIE

structure Inv (s : Mem) (Λ : Ctx → Local) (N : Ctx → Known) : Prop where
  mirror : ∀ p, (N (.proc p)).call = s.call p
  schedCall : ∀ c, (N (.sched c)).call = none
  asleep : ∀ p, (s.slot p).state = .SLEEPING → ∃ lk, s.call p = some ⟨(s.slot p).chan, lk, true⟩
  inside : ∀ p ch lk, s.call p = some ⟨ch, lk, false⟩ →
    ∃ c, s.ctx c = .proc p ∧ (s.lock lk = some c ∨ s.lock (.proc p) = some c)
  spin : ∀ p ch lk sl, s.call p = some ⟨ch, lk, sl⟩ → isSlot lk = false
  dead : ∀ p, Dead (s.slot p).state → s.call p = none
  tested : ∀ c p ch lk, (N (s.ctx c)).Tested ch p → s.lock lk = some c → s.ctx c ≠ .proc p → Awake s p ch lk
  idle : ∀ t, (Λ t).held.all isSlot = true → (N t).seen = [] ∧ (N t).woken = []

variable {lk : Lock} {x : Known} {ch : Chan} {l : Local}

section
variable {s s' : Mem} {Λ Λ' : Ctx → Local} {N : Ctx → Known} {c : Nat} {p : Pr}

theorem Known.Tested.not_idle (h : x.Tested ch p) : ¬ (x.seen = [] ∧ x.woken = []) := by
  rintro ⟨h1, h2⟩
  rcases h with h | h
  · rw [h1] at h
    cases h
  · rw [h2] at h
    cases h

theorem Inv.frame (h : Inv s Λ N) (hcall : s'.call = s.call) (hlock : s'.lock = s.lock) (hctx : s'.ctx = s.ctx)
    (hsleep : ∀ p, (s'.slot p).state = .SLEEPING → (s.slot p).state = .SLEEPING ∧ (s'.slot p).chan = (s.slot p).chan)
    (hdead : ∀ p, Dead (s'.slot p).state → s.call p = none) (hheld : ∀ t, (Λ' t).held = (Λ t).held) : Inv s' Λ' N where
  mirror p := by
    rw [hcall]
    exact h.mirror p
  schedCall := h.schedCall
  asleep p hp := by
    obtain ⟨h1, h2⟩ := hsleep p hp
    rw [hcall, h2]
    exact h.asleep p h1
  inside := by
    rw [hcall, hctx, hlock]
    exact h.inside
  spin := by
    rw [hcall]
    exact h.spin
  dead p hp := by
    rw [hcall]
    exact hdead p hp
  tested d q ch lk ht hl hne sl hc := by
    rw [hctx] at ht hne
    rw [hlock] at hl
    rw [hcall] at hc
    obtain ⟨h1, h2⟩ := h.tested d q ch lk ht hl hne sl hc
    exact ⟨h1, fun hs => h2 (hsleep q hs).1⟩
  idle t ht := by
    rw [hheld] at ht
    exact h.idle t ht

theorem Inv.know (hi : Proc.Inv s Λ) (h : Inv s Λ N) (hcall : x.call = (N (s.ctx c)).call)
    (htested : ∀ ch p, x.Tested ch p → (N (s.ctx c)).Tested ch p ∨
      ∀ lk, s.lock lk = some c → s.ctx c ≠ .proc p → Awake s p ch lk)
    (hidle : (Λ (s.ctx c)).held.all isSlot = true → x.seen = [] ∧ x.woken = []) :
    Inv s Λ (update N (s.ctx c) x) := { h with
  mirror p := by
    rw [update_keep Known.call hcall]
    exact h.mirror p
  schedCall d := by
    rw [update_keep Known.call hcall]
    exact h.schedCall d
  tested d p ch lk ht hl hne := by
    by_cases hd : d = c
    · subst hd
      rw [update_self] at ht
      rcases htested ch p ht with ht | ht
      · exact h.tested d p ch lk ht hl hne
      · exact ht lk hl hne
    · rw [update_of_ne fun he => hd (hi.ctx_inj he)] at ht
      exact h.tested d p ch lk ht hl hne
  idle t ht := by
    by_cases hq : t = s.ctx c
    · subst hq
      rw [update_self]
      exact hidle ht
    · rw [update_of_ne hq]
      exact h.idle t ht }

theorem Known.call_ite_forget (x : Known) {c : Prop} [Decidable c] : (if c then x else x.forget).call = x.call := by
  split <;> rfl

theorem Inv.relock (hi : Proc.Inv s Λ) (h : Inv s Λ N) {f : Lock → Option Nat} {g : Nat → Nat}
    (hlock : ∀ k d, f k = some d → k ≠ lk → s.lock k = some d) (hlk : ∀ d, f lk = some d → d = c)
    (hinside : ∀ p ch k, s.call p = some ⟨ch, k, false⟩ → ∃ d, s.ctx d = .proc p ∧
    (f k = some d ∨ f (.proc p) = some d))
    (hall : isSlot lk = true → l.held.all isSlot = true → (Λ (s.ctx c)).held.all isSlot = true) :
    Inv { s with lock := f, noff := g } (update Λ (s.ctx c) l)
      (update N (s.ctx c) (if isSlot lk then N (s.ctx c) else (N (s.ctx c)).forget)) := { h with
  mirror p := by
    rw [update_keep Known.call (N _).call_ite_forget]
    exact h.mirror p
  schedCall d := by
    rw [update_keep Known.call (N _).call_ite_forget]
    exact h.schedCall d
  inside := hinside
  tested d p ch k ht hl hne sl hc := by
    have hk := h.spin p ch k sl hc
    by_cases hd : d = c
    · subst hd
      rw [update_self] at ht
      by_cases hs : isSlot lk = true
      · rw [if_pos hs] at ht
        have hkl : k ≠ lk := by
          rintro rfl
          rw [hk] at hs
          cases hs
        exact h.tested d p ch k ht (hlock k d hl hkl) hne sl hc
      · rw [if_neg hs] at ht
        exact absurd ⟨rfl, rfl⟩ ht.not_idle
    · rw [update_of_ne fun he => hd (hi.ctx_inj he)] at ht
      refine h.tested d p ch k ht (hlock k d hl ?_) hne sl hc
      rintro rfl
      exact hd (hlk d hl)
  idle t ht := by
    by_cases hq : t = s.ctx c
    · subst hq
      rw [update_self] at ht ⊢
      split
      · next hs => exact h.idle _ (hall hs ht)
      · exact ⟨rfl, rfl⟩
    · rw [update_of_ne hq] at ht ⊢
      exact h.idle t ht }

theorem Inv.switch (h : Inv s Λ N) {t : Ctx} (hheld : ∀ t, (Λ' t).held = (Λ t).held) (hnow : (Λ t).held = [.proc p])
    (hslept : ∀ p k, s.ctx c = .proc p → s.call p = some k → k.slept = true) :
    Inv { s with ctx := update s.ctx c t } Λ' N := { h with
  inside p ch lk hc := by
    obtain ⟨d, h1, h2⟩ := h.inside p ch lk hc
    have hd : d ≠ c := by
      rintro rfl
      exact absurd (hslept p _ h1 hc) nofun
    exact ⟨d, (update_of_ne hd ..).trans h1, h2⟩
  tested d p ch lk ht hl hne sl hc := by
    dsimp only at ht hne
    by_cases hd : d = c
    · rw [hd, update_self] at ht
      exact absurd (h.idle t (by rw [hnow]; rfl)) ht.not_idle
    · rw [update_of_ne hd] at ht hne
      exact h.tested d p ch lk ht hl hne sl hc
  idle t ht := by
    rw [hheld] at ht
    exact h.idle t ht }

theorem Inv.setCall (hi : Proc.Inv s Λ) (h : Inv s Λ N) {k : Option SleepCall} (hp : s.ctx c = .proc p)
    (hslot : ∀ q, q ≠ p → s'.slot q = s.slot q) (hcall : s'.call = update s.call p k)
    (hlock : s'.lock = s.lock) (hctx : s'.ctx = s.ctx) (hheld : ∀ t, (Λ' t).held = (Λ t).held)
    (hasleep : (s'.slot p).state = .SLEEPING → ∃ lk, k = some ⟨(s'.slot p).chan, lk, true⟩)
    (hinside : ∀ ch lk, k = some ⟨ch, lk, false⟩ → s.lock lk = some c ∨ s.lock (.proc p) = some c)
    (hspin : ∀ ch lk sl, k = some ⟨ch, lk, sl⟩ → isSlot lk = false) (hdead : Dead (s'.slot p).state → k = none)
    (htested : ∀ d ch lk, d ≠ c → (N (s.ctx d)).Tested ch p → s.lock lk = some d →
      ∀ sl, k = some ⟨ch, lk, sl⟩ → sl = true ∧ (s'.slot p).state ≠ .SLEEPING) :
    Inv s' Λ' (update N (s.ctx c) { N (s.ctx c) with call := k }) := by
  have hsame : s'.call p = k := by rw [hcall, update_self]
  have hother : ∀ q, q ≠ p → s'.call q = s.call q := fun q hq => by rw [hcall, update_of_ne hq]
  constructor
  case mirror =>
    intro q
    by_cases hq : q = p
    · rw [hq, hsame, hp, update_self]
    · rw [hother q hq, hp, update_of_ne (by simpa using hq)]
      exact h.mirror q
  case schedCall =>
    intro d
    rw [hp, update_of_ne (by nofun)]
    exact h.schedCall d
  case asleep =>
    intro q hs
    by_cases hq : q = p
    · subst hq
      rw [hsame]
      exact hasleep hs
    · rw [hother q hq, hslot q hq]
      rw [hslot q hq] at hs
      exact h.asleep q hs
  case inside =>
    intro q ch lk hc
    rw [hctx, hlock]
    by_cases hq : q = p
    · subst hq
      exact ⟨c, hp, hinside ch lk (hsame.symm.trans hc)⟩
    · rw [hother q hq] at hc
      exact h.inside q ch lk hc
  case spin =>
    intro q ch lk sl hc
    by_cases hq : q = p
    · subst hq
      exact hspin ch lk sl (hsame.symm.trans hc)
    · rw [hother q hq] at hc
      exact h.spin q ch lk sl hc
  case dead =>
    intro q hd
    by_cases hq : q = p
    · subst hq
      rw [hsame]
      exact hdead hd
    · rw [hother q hq]
      rw [hslot q hq] at hd
      exact h.dead q hd
  case tested =>
    intro d q ch lk ht hl hne sl hc
    rw [hctx] at ht hne
    rw [hlock] at hl
    have ht' : (N (s.ctx d)).Tested ch q := by
      by_cases hd : d = c
      · subst hd
        rw [update_self] at ht
        exact ht
      · rwa [update_of_ne fun he => hd (hi.ctx_inj he)] at ht
    by_cases hq : q = p
    · subst hq
      refine htested d ch lk ?_ ht' hl sl (hsame.symm.trans hc)
      rintro rfl
      exact hne hp
    · rw [hother q hq] at hc
      rw [hslot q hq]
      exact h.tested d q ch lk ht' hl hne sl hc
  case idle =>
    intro t ht
    rw [hheld] at ht
    by_cases hq : t = s.ctx c
    · subst hq
      rw [update_self]
      exact h.idle _ ht
    · rw [update_of_ne hq]
      exact h.idle t ht

theorem Inv.newContext (h : Inv s Λ N) (hoff : Off s p) (hcall : s.call p = none)
    (hheld : ∀ t, t ≠ .proc p → (Λ' t).held = (Λ t).held) : Inv s Λ' (update N (.proc p) start) := { h with
  mirror q := by
    by_cases hq : q = p
    · rw [hq, update_self, hcall]
      rfl
    · rw [update_of_ne (by simpa using hq)]
      exact h.mirror q
  schedCall d := by
    rw [update_of_ne (by nofun)]
    exact h.schedCall d
  tested d q ch lk ht hl hne := by
    rw [update_of_ne (hoff d)] at ht
    exact h.tested d q ch lk ht hl hne
  idle t ht := by
    by_cases hq : t = .proc p
    · rw [hq, update_self]
      exact ⟨rfl, rfl⟩
    · rw [update_of_ne hq]
      rw [hheld t hq] at ht
      exact h.idle t ht }

theorem Inv.frame_slot (h : Inv s Λ N) {y : Slot} {ex : List (Int × Int)}
    (hsleep : y.state = .SLEEPING → (s.slot p).state = .SLEEPING ∧ y.chan = (s.slot p).chan)
    (hdead : Dead y.state → s.call p = none) (hheld : ∀ t, (Λ' t).held = (Λ t).held) :
    Inv { s.setSlot p y with exits := ex } Λ' N := by
  refine h.frame rfl rfl rfl (fun q hq => ?_) (fun q hq => ?_) hheld
  all_goals
    dsimp only [Mem.setSlot] at hq ⊢
    by_cases hqp : q = p
  · subst hqp
    rw [update_self] at hq ⊢
    exact hsleep hq
  · rw [update_of_ne hqp] at hq ⊢
    exact ⟨hq, rfl⟩
  · subst hqp
    rw [update_self] at hq
    exact hdead hq
  · rw [update_of_ne hqp] at hq
    exact h.dead q hq

theorem all_of_erase {held : List Lock} (hs : isSlot lk = true) (ha : (held.erase lk).all isSlot = true) :
    held.all isSlot = true := by
  rw [List.all_eq_true] at ha ⊢
  intro j hj
  by_cases hjl : j = lk
  · rw [hjl]
    exact hs
  · exact ha j ((List.mem_erase_of_ne hjl).mpr hj)

section
variable (hi : Proc.Inv s Λ) (h : Inv s Λ N)
include hi h

theorem Inv.acquire (hfree : s.lock lk = none) :
    Inv { s with lock := update s.lock lk (some c), noff := update s.noff c (s.noff c + 1) }
      (update Λ (s.ctx c) ((Λ (s.ctx c)).take lk))
      (update N (s.ctx c) (if isSlot lk then N (s.ctx c) else (N (s.ctx c)).forget)) := by
  have hmono : ∀ k d, s.lock k = some d → update s.lock lk (some c) k = some d := by
    intro k d hk
    rw [update_of_ne ?_]
    · exact hk
    · rintro rfl
      rw [hfree] at hk
      cases hk
  refine Inv.relock hi h ?_ ?_ ?_ ?_
  · intro k d hk hne
    exact (update_of_ne hne ..).symm.trans hk
  · intro d hd
    replace hd : update s.lock lk (some c) lk = some d := hd
    rw [update_self] at hd
    exact (Option.some.inj hd).symm
  · intro q ch k hc
    obtain ⟨d, h1, h2⟩ := h.inside q ch k hc
    exact ⟨d, h1, h2.imp (hmono k d) (hmono _ d)⟩
  · intro _ ha
    exact (Bool.and_eq_true _ _ ▸ ha : _ ∧ _).2

theorem Inv.release (hhold : s.lock lk = some c) (hpre : ∀ ch k, (N (s.ctx c)).call = some ⟨ch, k, false⟩ →
      lk = k ∧ ∃ p, (Λ (s.ctx c)).self = some p ∧ .proc p ∈ (Λ (s.ctx c)).held) :
    Inv { s with lock := update s.lock lk none, noff := update s.noff c (s.noff c - 1) }
      (update Λ (s.ctx c) ((Λ (s.ctx c)).drop lk))
      (update N (s.ctx c) (if isSlot lk then N (s.ctx c) else (N (s.ctx c)).forget)) := by
  refine Inv.relock hi h ?_ ?_ ?_ ?_
  · intro k d hk hne
    exact (update_of_ne hne ..).symm.trans hk
  · intro d hd
    exact absurd ((update_self ..).symm.trans hd) nofun
  · intro q ch k hc
    obtain ⟨d, h1, h2⟩ := h.inside q ch k hc
    refine ⟨d, h1, ?_⟩
    by_cases hd : d = c
    · -- the process itself gives up the lock of the call, and has its own
      subst hd
      have hN : (N (s.ctx d)).call = some ⟨ch, k, false⟩ := by rw [h1, h.mirror q, hc]
      obtain ⟨hlk, r, hr, hin⟩ := hpre ch k hN
      have hrq : r = q := by
        rw [h1, hi.selfP q] at hr
        exact (Option.some.inj hr).symm
      subst hrq
      refine .inr ?_
      show update s.lock lk none (.proc r) = some d
      rw [update_of_ne ?_]
      · exact (hi.held d _).mp hin
      · intro he
        have hs := h.spin r ch k false hc
        rw [← hlk, ← he] at hs
        cases hs
    · have hkeep : ∀ j, s.lock j = some d → update s.lock lk none j = some d := by
        intro j hj
        rw [update_of_ne ?_]
        · exact hj
        · rintro rfl
          exact hd (Option.some.inj (hj.symm.trans hhold))
      exact h2.imp (hkeep k) (hkeep _)
  · exact all_of_erase

theorem Inv.wake (hp : .proc p ∈ (Λ (s.ctx c)).held) (hi' : Proc.Inv s' Λ')
    (hs' : s' = if (s.slot p).state = .SLEEPING ∧ (s.slot p).chan = ch then
      s.setSlot p { s.slot p with state := .RUNNABLE } else s) (hheld : ∀ t, (Λ' t).held = (Λ t).held) :
    Inv s' Λ' (update N (s.ctx c)
      (if (Λ (s.ctx c)).held.all isSlot then N (s.ctx c) else
      { N (s.ctx c) with seen := (ch, p) :: (N (s.ctx c)).seen })) := by
  have hcall : s'.call = s.call := by
    rw [hs']
    split <;> rfl
  have hlock : s'.lock = s.lock := by
    rw [hs']
    split <;> rfl
  have hctx : s'.ctx = s.ctx := by
    rw [hs']
    split <;> rfl
  have h' : Inv s' Λ' N := by
    rw [hs']
    split
    · next hsl =>
      refine h.frame_slot nofun ?_ hheld
      exact fun hd => by rcases hd with hd | hd | hd <;> cases hd
    · exact h.frame rfl rfl rfl (fun q hq => ⟨hq, rfl⟩) h.dead hheld
  rw [← hctx]
  refine Inv.know hi' h' ?_ ?_ ?_
  · split <;> rfl
  · intro ch' q ht
    split at ht
    · exact .inl ht
    rcases ht with ht | ht
    · rcases List.mem_cons.mp ht with he | he
      · -- the slot just tested
        cases he
        refine .inr fun lk hl hne sl hc => ?_
        rw [hctx] at hne
        rw [hcall] at hc
        rw [hlock] at hl
        have hsl : sl = true := by
          by_contra hsl
          rw [Bool.not_eq_true] at hsl
          rw [hsl] at hc
          obtain ⟨d, h1, h2⟩ := h.inside p ch lk hc
          have hpc := (hi.held c _).mp hp
          have hdc : d = c := by
            rcases h2 with h2 | h2
            · exact Option.some.inj (h2.symm.trans hl)
            · exact Option.some.inj (h2.symm.trans hpc)
          rw [hdc] at h1
          exact hne h1
        refine ⟨hsl, fun hst => ?_⟩
        rw [hs'] at hst
        split at hst
        · rw [setSlot_state, if_pos rfl] at hst
          cases hst
        · next hno =>
          obtain ⟨lk', hc'⟩ := h.asleep p hst
          rw [hc] at hc'
          have hch := congrArg SleepCall.chan (Option.some.inj hc')
          exact hno ⟨hst, hch.symm⟩
      · exact .inl (.inl he)
    · exact .inl (.inr ht)
  · rw [hctx, hheld]
    intro ha
    rw [if_pos ha]
    exact h.idle _ ha

theorem Inv.exec {β : Type} (o : Op β) {x : Choice} {b : β} {fresh : Option Ctx}
    (hpre : Proc.pre o (Λ (s.ctx c))) (hpre' : pre o (Λ (s.ctx c)) (N (s.ctx c)))
    (he : Proc.exec o (s.ctx c) c x s = .done b s' fresh)
    (hi' : Proc.Inv s' (renew Proc.start (update Λ (s.ctx c) (Proc.upd o (Λ (s.ctx c)) b)) fresh)) :
    Inv s' (renew Proc.start (update Λ (s.ctx c) (Proc.upd o (Λ (s.ctx c)) b)) fresh)
      (renew (fun _ => start) (update N (s.ctx c) (upd o (Λ (s.ctx c)) (N (s.ctx c)) b)) fresh) := by
  have hsame : ∀ {s' Λ'}, Inv s' Λ' N → Inv s' Λ' (update N (s.ctx c) (N (s.ctx c))) := fun hi => by
    rwa [update_eq_self]
  have hheld : ∀ {l : Local}, l.held = (Λ (s.ctx c)).held → ∀ t, (update Λ (s.ctx c) l t).held = (Λ t).held :=
    fun hl => update_keep Local.held hl
  -- operations that change no slot, lock or context
  have hquiet : ∀ {s' : Mem} {l : Local}, s'.call = s.call → s'.lock = s.lock → s'.ctx = s.ctx → s'.slot = s.slot →
      l.held = (Λ (s.ctx c)).held →
      Inv s' (update Λ (s.ctx c) l) (update N (s.ctx c) (N (s.ctx c))) := by
    intro s' l h1 h2 h3 h4 hl
    refine hsame (h.frame h1 h2 h3 (fun q hq => ?_) (by rw [h4]; exact h.dead) (hheld hl))
    rw [h4] at hq ⊢
    exact ⟨hq, rfl⟩
  have hdead : ∀ {p y}, (Λ (s.ctx c)).st p = some y → Dead y → s.call p = none := by
    intro p y hy hd
    refine h.dead p ?_
    rw [(hi.known c p y hy).2]
    exact hd
  cases o with
  | acquire lk =>
    obtain ⟨hfree, rfl, rfl⟩ := exec_acquire he
    exact Inv.acquire hi h hfree
  | release lk =>
    obtain ⟨hhold, rfl, rfl⟩ := exec_release he
    exact Inv.release hi h hhold hpre'
  | slot p =>
    cases he
    obtain ⟨_, hl⟩ := upd_slot (Λ (s.ctx c)) p (s.slot p)
    replace hl := congrArg Local.held hl
    exact hquiet rfl rfl rfl rfl hl
  | setState p y =>
    cases he
    refine hsame (h.frame_slot ?_ ?_ (hheld rfl))
    · rintro rfl
      exact hpre.2.runs.elim nofun nofun
    · rintro (rfl | rfl | rfl) <;> exact hpre.2.runs.elim nofun nofun
  | sleepOn p ch =>
    cases he
    obtain ⟨lk, hx⟩ := hpre'
    have hc := hi.ctx_proc hpre.2.1
    have hk : s.call p = some ⟨ch, lk, false⟩ := by rw [← h.mirror p, ← hc, hx]
    have hupd : (s.call p).map (fun k => { k with slept := true }) = some ⟨ch, lk, true⟩ := by rw [hk]; rfl
    have hN : upd (.sleepOn p ch) (Λ (s.ctx c)) (N (s.ctx c)) () =
      { N (s.ctx c) with call := some ⟨ch, lk, true⟩ } := by
      refine Known.ext ?_ rfl rfl
      show (N (s.ctx c)).call.map _ = _
      rw [hx]
      rfl
    rw [hN]
    refine Inv.setCall hi h hc (fun q hq => update_of_ne hq ..) (by rw [hupd]) rfl rfl (hheld rfl) ?_ ?_ ?_ ?_ ?_
    · intro _
      refine ⟨lk, ?_⟩
      show _ = some (SleepCall.mk (update s.slot p _ p).chan lk true)
      rw [update_self]
    · intro ch' lk' hk'
      cases hk'
    · intro ch' lk' sl hk'
      cases hk'
      exact h.spin p ch lk false hk
    · intro hd
      rw [show ((s.setSlot p _).slot p).state = _ from setSlot_state s p _ p, if_pos rfl] at hd
      rcases hd with hd | hd | hd <;> cases hd
    · intro d ch' lk' hd ht hl sl hk'
      cases hk'
      refine absurd (h.tested d p ch lk ht hl ?_ false hk).1 nofun
      intro hdp
      exact hd (hi.inj d c p hdp hc)
  | sleepCall p ch lk =>
    cases he
    obtain ⟨hs, hh, hlk⟩ := hpre
    have hc := hi.ctx_proc hs
    have hin : Lock.proc p ∉ (Λ (.proc p)).held := by
      rw [← hc, hh, List.mem_singleton]
      exact fun he => hlk p he.symm
    have hrun := hi.running c p hc hin
    have hlock : s.lock lk = some c := (hi.held c lk).mp (by rw [hh]; exact List.mem_singleton_self _)
    refine Inv.setCall hi h hc (fun q hq => rfl) rfl rfl rfl (hheld rfl) ?_ ?_ ?_ ?_ ?_
    · intro hsl
      exact absurd (hrun.symm.trans hsl) nofun
    · intro ch' lk' hk'
      cases hk'
      exact .inl hlock
    · intro ch' lk' sl hk'
      cases hk'
      cases lk with
      | proc q => exact absurd rfl (hlk q)
      | _ => rfl
    · intro hd
      replace hd : Dead (s.slot p).state := hd
      rw [hrun] at hd
      rcases hd with hd | hd | hd <;> cases hd
    · intro d ch' lk' hd ht hl sl hk'
      cases hk'
      exact absurd (Option.some.inj (hl.symm.trans hlock)) hd
  | sleepRet p =>
    cases he
    have hc := hi.ctx_proc hpre
    rw [hc] at hpre'
    have hrun := hi.running c p hc hpre'
    refine Inv.setCall hi h hc (fun q hq => rfl) rfl rfl rfl (hheld rfl) ?_ nofun nofun (fun _ => rfl) ?_
    · intro hsl
      exact absurd (hrun.symm.trans hsl) nofun
    · intro _ _ _ _ _ _ _ hk
      cases hk
  | clearChan p =>
    cases he
    refine hsame (h.frame_slot ?_ ?_ (hheld rfl))
    · intro hsl
      exact absurd ((hi.known c p _ hpre').2.symm.trans hsl) nofun
    · exact h.dead p
  | zombie p status =>
    cases he
    refine hsame (h.frame_slot nofun (fun _ => ?_) (hheld rfl))
    rw [← h.mirror p, ← hi.ctx_proc hpre.2.1]
    exact hpre'
  | found p pid =>
    cases he
    exact hsame (h.frame_slot nofun (fun _ => hdead hpre.2.2.1 (.inl rfl)) (hheld rfl))
  | freeproc p =>
    cases he
    refine hsame (h.frame_slot nofun (fun _ => ?_) (hheld rfl))
    rcases hpre.2.2 with ⟨hz, _⟩ | ⟨r, ho⟩
    · exact hdead hz (.inr (.inr rfl))
    · obtain ⟨_, _, _, hu, _⟩ := hi.own_ne ho
      exact h.dead p (by rw [hu]; exact .inr (.inl rfl))
  | wake p ch =>
    cases he
    exact Inv.wake hi h hpre.1 hi' rfl (hheld rfl)
  | wakeupRet ch =>
    cases he
    have hupd : update Λ (s.ctx c) (Proc.upd (.wakeupRet ch) (Λ (s.ctx c)) ()) = Λ :=
      update_eq_self ..
    show Inv s (update Λ (s.ctx c) (Proc.upd (.wakeupRet ch) (Λ (s.ctx c)) ())) (update N (s.ctx c)
      (if (Λ (s.ctx c)).held.all isSlot then N (s.ctx c) else { N (s.ctx c) with woken := ch :: (N (s.ctx c)).woken }))
    rw [hupd]
    refine Inv.know hi h ?_ ?_ ?_
    · split <;> rfl
    · intro ch' q ht
      split at ht
      · exact .inl ht
      · next ha =>
        rcases ht with ht | ht
        · exact .inl (.inl ht)
        · rcases List.mem_cons.mp ht with he | he
          · subst he
            refine .inr fun lk hl hne => ?_
            rcases hpre' (Bool.not_eq_true _ ▸ ha) q with hs | hs
            · exact absurd (hi.ctx_proc hs) hne
            · exact h.tested c q ch' lk (.inl hs) hl hne
          · exact .inl (.inr he)
    · intro ha
      rw [if_pos ha]
      exact h.idle _ ha
  | newContext p =>
    cases he
    obtain ⟨_, _, _, hu, hoff⟩ := hi.own_ne hpre
    refine Inv.newContext (hsame h) hoff (h.dead p (by rw [hu]; exact .inr (.inl rfl))) fun t ht => ?_
    rw [renew_of_ne ht]
    exact hheld (l := Proc.upd (.newContext p) (Λ (s.ctx c)) ()) rfl t
  | swtch p =>
    cases he
    obtain ⟨hs, hpk, _, _⟩ := hpre
    have hc := hi.ctx_sched hs
    refine hsame (h.switch (hheld rfl) (hi.picked c p hc (hc ▸ hpk)).2.2.2.held fun q k hq => ?_)
    rw [hc] at hq
    cases hq
  | sched =>
    obtain ⟨p, y, hs, hh, _, _⟩ := hpre
    obtain ⟨rfl, rfl⟩ := exec_sched he
    refine hsame (h.switch (hheld rfl) (hi.away c p (hi.ctx_proc hs)).held fun q k hq hk => hpre' k ?_)
    rw [hq, h.mirror q, hk]
  | panic => cases he
  | setKilled p | setParent p q =>
    cases he
    exact hsame (h.frame_slot (fun hx => ⟨hx, rfl⟩) (h.dead p) (hheld rfl))
  | myproc | cpuid | killed p mark | nextpid | setCur v | choose | files | pipe | pput ch | ptake ok | pclose w | ticks
    | tick | cons | setCons co | untest p | waitRet p pp pid status | readRet n count =>
      cases he
      exact hquiet rfl rfl rfl rfl rfl

end

end

/-! ## The code -/

/-- Between calls of `sleep`, or in the call `k`; `R` is about the context. -/
structure Stays (k : Option SleepCall) (R : Local → Prop) (l : Local) (x : Known) : Prop where
  call : x.call = k
  idle : l.held.all isSlot = true → x.seen = [] ∧ x.woken = []
  ctx : R l

/-- A condition that looks only at who the context is. -/
def OnSelf (R : Local → Prop) : Prop := ∀ l l', l'.self = l.self → l'.on = l.on → R l → R l'

section
variable {k : Option SleepCall} {R : Local → Prop}

theorem keeps_same {β : Type} {o : Op β} (hpre : ∀ l x, Stays k R l x → pre o l x) (hupd : ∀ l x b, upd o l x b = x)
    (hheld : ∀ l b, (Proc.upd o l b).held = l.held) (hR : ∀ l b, R l → R (Proc.upd o l b)) :
    layer.Keeps logic (Stays k R) (perform o) :=
  Layer.keeps_op fun l x h _ => ⟨hpre l x h, fun b _ _ => by
    show Stays k R (Proc.upd o l b) (upd o l x b)
    rw [hupd]
    refine ⟨h.call, fun ha => h.idle ?_, hR l b h.ctx⟩
    rwa [hheld] at ha⟩

theorem keeps_relock {o : Op Unit} (hpre : ∀ l x, Stays k R l x → pre o l x)
    (hupd : ∀ l x, upd o l x () = if isSlot lk then x else x.forget)
    (hheld : ∀ l, isSlot lk = true → (Proc.upd o l ()).held.all isSlot = true → l.held.all isSlot = true)
    (hR : ∀ l, R l → R (Proc.upd o l ())) : layer.Keeps logic (Stays k R) (perform o) :=
  Layer.keeps_op fun l x h _ => ⟨hpre l x h, fun _ _ _ => by
    show Stays k R (Proc.upd o l ()) (upd o l x ())
    rw [hupd]
    refine ⟨x.call_ite_forget.trans h.call, fun ha => ?_, hR l h.ctx⟩
    split
    · next hs => exact h.idle (hheld l hs ha)
    · exact ⟨rfl, rfl⟩⟩

theorem keeps_common (hk : ∀ ch lk, k ≠ some ⟨ch, lk, false⟩) (hR : OnSelf R) {β : Type} (o : Op β) (ho : o.Common) :
    layer.Keeps logic (Stays k R) (perform o) := by
  have hrel : ∀ {lk}, layer.Keeps logic (Stays k R) (perform (.release lk)) := fun {lk} =>
    keeps_relock (fun l x h ch j hc => absurd (h.call.symm.trans hc) (hk ch j)) (fun _ _ => rfl)
      (fun _ hs ha => all_of_erase hs ha) fun l => hR _ _ rfl rfl
  cases o with
  | acquire lk =>
    exact keeps_relock (fun _ _ _ => trivial) (fun _ _ => rfl) (fun _ _ ha => (Bool.and_eq_true _ _ ▸ ha : _ ∧ _).2)
      fun l => hR _ _ rfl rfl
  | release lk => exact hrel
  | slot p =>
    refine keeps_same (fun _ _ _ => trivial) (fun _ _ _ => rfl) (fun l b => ?_) fun l b h => ?_
    all_goals
      obtain ⟨_, hl⟩ := upd_slot l p b
      rw [hl]
    exact hR l _ rfl rfl h
  | sched =>
    refine keeps_same (fun l x h j hc => ?_) (fun _ _ _ => rfl) (fun _ _ => rfl) fun l _ => hR l _ rfl rfl
    obtain ⟨ch, lk, sl⟩ := j
    cases sl with
    | false => exact absurd (h.call.symm.trans hc) (hk ch lk)
    | true => rfl
  | myproc | cpuid | panic | choose | files | ticks | tick | cons | setCons co =>
    exact keeps_same (fun _ _ _ => trivial) (fun _ _ _ => rfl) (fun _ _ => rfl) fun _ _ h => h
  | _ => exact absurd ho nofun

theorem plain (hk : ∀ ch lk, k ≠ some ⟨ch, lk, false⟩) (hR : OnSelf R) : Plain (layer.Keeps logic (Stays k R)) :=
  ⟨layer.closed_keeps logic _, keeps_common hk hR _⟩

theorem keeps_setState (hR : OnSelf R) (p : Pr) (y : ProcState) :
    layer.Keeps logic (Stays k R) (perform (.setState p y)) :=
  keeps_same (fun _ _ _ => trivial) (fun _ _ _ => rfl) (fun _ _ => rfl) fun l _ => hR l _ rfl rfl

theorem keeps_sleep (hR : OnSelf R) (ch : Chan) (lk : Lock) : layer.Keeps logic (Stays none R) (sleep ch lk) := by
  intro l x h
  unfold sleep
  have hme := me_of (plain (k := none) (by nofun) hR)
  refine wp_call (hme l x h) fun p l' hl' => ?_
  obtain ⟨l, x⟩ := l'
  replace h := hl'
  -- the process holds the lock alone, and it is not that of a slot
  refine wp_op (fun _ => trivial) fun _ hb => ?_
  obtain ⟨⟨hs, hh, hlk⟩, -, -⟩ := hb
  have hslot : isSlot lk = false := by
    cases lk with
    | proc q => exact absurd rfl (hlk q)
    | _ => rfl
  refine wp_op (fun _ => trivial) fun _ _ => ?_
  refine wp_op (fun _ ch' j hc => ?_) fun _ _ => ?_
  · cases hc
    exact ⟨rfl, p, hs, List.mem_cons_self⟩
  have hheld : (.proc p :: l.held).erase lk = [.proc p] := by
    rw [hh, List.erase_cons_tail, List.erase_cons_head]
    simpa using (hlk p).symm
  have hx : layer.upd (.release lk) ((l.take (.proc p))) (layer.upd (.acquire (.proc p)) l
      { x with call := some ⟨ch, lk, false⟩ } ()) () = ⟨some ⟨ch, lk, false⟩, [], []⟩ := by
    show (if isSlot lk then _ else _) = _
    rw [hslot]
    rfl
  show wp _ _ _ ((l.take (.proc p)).drop lk, layer.upd (.release lk) (l.take (.proc p))
    (layer.upd (.acquire (.proc p)) l { x with call := some ⟨ch, lk, false⟩ } ()) ())
  rw [hx]
  refine wp_op (fun _ => ⟨lk, rfl⟩) fun _ _ => ?_
  refine wp_op (fun _ j hj => ?_) fun _ _ => ?_
  · cases hj
    rfl
  refine wp_op (fun _ => if_pos hs) fun _ _ => ?_
  refine wp_op (fun _ ch' j hc => ?_) fun _ _ => ?_
  · cases hc
  refine wp_op (fun _ => trivial) fun _ _ => ?_
  have hend : (lk :: ((.proc p :: l.held).erase lk).erase (.proc p)) = [lk] := by rw [hheld, List.erase_cons_head]
  refine wp_perform (fun _ hin => ?_) fun _ _ => ?_
  · replace hin : Lock.proc p ∈ lk :: ((.proc p :: l.held).erase lk).erase (.proc p) := hin
    rw [hend, List.mem_singleton] at hin
    exact hlk p hin.symm
  · refine ⟨rfl, fun ha => ?_, hR l _ rfl rfl h.ctx⟩
    replace ha : (lk :: ((.proc p :: l.held).erase lk).erase (.proc p)).all isSlot = true := ha
    rw [hend, List.all_cons, hslot] at ha
    cases ha

/-- `myproc()` is the process, or 0. -/
def NotOn (l : Local) : Prop := l.self = none → l.on = none

theorem onSelf_notOn : OnSelf NotOn := by
  intro l l' hs ho h hn
  rw [ho]
  exact h (hs ▸ hn)

/-- `wakeup` has tested the slots before `ps`. -/
structure Testing (k : Option SleepCall) (l : Local) (ch : Chan) (ps : List Pr) (l' : Local × Known) : Prop where
  held : l'.1.held = l.held
  self : l'.1.self = l.self
  stays : Stays k NotOn l'.1 l'.2
  seen : l.held.all isSlot = false → ∀ p, p ∈ ps ∨ l.self = some p ∨ (ch, p) ∈ l'.2.seen

section
variable (hk : ∀ ch lk, k ≠ some ⟨ch, lk, false⟩)
include hk

theorem wp_wakeSlot {p : Pr} {ps : List Pr}
    {l' : Local × Known} (h : Testing k l ch (p :: ps) l') :
    wp (layer.over logic) (wakeSlot ch p) (fun _ l'' => Testing k l ch ps l'') l' := by
  obtain ⟨l1, x⟩ := l'
  obtain ⟨hheld, hself, hstays, hseen⟩ := h
  replace hheld : l1.held = l.held := hheld
  replace hself : l1.self = l.self := hself
  unfold wakeSlot
  refine wp_op (fun _ => trivial) fun b hb => ?_
  have hb' : b = l1.self ∨ (l1.self = none ∧ b = l1.on) := hb.2.1
  show wp (layer.over logic) (if _ then _ else _) _ _
  split
  case isFalse hmine =>
    refine ⟨hheld, hself, hstays, fun ha q => ?_⟩
    rcases hseen ha q with hq | hq
    · rcases List.mem_cons.mp hq with he | he
      · subst he
        rw [not_not] at hmine
        rcases hb' with he | ⟨hn, he⟩
        · exact .inr (.inl (by rw [← hself, ← he, hmine]))
        · rw [hstays.ctx hn, hmine] at he
          cases he
      · exact .inl he
    · exact .inr hq
  case isTrue =>
    refine wp_op (fun _ => trivial) fun _ _ => ?_
    refine wp_op (fun _ => trivial) fun _ _ => ?_
    -- the lock of the slot does not count
    have hall : (Lock.proc p :: l1.held).all isSlot = l.held.all isSlot := by
      rw [List.all_cons, hheld]
      rfl
    have hx : layer.upd (.wake p ch) (l1.take (.proc p)) x () =
        if l.held.all isSlot then x else { x with seen := (ch, p) :: x.seen } := by
      show (if (Lock.proc p :: l1.held).all isSlot then _ else _) = _
      rw [hall]
    refine wp_perform (fun _ ch' j hc => ?_) fun _ _ => ?_
    · replace hc : (layer.upd (.wake p ch) (l1.take (.proc p)) x ()).call = _ := hc
      rw [hx] at hc
      refine absurd ?_ (hk ch' j)
      rw [← hc, ← hstays.call]
      split <;> rfl
    · show Testing k l ch ps ((((l1.take (.proc p)).setSt p none).drop (.proc p)),
        layer.upd (.wake p ch) (l1.take (.proc p)) x ())
      rw [hx]
      have hh : (Lock.proc p :: l1.held).erase (.proc p) = l.held := by rw [List.erase_cons_head, hheld]
      refine ⟨hh, hself, ⟨?_, fun ha => ?_, onSelf_notOn l1 _ rfl rfl hstays.ctx⟩, fun ha q => ?_⟩
      · rw [← hstays.call]
        split <;> rfl
      · replace ha : ((Lock.proc p :: l1.held).erase (.proc p)).all isSlot = true := ha
        rw [hh] at ha
        rw [if_pos ha]
        exact hstays.idle (by rw [hheld]; exact ha)
      · rw [if_neg (by rw [ha]; nofun)]
        rcases hseen ha q with hq | hq | hq
        · rcases List.mem_cons.mp hq with he | he
          · rw [he]
            exact .inr (.inr List.mem_cons_self)
          · exact .inl he
        · exact .inr (.inl hq)
        · exact .inr (.inr (List.mem_cons_of_mem _ hq))

theorem keeps_wakeup (ch : Chan) :
    layer.Keeps logic (Stays k NotOn) (wakeup ch) := by
  intro l x h
  unfold wakeup
  have hstart : Testing k l ch procs (l, x) := ⟨rfl, rfl, h, fun _ q => .inl (List.mem_finRange q)⟩
  refine wp_call (wp_forEach (Testing k l ch) (fun _ h => h)
    (fun _ _ _ hJ => wp_wakeSlot hk hJ) hstart) fun _ l' h' => ?_
  refine wp_perform (fun _ ha p => ?_) fun _ _ => ?_
  · rw [h'.held] at ha
    rw [h'.self]
    exact (h'.seen ha p).resolve_left List.not_mem_nil
  · obtain ⟨l1, x1⟩ := l'
    show Stays k NotOn l1 (if l1.held.all isSlot then x1 else { x1 with woken := ch :: x1.woken })
    refine ⟨?_, fun ha => ?_, h'.stays.ctx⟩
    · rw [← h'.stays.call]
      split <;> rfl
    · rw [if_pos ha]
      exact h'.stays.idle ha

theorem keeps_devintr (d : Dev) :
    layer.Keeps logic (Stays k NotOn) (devintr d) :=
  devintr_of (plain hk onSelf_notOn) (keeps_wakeup hk _) (keeps_wakeup hk _)
    fun _ => keeps_wakeup hk _

end

/-- Operations of a process that neither `sleep` nor `wakeup` is about. -/
def Aside {β : Type} : Op β → Prop
  | .setKilled _ | .killed _ _ | .zombie _ _ | .setParent _ _ | .nextpid | .found _ _ | .newContext _ | .freeproc _
  | .pipe | .pput _ | .ptake _ | .pclose _ | .untest _ | .waitRet _ _ _ _ | .readRet _ _ => True
  | _ => False

theorem keeps_aside {β : Type} (o : Op β) (ho : Aside o) : layer.Keeps logic (Stays none NotOn) (perform o) := by
  have hR : ∀ l l', l'.self = l.self → l'.on = l.on → NotOn l → NotOn l' := onSelf_notOn
  cases o with
  | zombie p status =>
    exact keeps_same (fun _ _ h => h.call) (fun _ _ _ => rfl) (fun _ _ => rfl) fun l _ => hR l _ rfl rfl
  | setKilled p | killed p mark | setParent p q | nextpid | found p pid | newContext p | freeproc p | pipe | pput ch
    | ptake ok | pclose w | untest p | waitRet p pp pid status | readRet n count =>
      exact keeps_same (fun _ _ _ => trivial) (fun _ _ _ => rfl) (fun _ _ => rfl) fun l _ => hR l _ rfl rfl
  | _ => exact absurd ho nofun

theorem keeps_usertrap (t : Trap) : layer.Keeps logic (Stays none NotOn) (usertrap t) := by
  have hno : ∀ ch lk, (none : Option SleepCall) ≠ some ⟨ch, lk, false⟩ := by nofun
  have hT := plain (k := none) hno onSelf_notOn
  have hwake := keeps_wakeup hno
  have hsleep := keeps_sleep onSelf_notOn
  have hkilled := fun p mark => killed_of hT (keeps_aside (.killed p mark) trivial)
  have hpar := fun p q => keeps_aside (.setParent p q) trivial
  have hfree := fun p => keeps_aside (.freeproc p) trivial
  have hset := fun p => keeps_setState (k := none) onSelf_notOn p .RUNNABLE
  refine usertrap_of_parts hT hkilled (fun p _ => keeps_aside _ trivial) (yield_of hT hset)
    (fun pid _ => kill_of hT (fun p => keeps_aside _ trivial) hset) hwake (fun n m => hsleep _ _) (hsleep _ _)
    (hsleep _ _) ?_ (fun w => ?_) (fun hclose status => ?_) (fun addr => ?_) (fun buf n => ?_) fun mapped n => ?_
  · exact fork_of hT (keeps_aside _ trivial) (fun p pid => keeps_aside _ trivial) (fun p => keeps_aside _ trivial)
      hfree hpar hset
  · exact pipeclose_of hT (keeps_aside _ trivial) (hwake _)
  · exact exit_of hT hclose (fun p => reparent_of hT hpar (hwake _)) (fun _ => hwake _) fun p =>
      keeps_aside _ trivial
  · exact wait_of hT (fun p h => waitScan_of (p := p) hT (fun _ _ _ => keeps_aside _ trivial) hfree procs h)
      (fun p => hkilled p true) fun p => hsleep _ _
  · exact pipewrite_of hT (keeps_aside _ trivial) (fun p => hkilled p true) (fun p => keeps_aside _ trivial)
      (fun ch => keeps_aside _ trivial) (hwake _) (hsleep _ _)
  · exact piperead_of hT (keeps_aside _ trivial) (fun p => hkilled p true) (fun ok => keeps_aside _ trivial)
      (fun n i => keeps_aside _ trivial) (hwake _) (hsleep _ _)

theorem keeps_scheduler : layer.Keeps logic (Stays none fun _ => True) scheduler := by
  refine scheduler_of (plain (by nofun) fun _ _ _ _ h => h)
    (fun p => keeps_setState (fun _ _ _ _ h => h) p _) (fun v => ?_) fun p => ?_
  · exact keeps_same (fun _ _ _ => trivial) (fun _ _ _ => rfl) (fun _ _ => rfl) fun _ _ h => h
  · exact keeps_same (fun _ _ _ => trivial) (fun _ _ _ => rfl) (fun _ _ => rfl) fun _ _ h => h

/-- An interrupt finds no lock held. -/
structure Interruptible (x : Known) : Prop where
  seen : x.seen = []
  woken : x.woken = []
  call : ∀ ch lk, x.call ≠ some ⟨ch, lk, false⟩

theorem wp_handler (hq : l.Quiet) (hx : Interruptible x) (d : Dev) :
    wp (layer.over logic) (kerneltrap d) (fun _ l' => l'.1 = l → l'.2 = x) (l, x) := by
  have hT := plain hx.call onSelf_notOn
  have hk := kerneltrap_of hT (keeps_devintr hx.call d) (yield_of hT fun p => keeps_setState onSelf_notOn p _)
  refine hk.ends ⟨rfl, fun _ => ⟨hx.seen, hx.woken⟩, fun _ => hq.on⟩ fun l' h he => ?_
  have hidle := h.idle (by rw [he, hq.held]; rfl)
  exact Known.ext h.call (hidle.1.trans hx.seen.symm) (hidle.2.trans hx.woken.symm)

end

/-! ## All runs -/

theorem sound : Layer.Sound machine logic layer (fun _ _ _ => True) Proc.Inv Inv Local.User Local.Quiet
    (Stays none NotOn) (fun _ x => Interruptible x) Proc.start (fun _ => start) where
  done o c x s Λ N b s' fresh hi h hpre hpre' _ he _ hi' := ⟨trivial, Inv.exec hi h o hpre hpre' he hi'⟩
  isQuiet s Λ N c hi h hn := by
    have hq := hi.quiet (of_decide_eq_true hn)
    obtain ⟨h1, h2⟩ := h.idle (s.ctx c) (by rw [hq.held]; rfl)
    refine ⟨h1, h2, fun ch lk hc => ?_⟩
    replace hc : (N (s.ctx c)).call = some ⟨ch, lk, false⟩ := hc
    rcases hi.ctx c with hs | ⟨p, hp⟩
    · rw [hs, h.schedCall c] at hc
      cases hc
    · rw [hp, h.mirror p] at hc
      -- a call that has not come to sleep holds a lock
      obtain ⟨d, hd, hl⟩ := h.inside p ch lk hc
      rw [hi.inj d c p hd hp] at hl
      rcases hl with hl | hl
      · exact hq.notMem ((hi.held c _).mpr hl)
      · exact hq.notMem ((hi.held c _).mpr hl)
  code t l x _ hx := (keeps_usertrap t).ends hx fun _ h _ => h
  handler d l x hl hx := wp_handler hl hx d
  entry
    | .proc p => by
      have hk := forkret_of (plain (k := none) (by nofun) onSelf_notOn)
      have hx : Stays none NotOn (Proc.start (.proc p)) start := ⟨rfl, fun _ => ⟨rfl, rfl⟩, by nofun⟩
      exact hk.ends hx fun _ h _ => h
    | .sched c => by
      have hx : Stays none (fun _ => True) (Proc.start (.sched c)) start := ⟨rfl, fun _ => ⟨rfl, rfl⟩, trivial⟩
      exact keeps_scheduler.ends hx fun _ h hu => ⟨h.call, h.idle, fun hn => absurd hn hu.self⟩

/-- The invariant of the processors and of `sleep` and `wakeup`. -/
def Both (s : Mem) (Λ : Ctx → Local × Known) : Prop :=
  Proc.Inv s (fun t => (Λ t).1) ∧ Inv s (fun t => (Λ t).1) fun t => (Λ t).2

theorem sound_full : Sound machine (layer.full logic) (fun _ _ _ => True) Both
    (fun l => l.1.User ∧ Stays none NotOn l.1 l.2) (fun l => l.1.Quiet ∧ Interruptible l.2) fun t =>
    (Proc.start t, start) :=
  sound.full Proc.sound

theorem inv_boot (data : Nat → UInt8) : Inv (bootMem data) Proc.start fun _ => start where
  mirror _ := rfl
  schedCall _ := rfl
  asleep p hp := by
    replace hp : (if p = initproc then _ else Slot.free).state = .SLEEPING := hp
    split at hp <;> cases hp
  inside _ _ _ hc := nomatch hc
  spin _ _ _ _ hc := nomatch hc
  dead _ _ := rfl
  tested _ _ _ _ ht := absurd ⟨rfl, rfl⟩ ht.not_idle
  idle _ _ := ⟨rfl, rfl⟩

theorem good {s : State} (h : Reachable s) :
    Good (layer.full logic) Both (fun l => l.1.User ∧ Stays none NotOn l.1 l.2) s := by
  refine sound_full.reach_all (fun _ _ _ => trivial) (fun s hs => ?_) h
  obtain ⟨data, rfl⟩ := hs
  exact ⟨fun t => (Proc.start t, start), ⟨Proc.inv_boot data, inv_boot data⟩, sound_full.entry⟩

/-- Processor `c` is about to return from `wakeup(ch)`. -/
def Returning (s : State) (c : Nat) (ch : Chan) : Prop := ∃ k, s.prog (s.shared.ctx c) = .op (.wakeupRet ch) k

/-- A process calls `sleep` with the lock held, and is SLEEPING in a call of `sleep` on
its channel.  When the `wakeup(chan)` of another context returns that holds `lk`, no
process in `sleep(chan, lk)` is SLEEPING. -/
theorem no_lost_wakeup {s : State} (h : Reachable s) :
    (∀ c p ch lk k, s.prog (s.shared.ctx c) = .op (.sleepCall p ch lk) k →
      s.shared.ctx c = .proc p ∧ s.shared.lock lk = some c) ∧
    (∀ p, (s.shared.slot p).state = .SLEEPING → ∃ lk, s.shared.call p = some ⟨(s.shared.slot p).chan, lk, true⟩) ∧
    ∀ c ch lk p sl, Returning s c ch → s.shared.lock lk = some c → s.shared.ctx c ≠ .proc p →
      s.shared.call p = some ⟨ch, lk, sl⟩ → (s.shared.slot p).state ≠ .SLEEPING := by
  obtain ⟨Λ, ⟨hi, hI⟩, hw⟩ := good h
  refine ⟨fun c p ch lk k hp => ?_, hI.asleep, fun c ch lk p sl hr hl hne hc => ?_⟩
  · have hwp := hw (s.shared.ctx c)
    rw [hp] at hwp
    obtain ⟨⟨hs, hh, _⟩, -⟩ := hwp.1
    exact ⟨hi.ctx_proc hs, (hi.held c lk).mp (by rw [hh]; exact List.mem_singleton_self _)⟩
  · obtain ⟨k, hp⟩ := hr
    have hwp := hw (s.shared.ctx c)
    rw [hp] at hwp
    -- the lock of the call is not that of a slot, so every slot has been tested
    have hall : (Λ (s.shared.ctx c)).1.held.all isSlot = false := by
      by_contra ha
      rw [Bool.not_eq_false, List.all_eq_true] at ha
      have hs := ha lk ((hi.held c lk).mpr hl)
      rw [hI.spin p ch lk sl hc] at hs
      cases hs
    rcases hwp.1.2 hall p with hs | hs
    · exact absurd (hi.ctx_proc hs) hne
    · exact (hI.tested c p ch lk (.inl hs) hl hne sl hc).2

/-- The channel of the `wakeup` that is about to return. -/
def returning : K Unit → Option Chan
  | .op (.wakeupRet ch) _ => some ch
  | _ => none

theorem returning_of {s : State} {c : Nat} (h : returning (s.prog (s.shared.ctx c)) = some ch) : Returning s c ch := by
  unfold returning at h
  split at h
  · next k hp =>
    cases h
    exact ⟨k, hp⟩
  · cases h

/-- The first process sleeps until the next tick, and the clock of processor 0 ticks. -/
theorem no_lost_wakeup_tick : ∃ s : State, Reachable s ∧ Returning s 0 .ticks ∧
    s.shared.call initproc = some ⟨.ticks, .ticks, true⟩ ∧ (s.shared.slot initproc).state ≠ .SLEEPING := by
  have hview : (Run.run (step machine) (boot fun _ => 0)
      (steps 1 9 ++ .call 1 (.syscall (.sleep 1)) :: steps 1 20 ++ .intr 0 .timer :: steps 0 259)).map
      (fun s => (returning (s.prog (s.shared.ctx 0)), s.shared.lock .ticks, s.shared.ctx 0, s.shared.call initproc)) =
      some (some .ticks, some 0, .sched 0, some ⟨.ticks, .ticks, true⟩) := by
    decide +kernel
  obtain ⟨s, hs, hv⟩ := Option.map_eq_some_iff.mp hview
  have hr : Reachable s := Run.Reach.of_run (fun _ _ => trivial) _ (.start ⟨_, rfl⟩) hs
  simp only [Prod.mk.injEq] at hv
  obtain ⟨hret, hl, hctx, hc⟩ := hv
  refine ⟨s, hr, returning_of hret, hc, ?_⟩
  refine (no_lost_wakeup hr).2.2 0 .ticks .ticks initproc true (returning_of hret) hl ?_ hc
  rw [hctx]
  nofun

end Xv6.Proc.Wakeup
