import Mathlib.Logic.Function.Basic
import Xv6.Lib.Run

/-!
# Critical sections with `sleep` and `wakeup`

Actors run critical sections under one spin lock.  `Sys.body` is one statement of
a section; it can go on, call `wakeup(ch)`, call `sleep(ch, lk)` or leave.  What
happens without the lock is `start` and `idle` (an actor that is in no section)
and `env` (other parties).

`sleep` and `wakeup` are step by step: `sleep` takes the lock of the actor itself
before it releases the lock of the section and only then sets `SLEEPING`; `wakeup`
goes through all actors and waits for one that is on its way to sleep.

Two rules.  `Rule.reach`: what every statement keeps holds in every state that is
reached, and the rule does not see `sleep` and `wakeup` (only that the lock is
released).  `Waits.reach`: if sleepers on `ch` wait for `W ch`, and whatever ends
it calls `wakeup(ch)`, then nobody sleeps on `ch` without `W ch` while the lock
is free.
-/

namespace Monitor

open Function

/-- What one statement of a section comes to. -/
inductive Next (κ χ : Type)
  | go (k : κ)
  | wake (ch : χ) (k : κ)
  | sleep (ch : χ) (k : κ)
  | leave

structure Sys (ι σ κ χ ν μ ε : Type) where
  stopped : σ → Bool
  start : σ → ι → ν → Option (σ × κ)
  idle : σ → ι → μ → Option σ
  env : σ → ε → Option σ
  body : σ → ι → κ → Option (σ × Next κ χ)
  /-- What `wakeup` goes through. -/
  procs : List ι

inductive Point (ι κ χ : Type)
  /-- In no section. -/
  | rest
  /-- Before `acquire`. -/
  | acquire (k : κ)
  | run (k : κ)
  /-- In `wakeup`, with the actors it has still to look at. -/
  | waking (ch : χ) (todo : List ι) (k : κ)
  /-- In `sleep`, before `acquire(&p->lock)`. -/
  | lockSelf (ch : χ) (k : κ)
  /-- `p->lock` is held, before `release(lk)`. -/
  | unlock (ch : χ) (k : κ)
  /-- `p->lock` is held, before `p->state = SLEEPING`. -/
  | setState (ch : χ) (k : κ)
  | sleeping (ch : χ) (k : κ)

structure St (ι σ κ χ : Type) where
  shared : σ
  lock : Option ι
  point : ι → Point ι κ χ

inductive Move (ι ν μ ε : Type)
  | enter (p : ι) (n : ν)
  | idle (p : ι) (m : μ)
  | env (e : ε)
  | go (p : ι)
  /-- A sleeper is made runnable for some other reason. -/
  | rouse (p : ι)

section
variable {ι σ κ χ ν μ ε : Type} [DecidableEq ι] [DecidableEq χ]

def setPoint (s : St ι σ κ χ) (p : ι) (x : Point ι κ χ) : St ι σ κ χ := { s with point := update s.point p x }

def Next.point (procs : List ι) : Next κ χ → Point ι κ χ
  | .go k => .run k
  | .wake ch k => .waking ch procs k
  | .sleep ch k => .lockSelf ch k
  | .leave => .rest

/-- After a statement of the section of `p`; `leave` is `release`. -/
def after (S : Sys ι σ κ χ ν μ ε) (s : St ι σ κ χ) (p : ι) (m : σ) (n : Next κ χ) : St ι σ κ χ :=
  { shared := m
    lock := match n with
      | .leave => none
      | _ => s.lock
    point := update s.point p (n.point S.procs) }

/-- `wakeup` looks at `q`. -/
def look (s : St ι σ κ χ) (p q : ι) (ch : χ) (todo : List ι) (k : κ) : Option (St ι σ κ χ) :=
  match s.point q with
  | .unlock _ _ | .setState _ _ => none
  | .sleeping ch' k' =>
    if ch' = ch then some (setPoint (setPoint s q (.acquire k')) p (.waking ch todo k))
    else some (setPoint s p (.waking ch todo k))
  | _ => some (setPoint s p (.waking ch todo k))

def goStep (S : Sys ι σ κ χ ν μ ε) (s : St ι σ κ χ) (p : ι) : Option (St ι σ κ χ) :=
  match s.point p with
  | .rest | .sleeping _ _ => none
  | .acquire k => if s.lock = none then some { setPoint s p (.run k) with lock := some p } else none
  | .run k => (S.body s.shared p k).map fun r => after S s p r.1 r.2
  | .waking _ [] k => some (setPoint s p (.run k))
  | .waking ch (q :: todo) k => if q = p then some (setPoint s p (.waking ch todo k)) else look s p q ch todo k
  | .lockSelf ch k => some (setPoint s p (.unlock ch k))
  | .unlock ch k => some { setPoint s p (.setState ch k) with lock := none }
  | .setState ch k => some (setPoint s p (.sleeping ch k))

def step (S : Sys ι σ κ χ ν μ ε) (s : St ι σ κ χ) (m : Move ι ν μ ε) : Option (St ι σ κ χ) :=
  if S.stopped s.shared then none
  else
    match m with
    | .enter p n =>
      match s.point p with
      | .rest => (S.start s.shared p n).map fun r => { setPoint s p (.acquire r.2) with shared := r.1 }
      | _ => none
    | .idle p m =>
      match s.point p with
      | .rest => (S.idle s.shared p m).map fun m' => { s with shared := m' }
      | _ => none
    | .env e => (S.env s.shared e).map fun m' => { s with shared := m' }
    | .go p => goStep S s p
    | .rouse p =>
      match s.point p with
      | .sleeping _ k => some (setPoint s p (.acquire k))
      | _ => none

def Reachable (S : Sys ι σ κ χ ν μ ε) (init : σ → Prop) (s : St ι σ κ χ) : Prop :=
  Run.Reach (step S) (fun _ _ => True) (fun s => init s.shared ∧ s.lock = none ∧ ∀ p, s.point p = .rest) s

end

/-! ## The lock -/

section
variable {ι π : Type} [DecidableEq ι] {f : π → Bool} {at_ : ι → π} {l : Option ι} {p : ι} {x : π}

theorem holder_taken (h : ∀ q, f (at_ q) = true → q = p) (q : ι) :
    (if f x = true then some p else none) = some q ↔ f (update at_ p x q) = true := by
  by_cases hqp : q = p
  · subst hqp
    rw [update_self]
    split <;> simp_all
  · have hno : f (at_ q) = false := Bool.eq_false_iff.mpr fun hq => hqp (h q hq)
    rw [update_of_ne hqp, hno]
    split <;> simp [Ne.symm hqp]

theorem holder_kept (h : ∀ q, l = some q ↔ f (at_ q) = true) (hp : f (at_ p) = f x) (q : ι) :
    l = some q ↔ f (update at_ p x q) = true := by
  rw [h q]
  by_cases hqp : q = p
  · subst hqp
    rw [update_self, hp]
  · rw [update_of_ne hqp]

end

section
variable {ι σ κ χ ν μ ε : Type} {s s' : St ι σ κ χ} {p : ι} {x : Point ι κ χ}

def Point.code : Point ι κ χ → Option κ
  | .rest => none
  | .acquire k | .run k | .waking _ _ k | .lockSelf _ k | .unlock _ k | .setState _ k | .sleeping _ k => some k

def Point.holds : Point ι κ χ → Bool
  | .run _ | .waking _ _ _ | .lockSelf _ _ | .unlock _ _ => true
  | .rest | .acquire _ | .setState _ _ | .sleeping _ _ => false

/-- The actor holds the lock, and is not in `sleep`. -/
def Point.inside : Point ι κ χ → Bool
  | .run _ | .waking _ _ _ => true
  | _ => false

/-- The actor is in `sleep(ch, lk)`. -/
def Point.down (ch : χ) : Point ι κ χ → Prop
  | .lockSelf ch' _ | .unlock ch' _ | .setState ch' _ | .sleeping ch' _ => ch' = ch
  | .rest | .acquire _ | .run _ | .waking _ _ _ => False

def code (s : St ι σ κ χ) (p : ι) : Option κ := (s.point p).code

def Next.code : Next κ χ → Option κ
  | .go k | .wake _ k | .sleep _ k => some k
  | .leave => none

/-- Who is in a section after a statement of `p`. -/
def Next.inside (p : ι) : Next κ χ → Option ι
  | .go _ | .wake _ _ => some p
  | .sleep _ _ | .leave => none

/-- The lock is held by the actor that says so. -/
def Locked (s : St ι σ κ χ) : Prop := ∀ p, s.lock = some p ↔ (s.point p).holds = true

theorem Point.holds_of_inside (h : x.inside = true) : x.holds = true := by
  cases x <;> first | rfl | cases h

theorem Locked.only (h : Locked s) {q : ι} (hp : (s.point p).holds = true) (hq : (s.point q).holds = true) : q = p :=
  Option.some.inj (((h q).mpr hq).symm.trans ((h p).mpr hp))

theorem Locked.owner (h : Locked s) (hp : s.lock = none ∨ s.lock = some p) (q : ι) (hq : (s.point q).holds = true) :
    q = p := by
  have hl := (h q).mpr hq
  rcases hp with hp | hp <;> rw [hp] at hl <;> cases hl
  rfl

variable [DecidableEq ι]

theorem code_setPoint (s : St ι σ κ χ) (p : ι) (x : Point ι κ χ) :
    code (setPoint s p x) = update (code s) p x.code := by
  funext q
  by_cases hq : q = p
  · subst hq
    simp [code, setPoint]
  · simp [code, setPoint, hq]

theorem code_setPoint_same (s : St ι σ κ χ) (h : (s.point p).code = x.code) : code (setPoint s p x) = code s := by
  rw [code_setPoint, ← h]
  exact update_eq_self p (code s)

theorem Locked.taken (h : Locked s) (hp : s.lock = none ∨ s.lock = some p) (x : Point ι κ χ) (m : σ) :
    Locked { setPoint s p x with shared := m, lock := if x.holds = true then some p else none } :=
  holder_taken (h.owner hp)

theorem Locked.kept (h : Locked s) (hp : (s.point p).holds = x.holds) : Locked (setPoint s p x) :=
  holder_kept h hp

end

/-! ## What sections keep -/

section
variable {ι σ κ χ : Type} {s s' : St ι σ κ χ} {p : ι} {x : Point ι κ χ}

/-- `l` is the actor in a section. -/
def Inside (s : St ι σ κ χ) (l : Option ι) : Prop := ∀ p, l = some p ↔ (s.point p).inside = true

variable {l : Option ι}

theorem Inside.eq (h : Inside s l) (hp : (s.point p).inside = true) : l = some p :=
  (h p).mpr hp

theorem Inside.eq_none (h : Inside s l) (hl : Locked s) (hs : s.lock = none) : l = none := by
  cases l with
  | none => rfl
  | some p =>
    have hp := (hl p).mpr (Point.holds_of_inside ((h p).mp rfl))
    rw [hs] at hp
    cases hp

variable [DecidableEq ι]

theorem Inside.taken (hl : Locked s) (hp : s.lock = none ∨ s.lock = some p)
    (hs : s'.point = update s.point p x) : Inside s' (if x.inside = true then some p else none) := by
  rw [Inside, hs]
  exact holder_taken fun q hq => hl.owner hp q (Point.holds_of_inside hq)

theorem Inside.kept (h : Inside s l) (hp : (s.point p).inside = x.inside) : Inside (setPoint s p x) l :=
  holder_kept h hp

end

section
variable {ι σ κ χ ν μ ε : Type} [DecidableEq ι] {S : Sys ι σ κ χ ν μ ε} {init : σ → Prop}
  {s s' : St ι σ κ χ} {p : ι} {x : Point ι κ χ}
  {I : σ → Option ι → (ι → Option κ) → Prop}

/-- `I m l c` is kept: `l` is the actor in a section, `c` the code that each actor
has still to run. -/
structure Rule (S : Sys ι σ κ χ ν μ ε) (init : σ → Prop) (I : σ → Option ι → (ι → Option κ) → Prop) : Prop where
  init : ∀ m, init m → I m none fun _ => none
  acquire : ∀ m c p k, I m none c → c p = some k → I m (some p) c
  enter : ∀ m l c p n m' k, S.stopped m = false → I m l c → c p = none → S.start m p n = some (m', k) →
    I m' l (update c p (some k))
  idle : ∀ m l c p a m', S.stopped m = false → I m l c → c p = none → S.idle m p a = some m' → I m' l c
  env : ∀ m l c e m', S.stopped m = false → I m l c → S.env m e = some m' → I m' l c
  body : ∀ m c p k m' n, S.stopped m = false → I m (some p) c → c p = some k → S.body m p k = some (m', n) →
    I m' (n.inside p) (update c p n.code)

/-- The invariant behind `Rule.reach`. -/
structure Kept (I : σ → Option ι → (ι → Option κ) → Prop) (s : St ι σ κ χ) : Prop where
  locked : Locked s
  inv : ∃ l, Inside s l ∧ I s.shared l (code s)

theorem Kept.silent (h : Kept I s) (hl : (s.point p).holds = x.holds)
    (hc : (s.point p).code = x.code) (hi : (s.point p).inside = x.inside) : Kept I (setPoint s p x) := by
  obtain ⟨l, hin, hI⟩ := h.inv
  refine ⟨h.locked.kept hl, l, hin.kept hi, ?_⟩
  rw [code_setPoint_same s hc]
  exact hI

theorem Rule.after (h : Rule S init I) (hk : Kept I s) {k : κ} (hp : s.point p = .run k)
    (hs : S.stopped s.shared = false) {m : σ} {n : Next κ χ} (hb : S.body s.shared p k = some (m, n)) :
    Kept I (after S s p m n) := by
  obtain ⟨l, hin, hI⟩ := hk.inv
  have hl : l = some p := hin.eq (by rw [hp]; rfl)
  subst hl
  have hmine : s.lock = some p := (hk.locked p).mpr (by rw [hp]; rfl)
  have hnext := h.body s.shared (code s) p k m n hs hI (by rw [code, hp]; rfl) hb
  have hpoint : (Monitor.after S s p m n).point = update s.point p (n.point S.procs) := rfl
  have hcode : code (Monitor.after S s p m n) = update (code s) p n.code := by
    refine (code_setPoint s p (n.point S.procs)).trans ?_
    cases n <;> rfl
  refine ⟨?_, n.inside p, ?_, hcode ▸ hnext⟩
  · have ht := hk.locked.taken (Or.inr hmine) (n.point S.procs) m
    unfold Monitor.after
    rw [hmine]
    cases n <;> exact ht
  · have ht := Inside.taken hk.locked (Or.inr hmine) hpoint
    cases n <;> exact ht

/-- What a step does. -/
inductive Effect (S : Sys ι σ κ χ ν μ ε) (s : St ι σ κ χ) : St ι σ κ χ → Prop
  | enter {p : ι} {n : ν} {m : σ} {k : κ} : s.point p = .rest → S.start s.shared p n = some (m, k) →
      Effect S s { setPoint s p (.acquire k) with shared := m }
  | idle {p : ι} {b : μ} {m : σ} : s.point p = .rest → S.idle s.shared p b = some m → Effect S s { s with shared := m }
  | env {e : ε} {m : σ} : S.env s.shared e = some m → Effect S s { s with shared := m }
  | acquire {p : ι} {k : κ} : s.point p = .acquire k → s.lock = none →
      Effect S s { setPoint s p (.run k) with lock := some p }
  | body {p : ι} {k : κ} {m : σ} {n : Next κ χ} : s.point p = .run k → S.body s.shared p k = some (m, n) →
      Effect S s (after S s p m n)
  | woke {p : ι} {ch : χ} {k : κ} : s.point p = .waking ch [] k → Effect S s (setPoint s p (.run k))
  /-- `wakeup` goes past an actor that does not sleep on `ch`. -/
  | pass {p q : ι} {ch : χ} {todo : List ι} {k : κ} : s.point p = .waking ch (q :: todo) k →
      ((s.point q).down ch → q ≠ p → (s.point q).holds = true) → Effect S s (setPoint s p (.waking ch todo k))
  | wake {p q : ι} {ch : χ} {todo : List ι} {k k' : κ} : s.point p = .waking ch (q :: todo) k → q ≠ p →
      s.point q = .sleeping ch k' → Effect S s (setPoint (setPoint s q (.acquire k')) p (.waking ch todo k))
  | lockSelf {p : ι} {ch : χ} {k : κ} : s.point p = .lockSelf ch k → Effect S s (setPoint s p (.unlock ch k))
  | unlock {p : ι} {ch : χ} {k : κ} : s.point p = .unlock ch k →
      Effect S s { setPoint s p (.setState ch k) with lock := none }
  | setState {p : ι} {ch : χ} {k : κ} : s.point p = .setState ch k → Effect S s (setPoint s p (.sleeping ch k))
  | rouse {p : ι} {ch : χ} {k : κ} : s.point p = .sleeping ch k → Effect S s (setPoint s p (.acquire k))

variable [DecidableEq χ]

theorem look_cases {q : ι} {ch : χ} {todo : List ι} {k : κ} (hp : s.point p = .waking ch (q :: todo) k) (hqp : q ≠ p)
    (h : look s p q ch todo k = some s') : Effect S s s' := by
  unfold look at h
  split at h <;> try cases h
  · next hq =>
    split at h <;> cases h
    · next hc => exact .wake hp hqp (hc ▸ hq)
    · next hc => exact .pass hp fun hd => absurd (hq ▸ hd : Point.down ch (.sleeping _ _)) hc
  · next h1 h2 h3 =>
    refine .pass hp fun hd _ => ?_
    cases hq : s.point q with
    | rest | acquire | run | waking =>
      rw [hq] at hd
      exact hd.elim
    | unlock ch' k' => exact absurd hq (h1 ch' k')
    | setState ch' k' => exact absurd hq (h2 ch' k')
    | sleeping ch' k' => exact absurd hq (h3 ch' k')
    | lockSelf => rfl

variable {a : Move ι ν μ ε}

theorem step_cases (hs : step S s a = some s') : S.stopped s.shared = false ∧ Effect S s s' := by
  unfold step at hs
  split at hs
  case isTrue => cases hs
  next hrun =>
  refine ⟨by simpa using hrun, ?_⟩
  cases a with
  | enter p n =>
    dsimp only at hs
    split at hs
    case h_2 => cases hs
    next hp =>
    obtain ⟨_, hb, rfl⟩ := Option.map_eq_some_iff.mp hs
    exact .enter hp hb
  | idle p b =>
    dsimp only at hs
    split at hs
    case h_2 => cases hs
    next hp =>
    obtain ⟨_, hb, rfl⟩ := Option.map_eq_some_iff.mp hs
    exact .idle hp hb
  | env e =>
    obtain ⟨_, hb, rfl⟩ := Option.map_eq_some_iff.mp hs
    exact .env hb
  | rouse p =>
    dsimp only at hs
    split at hs <;> cases hs
    next hp => exact .rouse hp
  | go p =>
    simp only [goStep] at hs
    split at hs
    · cases hs
    · cases hs
    · next hp =>
      split at hs <;> cases hs
      next hfree => exact .acquire hp hfree
    · next hp =>
      obtain ⟨_, hb, rfl⟩ := Option.map_eq_some_iff.mp hs
      exact .body hp hb
    · next hp =>
      cases hs
      exact .woke hp
    · next hp =>
      split at hs
      · next hqp =>
        cases hs
        exact .pass hp fun _ hne => absurd hqp hne
      · next hqp => exact look_cases hp hqp hs
    · next hp =>
      cases hs
      exact .lockSelf hp
    · next hp =>
      cases hs
      exact .unlock hp
    · next hp =>
      cases hs
      exact .setState hp

theorem Rule.keeps (h : Rule S init I) (hk : Kept I s) (hs : step S s a = some s') : Kept I s' := by
  obtain ⟨hrun, he⟩ := step_cases hs
  obtain ⟨l, hin, hI⟩ := hk.inv
  cases he with
  | @enter p n m k hp hb =>
    refine ⟨hk.locked.kept (x := .acquire k) (by rw [hp]; rfl), l, hin.kept (x := .acquire k) (by rw [hp]; rfl), ?_⟩
    have hc : code { setPoint s p (.acquire k) with shared := m } = update (code s) p (some k) :=
      code_setPoint s p (.acquire k)
    rw [hc]
    exact h.enter _ _ _ p n m k hrun hI (by rw [code, hp]; rfl) hb
  | idle hp hb => exact ⟨hk.locked, l, hin, h.idle _ _ _ _ _ _ hrun hI (by rw [code, hp]; rfl) hb⟩
  | env hb => exact ⟨hk.locked, l, hin, h.env _ _ _ _ _ hrun hI hb⟩
  | @acquire p k hp hfree =>
    have hl := hin.eq_none hk.locked hfree
    subst hl
    have hin' : Inside { setPoint s p (.run k) with lock := some p }
        (if (Point.run k : Point ι κ χ).inside = true then some p else none) := Inside.taken hk.locked
        (Or.inl hfree) rfl
    refine ⟨hk.locked.taken (Or.inl hfree) (.run k) s.shared, some p, hin', ?_⟩
    have hc : code { setPoint s p (.run k) with lock := some p } = code s :=
      code_setPoint_same s (by rw [hp]; rfl)
    rw [hc]
    exact h.acquire _ _ p k hI (by rw [code, hp]; rfl)
  | body hp hb => exact h.after hk hp hrun hb
  | @unlock p ch k hp =>
    have hmine : s.lock = some p := (hk.locked p).mpr (by rw [hp]; rfl)
    refine ⟨hk.locked.taken (Or.inr hmine) (.setState ch k) s.shared, l,
      hin.kept (x := .setState ch k) (by rw [hp]; rfl), ?_⟩
    have hc : code { setPoint s p (.setState ch k) with lock := none } = code s :=
      code_setPoint_same s (by rw [hp]; rfl)
    rw [hc]
    exact hI
  | @wake p q ch todo k k' hp hqp hq =>
    have hroused : Kept I (setPoint s q (.acquire k')) :=
      hk.silent (by rw [hq]; rfl) (by rw [hq]; rfl) (by rw [hq]; rfl)
    have hp' : (setPoint s q (.acquire k')).point p = .waking ch (q :: todo) k := by
      simp [setPoint, Ne.symm hqp, hp]
    exact hroused.silent (by rw [hp']; rfl) (by rw [hp']; rfl) (by rw [hp']; rfl)
  | woke hp | pass hp | lockSelf hp | setState hp | rouse hp =>
    exact hk.silent (by rw [hp]; rfl) (by rw [hp]; rfl) (by rw [hp]; rfl)

/-- **The rule for sections.** -/
theorem Rule.reach (h : Rule S init I) (hr : Reachable S init s) : Kept I s := by
  refine hr.invariant (Kept I) ?_ fun _ _ _ hk _ hs => h.keeps hk hs
  rintro s ⟨h1, h2, h3⟩
  refine ⟨fun p => ?_, none, fun p => ?_, ?_⟩
  · rw [h2, h3]
    simp [Point.holds]
  · rw [h3]
    simp [Point.inside]
  · have hc : code s = fun _ => none := by
      funext p
      rw [code, h3]
      rfl
    rw [hc]
    exact h.init _ h1

theorem Rule.changes (h : Rule S init I) (hr : Reachable S init s)
    (hs : step S s a = some s') {R : σ → σ → Prop} (hsame : R s.shared s.shared)
    (hstart : ∀ p n m k, S.start s.shared p n = some (m, k) → R s.shared m)
    (hidle : ∀ p b m, S.idle s.shared p b = some m → R s.shared m)
    (henv : ∀ l e m, I s.shared l (code s) → S.env s.shared e = some m → R s.shared m)
    (hbody : ∀ p k m n, I s.shared (some p) (code s) → code s p = some k → S.body s.shared p k = some (m, n) →
      R s.shared m) : R s.shared s'.shared := by
  obtain ⟨l, hin, hI⟩ := (h.reach hr).inv
  cases (step_cases hs).2 with
  | enter _ hb => exact hstart _ _ _ _ hb
  | idle _ hb => exact hidle _ _ _ hb
  | env hb => exact henv l _ _ hI hb
  | body hp hb =>
    have hl := hin.eq (by rw [hp]; rfl)
    subst hl
    exact hbody _ _ _ _ hI (by rw [code, hp]; rfl) hb
  | _ => exact hsame

end

/-! ## Sleepers -/

section
variable {ι σ κ χ ν μ ε : Type} [DecidableEq ι] {S : Sys ι σ κ χ ν μ ε} {init : σ → Prop}
  {s s' : St ι σ κ χ} {p : ι} {x : Point ι κ χ}
  {I : σ → Option ι → (ι → Option κ) → Prop} {W : σ → χ → Prop}

/-- Sleepers on `ch` wait for the end of `W · ch`, and whatever ends it wakes them. -/
structure Waits (S : Sys ι σ κ χ ν μ ε) (I : σ → Option ι → (ι → Option κ) → Prop) (W : σ → χ → Prop) : Prop where
  sleep : ∀ m c p k m' ch k', S.stopped m = false → I m (some p) c → c p = some k →
    S.body m p k = some (m', .sleep ch k') → W m' ch
  body : ∀ m c p k m' n ch, S.stopped m = false → I m (some p) c → c p = some k → S.body m p k = some (m', n) →
    W m ch → (∀ k', n ≠ .wake ch k') → W m' ch
  enter : ∀ m l c p n m' k ch, I m l c → S.start m p n = some (m', k) → W m ch → W m' ch
  idle : ∀ m l c p a m' ch, I m l c → S.idle m p a = some m' → W m ch → W m' ch
  env : ∀ m l c e m' ch, I m l c → S.env m e = some m' → W m ch → W m' ch

/-- A sleeper has something to wait for, or `wakeup` is about to come to it. -/
def Served (W : σ → χ → Prop) (s : St ι σ κ χ) : Prop :=
  ∀ q ch, (s.point q).down ch → W s.shared ch ∨ ∃ w todo k, s.point w = .waking ch todo k ∧ q ∈ todo

theorem Served.move (h : Served W s) (hd : ∀ ch, x.down ch → (s.point p).down ch)
    (hw : ∀ ch todo k q, s.point p = .waking ch todo k → q ∈ todo → q ≠ p → (s.point q).down ch →
      ∃ todo' k', x = .waking ch todo' k' ∧ q ∈ todo') : Served W (setPoint s p x) := by
  intro q ch hq
  have hdown : (s.point q).down ch := by
    by_cases hqp : q = p
    · subst hqp
      exact hd ch (by simpa [setPoint] using hq)
    · simpa [setPoint, hqp] using hq
  refine (h q ch hdown).imp_right fun ⟨w, todo, k, hwk, hmem⟩ => ?_
  by_cases hwp : w = p
  · subst hwp
    have hqw : q ≠ w := by
      rintro rfl
      rw [hwk] at hdown
      exact hdown
    obtain ⟨todo', k', hx, hmem'⟩ := hw ch todo k q hwk hmem hqw hdown
    exact ⟨w, todo', k', by simp [setPoint, hx], hmem'⟩
  · exact ⟨w, todo, k, by simpa [setPoint, hwp] using hwk, hmem⟩

variable {k : κ}

omit [DecidableEq ι] in
theorem Served.waits (h : Served W s) (hl : Locked s) (hp : s.point p = .run k) {q : ι} {ch : χ}
    (hq : (s.point q).down ch) : W s.shared ch := by
  refine (h q ch hq).resolve_right ?_
  rintro ⟨w, todo, k', hw, _⟩
  have hwp := hl.only (p := p) (q := w) (by rw [hp]; rfl) (by rw [hw]; rfl)
  subst hwp
  rw [hp] at hw
  cases hw

theorem Waits.after (h : Waits S I W) (hall : ∀ q, q ∈ S.procs) (hk : Kept I s) (hsv : Served W s)
    (hp : s.point p = .run k) (hs : S.stopped s.shared = false) {m : σ} {n : Next κ χ}
    (hb : S.body s.shared p k = some (m, n)) : Served W (after S s p m n) := by
  obtain ⟨l, hin, hI⟩ := hk.inv
  have hl : l = some p := hin.eq (by rw [hp]; rfl)
  subst hl
  have hc : code s p = some k := by rw [code, hp]; rfl
  intro q ch hq
  by_cases hqp : q = p
  · subst hqp
    -- it calls `sleep` itself
    have hq : (n.point S.procs).down ch := by simpa [Monitor.after] using hq
    cases n with
    | go k' => cases hq
    | wake ch' k' => cases hq
    | leave => cases hq
    | sleep ch' k' =>
      cases hq
      exact Or.inl (h.sleep _ _ q k m ch k' hs hI hc hb)
  · have hq : (s.point q).down ch := by simpa [Monitor.after, hqp] using hq
    by_cases hn : ∃ k', n = .wake ch k'
    · obtain ⟨k', rfl⟩ := hn
      exact Or.inr ⟨p, S.procs, k', by simp [Monitor.after, Next.point], hall q⟩
    · exact Or.inl (h.body _ _ p k m n ch hs hI hc hb (hsv.waits hk.locked hp hq) fun k' he => hn ⟨k', he⟩)

variable [DecidableEq χ]

theorem Waits.keeps (h : Waits S I W) (hall : ∀ q, q ∈ S.procs) (hk : Kept I s) (hsv : Served W s)
    {a : Move ι ν μ ε} (hs : step S s a = some s') : Served W s' := by
  obtain ⟨hrun, he⟩ := step_cases hs
  obtain ⟨l, hin, hI⟩ := hk.inv
  -- an actor that is not in `wakeup` moves on, and not into `sleep`
  have hmove : ∀ {p : ι} {x y : Point ι κ χ}, s.point p = y → (∀ ch todo k, y ≠ .waking ch todo k) →
      (∀ ch, x.down ch → y.down ch) → Served W (setPoint s p x) := by
    rintro p x y rfl hp hd
    exact hsv.move hd fun ch todo k q hw => absurd hw (hp ch todo k)
  -- `q` is not in `sleep(ch)` any more once `wakeup` has gone past it
  have hpass : ∀ {t : St ι σ κ χ} {p q : ι} {ch : χ} {todo : List ι} {k : κ}, Served W t →
      t.point p = .waking ch (q :: todo) k → (q ≠ p → ¬ (t.point q).down ch) →
      Served W (setPoint t p (.waking ch todo k)) := by
    intro t p q ch todo k ht hpt hqt
    refine ht.move (fun ch hd => hd.elim) fun ch' todo' k' r hw hmem hrp hr => ?_
    rw [hpt] at hw
    cases hw
    refine ⟨todo, k, rfl, (List.mem_cons.mp hmem).resolve_left ?_⟩
    rintro rfl
    exact hqt hrp hr
  cases he with
  | @enter _ _ _ k hp hb =>
    have hmoved := hmove (x := .acquire k) hp nofun nofun
    exact fun q ch hq => (hmoved q ch hq).imp_left fun hW => h.enter _ _ _ _ _ _ _ ch hI hb hW
  | idle _ hb => exact fun q ch hq => (hsv q ch hq).imp_left fun hW => h.idle _ _ _ _ _ _ ch hI hb hW
  | env hb => exact fun q ch hq => (hsv q ch hq).imp_left fun hW => h.env _ _ _ _ _ ch hI hb hW
  | acquire hp _ => exact hmove (x := .run _) hp nofun nofun
  | body hp hb => exact h.after hall hk hsv hp hrun hb
  | woke hp =>
    refine hsv.move (fun ch hd => hd.elim) fun ch' todo k' q hw hmem => ?_
    rw [hp] at hw
    cases hw
    cases hmem
  | pass hp hq =>
    -- one on its way to `sleep` would hold the lock
    exact hpass hsv hp fun hne hd => hne (hk.locked.only (by rw [hp]; rfl) (hq hd hne))
  | @wake _ q _ _ _ k' hp hqp hq =>
    have hroused := hmove (x := .acquire k') hq nofun nofun
    exact hpass (q := q) hroused (by simp [setPoint, Ne.symm hqp, hp]) (by simp [setPoint, Point.down])
  | unlock hp => exact hmove (x := .setState _ _) hp nofun fun _ => id
  | lockSelf hp | setState hp => exact hmove hp nofun fun _ => id
  | rouse hp => exact hmove hp nofun nofun

/-- **The rule for sleepers.** -/
theorem Waits.reach (h : Waits S I W) (hrule : Rule S init I) (hall : ∀ q, q ∈ S.procs)
    (hr : Reachable S init s) : Served W s := by
  have hboth : Kept I s ∧ Served W s := by
    refine hr.invariant (fun s => Kept I s ∧ Served W s) ?_ fun _ _ _ hk _ hs =>
      ⟨hrule.keeps hk.1 hs, h.keeps hall hk.1 hk.2 hs⟩
    intro s hi
    refine ⟨hrule.reach (.start hi), fun q ch hq => ?_⟩
    rw [hi.2.2] at hq
    exact hq.elim
  exact hboth.2

/-- The code that an actor in `sleep` goes on with. -/
def Point.bed : Point ι κ χ → Option κ
  | .lockSelf _ k | .unlock _ k | .setState _ k | .sleeping _ k => some k
  | .rest | .acquire _ | .run _ | .waking _ _ _ => none

/-- What holds of the code behind every `sleep` holds of the code of every sleeper. -/
theorem Reachable.bed {P : κ → Prop} (hP : ∀ m p k m' ch k', S.body m p k = some (m', .sleep ch k') → P k')
    (hr : Reachable S init s) : ∀ p k, (s.point p).bed = some k → P k := by
  refine hr.invariant (fun s => ∀ p k, (s.point p).bed = some k → P k) ?_ fun s a s' h _ hs => ?_
  · intro s hi p k hk
    rw [hi.2.2] at hk
    cases hk
  have hset : ∀ {f : ι → Point ι κ χ} {p : ι} {x : Point ι κ χ}, (∀ q k, (f q).bed = some k → P k) →
      (∀ k, x.bed = some k → P k) → ∀ q k, (update f p x q).bed = some k → P k := fun {f p x} hf hx =>
    (forall_update_iff f fun _ y => ∀ k, y.bed = some k → P k).mpr ⟨hx, fun q _ => hf q⟩
  cases (step_cases hs).2 with
  | enter | acquire | woke | pass | rouse => exact hset h nofun
  | idle | env => exact h
  | @body p k m n hp hb =>
    refine hset h fun k' hk => ?_
    cases n with
    | sleep ch k1 =>
      cases hk
      exact hP _ _ _ _ _ _ hb
    | _ => cases hk
  | wake hp => exact hset (hset h nofun) nofun
  | lockSelf hp | unlock hp | setState hp => exact hset h fun k hk => h _ k (by rw [hp]; exact hk)

/-- While the lock is free, whoever sleeps waits for something. -/
theorem Waits.sleeping (h : Waits S I W) (hrule : Rule S init I) (hall : ∀ q, q ∈ S.procs)
    (hr : Reachable S init s) (hl : s.lock = none) {q : ι} {ch : χ} (hq : s.point q = .sleeping ch k) :
    W s.shared ch := by
  refine (h.reach hrule hall hr q ch (by rw [hq]; rfl)).resolve_right ?_
  rintro ⟨w, todo, k', hw, _⟩
  have hwl := ((hrule.reach hr).locked w).mpr (by rw [hw]; rfl)
  rw [hl] at hwl
  cases hwl

end

end Monitor
