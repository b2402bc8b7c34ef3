import Mathlib.Algebra.BigOperators.Group.List.Basic
import Mathlib.Logic.Function.Basic
import Mathlib.Tactic.Abel
import Xv6.Lib.Run

/-!
# Programs that interleave

`Prog E α` is a program over the operations `E`: a tree whose nodes are
operations, with one branch for each result.  Threads run such programs on a
shared state, one operation at a time, in any order; an operation can also wait
or halt the system.

Programs are proved against local states: a `Logic` gives each operation a
precondition and a postcondition on what its thread knows, and `wp` pushes a
postcondition through a program.  If every operation keeps an invariant of the
shared state and the local states of all threads, then so does every run
(`Sound.reach`).
-/

namespace Threads

open Function

universe u v

inductive Prog (E : Type → Type) (α : Type) : Type 1
  | ret (a : α)
  | op {β : Type} (o : E β) (k : β → Prog E α)

section
variable {E : Type → Type} {α β γ : Type}

def Prog.bind : Prog E α → (α → Prog E β) → Prog E β
  | .ret a, f => f a
  | .op o k, f => .op o fun b => (k b).bind f

instance : Monad (Prog E) where
  pure := .ret
  bind := .bind

def perform (o : E β) : Prog E β := .op o .ret

/-- What an operation comes to: a result and a new state, a halt of the whole
system, or nothing yet. -/
inductive Outcome (σ β : Type)
  | done (b : β) (s : σ)
  | halt (s : σ)
  | wait

/-- An outcome keeps `Q` where it is a result, and `H` where the system halts. -/
def Outcome.Sat {σ : Type} (Q : β → σ → Prop) (H : σ → Prop) : Outcome σ β → Prop
  | .done b s => Q b s
  | .halt s => H s
  | .wait => True

theorem Outcome.Sat.mono {σ : Type} {Q Q' : β → σ → Prop} {H H' : σ → Prop} {r : Outcome σ β} (h : r.Sat Q H)
    (hQ : ∀ b s, Q b s → Q' b s) (hH : ∀ s, H s → H' s) : r.Sat Q' H' := by
  cases r with
  | done b s => exact hQ b s h
  | halt s => exact hH s h
  | wait => trivial

end

/-- A system: what operations do, what the calls run, and which threads may make
a call.  The choices `χ` resolve what is not determined. -/
structure System (E : Type → Type) (σ κ χ ρ : Type) where
  exec : {β : Type} → E β → Nat → χ → σ → Outcome σ β
  code : κ → Prog E ρ
  ready : σ → Nat → Bool

structure St (E : Type → Type) (σ ρ : Type) where
  shared : σ
  /-- The rest of the call that each thread is in. -/
  prog : Nat → Option (Prog E ρ)
  halted : Bool

inductive Act (κ χ : Type)
  | start (p : Nat) (c : κ)
  | step (p : Nat) (c : χ)

section
variable {E : Type → Type} {σ κ χ ρ : Type}

def stepProg (S : System E σ κ χ ρ) (s : St E σ ρ) (p : Nat) (c : χ) : Prog E ρ → Option (St E σ ρ)
  | .ret _ => some { s with prog := update s.prog p none }
  | .op o k =>
    match S.exec o p c s.shared with
    | .done b s' => some { s with shared := s', prog := update s.prog p (some (k b)) }
    | .halt s' => some { s with shared := s', halted := true }
    | .wait => none

def step (S : System E σ κ χ ρ) (s : St E σ ρ) : Act κ χ → Option (St E σ ρ)
  | .start p c =>
    if s.halted = false ∧ (s.prog p).isNone ∧ S.ready s.shared p then
      some { s with prog := update s.prog p (some (S.code c)) }
    else none
  | .step p c =>
    if s.halted then none
    else
      match s.prog p with
      | none => none
      | some prog => stepProg S s p c prog

/-- A condition on operations, for the next operation of a program. -/
def nextOk (allow : {β : Type} → E β → Nat → σ → Prop) (s : σ) (p : Nat) : Option (Prog E ρ) → Prop
  | some (.op o _) => allow o p s
  | _ => True

/-- A condition on operations, as one on the steps of the system. -/
def StepOk (allow : {β : Type} → E β → Nat → σ → Prop) (s : St E σ ρ) : Act κ χ → Prop
  | .start _ _ => True
  | .step p _ => nextOk allow s.shared p (s.prog p)

end

/-! ## Proofs about programs -/

/-- What operations need and yield in terms of the local state of their thread. -/
structure Logic (E : Type → Type) (L : Type u) where
  pre : {β : Type} → E β → L → Prop
  post : {β : Type} → E β → L → β → L → Prop

section
variable {E : Type → Type} {L : Type u} (G : Logic E L) {α β : Type}

def wp : Prog E α → (α → L → Prop) → L → Prop
  | .ret a, Q, l => Q a l
  | .op o k, Q, l => G.pre o l ∧ ∀ b l', G.post o l b l' → wp (k b) Q l'

variable {G}

theorem wp_mono {Q Q' : α → L → Prop} (hQ : ∀ a l, Q a l → Q' a l) (m : Prog E α) : ∀ l, wp G m Q l → wp G m Q' l := by
  induction m with
  | ret a => exact fun l h => hQ a l h
  | op o k ih => exact fun l h => ⟨h.1, fun b l' hp => ih b l' (h.2 b l' hp)⟩

variable {Q : β → L → Prop} {f : α → Prog E β}

theorem wp_bind {m : Prog E α} : ∀ {l}, wp G m (fun a l' => wp G (f a) Q l') l → wp G (m >>= f) Q l := by
  induction m with
  | ret a => exact fun h => h
  | op o k ih => exact fun h => ⟨h.1, fun b l' hp => ih b (h.2 b l' hp)⟩

theorem wp_op {o : E α} {l : L} (hpre : G.pre o l)
    (hpost : ∀ a l', G.post o l a l' → wp G (f a) Q l') : wp G (perform o >>= f) Q l :=
  ⟨hpre, hpost⟩

theorem wp_call {P : α → L → Prop} {m : Prog E α} {l : L}
    (hm : wp G m P l) (hf : ∀ a l', P a l' → wp G (f a) Q l') : wp G (m >>= f) Q l :=
  wp_bind (wp_mono hf m l hm)

theorem wp_option {P : Option α → L → Prop} {f : Option α → Prog E β} {m : Prog E (Option α)} {l : L} (hm : wp G m P l)
    (hn : ∀ l', P none l' → wp G (f none) Q l') (hs : ∀ a l', P (some a) l' → wp G (f (some a)) Q l') :
    wp G (m >>= f) Q l :=
  wp_call hm fun r l' => r.casesOn (hn l') fun a => hs a l'

end

/-! ## One program at a time -/

section
variable {E : Type → Type} {σ α : Type} {L : Type u}

/-- Run a program to its end, with no other program in between. -/
def eval (exec : {β : Type} → E β → σ → Outcome σ β) : Prog E α → σ → Outcome σ α
  | .ret a, s => .done a s
  | .op o k, s =>
    match exec o s with
    | .done b s => eval exec (k b) s
    | .halt s => .halt s
    | .wait => .wait

theorem eval_bind {β : Type} (exec : {β : Type} → E β → σ → Outcome σ β) (f : α → Prog E β) (m : Prog E α) :
    ∀ s, eval exec (m >>= f) s =
      match eval exec m s with
      | .done a s => eval exec (f a) s
      | .halt s => .halt s
      | .wait => .wait := by
  induction m with
  | ret a => exact fun s => rfl
  | op o k ih =>
    intro s
    rw [show (Prog.op o k >>= f) = .op o fun b => k b >>= f from rfl, eval, eval]
    cases exec o s with
    | done b s' => exact ih b s'
    | halt s' => rfl
    | wait => rfl

theorem eval_of_wp (exec : {β : Type} → E β → σ → Outcome σ β) (G : Logic E L) (I : σ → L → Prop) (H : σ → Prop)
    (hexec : ∀ {β : Type} (o : E β) (s : σ) (l : L), I s l → G.pre o l →
      (exec o s).Sat (fun b s' => ∃ l', G.post o l b l' ∧ I s' l') H)
    {Q : α → L → Prop} (m : Prog E α) : ∀ (s : σ) (l : L), I s l → wp G m Q l →
      (eval exec m s).Sat (fun a s' => ∃ l', Q a l' ∧ I s' l') H := by
  induction m with
  | ret a => exact fun s l hI hQ => ⟨l, hQ, hI⟩
  | op o k ih =>
    intro s l hI hw
    have he := hexec o s l hI hw.1
    rw [eval]
    cases hx : exec o s with
    | done b s1 =>
      rw [hx] at he
      obtain ⟨l1, hpost, hI1⟩ := he
      exact ih b s1 l1 hI1 (hw.2 b l1 hpost)
    | halt s1 =>
      rw [hx] at he
      exact he
    | wait => trivial

end

/-! ## One program among others -/

section
variable {E : Type → Type} {σ α : Type} {L : Type u} {step : {β : Type} → E β → σ → β → σ → Prop}

/-- The states before and after each operation of a program that comes to `a`.  In
between others run, and anything can happen. -/
inductive Trace (step : {β : Type} → E β → σ → β → σ → Prop) : Prog E α → List (σ × σ) → α → Prop
  | ret (a : α) : Trace step (.ret a) [] a
  | op {β : Type} {o : E β} {k : β → Prog E α} {b : β} {s s' : σ} {ts : List (σ × σ)} {a : α} :
      step o s b s' → Trace step (k b) ts a → Trace step (.op o k) ((s, s') :: ts) a

/-- What the operations themselves changed. -/
def change {M : Type} [AddCommGroup M] (ν : σ → M) (ts : List (σ × σ)) : M := (ts.map fun t => ν t.2 - ν t.1).sum

/-- The logic of programs that have only operations with `P`. -/
def Only (P : {β : Type} → E β → Prop) : Logic E Unit where
  pre o _ := P o
  post _ _ _ _ := True

/-- Local states keep an account of what the operations change. -/
theorem Trace.account {M : Type} [AddCommGroup M] {G : Logic E L} {P : {β : Type} → E β → Prop} (μ : L → M) (ν : σ → M)
    (hstep : ∀ {β : Type} (o : E β) (s : σ) (b : β) (s' : σ) (l : L), P o → step o s b s' →
      ∃ l', G.post o l b l' ∧ μ l' = μ l + (ν s' - ν s))
    {Q : α → L → Prop} {m : Prog E α} {ts : List (σ × σ)} {a : α} (h : Trace step m ts a) :
    wp (Only P) m (fun _ _ => True) () → ∀ l, wp G m Q l → ∃ l', Q a l' ∧ μ l' = μ l + change ν ts := by
  induction h with
  | ret a => exact fun _ l hw => ⟨l, hw, by simp [change]⟩
  | @op β o k b s s' ts a hs _ ih =>
    intro hP l hw
    obtain ⟨l1, hpost, h1⟩ := hstep o s b s' l hP.1 hs
    obtain ⟨l2, hQ, h2⟩ := ih (hP.2 b () trivial) l1 (hw.2 b l1 hpost)
    refine ⟨l2, hQ, ?_⟩
    rw [h2, h1, change, change, List.map_cons, List.sum_cons, add_assoc]

theorem Trace.of_eval {M : Type} [AddCommGroup M] (ν : σ → M) (exec : {β : Type} → E β → σ → Outcome σ β)
    (hstep : ∀ {β : Type} (o : E β) (s : σ) (b : β) (s' : σ), exec o s = .done b s' → step o s b s') (m : Prog E α) :
    ∀ (s : σ) {a : α} {s' : σ}, eval exec m s = .done a s' → ∃ ts, Trace step m ts a ∧ change ν ts = ν s' - ν s := by
  induction m with
  | ret a =>
    intro s a' s' he
    cases he
    exact ⟨[], .ret a, by simp [change]⟩
  | op o k ih =>
    intro s a s' he
    rw [eval] at he
    cases hx : exec o s with
    | halt s1 => rw [hx] at he; cases he
    | wait => rw [hx] at he; cases he
    | done b s1 =>
      rw [hx] at he
      obtain ⟨ts, ht, hc⟩ := ih b s1 he
      refine ⟨(s, s1) :: ts, .op (hstep o s b s1 hx) ht, ?_⟩
      have hcons : change ν ((s, s1) :: ts) = ν s1 - ν s + change ν ts := by simp [change]
      rw [hcons, hc]
      abel

end

/-! ## Runs -/

section
variable {E : Type → Type} {σ κ χ ρ : Type} {L : Type u} {S : System E σ κ χ ρ} {G : Logic E L}
  {allow : {β : Type} → E β → Nat → σ → Prop} {I : σ → (Nat → L) → Prop} {H : σ → Prop} {fin : L → Prop} {l0 l1 : L}

/-- The invariant of a system: while it runs, local states exist that agree with
the shared state, from which every program runs on to a state with `fin`; when it
has halted, `H`. -/
def Good (G : Logic E L) (I : σ → (Nat → L) → Prop) (H : σ → Prop) (fin : L → Prop) (l0 : L) (s : St E σ ρ) : Prop :=
  (s.halted = false → ∃ Λ : Nat → L, I s.shared Λ ∧ ∀ p,
    match s.prog p with
    | none => Λ p = l0
    | some prog => wp G prog (fun _ l => fin l) (Λ p)) ∧ (s.halted = true → H s.shared)

/-- `exec` is sound for a logic: under `allow`, an operation whose precondition
holds yields its postcondition and keeps the invariant. -/
structure Sound (S : System E σ κ χ ρ) (G : Logic E L) (allow : {β : Type} → E β → Nat → σ → Prop)
    (I : σ → (Nat → L) → Prop) (H : σ → Prop) (fin : L → Prop) (l0 l1 : L) : Prop where
  exec : ∀ {β : Type} (o : E β) (p : Nat) (c : χ) (s : σ) (Λ : Nat → L), I s Λ → G.pre o (Λ p) → allow o p s →
    (S.exec o p c s).Sat (fun b s' => ∃ l', G.post o (Λ p) b l' ∧ I s' (update Λ p l')) H
  /-- A call starts with the local state `l1`. -/
  enter : ∀ s Λ p, I s Λ → S.ready s p = true → Λ p = l0 → I s (update Λ p l1)
  code : ∀ c, wp G (S.code c) (fun _ l => fin l) l1
  leave : ∀ s Λ p, I s Λ → fin (Λ p) → I s (update Λ p l0)

variable {a : Act κ χ} {s s' : St E σ ρ}

theorem Sound.keeps (h : Sound S G allow I H fin l0 l1) (hg : Good G I H fin l0 s)
    (hok : StepOk allow s a) (hs : step S s a = some s') : Good G I H fin l0 s' := by
  cases a with
  | start p c =>
    simp only [step] at hs
    split at hs
    case isFalse => cases hs
    case isTrue hc =>
      obtain ⟨h1, h2, h3⟩ := hc
      cases hs
      refine ⟨fun _ => ?_, fun hh => absurd (h1.symm.trans hh) Bool.false_ne_true⟩
      obtain ⟨Λ, hI, hw⟩ := hg.1 h1
      have hl : Λ p = l0 := by
        have := hw p
        rwa [Option.isNone_iff_eq_none.mp h2] at this
      refine ⟨update Λ p l1, h.enter s.shared Λ p hI h3 hl, fun q => ?_⟩
      by_cases hq : q = p
      · subst hq
        simp only [update_self]
        exact h.code c
      · simp only [update_of_ne hq]
        exact hw q
  | step p c =>
    simp only [step] at hs
    split at hs
    case isTrue => cases hs
    case isFalse hh =>
      have hh : s.halted = false := by simpa using hh
      obtain ⟨Λ, hI, hw⟩ := hg.1 hh
      have hwp := hw p
      have hok' : nextOk allow s.shared p (s.prog p) := hok
      have hothers : ∀ {l' : L} {x : Option (Prog E ρ)}, (match x with
          | none => l' = l0
          | some prog => wp G prog (fun _ l => fin l) l') → ∀ q,
          match update s.prog p x q with
          | none => update Λ p l' q = l0
          | some prog => wp G prog (fun _ l => fin l) (update Λ p l' q) := by
        intro l' x hx q
        by_cases hq : q = p
        · subst hq
          simp only [update_self]
          exact hx
        · simp only [update_of_ne hq]
          exact hw q
      split at hs
      · cases hs
      · next prog hp =>
        rw [hp] at hwp hok'
        cases prog with
        | ret a =>
          simp only [stepProg, Option.some.injEq] at hs
          subst hs
          exact ⟨fun _ => ⟨update Λ p l0, h.leave _ Λ p hI hwp, hothers rfl⟩,
            fun hc => absurd (hh.symm.trans hc) Bool.false_ne_true⟩
        | op o k =>
          have hsat := h.exec o p c s.shared Λ hI hwp.1 hok'
          simp only [stepProg] at hs
          split at hs
          · next b s1 he =>
            cases hs
            rw [he] at hsat
            obtain ⟨l', hpost, hI'⟩ := hsat
            exact ⟨fun _ => ⟨update Λ p l', hI', hothers (hwp.2 b l' hpost)⟩,
              fun hc => absurd (hh.symm.trans hc) Bool.false_ne_true⟩
          · next s1 he =>
            cases hs
            rw [he] at hsat
            exact ⟨fun hc => absurd hc (by simp), fun _ => hsat⟩
          · cases hs

theorem halt_of_step (hs : step S s a = some s') (h1 : s'.halted = true) :
    ∃ (p : Nat) (c : χ) (β : Type) (o : E β) (k : β → Prog E ρ), a = .step p c ∧ s.prog p = some (.op o k) ∧
      S.exec o p c s.shared = .halt s'.shared ∧ s.halted = false ∧ s'.prog = s.prog := by
  cases a with
  | start p c =>
    obtain ⟨hstart, ⟨⟩⟩ := Option.ite_none_right_eq_some.mp hs
    exact absurd (hstart.1.symm.trans h1) Bool.false_ne_true
  | step p c =>
    simp only [step] at hs
    split at hs
    · cases hs
    · next hrun =>
      split at hs
      · cases hs
      · next prog hp =>
        cases prog with
        | ret a =>
          cases hs
          exact absurd h1 hrun
        | op o k =>
          simp only [stepProg] at hs
          split at hs
          · cases hs
            exact absurd h1 hrun
          · next he =>
            cases hs
            exact ⟨p, c, _, o, k, rfl, hp, he, by simpa using hrun, rfl⟩
          · cases hs

variable {init : St E σ ρ → Prop} {ok : St E σ ρ → Act κ χ → Prop}

theorem halted_prog
    (h0 : ∀ s, init s → s.halted = false) (hr : Run.Reach (step S) ok init s) (hh : s.halted = true) :
    ∃ p, s.prog p ≠ none := by
  refine hr.invariant (fun s => s.halted = true → ∃ p, s.prog p ≠ none) (fun s hs hc => ?_)
    (fun s a s' _ _ hs hc => ?_) hh
  · rw [h0 s hs] at hc
    cases hc
  · obtain ⟨p, _, _, o, k, -, hp, -, -, hprog⟩ := halt_of_step hs hc
    exact ⟨p, by rw [hprog, hp]; simp⟩

def Act.thread : Act κ χ → Nat
  | .start p _ => p
  | .step p _ => p

theorem step_prog (hs : step S s a = some s') {q : Nat} (hq : q ≠ a.thread) : s'.prog q = s.prog q := by
  cases a with
  | start p c =>
    simp only [step] at hs
    split at hs <;> cases hs
    exact update_of_ne hq ..
  | step p c =>
    simp only [step] at hs
    split at hs
    · cases hs
    · split at hs
      · cases hs
      · next prog _ =>
        cases prog with
        | ret a =>
          cases hs
          exact update_of_ne hq ..
        | op o k =>
          simp only [stepProg] at hs
          split at hs <;> cases hs
          · exact update_of_ne hq ..
          · rfl

theorem run_prog (as : List (Act κ χ)) : ∀ {s s' : St E σ ρ}, Run.run (step S) s as = some s' → ∀ {q : Nat},
    (∀ a ∈ as, q ≠ a.thread) → s'.prog q = s.prog q := by
  induction as with
  | nil =>
    intro s s' hr q _
    cases hr
    rfl
  | cons a as ih =>
    intro s s' hr q hq
    obtain ⟨s1, h1, h2⟩ := Option.bind_eq_some_iff.mp hr
    rw [ih h2 fun b hb => hq b (List.mem_cons_of_mem _ hb), step_prog h1 (hq a List.mem_cons_self)]

theorem stepOk_of_all (h : ∀ {β : Type} (o : E β) (p : Nat) (s : σ), allow o p s) (s : St E σ ρ) (a : Act κ χ) :
    StepOk allow s a := by
  cases a with
  | start p c => trivial
  | step p c =>
    show nextOk allow s.shared p (s.prog p)
    unfold nextOk
    split
    · exact h _ p s.shared
    · trivial

theorem Sound.reach (h : Sound S G allow I H fin l0 l1)
    (hok : ∀ s a, ok s a → StepOk allow s a) (h0 : ∀ s, init s → Good G I H fin l0 s)
    (hr : Run.Reach (step S) ok init s) : Good G I H fin l0 s :=
  hr.invariant (Good G I H fin l0) h0 fun _ _ _ hg ho hs => h.keeps hg (hok _ _ ho) hs

end

end Threads
