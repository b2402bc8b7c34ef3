import Mathlib.Logic.Function.Basic
import Xv6.Lib.Run

/-!
# Programs on processors that switch contexts

A `Prog` is a tree of operations with loops.  A `System` has contexts, each with
the rest of its program, and any number of processors; every processor executes
the context that the shared state says is current there, one operation at a time,
in any order.  An operation may wait, may halt the system, and may start a context
afresh.  A context whose program has ended makes calls, and an interrupt puts a
handler in front of the program of the current context.

Programs are proved against local states.  A `Logic` says for each operation what
its context must know before it, what it learns from the result, and how what it
knows changes; `wp` pushes a condition through a program, with an invariant for
each loop.  `Sound.reach` turns an invariant of the shared state and the local
states that every operation keeps into one of all runs.  Logics are built in
layers: `Layer` adds local states and an invariant to a logic that is already sound.
-/

namespace Cpus

open Function

universe u v

/-- `loop body x k` executes `body x`; a result `inl y` continues with `body y`, and
`inr b` leaves the loop for `k b`. -/
inductive Prog (E : Type → Type) : Type → Type 1
  | ret {α : Type} (a : α) : Prog E α
  | op {α β : Type} (o : E β) (k : β → Prog E α) : Prog E α
  | loop {α β γ : Type} (body : γ → Prog E (γ ⊕ β)) (x : γ) (k : β → Prog E α) : Prog E α

section
variable {E : Type → Type} {α β γ : Type}

def Prog.bind {α β : Type} : Prog E α → (α → Prog E β) → Prog E β
  | .ret a, f => f a
  | .op o k, f => .op o fun b => (k b).bind f
  | .loop body x k, f => .loop body x fun b => (k b).bind f

instance : Monad (Prog E) where
  pure := .ret
  bind := .bind

instance : LawfulMonad (Prog E) := LawfulMonad.mk' _
  (by
    intro α m
    induction m with
    | ret a => rfl
    | op o k ih => exact congrArg (Prog.op o) (funext ih)
    | loop body x k _ ih => exact congrArg (Prog.loop body x) (funext ih))
  (fun _ _ => rfl)
  (by
    intro α β γ m g f
    induction m with
    | ret a => rfl
    | op o k ih => exact congrArg (Prog.op o) (funext fun b => ih b g)
    | loop body x k _ ih => exact congrArg (Prog.loop body x) (funext fun b => ih b g))

def perform (o : E β) : Prog E β := .op o .ret

def iterate (body : γ → Prog E (γ ⊕ β)) (x : γ) : Prog E β := .loop body x .ret

/-- `for(x in xs) f(x);` -/
def forEach {γ : Type} (f : γ → Prog E Unit) : List γ → Prog E Unit
  | [] => pure ()
  | x :: xs => do
      f x
      forEach f xs

/-- `for(x in xs) …` left by the first result. -/
def firstOf {γ : Type} (f : γ → Prog E (Option α)) : List γ → Prog E (Option α)
  | [] => pure none
  | x :: xs => do
      match ← f x with
      | some a => pure (some a)
      | none => firstOf f xs

/-- One turn of a loop. -/
def unroll (body : γ → Prog E (γ ⊕ β)) (x : γ) (k : β → Prog E α) : Prog E α :=
  body x >>= fun r =>
    match r with
    | .inl y => .loop body y k
    | .inr b => k b

/-- What an operation comes to: a result, a new state and perhaps a context that
starts afresh; a halt of the whole system; or nothing yet. -/
inductive Outcome (σ τ β : Type)
  | done (b : β) (s : σ) (fresh : Option τ)
  | halt
  | wait

end

/-- A system: what operations do in a context on a processor, which context is
current, what the calls and the handlers run, when interrupts are enabled, and where
a fresh context begins.  The choices `χ` resolve what is not determined. -/
structure System (E : Type → Type) (σ τ κ ι χ : Type) where
  exec : {β : Type} → E β → τ → Nat → χ → σ → Outcome σ τ β
  current : σ → Nat → τ
  code : κ → Prog E Unit
  handler : ι → Prog E Unit
  enabled : σ → Nat → Bool
  entry : τ → Prog E Unit

structure St (E : Type → Type) (σ τ : Type) where
  shared : σ
  /-- The rest of the program of each context. -/
  prog : τ → Prog E Unit
  halted : Bool

inductive Act (κ ι χ : Type)
  | call (c : Nat) (k : κ)
  | intr (c : Nat) (i : ι)
  | step (c : Nat) (x : χ)

section
variable {E : Type → Type} {σ τ κ ι χ : Type} [DecidableEq τ]

def restart (S : System E σ τ κ ι χ) (prog : τ → Prog E Unit) : Option τ → τ → Prog E Unit
  | none => prog
  | some t => update prog t (S.entry t)

/-- One operation of the context `t` on processor `c`. -/
def stepProg (S : System E σ τ κ ι χ) (s : St E σ τ) (c : Nat) (x : χ) (t : τ) : Prog E Unit → Option (St E σ τ)
  | .ret _ => none
  | .op o k =>
    match S.exec o t c x s.shared with
    | .done b s' fresh => some { s with shared := s', prog := restart S (update s.prog t (k b)) fresh }
    | .halt => some { s with halted := true }
    | .wait => none
  | .loop body y k => some { s with prog := update s.prog t (unroll body y k) }

def step (S : System E σ τ κ ι χ) (s : St E σ τ) : Act κ ι χ → Option (St E σ τ)
  | .call c k =>
    match s.halted, s.prog (S.current s.shared c) with
    | false, .ret _ => some { s with prog := update s.prog (S.current s.shared c) (S.code k) }
    | _, _ => none
  | .intr c i =>
    match s.halted, s.prog (S.current s.shared c) with
    | true, _ => none
    | false, .ret _ => none
    | false, m =>
      if S.enabled s.shared c then
        some { s with prog := update s.prog (S.current s.shared c) (S.handler i >>= fun _ => m) }
      else none
  | .step c x => if s.halted then none else stepProg S s c x (S.current s.shared c) (s.prog (S.current s.shared c))

/-- What a step does: a call, an interrupt, an operation, a halt, or a turn of a loop. -/
inductive Moves (S : System E σ τ κ ι χ) (s : St E σ τ) : Act κ ι χ → St E σ τ → Prop
  | call {c : Nat} {k : κ} {u : Unit} (hp : s.prog (S.current s.shared c) = .ret u) :
      Moves S s (.call c k) { s with prog := update s.prog (S.current s.shared c) (S.code k) }
  | intr {c : Nat} {i : ι} (he : S.enabled s.shared c = true) :
      Moves S s (.intr c i)
        { s with prog := update s.prog (S.current s.shared c)
                  (S.handler i >>= fun _ => s.prog (S.current s.shared c)) }
  | op {c : Nat} {x : χ} {β : Type} {o : E β} {k : β → Prog E Unit} {b : β} {s' : σ} {fresh : Option τ}
      (hp : s.prog (S.current s.shared c) = .op o k)
      (he : S.exec o (S.current s.shared c) c x s.shared = .done b s' fresh) :
      Moves S s (.step c x)
        { s with shared := s', prog := restart S (update s.prog (S.current s.shared c) (k b)) fresh }
  | halt {c : Nat} {x : χ} : Moves S s (.step c x) { s with halted := true }
  | turn {c : Nat} {x : χ} {β γ : Type} {body : γ → Prog E (γ ⊕ β)} {y : γ} {k : β → Prog E Unit}
      (hp : s.prog (S.current s.shared c) = .loop body y k) :
      Moves S s (.step c x) { s with prog := update s.prog (S.current s.shared c) (unroll body y k) }

theorem moves_of_step {S : System E σ τ κ ι χ} {s s' : St E σ τ} {a : Act κ ι χ} (hs : step S s a = some s') :
    Moves S s a s' := by
  cases a with
  | call c k =>
    simp only [step] at hs
    split at hs
    · next u _ hp =>
      cases hs
      exact .call hp
    · cases hs
  | intr c i =>
    simp only [step] at hs
    split at hs
    · cases hs
    · cases hs
    · split at hs
      · next he =>
        cases hs
        exact .intr he
      · cases hs
  | step c x =>
    simp only [step] at hs
    split at hs
    · cases hs
    · cases hp : s.prog (S.current s.shared c) with
      | ret a =>
        rw [hp] at hs
        cases hs
      | op o k =>
        rw [hp] at hs
        simp only [stepProg] at hs
        split at hs
        · next b s1 fresh he =>
          cases hs
          exact .op hp he
        · cases hs
          exact .halt
        · cases hs
      | loop body y k =>
        rw [hp] at hs
        cases hs
        exact .turn hp

/-- A condition on operations, for the next operation of a program. -/
def nextOk (allow : {β : Type} → E β → τ → σ → Prop) (s : σ) (t : τ) : Prog E Unit → Prop
  | .op o _ => allow o t s
  | _ => True

/-- A condition on operations, as one on the steps of the system. -/
def StepOk (S : System E σ τ κ ι χ) (allow : {β : Type} → E β → τ → σ → Prop) (s : St E σ τ) : Act κ ι χ → Prop
  | .step c _ => nextOk allow s.shared (S.current s.shared c) (s.prog (S.current s.shared c))
  | _ => True

end

/-! ## Proofs about programs -/

/-- What a context must know before an operation, what it learns from the result, and
what it knows afterwards. -/
structure Logic (E : Type → Type) (L : Type u) where
  pre : {β : Type} → E β → L → Prop
  res : {β : Type} → E β → L → β → Prop
  upd : {β : Type} → E β → L → β → L

section
variable {E : Type → Type} {L : Type u} (G : Logic E L)

def wp {α : Type} : Prog E α → (α → L → Prop) → L → Prop
  | .ret a, Q, l => Q a l
  | .op o k, Q, l => G.pre o l ∧ ∀ b, G.res o l b → wp (k b) Q (G.upd o l b)
  | .loop (γ := γ) body x k, Q, l => ∃ J : γ → L → Prop, J x l ∧ ∀ y l', J y l' →
      wp (body y) (fun r l'' => Sum.elim (fun z => J z l'') (fun b => wp (k b) Q l'') r) l'

variable {G} {α β γ : Type}

variable {l : L} {Q : α → L → Prop} {f : α → Prog E β}

theorem wp_mono {Q' : α → L → Prop} (hQ : ∀ a l, Q a l → Q' a l) (m : Prog E α) : ∀ l, wp G m Q l → wp G m Q' l := by
  induction m with
  | ret a => exact fun l h => hQ a l h
  | op o k ih => exact fun l h => ⟨h.1, fun b hr => ih b hQ _ (h.2 b hr)⟩
  | loop body x k ihb ihk =>
    rintro l ⟨J, hx, hJ⟩
    refine ⟨J, hx, fun y l' hy => ihb y (fun r l'' hr => ?_) l' (hJ y l' hy)⟩
    cases r with
    | inl z => exact hr
    | inr b => exact ihk b hQ l'' hr

theorem wp_bind {m : Prog E α} :
    ∀ {Q : β → L → Prop} {l : L}, wp G m (fun a l' => wp G (f a) Q l') l → wp G (m >>= f) Q l := by
  induction m with
  | ret a => exact fun h => h
  | op o k ih => exact fun h => ⟨h.1, fun b hr => ih b (h.2 b hr)⟩
  | loop body x k ihb ihk =>
    rintro Q l ⟨J, hx, hJ⟩
    refine ⟨J, hx, fun y l' hy => wp_mono (fun r l'' hr => ?_) _ l' (hJ y l' hy)⟩
    cases r with
    | inl z => exact hr
    | inr b => exact ihk b hr

theorem wp_op {Q : β → L → Prop} {o : E α} (hpre : G.pre o l)
    (hpost : ∀ a, G.res o l a → wp G (f a) Q (G.upd o l a)) : wp G (perform o >>= f) Q l :=
  ⟨hpre, hpost⟩

theorem wp_perform {o : E α} (hpre : G.pre o l) (hpost : ∀ a, G.res o l a → Q a (G.upd o l a)) : wp G (perform o) Q l :=
  ⟨hpre, hpost⟩

theorem wp_call {P : α → L → Prop} {Q : β → L → Prop} {m : Prog E α}
    (hm : wp G m P l) (hf : ∀ a l', P a l' → wp G (f a) Q l') : wp G (m >>= f) Q l :=
  wp_bind (wp_mono hf m l hm)

variable {body : γ → Prog E (γ ⊕ β)}

theorem wp_iterate {Q : β → L → Prop} {x : γ} (J : γ → L → Prop) (hx : J x l)
    (hJ : ∀ y l', J y l' → wp G (body y) (fun r l'' => Sum.elim (fun z => J z l'') (fun b => Q b l'') r) l') :
    wp G (iterate body x) Q l :=
  ⟨J, hx, hJ⟩

theorem wp_forEach {Q : L → Prop} {f : γ → Prog E Unit} (J : List γ → L → Prop) (hend : ∀ l, J [] l → Q l)
    (hf : ∀ x xs l, J (x :: xs) l → wp G (f x) (fun _ l' => J xs l') l) :
    ∀ {xs : List γ} {l : L}, J xs l → wp G (forEach f xs) (fun _ l' => Q l') l := by
  intro xs
  induction xs with
  | nil => exact fun h => hend _ h
  | cons x xs ih => exact fun h => wp_call (hf x xs _ h) fun _ l' hl => ih hl

theorem wp_firstOf {Q : Option α → L → Prop} {f : γ → Prog E (Option α)} (J : List γ → L → Prop)
    (hend : ∀ l, J [] l → Q none l) (hf : ∀ x xs l, J (x :: xs) l →
      wp G (f x) (fun r l' => (r = none → J xs l') ∧ ∀ a, r = some a → Q (some a) l') l) :
    ∀ {xs : List γ} {l : L}, J xs l → wp G (firstOf f xs) Q l := by
  intro xs
  induction xs with
  | nil => exact fun h => hend _ h
  | cons x xs ih =>
    refine fun h => wp_call (hf x xs _ h) fun r l' hr => ?_
    cases r with
    | none => exact ih (hr.1 rfl)
    | some a => exact hr.2 a rfl

theorem wp_unroll {x : γ} {k : β → Prog E α} (h : wp G (.loop body x k) Q l) : wp G (unroll body x k) Q l := by
  obtain ⟨J, hx, hJ⟩ := h
  refine wp_call (hJ x l hx) fun r l' hr => ?_
  cases r with
  | inl y => exact ⟨J, hr, hJ⟩
  | inr b => exact hr

end

/-! ## Properties of programs -/

/-- A property of programs that holds of a program when it holds of its parts. -/
structure Closed {E : Type → Type} (T : {α : Type} → Prog E α → Prop) : Prop where
  ret : ∀ {α : Type} (a : α), T (pure a : Prog E α)
  bind : ∀ {α β : Type} {m : Prog E α} {f : α → Prog E β}, T m → (∀ a, T (f a)) → T (m >>= f)
  iterate : ∀ {β γ : Type} {body : γ → Prog E (γ ⊕ β)} (x : γ), (∀ y, T (body y)) → T (iterate body x)

section
variable {E : Type → Type} {T : {α : Type} → Prog E α → Prop} {α γ : Type}

theorem ite_of {c : Prop} [Decidable c] {m n : Prog E α} (hm : T m) (hn : T n) : T (if c then m else n) := by
  split
  · exact hm
  · exact hn

theorem Closed.forEach (h : Closed T) {f : γ → Prog E Unit} (hf : ∀ x, T (f x)) (xs : List γ) : T (forEach f xs) := by
  induction xs with
  | nil => exact h.ret ()
  | cons x xs ih => exact h.bind (hf x) fun _ => ih

theorem Closed.firstOf (h : Closed T) {f : γ → Prog E (Option α)} (hf : ∀ x, T (f x)) (xs : List γ) :
    T (firstOf f xs) := by
  induction xs with
  | nil => exact h.ret none
  | cons x xs ih =>
    refine h.bind (hf x) fun r => ?_
    cases r with
    | none => exact ih
    | some a => exact h.ret (some a)

end

/-! ## Runs -/

section
variable {E : Type → Type} {σ τ κ ι χ : Type} [DecidableEq τ] {L : Type u}

/-- Local states when a context starts afresh. -/
def renew (start : τ → L) (Λ : τ → L) : Option τ → τ → L
  | none => Λ
  | some t => update Λ t (start t)

variable {Λ : τ → L} {s : St E σ τ} {a : Act κ ι χ}

theorem renew_of_ne {start : τ → L} {t q : τ} (h : q ≠ t) : renew start Λ (some t) q = Λ q :=
  update_of_ne h _ _

/-- The invariant of a system: local states exist that agree with the shared state,
from which every program runs on, to `fin` where it ends. -/
def Good (G : Logic E L) (I : σ → (τ → L) → Prop) (fin : L → Prop) (s : St E σ τ) : Prop :=
  ∃ Λ : τ → L, I s.shared Λ ∧ ∀ t, wp G (s.prog t) (fun _ l => fin l) (Λ t)

/-- `exec` is sound for a logic: under `allow`, an operation whose precondition holds
yields what the logic says and keeps the invariant. -/
structure Sound (S : System E σ τ κ ι χ) (G : Logic E L) (allow : {β : Type} → E β → τ → σ → Prop)
    (I : σ → (τ → L) → Prop) (fin quiet : L → Prop) (start : τ → L) : Prop where
  done : ∀ {β : Type} (o : E β) (c : Nat) (x : χ) (s : σ) (Λ : τ → L) (b : β) (s' : σ) (fresh : Option τ), I s Λ →
    G.pre o (Λ (S.current s c)) → allow o (S.current s c) s → S.exec o (S.current s c) c x s = .done b s' fresh →
    G.res o (Λ (S.current s c)) b ∧
      I s' (renew start (update Λ (S.current s c) (G.upd o (Λ (S.current s c)) b)) fresh)
  isQuiet : ∀ s Λ c, I s Λ → S.enabled s c = true → quiet (Λ (S.current s c))
  code : ∀ k l, fin l → wp G (S.code k) (fun _ l' => fin l') l
  handler : ∀ i l, quiet l → wp G (S.handler i) (fun _ l' => l' = l) l
  entry : ∀ t, wp G (S.entry t) (fun _ l => fin l) (start t)

variable {S : System E σ τ κ ι χ} {G : Logic E L} {allow : {β : Type} → E β → τ → σ → Prop}
  {I : σ → (τ → L) → Prop} {fin quiet : L → Prop} {start : τ → L}

theorem update_all {P : τ → Prog E Unit → L → Prop} {prog : τ → Prog E Unit} {t : τ} {m : Prog E Unit} {l : L}
    (h : ∀ q, q ≠ t → P q (prog q) (Λ q)) (hm : P t m l) (q : τ) : P q (update prog t m q) (update Λ t l q) := by
  by_cases hq : q = t
  · subst hq
    rw [update_self, update_self]
    exact hm
  · rw [update_of_ne hq, update_of_ne hq]
    exact h q hq

/-! Calls that are remembered.  The logic of a program may depend on the call that it serves. -/

/-- A system's state with the last call of each context. -/
structure Called (E : Type → Type) (σ τ κ : Type) where
  st : St E σ τ
  call : τ → Option κ

def remember (S : System E σ τ κ ι χ) (s : σ) (call : τ → Option κ) : Act κ ι χ → τ → Option κ
  | .call c k => update call (S.current s c) (some k)
  | _ => call

def Called.step (S : System E σ τ κ ι χ) (w : Called E σ τ κ) (a : Act κ ι χ) : Option (Called E σ τ κ) :=
  (Cpus.step S w.st a).map fun s => ⟨s, remember S w.st.shared w.call a⟩

/-- `Good` for a logic that depends on the call. -/
def Called.Good (F : Option κ → Logic E L) (I : σ → (τ → L) → Prop) (fin : L → Prop) (w : Called E σ τ κ) : Prop :=
  ∃ Λ : τ → L, I w.st.shared Λ ∧ ∀ t, wp (F (w.call t)) (w.st.prog t) (fun _ l => fin l) (Λ t)

/-- `Sound` for a logic that depends on the call. -/
structure Calls (S : System E σ τ κ ι χ) (F : Option κ → Logic E L) (allow : {β : Type} → E β → τ → σ → Prop)
    (I : σ → (τ → L) → Prop) (fin quiet : L → Prop) (start : τ → L) : Prop where
  done : ∀ (k : Option κ) {β : Type} (o : E β) (c : Nat) (x : χ) (s : σ) (Λ : τ → L) (b : β) (s' : σ)
    (fresh : Option τ),
    I s Λ → (F k).pre o (Λ (S.current s c)) → allow o (S.current s c) s →
    S.exec o (S.current s c) c x s = .done b s' fresh →
    (F k).res o (Λ (S.current s c)) b ∧
      I s' (renew start (update Λ (S.current s c) ((F k).upd o (Λ (S.current s c)) b)) fresh)
  isQuiet : ∀ s Λ c, I s Λ → S.enabled s c = true → quiet (Λ (S.current s c))
  code : ∀ k l, fin l → wp (F (some k)) (S.code k) (fun _ l' => fin l') l
  handler : ∀ k i l, quiet l → wp (F k) (S.handler i) (fun _ l' => l' = l) l
  entry : ∀ k t, wp (F k) (S.entry t) (fun _ l => fin l) (start t)

theorem Calls.keeps {F : Option κ → Logic E L} (h : Calls S F allow I fin quiet start) {w w' : Called E σ τ κ}
    (hg : w.Good F I fin) (hok : StepOk S allow w.st a) (hs : w.step S a = some w') :
    w'.Good F I fin := by
  obtain ⟨Λ, hI, hw⟩ := hg
  obtain ⟨s', hs', rfl⟩ := Option.map_eq_some_iff.mp hs
  have hset : ∀ {t : τ} {m : Prog E Unit}, wp (F (w.call t)) m (fun _ l => fin l) (Λ t) →
      ∀ q, wp (F (w.call q)) (update w.st.prog t m q) (fun _ l => fin l) (Λ q) := by
    intro t m hm q
    have := update_all (P := fun q m l => wp (F (w.call q)) m (fun _ l => fin l) l) (fun q _ => hw q) hm q
    rwa [update_eq_self] at this
  cases moves_of_step hs' with
  | @call c k u hp =>
    have hwp := hw (S.current w.st.shared c)
    rw [hp] at hwp
    refine ⟨Λ, hI, fun q => ?_⟩
    show wp (F (update w.call _ _ q)) (update w.st.prog _ _ q) _ _
    by_cases hq : q = S.current w.st.shared c
    · subst hq
      rw [update_self, update_self]
      exact h.code k _ hwp
    · rw [update_of_ne hq, update_of_ne hq]
      exact hw q
  | @intr c i he =>
    refine ⟨Λ, hI, hset (wp_call (h.handler _ i _ (h.isQuiet _ _ c hI he)) fun _ l' hl => ?_)⟩
    rw [hl]
    exact hw _
  | @op c x β o k b s1 fresh hp he =>
    have hwp := hw (S.current w.st.shared c)
    have hok' : nextOk allow w.st.shared (S.current w.st.shared c) (w.st.prog (S.current w.st.shared c)) := hok
    rw [hp] at hwp hok'
    obtain ⟨hr, hI'⟩ := h.done _ o c x w.st.shared Λ b s1 fresh hI hwp.1 hok' he
    have hnext := update_all (P := fun q m l => wp (F (w.call q)) m (fun _ l => fin l) l) (fun q _ => hw q) (hwp.2 b hr)
    refine ⟨_, hI', fun q => ?_⟩
    cases fresh with
    | none => exact hnext q
    | some t =>
      exact update_all (P := fun q m l => wp (F (w.call q)) m (fun _ l => fin l) l) (fun q _ => hnext q) (h.entry _ t) q
  | halt => exact ⟨Λ, hI, hw⟩
  | @turn c x β γ body y k hp =>
    have hwp := hw (S.current w.st.shared c)
    rw [hp] at hwp
    exact ⟨Λ, hI, hset (wp_unroll hwp)⟩

theorem Sound.calls (h : Sound S G allow I fin quiet start) : Calls S (fun _ => G) allow I fin quiet start := { h with
  done _ := h.done
  handler _ := h.handler
  entry _ := h.entry }

theorem Sound.keeps (h : Sound S G allow I fin quiet start) {s' : St E σ τ} (hg : Good G I fin s)
    (hok : StepOk S allow s a) (hs : step S s a = some s') : Good G I fin s' := by
  have hs' : Called.step S ⟨s, fun _ => none⟩ a = some ⟨s', remember S s.shared (fun _ => none) a⟩ := by
    rw [Called.step, hs]
    rfl
  have hg' : Called.Good (fun _ : Option κ => G) I fin ⟨s, fun _ => none⟩ := hg
  exact h.calls.keeps hg' hok hs'

theorem shared_of_step {s' : St E σ τ}
    (hw : ∀ t, wp G (s.prog t) (fun _ l => fin l) (Λ t)) (hs : step S s a = some s') :
    s'.shared = s.shared ∨ ∃ (β : Type) (o : E β) (c : Nat) (x : χ) (b : β) (fresh : Option τ),
      a = .step c x ∧ G.pre o (Λ (S.current s.shared c)) ∧
        S.exec o (S.current s.shared c) c x s.shared = .done b s'.shared fresh := by
  cases moves_of_step hs with
  | @op c x β o k b s1 fresh hp he =>
    have hwp := hw (S.current s.shared c)
    rw [hp] at hwp
    exact .inr ⟨β, o, c, x, b, fresh, rfl, hwp.1, he⟩
  | call | intr | halt | turn => exact .inl rfl

omit [DecidableEq τ] in
theorem stepOk_of_all (ha : ∀ {β : Type} (o : E β) (t : τ) (s : σ), allow o t s) (s : St E σ τ) (a : Act κ ι χ) :
    StepOk S allow s a := by
  cases a with
  | call c k => exact trivial
  | intr c i => exact trivial
  | step c x =>
    show nextOk allow _ _ _
    cases s.prog (S.current s.shared c) with
    | ret a => exact trivial
    | op o k => exact ha o _ _
    | loop body y k => exact trivial

variable {init : St E σ τ → Prop}

theorem Sound.reach (h : Sound S G allow I fin quiet start)
    (h0 : ∀ s, init s → Good G I fin s) (hr : Run.Reach (step S) (StepOk S allow) init s) : Good G I fin s :=
  hr.invariant (Good G I fin) h0 fun _ _ _ hg ho hs => h.keeps hg ho hs

theorem Sound.reach_all (h : Sound S G allow I fin quiet start)
    (ha : ∀ {β : Type} (o : E β) (t : τ) (s : σ), allow o t s) (h0 : ∀ s, init s → Good G I fin s)
    (hr : Run.Reach (step S) (fun _ _ => True) init s) : Good G I fin s := by
  exact h.reach h0 (hr.mono fun s a _ => stepOk_of_all ha s a)

theorem Sound.strengthen {allow' : {β : Type} → E β → τ → σ → Prop} (h : Sound S G allow I fin quiet start)
    (ha : ∀ {β : Type} (o : E β) (t : τ) (s : σ), allow' o t s → allow o t s) : Sound S G allow' I fin quiet start :=
  { h with done := fun o c x s Λ b s' fresh hI hpre ho he => h.done o c x s Λ b s' fresh hI hpre (ha _ _ _ ho) he }

end

/-! ## Programs that run alone -/

section
variable {E : Type → Type} {σ τ κ ι χ : Type}

/-- The current context of processor `c` executes a program to its end, with no step of
others in between. -/
inductive Alone (S : System E σ τ κ ι χ) (c : Nat) : {α : Type} → Prog E α → σ → α → σ → Prop
  | ret {α : Type} (a : α) (s : σ) : Alone S c (.ret a) s a s
  | op {α β : Type} {o : E β} {k : β → Prog E α} {s s1 s' : σ} {x : χ} {b : β} {a : α}
      (he : S.exec o (S.current s c) c x s = .done b s1 none) (hc : S.current s1 c = S.current s c)
      (hk : Alone S c (k b) s1 a s') : Alone S c (.op o k) s a s'
  | turn {α β γ : Type} {body : γ → Prog E (γ ⊕ β)} {y : γ} {k : β → Prog E α} {s s' : σ} (x : χ) {a : α}
      (h : Alone S c (unroll body y k) s a s') : Alone S c (.loop body y k) s a s'

variable {S : System E σ τ κ ι χ} {c : Nat} {α β : Type}

theorem alone_ret {a b : α} {s s' : σ} : Alone S c (.ret a) s b s' ↔ b = a ∧ s' = s := by
  constructor
  · intro h
    cases h
    exact ⟨rfl, rfl⟩
  · rintro ⟨rfl, rfl⟩
    exact .ret _ _

theorem alone_op {o : E β} {k : β → Prog E α} {s s' : σ} {a : α} : Alone S c (.op o k) s a s' ↔
    ∃ x b s1, S.exec o (S.current s c) c x s = .done b s1 none ∧ S.current s1 c = S.current s c ∧
    Alone S c (k b) s1 a s' := by
  constructor
  · intro h
    cases h with
    | op he hc hk => exact ⟨_, _, _, he, hc, hk⟩
  · rintro ⟨x, b, s1, he, hc, hk⟩
    exact .op he hc hk

end

/-! ## Layers -/

/-- What a context knows in addition to the local states of a logic `G`; it may look at
those, and rely on what `G` says about operations. -/
structure Layer (E : Type → Type) (L : Type u) (M : Type v) where
  pre : {β : Type} → E β → L → M → Prop
  res : {β : Type} → E β → L → M → β → Prop
  upd : {β : Type} → E β → L → M → β → M

section
variable {E : Type → Type} {L : Type u} {M : Type v}

/-- A logic with a layer on top of it. -/
def Layer.full (H : Layer E L M) (G : Logic E L) : Logic E (L × M) where
  pre o l := G.pre o l.1 ∧ H.pre o l.1 l.2
  res o l b := G.res o l.1 b ∧ H.res o l.1 l.2 b
  upd o l b := (G.upd o l.1 b, H.upd o l.1 l.2 b)

/-- The layer alone: what the logic below requires is taken for granted. -/
def Layer.over (H : Layer E L M) (G : Logic E L) : Logic E (L × M) where
  pre o l := G.pre o l.1 → H.pre o l.1 l.2
  res o l b := G.pre o l.1 ∧ G.res o l.1 b ∧ H.res o l.1 l.2 b
  upd o l b := (G.upd o l.1 b, H.upd o l.1 l.2 b)

variable {H : Layer E L M} {G : Logic E L} {α β γ : Type}

theorem wp_full (m : Prog E α) : ∀ {Q : α → L → Prop} {R : α → L × M → Prop} {l : L × M}, wp G m Q l.1 →
    wp (H.over G) m R l → wp (H.full G) m (fun a l' => Q a l'.1 ∧ R a l') l := by
  induction m with
  | ret a => exact fun hq hr => ⟨hq, hr⟩
  | op o k ih => exact fun hq hr => ⟨⟨hq.1, hr.1 hq.1⟩, fun b hb => ih b (hq.2 b hb.1) (hr.2 b ⟨hq.1, hb⟩)⟩
  | loop body x k ihb ihk =>
    rintro Q R l ⟨J, hx, hJ⟩ ⟨K, kx, hK⟩
    refine ⟨fun y l' => J y l'.1 ∧ K y l', ⟨hx, kx⟩, fun y l' hy => ?_⟩
    refine wp_mono (fun r l'' hr => ?_) _ l' (ihb y (hJ y l'.1 hy.1) (hK y l' hy.2))
    cases r with
    | inl z => exact hr
    | inr b => exact ihk b hr.1 hr.2

/-- A program keeps a relation between the local states of the two layers. -/
def Layer.Keeps (H : Layer E L M) (G : Logic E L) (A : L → M → Prop) {α : Type} (m : Prog E α) : Prop :=
  ∀ l x, A l x → wp (H.over G) m (fun _ l' => A l'.1 l'.2) (l, x)

variable {A : L → M → Prop}

theorem Layer.Keeps.ends {m : Prog E α} (h : H.Keeps G A m) {l : L} {x : M} (hx : A l x)
    {Q : L × M → Prop} (hQ : ∀ l', A l'.1 l'.2 → Q l') : wp (H.over G) m (fun _ => Q) (l, x) :=
  wp_mono (fun _ => hQ) _ _ (h l x hx)

theorem Layer.closed_keeps (H : Layer E L M) (G : Logic E L) (A : L → M → Prop) : Closed (H.Keeps G A) where
  ret _ _ _ hA := hA
  bind hm hf l x hA := wp_call (hm l x hA) fun a l' hl => hf a l'.1 l'.2 hl
  iterate y hb l x hA := by
    refine wp_iterate (fun _ l' => A l'.1 l'.2) hA fun z l' hl => ?_
    refine wp_mono (fun r l'' hr => ?_) _ _ (hb z l'.1 l'.2 hl)
    cases r with
    | inl w => exact hr
    | inr b => exact hr

theorem Layer.keeps_op {o : E β} (h : ∀ l x, A l x → G.pre o l → H.pre o l x ∧
      ∀ b, G.res o l b → H.res o l x b → A (G.upd o l b) (H.upd o l x b)) : H.Keeps G A (perform o) :=
  fun l x hA => wp_perform (fun hpre => (h l x hA hpre).1) fun b hb => (h l x hA hb.1).2 b hb.2.1 hb.2.2

end

section
variable {E : Type → Type} {σ τ κ ι χ : Type} [DecidableEq τ] {L : Type u} {M : Type v}

/-- A layer is sound: given the logic below, every operation keeps the invariant `J`,
and the programs meet the layer's preconditions. -/
structure Layer.Sound (S : System E σ τ κ ι χ) (G : Logic E L) (H : Layer E L M)
    (allow : {β : Type} → E β → τ → σ → Prop) (I : σ → (τ → L) → Prop) (J : σ → (τ → L) → (τ → M) → Prop)
    (fin quiet : L → Prop) (finM quietM : L → M → Prop) (start : τ → L) (startM : τ → M) : Prop where
  done : ∀ {β : Type} (o : E β) (c : Nat) (x : χ) (s : σ) (Λ : τ → L) (N : τ → M) (b : β) (s' : σ) (fresh : Option τ),
    I s Λ → J s Λ N → G.pre o (Λ (S.current s c)) → H.pre o (Λ (S.current s c)) (N (S.current s c)) →
    allow o (S.current s c) s → S.exec o (S.current s c) c x s = .done b s' fresh →
    G.res o (Λ (S.current s c)) b →
    I s' (renew start (update Λ (S.current s c) (G.upd o (Λ (S.current s c)) b)) fresh) →
    H.res o (Λ (S.current s c)) (N (S.current s c)) b ∧
      J s' (renew start (update Λ (S.current s c) (G.upd o (Λ (S.current s c)) b)) fresh)
        (renew startM (update N (S.current s c)
          (H.upd o (Λ (S.current s c)) (N (S.current s c)) b)) fresh)
  isQuiet : ∀ s Λ N c, I s Λ → J s Λ N → S.enabled s c = true → quietM (Λ (S.current s c)) (N (S.current s c))
  code : ∀ k l x, fin l → finM l x → wp (H.over G) (S.code k) (fun _ l' => fin l'.1 → finM l'.1 l'.2) (l, x)
  handler : ∀ i l x, quiet l → quietM l x → wp (H.over G) (S.handler i) (fun _ l' => l'.1 = l → l'.2 = x) (l, x)
  entry : ∀ t, wp (H.over G) (S.entry t) (fun _ l => fin l.1 → finM l.1 l.2) (start t, startM t)

variable {S : System E σ τ κ ι χ} {G : Logic E L} {H : Layer E L M} {allow : {β : Type} → E β → τ → σ → Prop}
  {I : σ → (τ → L) → Prop} {J : σ → (τ → L) → (τ → M) → Prop} {fin quiet : L → Prop}
  {finM quietM : L → M → Prop} {start : τ → L} {startM : τ → M}

theorem fst_renew_update (Λ : τ → L × M) (t : τ) (l : L × M) (fresh : Option τ) :
    (fun q => (renew (fun q => (start q, startM q)) (update Λ t l) fresh q).1) =
      renew start (update (fun q => (Λ q).1) t l.1) fresh := by
  funext q
  cases fresh with
  | none => exact apply_update (fun _ => Prod.fst) Λ t l q
  | some n =>
    refine (apply_update (fun _ => Prod.fst) _ n _ q).trans ?_
    exact congrArg (fun f => update f n (start n) q)
      (funext fun r => apply_update (fun _ => Prod.fst) Λ t l r)

theorem snd_renew_update (Λ : τ → L × M) (t : τ) (l : L × M) (fresh : Option τ) :
    (fun q => (renew (fun q => (start q, startM q)) (update Λ t l) fresh q).2) =
      renew startM (update (fun q => (Λ q).2) t l.2) fresh := by
  funext q
  cases fresh with
  | none => exact apply_update (fun _ => Prod.snd) Λ t l q
  | some n =>
    refine (apply_update (fun _ => Prod.snd) _ n _ q).trans ?_
    exact congrArg (fun f => update f n (startM n) q)
      (funext fun r => apply_update (fun _ => Prod.snd) Λ t l r)

theorem Layer.Sound.full (hH : Layer.Sound S G H allow I J fin quiet finM quietM start startM)
    (hG : Cpus.Sound S G allow I fin quiet start) :
    Cpus.Sound S (H.full G) allow (fun s Λ => I s (fun t => (Λ t).1) ∧ J s (fun t => (Λ t).1) (fun t => (Λ t).2))
      (fun l => fin l.1 ∧ finM l.1 l.2) (fun l => quiet l.1 ∧ quietM l.1 l.2) (fun t => (start t, startM t)) where
  done o c x s Λ b s' fresh hI hpre ho he := by
    obtain ⟨hr, hI'⟩ := hG.done o c x s _ b s' fresh hI.1 hpre.1 ho he
    obtain ⟨hr2, hJ'⟩ := hH.done o c x s _ _ b s' fresh hI.1 hI.2 hpre.1 hpre.2 ho he hr hI'
    refine ⟨⟨hr, hr2⟩, ?_⟩
    rw [fst_renew_update, snd_renew_update]
    exact ⟨hI', hJ'⟩
  isQuiet s Λ c hI he := ⟨hG.isQuiet s _ c hI.1 he, hH.isQuiet s _ _ c hI.1 hI.2 he⟩
  code k l hl := by
    refine wp_mono (fun _ l' hl' => ?_) _ l (wp_full _ (hG.code k l.1 hl.1) (hH.code k l.1 l.2 hl.1 hl.2))
    exact ⟨hl'.1, hl'.2 hl'.1⟩
  handler i l hl := by
    refine wp_mono (fun _ l' hl' => ?_) _ l (wp_full _ (hG.handler i l.1 hl.1) (hH.handler i l.1 l.2 hl.1 hl.2))
    exact Prod.ext hl'.1 (hl'.2 hl'.1)
  entry t := by
    refine wp_mono (fun _ l' hl' => ?_) _ _ (wp_full _ (hG.entry t) (hH.entry t))
    exact ⟨hl'.1, hl'.2 hl'.1⟩

end

end Cpus
