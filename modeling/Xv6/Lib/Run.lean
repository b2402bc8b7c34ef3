/-!
# Runs of a step function

A system is a partial step function `step : σ → α → Option σ`: the action `a`
names who moves and how, and `none` means that `a` is not enabled.  `ok` is a
condition on the state before a step and the action taken; `fun _ _ => True`
allows every run.
-/

namespace Run

universe u v

variable {σ : Type u} {α : Type v}

/-- The state after a list of actions, when each is enabled in turn. -/
def run (step : σ → α → Option σ) : σ → List α → Option σ
  | s, [] => some s
  | s, a :: as => (step s a).bind fun s' => run step s' as

/-- The states reached from `init` by runs whose steps all meet `ok`. -/
inductive Reach (step : σ → α → Option σ) (ok : σ → α → Prop) (init : σ → Prop) : σ → Prop
  | start {s : σ} : init s → Reach step ok init s
  | next {s s' : σ} (a : α) : Reach step ok init s → ok s a → step s a = some s' →
      Reach step ok init s'

variable {init : σ → Prop} {ok : σ → α → Prop} {step : σ → α → Option σ}

/-- What holds initially and is kept by every allowed step holds in every state reached. -/
theorem Reach.invariant {s : σ} (I : σ → Prop) (h0 : ∀ s, init s → I s)
    (hstep : ∀ s a s', I s → ok s a → step s a = some s' → I s') (h : Reach step ok init s) : I s := by
  induction h with
  | start h => exact h0 _ h
  | next a _ hok hs ih => exact hstep _ a _ ih hok hs

theorem Reach.mono {ok' : σ → α → Prop} {s : σ}
    (hok : ∀ s a, ok s a → ok' s a) (h : Reach step ok init s) : Reach step ok' init s := by
  induction h with
  | start h => exact .start h
  | next a _ ho hs ih => exact .next a ih (hok _ a ho) hs

theorem Reach.of_run (hok : ∀ s a, ok s a) (as : List α) :
    ∀ {s s' : σ}, Reach step ok init s → run step s as = some s' → Reach step ok init s' := by
  induction as with
  | nil =>
    intro s s' h hr
    simp only [run, Option.some.injEq] at hr
    rw [← hr]
    exact h
  | cons a as ih =>
    intro s s' h hr
    obtain ⟨s1, h1, h2⟩ := Option.bind_eq_some_iff.mp hr
    exact ih (Reach.next a h (hok s a) h1) h2

/-- `run` for a decidable `ok`, stopping at the first action that does not meet it. -/
def runOk (step : σ → α → Option σ) (ok : σ → α → Prop) [∀ s a, Decidable (ok s a)] :
    σ → List α → Option σ
  | s, [] => some s
  | s, a :: as => if ok s a then (step s a).bind fun s' => runOk step ok s' as else none

theorem Reach.of_runOk [∀ s a, Decidable (ok s a)] (as : List α) :
    ∀ {s s' : σ}, Reach step ok init s → runOk step ok s as = some s' → Reach step ok init s' := by
  induction as with
  | nil =>
    intro s s' h hr
    simp only [runOk, Option.some.injEq] at hr
    rw [← hr]
    exact h
  | cons a as ih =>
    intro s s' h hr
    unfold runOk at hr
    split at hr
    · next hok =>
      obtain ⟨s1, h1, h2⟩ := Option.bind_eq_some_iff.mp hr
      exact ih (Reach.next a h hok h1) h2
    · cases hr

end Run
