import Mathlib.Init

/-!
# Total correctness of stateful computations that may fail

`Ok x s Q`: run from `s`, the computation `x` returns a result (it does not
stop with an error), and result and state satisfy `Q`.  The rules follow the
way programs are put together: `Ok.pure`, `Ok.bind`, `Ok.mono`, and `Ok.forM`
for a loop over `0, …, n - 1` with an invariant.  `After x s Q` says the same of a
computation that may stop with an error.
-/

namespace Total

universe u

variable {σ ε α β : Type u}

def Ok (x : StateT σ (Except ε) α) (s : σ) (Q : α → σ → Prop) : Prop :=
  ∃ a s', x s = .ok (a, s') ∧ Q a s'

variable {Q : α → σ → Prop}

variable {s s' : σ} {a : α} {P : α → σ → Prop}

theorem Ok.pure (h : Q a s) : Ok (ε := ε) (Pure.pure a) s Q :=
  ⟨a, s, rfl, h⟩

variable {x : StateT σ (Except ε) α}

theorem Ok.of_eq (h : x s = .ok (a, s')) (hq : Q a s') : Ok x s Q :=
  ⟨a, s', h, hq⟩

theorem Ok.mono (h : Ok x s P) (hpq : ∀ a s', P a s' → Q a s') : Ok x s Q := by
  obtain ⟨a, s', hx, hp⟩ := h
  exact ⟨a, s', hx, hpq a s' hp⟩

variable {f : α → StateT σ (Except ε) β}

theorem bind_eq (h : x s = .ok (a, s')) : (x >>= f) s = f a s' := by
  show (x s >>= fun p => f p.1 p.2) = f a s'
  rw [h]
  rfl

theorem Ok.bind_eq {Q : β → σ → Prop} (hx : x s = .ok (a, s')) (hf : Ok (f a) s' Q) : Ok (x >>= f) s Q := by
  obtain ⟨b, s2, h2, hq⟩ := hf
  exact ⟨b, s2, (Total.bind_eq hx).trans h2, hq⟩

theorem Ok.bind {Q : β → σ → Prop} (hx : Ok x s P) (hf : ∀ a s', P a s' → Ok (f a) s' Q) : Ok (x >>= f) s Q := by
  obtain ⟨a, s1, h1, hp⟩ := hx
  obtain ⟨b, s2, h2, hq⟩ := hf a s1 hp
  exact ⟨b, s2, (Total.bind_eq h1).trans h2, hq⟩

theorem Ok.result (h : Ok x s Q) (hx : x s = .ok (a, s')) : Q a s' := by
  obtain ⟨a1, s1, h1, hq⟩ := h
  obtain ⟨rfl, rfl⟩ := Prod.mk.inj (Except.ok.inj (hx.symm.trans h1))
  exact hq

theorem Ok.forM {n : Nat} {body : Nat → StateT σ (Except ε) PUnit} (I : Nat → σ → Prop) (h0 : I 0 s)
    (hstep : ∀ i s, i < n → I i s → Ok (body i) s fun _ s' => I (i + 1) s') :
    Ok ((List.range n).forM body) s fun _ s' => I n s' := by
  have hloop : ∀ k i s, i + k = n → I i s → Ok ((List.range' i k).forM body) s fun _ s' => I n s' := by
    intro k
    induction k with
    | zero =>
      intro i s hi hI
      rw [Nat.add_zero] at hi
      exact Ok.pure (hi ▸ hI)
    | succ k ih =>
      intro i s hi hI
      refine Ok.bind (hstep i s (by omega) hI) ?_
      intro _ s1 h1
      exact ih (i + 1) s1 (by omega) h1
  rw [List.range_eq_range']
  exact hloop n 0 s (Nat.zero_add n) h0

/-- Whatever `x` returns from `s` satisfies `Q`. -/
def After (x : StateT σ (Except ε) α) (s : σ) (Q : α → σ → Prop) : Prop := ∀ a s', x s = .ok (a, s') → Q a s'

theorem Ok.after (h : Ok x s Q) : After x s Q :=
  fun _ _ hx => h.result hx

theorem After.of_error {e : ε} (h : x s = .error e) : After x s Q := by
  intro a s' hr
  rw [h] at hr
  cases hr

theorem After.bind
    {Q : β → σ → Prop} (hx : After x s P) (hf : ∀ a s', P a s' → After (f a) s' Q) : After (x >>= f) s Q := by
  intro b s2 h
  cases h1 : x s with
  | error e =>
    have : (x >>= f) s = .error e := by
      show (x s >>= fun p => f p.1 p.2) = _
      rw [h1]
      rfl
    rw [this] at h
    cases h
  | ok r =>
    obtain ⟨a, s1⟩ := r
    rw [bind_eq h1] at h
    exact hf a s1 (hx a s1 h1) b s2 h

end Total
