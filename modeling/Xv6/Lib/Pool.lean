import Mathlib.Data.List.Basic
import Mathlib.Logic.Function.Basic

/-!
# Pools of numbered resources

A pool of resources `0 .. n-1` with a flag for each, and holders of which each
has a list of resources.  `Owns` says that the flags are right: no resource is
held twice, and exactly the ones that nobody holds are free.  A holder takes a
free resource (`Owns.take`) and gives one back (`Owns.give`).
-/

namespace Pool

open Function

variable {ι : Type} {n : Nat} {free : Nat → Bool} {held : ι → List Nat}

structure Owns (n : Nat) (free : Nat → Bool) (held : ι → List Nat) : Prop where
  range : ∀ p, ∀ i ∈ held p, i < n
  nodup : ∀ p, (held p).Nodup
  apart : ∀ p q i, i ∈ held p → i ∈ held q → p = q
  free : ∀ i, i < n → (free i = true ↔ ∀ p, i ∉ held p)

theorem Owns.not_free (h : Owns n free held) {p : ι} {i : Nat} (hi : i ∈ held p) : free i = false := by
  rw [← Bool.not_eq_true, h.free i (h.range p i hi)]
  exact fun hc => hc p hi

variable [DecidableEq ι]

theorem Owns.take (h : Owns n free held) {p : ι} {i : Nat} (hi : i < n) (hf : free i = true) :
    Owns n (update free i false) (update held p (held p ++ [i])) := by
  have hno := (h.free i hi).mp hf
  have hmem : ∀ q j, j ∈ update held p (held p ++ [i]) q ↔ j ∈ held q ∨ (q = p ∧ j = i) := by
    intro q j
    by_cases hq : q = p
    · subst hq
      simp
    · simp [hq]
  refine ⟨fun q j hj => ?_, fun q => ?_, fun q r j hq hr => ?_, fun j hj => ?_⟩
  · rcases (hmem q j).mp hj with hj | ⟨_, rfl⟩
    · exact h.range q j hj
    · exact hi
  · by_cases hq : q = p
    · subst hq
      rw [update_self]
      exact List.nodup_append.mpr ⟨h.nodup q, by simp, fun a ha b hb => by
        rw [List.mem_singleton.mp hb]
        rintro rfl
        exact hno q ha⟩
    · rw [update_of_ne hq]
      exact h.nodup q
  · rcases (hmem q j).mp hq with hq | ⟨hqp, hji⟩ <;> rcases (hmem r j).mp hr with hr | ⟨hrp, hji'⟩
    · exact h.apart q r j hq hr
    · exact absurd (hji' ▸ hq) (hno q)
    · exact absurd (hji ▸ hr) (hno r)
    · rw [hqp, hrp]
  · by_cases hji : j = i
    · subst hji
      rw [update_self]
      refine iff_of_false Bool.false_ne_true fun hc => hc p ?_
      exact (hmem p j).mpr (Or.inr ⟨rfl, rfl⟩)
    · rw [update_of_ne hji, h.free j hj]
      refine forall_congr' fun q => not_congr ?_
      rw [hmem]
      exact (or_iff_left fun hc => hji hc.2).symm

theorem Owns.give (h : Owns n free held) {p : ι} {i : Nat} {rest : List Nat} (hp : held p = i :: rest) :
    Owns n (update free i true) (update held p rest) := by
  have hnd := h.nodup p
  rw [hp] at hnd
  obtain ⟨hir, hnd⟩ := List.nodup_cons.mp hnd
  have hip : i ∈ held p := by
    rw [hp]
    exact List.mem_cons_self
  have hmem : ∀ q j, j ∈ update held p rest q ↔ j ∈ held q ∧ j ≠ i := by
    intro q j
    by_cases hq : q = p
    · subst hq
      rw [update_self, hp, List.mem_cons]
      constructor
      · exact fun hj => ⟨Or.inr hj, fun hc => hir (hc ▸ hj)⟩
      · exact fun hj => hj.1.resolve_left hj.2
    · rw [update_of_ne hq]
      exact ⟨fun hj => ⟨hj, fun hc => hq (h.apart q p i (hc ▸ hj) hip)⟩, fun hj => hj.1⟩
  refine ⟨fun q j hj => h.range q j ((hmem q j).mp hj).1, fun q => ?_,
    fun q r j hq hr => h.apart q r j ((hmem q j).mp hq).1 ((hmem r j).mp hr).1, fun j hj => ?_⟩
  · by_cases hq : q = p
    · subst hq
      rw [update_self]
      exact hnd
    · rw [update_of_ne hq]
      exact h.nodup q
  · by_cases hji : j = i
    · subst hji
      rw [update_self]
      exact iff_of_true rfl fun q hq => ((hmem q j).mp hq).2 rfl
    · rw [update_of_ne hji, h.free j hj]
      refine forall_congr' fun q => not_congr ?_
      rw [hmem]
      exact (and_iff_left hji).symm

/-! ## How many are free -/

def count (n : Nat) (free : Nat → Bool) : Nat := (List.range n).countP free

theorem count_none (h : ∀ i, i < n → free i = false) : count n free = 0 := by
  rw [count, List.countP_eq_zero]
  exact fun i hi => by simp [h i (List.mem_range.mp hi)]

theorem count_succ : count (n + 1) free = count n free + if free n = true then 1 else 0 := by
  rw [count, List.range_succ, List.countP_append, List.countP_singleton, count]

theorem count_give {i : Nat} (hi : i < n) (hf : free i = false) : count n (update free i true) = count n free + 1 := by
  induction n with
  | zero => exact absurd hi (Nat.not_lt_zero i)
  | succ n ih =>
    rw [count_succ, count_succ]
    by_cases hin : i = n
    · subst hin
      have hsame : count i (update free i true) = count i free :=
        List.countP_congr fun j hj => by rw [update_of_ne (Nat.ne_of_lt (List.mem_range.mp hj))]
      rw [hsame, update_self, if_pos rfl, if_neg (by simp [hf])]
    · rw [ih (by omega), update_of_ne (Ne.symm hin)]
      omega

theorem count_take (i : Nat) : count n (update free i false) ≤ count n free := by
  refine List.countP_mono_left fun j _ hj => ?_
  by_cases hji : j = i
  · subst hji
    rw [update_self] at hj
    cases hj
  · rwa [update_of_ne hji] at hj

end Pool
