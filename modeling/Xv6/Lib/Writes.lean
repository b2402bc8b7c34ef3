import Mathlib.Logic.Function.Basic
import Mathlib.Data.List.Basic
import Mathlib.Data.List.Nodup

/-!
# Stores under ordered atomic writes, and crashes

A store maps keys to values.  A program that writes to it is seen from outside
as the list of its writes, in program order; each write is atomic.  A crash
keeps a prefix of the list (`applyWrites d (ws.take k)`).

* `applyWrites_of_notMem`, `applyWrites_of_mem`: what a key holds afterwards.
* `Reboots rec d d'`: `d'` is reached from `d` by finitely many recoveries, each
  cut after some prefix of the writes `rec` issues on the store it finds.
* `Reboots.invariant`: the rule for such sequences.
-/

namespace Store

open Function

variable {κ β : Type} [DecidableEq κ]

/-- Apply writes to a store, oldest first. -/
def applyWrites (d : κ → β) : List (κ × β) → κ → β
  | [] => d
  | w :: ws => applyWrites (update d w.1 w.2) ws

@[simp] theorem applyWrites_nil (d : κ → β) : applyWrites d [] = d := rfl

@[simp] theorem applyWrites_cons (d : κ → β) (w : κ × β) (ws : List (κ × β)) :
    applyWrites d (w :: ws) = applyWrites (update d w.1 w.2) ws := rfl

theorem applyWrites_append (d : κ → β) (ws vs : List (κ × β)) :
    applyWrites d (ws ++ vs) = applyWrites (applyWrites d ws) vs := by
  induction ws generalizing d with
  | nil => rfl
  | cons w ws ih => exact ih _

theorem applyWrites_of_notMem (d : κ → β) (ws : List (κ × β)) (x : κ)
    (h : ∀ w ∈ ws, w.1 ≠ x) : applyWrites d ws x = d x := by
  induction ws generalizing d with
  | nil => rfl
  | cons w ws ih =>
    rw [applyWrites_cons, ih _ fun v hv => h v (List.mem_cons_of_mem _ hv)]
    exact update_of_ne (h w List.mem_cons_self).symm _ _

theorem applyWrites_of_mem (d : κ → β) (f : κ → β) (ws : List (κ × β)) (x : κ)
    (hf : ∀ w ∈ ws, w.2 = f w.1) (hx : ∃ w ∈ ws, w.1 = x) : applyWrites d ws x = f x := by
  induction ws generalizing d with
  | nil => simp at hx
  | cons w ws ih =>
    have hf' : ∀ v ∈ ws, v.2 = f v.1 := fun v hv => hf v (List.mem_cons_of_mem _ hv)
    by_cases hm : ∃ v ∈ ws, v.1 = x
    · exact ih _ hf' hm
    · rw [applyWrites_cons, applyWrites_of_notMem _ _ _ fun v hv he => hm ⟨v, hv, he⟩]
      obtain ⟨v, hv, rfl⟩ := hx
      rcases List.mem_cons.mp hv with rfl | hv
      · rw [update_self, hf v List.mem_cons_self]
      · exact absurd ⟨v, hv, rfl⟩ hm

/-! ## Crashes during recovery -/

/-- The stores reached from `d` by finitely many recoveries, each cut after
some prefix of its writes. -/
inductive Reboots (rec : (κ → β) → List (κ × β)) (d : κ → β) : (κ → β) → Prop
  | refl : Reboots rec d d
  | cut {d' : κ → β} (k : Nat) :
      Reboots rec d d' → Reboots rec d (applyWrites d' ((rec d').take k))

/-- What every prefix of a recovery keeps survives any number of cut recoveries. -/
theorem Reboots.invariant {rec : (κ → β) → List (κ × β)} {d d' : κ → β} (P : (κ → β) → Prop)
    (hcut : ∀ d k, P d → P (applyWrites d ((rec d).take k))) (h : Reboots rec d d') (hd : P d) : P d' := by
  induction h with
  | refl => exact hd
  | cut k _ ih => exact hcut _ k ih

end Store
