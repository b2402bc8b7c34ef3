import Mathlib.Algebra.BigOperators.Group.Finset.Basic
import Mathlib.Algebra.Order.BigOperators.Group.Finset

/-!
# Reference counts

Objects with a reference count, and holders that each have a share in it.
`Counted` says that the count of an object is the sum of the shares.  Shares are
not negative, so that whoever has one keeps the count positive; a holder whose
share is the whole count is the only one.
-/

namespace Counts

open Function

variable {ι X : Type} {H : Finset ι} {n n' a b : X → Int} {share share' : ι → X → Int} {p q : ι} {x : X}

structure Counted (H : Finset ι) (n : X → Int) (share : ι → X → Int) : Prop where
  sum : ∀ x, n x = ∑ p ∈ H, share p x
  nonneg : ∀ p x, 0 ≤ share p x

theorem Counted.le (h : Counted H n share) (hp : p ∈ H) : share p x ≤ n x := by
  rw [h.sum]
  exact Finset.single_le_sum (f := fun p => share p x) (fun q _ => h.nonneg q x) hp

theorem Counted.holder (h : Counted H n share) (hx : n x ≠ 0) : ∃ p ∈ H, share p x ≠ 0 := by
  by_contra hc
  push Not at hc
  rw [h.sum] at hx
  exact hx (Finset.sum_eq_zero hc)

variable [DecidableEq ι]

theorem Counted.alone (h : Counted H n share) (hp : p ∈ H) (hq : q ∈ H) (hne : q ≠ p) (hall : n x ≤ share p x) :
    share q x = 0 := by
  have hsplit := Finset.add_sum_erase H (fun p => share p x) hp
  have hle : share q x ≤ ∑ r ∈ H.erase p, share r x :=
    Finset.single_le_sum (f := fun p => share p x) (fun r _ => h.nonneg r x) (Finset.mem_erase.mpr ⟨hne, hq⟩)
  have hsum := h.sum x
  have hnn := h.nonneg q x
  omega

theorem Counted.change (h : Counted H n share) (hp : p ∈ H) (hself : ∀ x, share' p x = a x)
    (hother : ∀ q, q ≠ p → ∀ x, share' q x = share q x) (hpos : ∀ x, 0 ≤ a x)
    (hn : ∀ x, n' x = n x + (a x - share p x)) : Counted H n' share' where
  sum x := by
    have h1 := Finset.add_sum_erase H (fun p => share p x) hp
    have h2 := Finset.add_sum_erase H (fun p => share' p x) hp
    have h3 : ∑ q ∈ H.erase p, share' q x = ∑ q ∈ H.erase p, share q x :=
      Finset.sum_congr rfl fun q hq => hother q (Finset.ne_of_mem_erase hq) x
    rw [hn, h.sum, ← hself]
    omega
  nonneg q x := by
    by_cases hq : q = p
    · rw [hq, hself]
      exact hpos x
    · rw [hother q hq]
      exact h.nonneg q x

theorem Counted.move (h : Counted H n share) (hp : p ∈ H) (hq : q ∈ H) (hne : q ≠ p) (hself : ∀ x, share' p x = a x)
    (hself' : ∀ x, share' q x = b x) (hother : ∀ r, r ≠ p → r ≠ q → ∀ x, share' r x = share r x)
    (hpos : ∀ x, 0 ≤ a x) (hpos' : ∀ x, 0 ≤ b x)
    (hn : ∀ x, n' x = n x + (a x - share p x) + (b x - share q x)) : Counted H n' share' := by
  have h1 : Counted H (fun x => n x + (a x - share p x)) (update share p a) :=
    h.change hp (fun x => by rw [update_self]) (fun r hr x => by rw [update_of_ne hr]) hpos fun _ => rfl
  refine h1.change hq hself' (fun r hr x => ?_) hpos' fun x => ?_
  · by_cases hrp : r = p
    · rw [hrp, update_self, hself]
    · rw [update_of_ne hrp, hother r hrp hr]
  · rw [hn, update_of_ne hne]

omit [DecidableEq ι] in
theorem Counted.congr (h : Counted H n share) (hn : ∀ x, n' x = n x) (hs : ∀ p x, share' p x = share p x) :
    Counted H n' share' := by
  have h1 : n' = n := funext hn
  have h2 : share' = share := funext fun p => funext (hs p)
  rw [h1, h2]
  exact h

end Counts
