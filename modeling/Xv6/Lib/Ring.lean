import Mathlib.Data.List.Basic
import Mathlib.Data.Nat.ModEq
import Mathlib.Logic.Function.Basic

/-!
# Rings with wrapping indexes

A ring of `n` slots between a producer and a consumer.  Both indexes run modulo
`w`, a multiple of `n`; index `i` is for slot `i % n`.  `items` are the entries
between the consumer's index `lo` and the producer's index `hi`: the consumer
takes the first (`items_pop`), the producer appends (`items_push`), and as long
as the ring is not full a store into the producer's slot changes none of them
(`items_store`).  An index between the two cuts the entries (`items_append`).
-/

namespace Ring

variable {α : Type} {n w lo hi : Nat} {slot : Nat → α}

def count (w lo hi : Nat) : Nat := (hi + w - lo) % w

def items (n w : Nat) (slot : Nat → α) (lo hi : Nat) : List α :=
  (List.range (count w lo hi)).map fun j => slot ((lo + j) % n)

theorem items_length : (items n w slot lo hi).length = count w lo hi := by simp [items]

theorem count_eq (hlo : lo < w) (hhi : hi < w) : count w lo hi = if lo ≤ hi then hi - lo else hi + w - lo := by
  unfold count
  split
  · rw [show hi + w - lo = hi - lo + w by omega, Nat.add_mod_right, Nat.mod_eq_of_lt (by omega)]
  · rw [Nat.mod_eq_of_lt (by omega)]

theorem succ_mod (hhi : hi < w) : (hi + 1) % w = if hi + 1 = w then 0 else hi + 1 := by
  split
  · next h => rw [h, Nat.mod_self]
  · rw [Nat.mod_eq_of_lt (by omega)]

theorem count_self (hlo : lo < w) : count w lo lo = 0 := by
  rw [count_eq hlo hlo]
  simp

theorem add_count_mod (hlo : lo < w) (hhi : hi < w) : (lo + count w lo hi) % w = hi := by
  unfold count
  rw [Nat.add_mod_mod, Nat.add_sub_cancel' (by omega), Nat.add_mod_right, Nat.mod_eq_of_lt hhi]

theorem slot_hi (hdvd : n ∣ w) (hlo : lo < w) (hhi : hi < w) : (lo + count w lo hi) % n = hi % n := by
  rw [← Nat.mod_mod_of_dvd _ hdvd, add_count_mod hlo hhi]

theorem count_push (hlo : lo < w) (hhi : hi < w) (hc : count w lo hi + 1 < w) :
    count w lo ((hi + 1) % w) = count w lo hi + 1 := by
  rw [count_eq hlo hhi] at *
  rw [count_eq hlo (Nat.mod_lt _ (by omega)), succ_mod hhi]
  split_ifs at * <;> omega

theorem count_pop (hlo : lo < w) (hhi : hi < w) (hne : lo ≠ hi) : count w lo hi = count w ((lo + 1) % w) hi + 1 := by
  rw [count_eq hlo hhi, count_eq (Nat.mod_lt _ (by omega)) hhi, succ_mod hlo]
  split_ifs <;> omega

theorem items_pop (hdvd : n ∣ w) (hlo : lo < w) (hhi : hi < w) (hne : lo ≠ hi) :
    items n w slot lo hi = slot (lo % n) :: items n w slot ((lo + 1) % w) hi := by
  rw [items, count_pop hlo hhi hne, List.range_succ_eq_map, List.map_cons, List.map_map, Nat.add_zero, items]
  congr 1
  apply List.map_congr_left
  intro j _
  have hmod : ((lo + 1) % w + j) % n = (lo + (j + 1)) % n := by
    rw [Nat.add_mod, Nat.mod_mod_of_dvd _ hdvd, ← Nat.add_mod, Nat.add_assoc, Nat.add_comm 1 j]
  simp only [Function.comp_apply, Nat.succ_eq_add_one, hmod]

theorem items_push (hdvd : n ∣ w) (hlo : lo < w) (hhi : hi < w) (hc : count w lo hi + 1 < w) :
    items n w slot lo ((hi + 1) % w) = items n w slot lo hi ++ [slot (hi % n)] := by
  rw [items, count_push hlo hhi hc, List.range_succ, List.map_append, List.map_singleton, slot_hi hdvd hlo hhi, items]

theorem items_store_ahead {k : Nat} (hk : count w lo hi ≤ k) (hkn : k < n) (x : α) :
    items n w (Function.update slot ((lo + k) % n) x) lo hi = items n w slot lo hi := by
  apply List.map_congr_left
  intro j hj
  have hj := List.mem_range.mp hj
  refine Function.update_of_ne ?_ _ _
  intro he
  have hmod : j % n = k % n := Nat.ModEq.add_left_cancel' lo he
  rw [Nat.mod_eq_of_lt (by omega), Nat.mod_eq_of_lt hkn] at hmod
  omega

theorem items_store (hdvd : n ∣ w) (hlo : lo < w) (hhi : hi < w) (hc : count w lo hi < n) (x : α) :
    items n w (Function.update slot (hi % n) x) lo hi = items n w slot lo hi := by
  rw [← slot_hi hdvd hlo hhi]
  exact items_store_ahead (Nat.le_refl _) hc x

/-! ## An index in between -/

variable {mid : Nat}

theorem count_add (hlo : lo < w) (hmid : mid < w) (hhi : hi < w) (h : count w lo mid + count w mid hi < w) :
    count w lo hi = count w lo mid + count w mid hi := by
  rw [count_eq hlo hmid, count_eq hmid hhi] at *
  rw [count_eq hlo hhi]
  split_ifs at * <;> omega

theorem items_append (hdvd : n ∣ w) (hlo : lo < w) (hmid : mid < w) (hhi : hi < w)
    (h : count w lo mid + count w mid hi < w) :
    items n w slot lo hi = items n w slot lo mid ++ items n w slot mid hi := by
  rw [items, count_add hlo hmid hhi h, List.range_add, List.map_append, List.map_map, items, items]
  congr 1
  apply List.map_congr_left
  intro j _
  have hmod : (lo + (count w lo mid + j)) % n = (mid + j) % n := by
    rw [← Nat.add_assoc, Nat.add_mod, slot_hi hdvd hlo hmid, ← Nat.add_mod]
  simp only [Function.comp_apply, hmod]

theorem pred_mod (hhi : hi < w) : (hi + w - 1) % w = if hi = 0 then w - 1 else hi - 1 := by
  split
  · next h => rw [h, Nat.zero_add, Nat.mod_eq_of_lt (by omega)]
  · rw [show hi + w - 1 = hi - 1 + w by omega, Nat.add_mod_right, Nat.mod_eq_of_lt (by omega)]

theorem succ_pred_mod (hhi : hi < w) : ((hi + w - 1) % w + 1) % w = hi := by
  rw [pred_mod hhi, succ_mod (by split <;> omega)]
  split_ifs <;> omega

theorem count_unpush (hlo : lo < w) (hhi : hi < w) (hne : lo ≠ hi) :
    count w lo hi = count w lo ((hi + w - 1) % w) + 1 := by
  rw [count_eq hlo hhi, count_eq hlo (Nat.mod_lt _ (by omega)), pred_mod hhi]
  split_ifs <;> omega

theorem items_unpush (hdvd : n ∣ w) (hlo : lo < w) (hhi : hi < w) (hne : lo ≠ hi) :
    items n w slot lo hi = items n w slot lo ((hi + w - 1) % w) ++ [slot ((hi + w - 1) % w % n)] := by
  have hlt : (hi + w - 1) % w < w := Nat.mod_lt _ (by omega)
  have hcount : count w lo ((hi + w - 1) % w) + 1 < w := by
    rw [← count_unpush hlo hhi hne]
    exact Nat.mod_lt _ (by omega)
  have hpush : items n w slot lo (((hi + w - 1) % w + 1) % w) = _ := items_push hdvd hlo hlt hcount
  rwa [succ_pred_mod hhi] at hpush

/-- A queue stays, grows at its end, or shrinks at its front. -/
def Fifo (xs ys : List α) : Prop := ys = xs ∨ (∃ x, ys = xs ++ [x]) ∨ ∃ x, xs = x :: ys

end Ring
