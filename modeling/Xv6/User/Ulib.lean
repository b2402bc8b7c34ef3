import Xv6.Lib.Bytes

/-!
# The two `memmove`s

`kernel/string.c` and `user/ulib.c` each have a `memmove` that copies bytes in
place, upwards or downwards.  They choose the direction by different tests;
both are a copy of the old source bytes (`memmove_copies`).  Addresses are 64
bits wide: the pointer past a range that ends the address space is 0.
-/

namespace Xv6.Ulib

open Function (update update_self update_of_ne)
open Bytes (Mem)

/-- `p + n` for a pointer `p`. -/
def plus (p : Nat) (n : Int) : Nat := ((p + n) % 2 ^ 64).toNat

/-- `while(n-- > 0) *d++ = *s++;` -/
def copyUp (m : Mem) (d s : Nat) : Nat → Mem
  | 0 => m
  | n + 1 => copyUp (update m d (m s)) (plus d 1) (plus s 1) n

/-- `while(n-- > 0) *--d = *--s;` -/
def copyDown (m : Mem) (d s : Nat) : Nat → Mem
  | 0 => m
  | n + 1 => copyDown (update m (plus d (-1)) (m (plus s (-1)))) (plus d (-1)) (plus s (-1)) n

/-- The `memmove` of `kernel/string.c`: the pointer it returns and the memory it leaves. -/
def kernelMemmove (m : Mem) (dst src : Nat) (n : UInt32) : Nat × Mem :=
  if n = 0 then (dst, m)
  else if src < dst ∧ plus src n.toNat > dst then
    (dst, copyDown m (plus dst n.toNat) (plus src n.toNat) n.toNat)
  else (dst, copyUp m dst src n.toNat)

def memmove (m : Mem) (vdst vsrc : Nat) (n : Int32) : Nat × Mem :=
  if vsrc > vdst then (vdst, copyUp m vdst vsrc n.toInt.toNat)
  else (vdst, copyDown m (plus vdst n.toInt) (plus vsrc n.toInt) n.toInt.toNat)

/-- `m'` is `m` with the `n` bytes at `dst` replaced by what `m` has at `src`. -/
structure Moved (m m' : Mem) (dst src n : Nat) : Prop where
  copied : ∀ i, i < n → m' (dst + i) = m (src + i)
  kept : ∀ a, (a < dst ∨ dst + n ≤ a) → m' a = m a

theorem plus_natCast (p n : Nat) : plus p n = (p + n) % 2 ^ 64 := by
  unfold plus
  omega

theorem plus_one (p : Nat) : plus p 1 = (p + 1) % 2 ^ 64 := plus_natCast p 1

theorem copyUp_moved {m : Mem} {d s n : Nat} (hs : s + n ≤ 2 ^ 64) (hd : d + n ≤ 2 ^ 64)
    (h : d ≤ s ∨ s + n ≤ d) : Moved m (copyUp m d s n) d s n := by
  induction n generalizing m d s with
  | zero => exact ⟨fun i hi => absurd hi (Nat.not_lt_zero i), fun _ _ => rfl⟩
  | succ n ih =>
    rw [copyUp, plus_one, plus_one]
    have hrest := @ih (update m d (m s)) ((d + 1) % 2 ^ 64) ((s + 1) % 2 ^ 64) (by omega) (by omega) (by omega)
    constructor
    · intro i hi
      by_cases h0 : i = 0
      · rw [h0, hrest.kept _ (by omega), Nat.add_zero, update_self, Nat.add_zero]
      · have hc := hrest.copied (i - 1) (by omega)
        rw [show (d + 1) % 2 ^ 64 + (i - 1) = d + i by omega, show (s + 1) % 2 ^ 64 + (i - 1) = s + i by omega,
          update_of_ne (by omega)] at hc
        exact hc
    · intro a ha
      rw [hrest.kept a (by omega), update_of_ne (by omega)]

theorem copyDown_moved {m : Mem} {d s n : Nat} (hs : s + n ≤ 2 ^ 64) (hd : d + n ≤ 2 ^ 64)
    (h : s ≤ d ∨ d + n ≤ s) : Moved m (copyDown m ((d + n) % 2 ^ 64) ((s + n) % 2 ^ 64) n) d s n := by
  induction n generalizing m with
  | zero => exact ⟨fun i hi => absurd hi (Nat.not_lt_zero i), fun _ _ => rfl⟩
  | succ n ih =>
    have hback : ∀ p, p + (n + 1) ≤ 2 ^ 64 → plus ((p + (n + 1)) % 2 ^ 64) (-1) = (p + n) % 2 ^ 64 := by
      intro p hp
      unfold plus
      omega
    rw [copyDown, hback d hd, hback s hs]
    have hrest := @ih (update m ((d + n) % 2 ^ 64) (m ((s + n) % 2 ^ 64))) (by omega) (by omega) (by omega)
    constructor
    · intro i hi
      by_cases hn : i = n
      · rw [hn, hrest.kept _ (Or.inr le_rfl), Nat.mod_eq_of_lt (by omega), Nat.mod_eq_of_lt (by omega), update_self]
      · rw [hrest.copied i (by omega), update_of_ne (by omega)]
    · intro a ha
      rw [hrest.kept a (by omega), update_of_ne (by omega)]

/-- Both `memmove`s return `dst` and leave there the bytes the source had, and nothing else changed. -/
theorem memmove_copies (m : Mem) (dst src n : Nat) (hn : n < 2 ^ 31) (hs : src + n ≤ 2 ^ 64) (hd : dst + n ≤ 2 ^ 64) :
    (∃ m', kernelMemmove m dst src (UInt32.ofNat n) = (dst, m') ∧ Moved m m' dst src n) ∧
    ∃ m', memmove m dst src (Int32.ofNat n) = (dst, m') ∧ Moved m m' dst src n := by
  have hk : (UInt32.ofNat n).toNat = n := UInt32.toNat_ofNat_of_lt' (Nat.lt_trans hn (by decide))
  have hu : (Int32.ofNat n).toInt = n := Int32.toInt_ofNat_of_lt hn
  constructor
  · unfold kernelMemmove
    rw [hk, plus_natCast, plus_natCast]
    split
    · next h0 =>
      have hz : n = 0 := by rw [← hk, h0]; rfl
      subst hz
      exact ⟨m, rfl, fun i hi => absurd hi (Nat.not_lt_zero i), fun _ _ => rfl⟩
    split
    · next hlt => exact ⟨_, rfl, copyDown_moved hs hd (Or.inl (Nat.le_of_lt hlt.1))⟩
    · exact ⟨_, rfl, copyUp_moved hs hd (by omega)⟩
  · unfold memmove
    rw [hu, plus_natCast, plus_natCast, Int.toNat_natCast]
    split
    · next hlt => exact ⟨_, rfl, copyUp_moved hs hd (Or.inl (Nat.le_of_lt hlt))⟩
    · next hge => exact ⟨_, rfl, copyDown_moved hs hd (Or.inl (Nat.not_lt.1 hge))⟩

/-- Three bytes moved up by one, over themselves. -/
theorem memmove_copies_overlap : (∃ m', kernelMemmove (fun a => UInt8.ofNat a) 5 4 (UInt32.ofNat 3) = (5, m') ∧
      Moved (fun a => UInt8.ofNat a) m' 5 4 3) ∧
    ∃ m', memmove (fun a => UInt8.ofNat a) 5 4 (Int32.ofNat 3) = (5, m') ∧
      Moved (fun a => UInt8.ofNat a) m' 5 4 3 :=
  memmove_copies _ 5 4 3 (by decide) (by decide) (by decide)

end Xv6.Ulib
