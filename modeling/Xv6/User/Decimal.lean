import Mathlib.Algebra.Group.Nat.Defs

/-!
# Decimal numbers

`printint` of `user/printf.c` and the `atoi` of `user/ulib.c` under `SNU`, which takes a
sign.  What `printint` writes for an `int` in base 10 is its canonical decimal representation
(`Canonical`), also for `INT_MIN`; `atoi` reads a number modulo `2 ^ 32`, and so gives the
`int` back (`atoi_printint`).  A string is the list of its characters; a read past its end is
`none`.
-/

namespace Xv6.Ulib

/-- The digits `'0'` to `'9'`, and `'-'`. -/
def Digit (c : UInt8) : Prop := 48 ≤ c ∧ c ≤ 57

instance (c : UInt8) : Decidable (Digit c) := inferInstanceAs (Decidable (_ ∧ _))

def minus : UInt8 := 45

/-! ## `user/printf.c` -/

/-- `"0123456789ABCDEF"`, with its NUL. -/
def digits : List UInt8 := [48, 49, 50, 51, 52, 53, 54, 55, 56, 57, 65, 66, 67, 68, 69, 70, 0]

/-- The `do` loop, with so much room left in `buf`: a write past its end is `none`. -/
def digitLoop (base : UInt32) : Nat → UInt32 → List UInt8 → Option (List UInt8)
  | 0, _, _ => none
  | room + 1, x, buf => do
    let c ← digits[(x % base).toNat]?
    if x / base ≠ 0 then digitLoop base room (x / base) (buf ++ [c]) else return buf ++ [c]

/-- `printint(fd, xx, base, sgn)`: the characters that go to `fd`. -/
def printint (xx base : Int32) (sgn : Bool) : Option (List UInt8) := do
  let neg := sgn && xx < 0
  let buf ← digitLoop base.toUInt32 16 (if neg then (-xx).toUInt32 else xx.toUInt32) []
  let buf := if neg then buf ++ [minus] else buf
  if buf.length ≤ 16 then return buf.reverse else none

/-! ## `user/ulib.c` -/

def atoiLoop (n : Int32) : List UInt8 → Option Int32
  | [] => none
  | c :: s => if Digit c then atoiLoop (n * 10 + Int32.ofNat c.toNat - 48) s else some n

def atoi (s : List UInt8) : Option Int32 :=
  if s.head? = some minus then (atoiLoop 0 s.tail).map (-1 * ·) else (atoiLoop 0 s).map (1 * ·)

/-! ## What the characters denote -/

/-- The number that is written with these digits behind those of `n`. -/
def value (n : Nat) (ds : List UInt8) : Nat := ds.foldl (fun n c => 10 * n + (c.toNat - 48)) n

/-- A sign, or none. -/
def sign (neg : Bool) : List UInt8 := if neg then [minus] else []

def denoted (neg : Bool) (ds : List UInt8) : Int := if neg then -(value 0 ds : Int) else value 0 ds

/-- The digits of `n`, and no zero in front. -/
structure Numeral (n : Nat) (ds : List UInt8) : Prop where
  digits : ∀ c ∈ ds, Digit c
  nonempty : ds ≠ []
  lead : ds.head? = some 48 → ds = [48]
  value : value 0 ds = n

/-- The decimal representation of an integer, without `-0`. -/
def Canonical (x : Int) (s : List UInt8) : Prop := ∃ ds, Numeral x.natAbs ds ∧ s = sign (x < 0) ++ ds

def char (m : Nat) : UInt8 := UInt8.ofNat (48 + m)

theorem digits_get : ∀ m < 10, digits[m]? = some (char m) ∧ Digit (char m) ∧ (char m).toNat - 48 = m := by
  decide

theorem Numeral.single {n : Nat} (h : n < 10) : Numeral n [char n] := by
  obtain ⟨-, hd, hv⟩ := digits_get n h
  refine ⟨fun c hc => List.mem_singleton.mp hc ▸ hd, nofun, fun hl => by rw [Option.some.inj hl], ?_⟩
  simp [Ulib.value, hv]

theorem Numeral.snoc {n m : Nat} {ds : List UInt8} (h : Numeral n ds) (hn : n ≠ 0) (hm : m < 10) :
    Numeral (10 * n + m) (ds ++ [char m]) := by
  obtain ⟨-, hd, hv⟩ := digits_get m hm
  refine ⟨fun c hc => ?_, by simp, fun hl => ?_, ?_⟩
  · rcases List.mem_append.mp hc with hc | hc
    · exact h.digits c hc
    · exact List.mem_singleton.mp hc ▸ hd
  · obtain ⟨d, ds, rfl⟩ := List.exists_cons_of_ne_nil h.nonempty
    have hz := h.value
    rw [h.lead hl] at hz
    exact absurd hz.symm hn
  · have hz := h.value
    simp only [Ulib.value, List.foldl_append, List.foldl_cons, List.foldl_nil] at hz ⊢
    rw [hz, hv]

theorem digitLoop_succ (room : Nat) (x : UInt32) (buf : List UInt8) : digitLoop 10 (room + 1) x buf =
    if x.toNat < 10 then some (buf ++ [char (x.toNat % 10)]) else digitLoop 10 room (x / 10)
    (buf ++ [char (x.toNat % 10)]) := by
  have hz : x / 10 = 0 ↔ x.toNat < 10 := by
    rw [← UInt32.toNat_inj, UInt32.toNat_div]
    exact Nat.div_eq_zero_iff_lt (by decide)
  rw [digitLoop, show (x % 10).toNat = x.toNat % 10 from UInt32.toNat_mod ..,
    (digits_get _ (Nat.mod_lt _ (by decide))).1]
  show (if x / 10 ≠ 0 then _ else _) = _
  simp only [ne_eq, hz, ite_not]
  rfl

theorem digitLoop_numeral {room k : Nat} {x : UInt32} (buf : List UInt8) (hx : x.toNat < 10 ^ (k + 1)) (hk : k < room) :
    ∃ ds, Numeral x.toNat ds ∧ ds.length ≤ k + 1 ∧ digitLoop 10 room x buf = some (buf ++ ds.reverse) := by
  induction room generalizing k x buf with
  | zero => cases hk
  | succ room ih =>
    rw [digitLoop_succ]
    by_cases h10 : x.toNat < 10
    · rw [if_pos h10, Nat.mod_eq_of_lt h10]
      exact ⟨_, .single h10, Nat.succ_le_succ (Nat.zero_le k), rfl⟩
    · have hdiv : (x / 10).toNat = x.toNat / 10 := UInt32.toNat_div ..
      obtain ⟨k, rfl⟩ : ∃ j, k = j + 1 := Nat.exists_eq_succ_of_ne_zero fun h0 => h10 (by rwa [h0] at hx)
      have hlt : (x / 10).toNat < 10 ^ (k + 1) := by
        rw [hdiv, Nat.pow_succ] at *
        omega
      obtain ⟨ds, hds, hlen, hloop⟩ := ih (buf ++ [char (x.toNat % 10)]) hlt (by omega)
      refine ⟨ds ++ [char (x.toNat % 10)], ?_, ?_, ?_⟩
      · have hnum := hds.snoc (by omega) (Nat.mod_lt x.toNat (by decide))
        rwa [hdiv, Nat.div_add_mod] at hnum
      · rw [List.length_append]
        exact Nat.succ_le_succ hlen
      · rw [if_neg h10, hloop, List.reverse_append, List.append_assoc]
        rfl

theorem atoiLoop_value {ds rest : List UInt8} {c : UInt8} (hds : ∀ d ∈ ds, Digit d) (hc : ¬ Digit c) (n : Nat) :
    atoiLoop (Int32.ofNat n) (ds ++ c :: rest) = some (Int32.ofNat (value n ds)) := by
  induction ds generalizing n with
  | nil => exact if_neg hc
  | cons d ds ih =>
    obtain ⟨hd, hds⟩ := List.forall_mem_cons.mp hds
    have hstep : Int32.ofNat n * 10 + Int32.ofNat d.toNat - 48 = Int32.ofNat (10 * n + (d.toNat - 48)) := by
      obtain ⟨m, hm⟩ : ∃ m, d.toNat = 48 + m := Nat.exists_eq_add_of_le (UInt8.le_iff_toNat_le.mp hd.1)
      rw [hm, Nat.add_sub_cancel_left, Int32.ofNat_add, Int32.ofNat_add, Int32.ofNat_mul]
      grind
    rw [List.cons_append, atoiLoop, if_pos hd, hstep, ih hds]
    rfl

theorem atoi_denoted {neg : Bool} {ds rest : List UInt8} {c : UInt8} (hds : ∀ d ∈ ds, Digit d) (hc : ¬ Digit c)
    (h : neg = true ∨ ds ≠ [] ∨ c ≠ minus) :
    atoi (sign neg ++ ds ++ c :: rest) = some (Int32.ofInt (denoted neg ds)) := by
  have hloop : atoiLoop 0 (ds ++ c :: rest) = some (Int32.ofNat (value 0 ds)) := atoiLoop_value hds hc 0
  cases neg with
  | true =>
    show (atoiLoop 0 (ds ++ c :: rest)).map (-1 * ·) = _
    rw [hloop, denoted, if_pos rfl, Int32.ofInt_neg, Int32.ofInt_eq_ofNat, Option.map_some, Int32.neg_mul,
      Int32.one_mul]
  | false =>
    have hhead : (ds ++ c :: rest).head? ≠ some minus := by
      cases ds with
      | nil => simpa using h
      | cons d ds =>
        intro hm
        have hd := hds d List.mem_cons_self
        rw [Option.some.inj hm] at hd
        exact absurd hd (by decide)
    rw [sign, if_neg nofun, List.nil_append, atoi, if_neg hhead, hloop, denoted, if_neg nofun, Int32.ofInt_eq_ofNat,
      Option.map_some, Int32.one_mul]

theorem toNat_abs (x : Int32) : (if x < 0 then (-x).toUInt32 else x.toUInt32).toNat = x.toInt.natAbs := by
  have hint : x.toInt = _ := BitVec.toInt_eq_toNat_cond x.toBitVec
  have hneg : (-x).toUInt32.toNat = (2 ^ 32 - x.toUInt32.toNat) % 2 ^ 32 := BitVec.toNat_neg x.toBitVec
  have hu : x.toUInt32.toNat = x.toBitVec.toNat := rfl
  have hlt := x.toBitVec.isLt
  simp only [Int32.lt_iff_toInt_lt, Int32.toInt_zero]
  split at hint <;> split <;> omega

/-- `printint(fd, x, 10, 1)` does not write past `buf`, and writes the decimal representation of `x`. -/
theorem printint_canonical (x : Int32) : ∃ s, printint x 10 true = some s ∧ s.length ≤ 16 ∧ Canonical x.toInt s := by
  have hlt : (if x < 0 then (-x).toUInt32 else x.toUInt32).toNat < 10 ^ (9 + 1) := by
    rw [toNat_abs]
    have hmin := x.le_toInt
    have hmax := x.toInt_lt
    omega
  obtain ⟨ds, hds, hlen, hloop⟩ := @digitLoop_numeral 16 9 _ [] hlt (by decide)
  rw [toNat_abs] at hds
  have hfits : (sign (x.toInt < 0) ++ ds).length ≤ 16 := by
    rw [List.length_append]
    unfold sign
    split <;> simp <;> omega
  have hbuf : (if x < 0 then [] ++ ds.reverse ++ [minus] else [] ++ ds.reverse) =
    (sign (x.toInt < 0) ++ ds).reverse := by
    simp only [sign, Int32.lt_iff_toInt_lt, Int32.toInt_zero, decide_eq_true_eq]
    split <;> simp
  refine ⟨sign (x.toInt < 0) ++ ds, ?_, hfits, ds, hds, rfl⟩
  simp only [printint, Bool.true_and, decide_eq_true_eq, show Int32.toUInt32 10 = 10 from rfl, hloop,
    Option.bind_eq_bind,
    Option.bind_some, hbuf, List.length_reverse, hfits, if_true, List.reverse_reverse]
  rfl

/-- **`atoi` undoes `%d`**, and reads a number modulo `2 ^ 32`. -/
theorem atoi_printint : (∀ x : Int32, ∃ s, printint x 10 true = some s ∧ s.length ≤ 16 ∧ Canonical x.toInt s ∧
      ∀ c rest, ¬ Digit c → atoi (s ++ c :: rest) = some x) ∧
    ∀ (neg : Bool) (ds : List UInt8) (c : UInt8) (rest : List UInt8), (∀ d ∈ ds, Digit d) → ¬ Digit c →
      (neg = true ∨ ds ≠ [] ∨ c ≠ minus) → atoi (sign neg ++ ds ++ c :: rest) =
      some (Int32.ofInt (denoted neg ds)) := by
  refine ⟨fun x => ?_, fun neg ds c rest hds hc h => atoi_denoted hds hc h⟩
  obtain ⟨s, hs, hlen, hcan⟩ := printint_canonical x
  refine ⟨s, hs, hlen, hcan, fun c rest hc => ?_⟩
  obtain ⟨ds, hds, rfl⟩ := hcan
  rw [atoi_denoted hds.digits hc (.inr (.inl hds.nonempty))]
  have hx : denoted (x.toInt < 0) ds = x.toInt := by
    simp only [denoted, hds.value, decide_eq_true_eq]
    split <;> omega
  rw [hx, Int32.ofInt_toInt]

/-- `INT_MIN` is written with its sign and ten digits, and read back; `"42x"` denotes 42. -/
theorem atoi_printint_min : printint Int32.minValue 10 true = some [45, 50, 49, 52, 55, 52, 56, 51, 54, 52, 56] ∧
    atoi [45, 50, 49, 52, 55, 52, 56, 51, 54, 52, 56, 0] = some Int32.minValue ∧ atoi [52, 50, 120] = some 42 := by
  obtain ⟨s, hs, -, -, hread⟩ := atoi_printint.1 Int32.minValue
  have hmin : printint Int32.minValue 10 true = some [45, 50, 49, 52, 55, 52, 56, 51, 54, 52, 56] := by decide +kernel
  obtain rfl := Option.some.inj (hs.symm.trans hmin)
  exact ⟨hmin, hread 0 [] (by decide), atoi_printint.2 false [52, 50] 120 [] (by simp [Digit]) (by decide)
    (.inr (.inl nofun))⟩

end Xv6.Ulib
