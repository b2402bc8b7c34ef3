import Mathlib.Logic.Function.Basic
import Mathlib.Tactic.Ring

/-!
# Little-endian fields in byte memories

A byte memory is a function from offsets to bytes.  `getLE m off k` reads a
`k`-byte little-endian number, `putLE m off k v` stores one (modulo `256 ^ k`).
A field reads back what was stored in it (`getLE_putLE`), and a store changes
no byte outside its field (`putLE_of_outside`), so disjoint fields do not
interfere (`getLE_putLE_disjoint`).
-/

namespace Bytes

/-- A byte memory: only the offsets of the object it stands for are ever used. -/
abbrev Mem := Nat → UInt8

/-- The `k`-byte little-endian number at `off`. -/
def getLE (m : Mem) (off : Nat) : Nat → Nat
  | 0 => 0
  | k + 1 => (m off).toNat + 256 * getLE m (off + 1) k

/-- Store the low `k` bytes of `v` at `off`, low byte first. -/
def putLE (m : Mem) (off : Nat) : Nat → Nat → Mem
  | 0, _ => m
  | k + 1, v => putLE (Function.update m off (UInt8.ofNat v)) (off + 1) k (v / 256)

theorem getLE_lt (m : Mem) (off k : Nat) : getLE m off k < 256 ^ k := by
  induction k generalizing off with
  | zero => simp [getLE]
  | succ k ih =>
    have h1 := ih (off + 1)
    have h2 := (m off).toNat_lt
    rw [getLE, Nat.pow_succ]
    omega

theorem getLE_zero (off k : Nat) : getLE (fun _ => 0) off k = 0 := by
  induction k generalizing off with
  | zero => rfl
  | succ k ih => rw [getLE, ih, UInt8.toNat_zero, Nat.mul_zero]

theorem getLE_congr {m m' : Mem} {off k : Nat}
    (h : ∀ i, off ≤ i → i < off + k → m i = m' i) : getLE m off k = getLE m' off k := by
  induction k generalizing off with
  | zero => rfl
  | succ k ih =>
    rw [getLE, getLE, h off (Nat.le_refl _) (by omega),
      ih fun i h1 h2 => h i (by omega) (by omega)]

theorem putLE_of_outside (m : Mem) (off k v i : Nat) (h : i < off ∨ off + k ≤ i) : putLE m off k v i = m i := by
  induction k generalizing m off v with
  | zero => rfl
  | succ k ih =>
    rw [putLE, ih _ _ _ (by omega)]
    exact Function.update_of_ne (by omega) _ _

theorem getLE_putLE (m : Mem) (off k v : Nat) : getLE (putLE m off k v) off k = v % 256 ^ k := by
  induction k generalizing m off v with
  | zero => simp [getLE, Nat.mod_one]
  | succ k ih =>
    have hb : (UInt8.ofNat v).toNat = v % 256 := by simp
    rw [getLE, putLE, ih, putLE_of_outside _ _ _ _ _ (by omega), Function.update_self, hb,
      Nat.pow_succ, Nat.mul_comm (256 ^ k) 256, Nat.mod_mul]

theorem getLE_putLE_of_lt (m : Mem) (off k v : Nat) (hv : v < 256 ^ k) : getLE (putLE m off k v) off k = v := by
  rw [getLE_putLE, Nat.mod_eq_of_lt hv]

theorem getLE_putLE_disjoint (m : Mem) (off k v off' k' : Nat) (h : off' + k' ≤ off ∨ off + k ≤ off') :
    getLE (putLE m off k v) off' k' = getLE m off' k' := by
  apply getLE_congr
  intro i h1 h2
  exact putLE_of_outside _ _ _ _ _ (by omega)

/-! ## Records -/

/-- Store the fields `(offset, width, value)` of a record at `base`, one after the other. -/
def putFields (m : Mem) (base : Nat) : List (Nat × Nat × Nat) → Mem
  | [] => m
  | (off, k, v) :: fs => putFields (putLE m (base + off) k v) base fs

/-- Two fields that share no byte. -/
def Apart (f g : Nat × Nat) : Prop := f.1 + f.2 ≤ g.1 ∨ g.1 + g.2 ≤ f.1

instance (f g : Nat × Nat) : Decidable (Apart f g) := inferInstanceAs (Decidable (_ ∨ _))

variable {base : Nat} {fs : List (Nat × Nat × Nat)}

theorem putFields_of_outside {i : Nat} :
    ∀ (m : Mem), (∀ f ∈ fs, i < base + f.1 ∨ base + f.1 + f.2.1 ≤ i) → putFields m base fs i = m i := by
  induction fs with
  | nil => intro m _; rfl
  | cons f fs ih =>
    intro m h
    obtain ⟨off, k, v⟩ := f
    rw [putFields, ih _ fun g hg => h g (List.mem_cons_of_mem _ hg)]
    exact putLE_of_outside _ _ _ _ _ (h _ List.mem_cons_self)

theorem getLE_putFields_of_apart {off k : Nat} (m : Mem) (h : ∀ f ∈ fs, Apart (off, k) (f.1, f.2.1)) :
    getLE (putFields m base fs) (base + off) k = getLE m (base + off) k := by
  apply getLE_congr
  intro i h1 h2
  apply putFields_of_outside
  intro f hf
  rcases h f hf with hl | hr
  · left
    simp only at hl
    omega
  · right
    simp only at hr
    omega

theorem getLE_putFields :
    ∀ (m : Mem), fs.Pairwise (fun f g => Apart (f.1, f.2.1) (g.1, g.2.1)) → ∀ off k v, (off, k, v) ∈ fs →
      getLE (putFields m base fs) (base + off) k = v % 256 ^ k := by
  induction fs with
  | nil => intro m _ off k v h; cases h
  | cons f fs ih =>
    intro m hp off k v hmem
    obtain ⟨off', k', v'⟩ := f
    obtain ⟨h1, h2⟩ := List.pairwise_cons.mp hp
    rw [putFields]
    rcases List.mem_cons.mp hmem with he | hmem
    · injection he with ho he
      injection he with hk hv
      subst ho hk hv
      rw [getLE_putFields_of_apart _ h1, getLE_putLE]
    · exact ih _ h2 off k v hmem

end Bytes
