import Mathlib.Algebra.BigOperators.Group.Finset.Piecewise
import Mathlib.Algebra.Order.BigOperators.Group.Finset
import Mathlib.Algebra.Order.Group.Multiset
import Mathlib.Tactic.Ring

/-!
# Radix trees in memory

A memory `W` gives each table `a` its words `W a 0, …, W a (B - 1)`.  A tree of
depth `d` has `d` levels of tables whose words are `0` or `link c` for the table
`c` below, and under them tables that hold the values.  `Rep W d t leaf nodes`:
the tree rooted at `t` maps each key `v < B ^ (d + 1)` to `leaf v`, and `nodes`
are its tables.

* `Rep.congr`, `Rep.leaf_congr`: a tree depends on the words of its tables only.
* `Rep.focus`: one entry of the root table can be taken out and replaced, as
  long as the other entries' tables are not touched.
* `Place`: where the word of a key is; `Rep.place_word` reads it and
  `Rep.place_write` writes it.  Different keys have different places
  (`Rep.place_inj`).
* `Rep.empty`: a table of zeros is a tree that maps nothing.
-/

namespace Radix

open Finset Function

variable {A V : Type} [Zero V] (B : Nat) (link : A → V)

def Rep (W : A → Nat → V) : Nat → A → (Nat → V) → Multiset A → Prop
  | 0, t, leaf, nodes => nodes = {t} ∧ ∀ k < B, W t k = leaf k
  | d + 1, t, leaf, nodes => ∃ sub : Nat → Multiset A, nodes = t ::ₘ ∑ i ∈ range B, sub i ∧
      ∀ i < B, (W t i = 0 ∧ sub i = 0 ∧ ∀ v < B ^ (d + 1), leaf (i * B ^ (d + 1) + v) = 0) ∨
        ∃ c, W t i = link c ∧ Rep W d c (fun v => leaf (i * B ^ (d + 1) + v)) (sub i)

/-- Entry `i` of the table `t`: empty, or the tree below with the tables `s`. -/
def Entry (W : A → Nat → V) (d : Nat) (t : A) (i : Nat) (leaf : Nat → V) (s : Multiset A) : Prop :=
  (W t i = 0 ∧ s = 0 ∧ ∀ v < B ^ (d + 1), leaf v = 0) ∨ ∃ c, W t i = link c ∧ Rep B link W d c leaf s

variable {B link}

variable {d : Nat} {W : A → Nat → V}

variable {t : A} {leaf : Nat → V} {nodes : Multiset A}

theorem Rep.root_mem (h : Rep B link W d t leaf nodes) : t ∈ nodes := by
  cases d with
  | zero => exact h.1 ▸ Multiset.mem_singleton_self t
  | succ d =>
    obtain ⟨sub, rfl, _⟩ := h
    exact Multiset.mem_cons_self _ _

theorem split_key {v : Nat} (hv : v < B ^ (d + 2)) :
    v / B ^ (d + 1) < B ∧ v / B ^ (d + 1) * B ^ (d + 1) + v % B ^ (d + 1) = v := by
  refine ⟨Nat.div_lt_of_lt_mul ?_, Nat.div_add_mod' v _⟩
  rw [← Nat.pow_succ]
  exact hv

theorem key_lt {i v : Nat} (hi : i < B) (hv : v < B ^ (d + 1)) : i * B ^ (d + 1) + v < B ^ (d + 2) := by
  calc i * B ^ (d + 1) + v < i * B ^ (d + 1) + B ^ (d + 1) := by omega
    _ = (i + 1) * B ^ (d + 1) := by ring
    _ ≤ B * B ^ (d + 1) := Nat.mul_le_mul_right _ hi
    _ = B ^ (d + 2) := by ring

theorem Rep.leaf_congr : ∀ {t : A} {leaf leaf' : Nat → V} {nodes : Multiset A},
    Rep B link W d t leaf nodes → (∀ v < B ^ (d + 1), leaf' v = leaf v) → Rep B link W d t leaf' nodes := by
  induction d with
  | zero =>
    intro t leaf leaf' nodes h hl
    refine ⟨h.1, fun k hk => ?_⟩
    rw [hl k (by simpa using hk)]
    exact h.2 k hk
  | succ d ih =>
    intro t leaf leaf' nodes h hl
    obtain ⟨sub, hn, hsub⟩ := h
    refine ⟨sub, hn, fun i hi => ?_⟩
    rcases hsub i hi with ⟨h0, hs, hz⟩ | ⟨c, hc, hr⟩
    · exact .inl ⟨h0, hs, fun v hv => (hl _ (key_lt hi hv)).trans (hz v hv)⟩
    · exact .inr ⟨c, hc, ih hr fun v hv => hl _ (key_lt hi hv)⟩

theorem Rep.congr {W' : A → Nat → V} : ∀ {t : A} {leaf : Nat → V} {nodes : Multiset A},
    Rep B link W d t leaf nodes → (∀ a ∈ nodes, ∀ k < B, W' a k = W a k) → Rep B link W' d t leaf nodes := by
  induction d with
  | zero =>
    intro t leaf nodes h hw
    exact ⟨h.1, fun k hk => (hw t h.root_mem k hk).trans (h.2 k hk)⟩
  | succ d ih =>
    intro t leaf nodes h hw
    have ht := h.root_mem
    obtain ⟨sub, rfl, hsub⟩ := h
    refine ⟨sub, rfl, fun i hi => ?_⟩
    rw [hw t ht i hi]
    rcases hsub i hi with h0 | ⟨c, hc, hr⟩
    · exact .inl h0
    · refine .inr ⟨c, hc, ih hr fun a ha => hw a (Multiset.mem_cons_of_mem ?_)⟩
      exact Multiset.mem_sum.mpr ⟨i, mem_range.mpr hi, ha⟩

/-- The `i`-th entry of a root table with its tables `s`, and how to put another entry in its
place: the rest of the tree must not change. -/
theorem Rep.focus {i : Nat} (h : Rep B link W (d + 1) t leaf nodes) (hi : i < B) :
    ∃ s rest, nodes = t ::ₘ (s + rest) ∧ Entry B link W d t i (fun v => leaf (i * B ^ (d + 1) + v)) s ∧
      ∀ {W' : A → Nat → V} {leaf' : Nat → V} {s' : Multiset A},
        (∀ k < B, k ≠ i → W' t k = W t k) → (∀ a ∈ rest, ∀ k < B, W' a k = W a k) →
        (∀ v, v / B ^ (d + 1) ≠ i → leaf' v = leaf v) →
        Entry B link W' d t i (fun v => leaf' (i * B ^ (d + 1) + v)) s' →
        Rep B link W' (d + 1) t leaf' (t ::ₘ (s' + rest)) := by
  obtain ⟨sub, rfl, hsub⟩ := h
  have hmem : i ∈ range B := mem_range.mpr hi
  refine ⟨sub i, ∑ j ∈ (range B).erase i, sub j, by rw [add_sum_erase _ _ hmem], hsub i hi, ?_⟩
  intro W' leaf' s' hroot hrest hleaf hentry
  refine ⟨update sub i s', ?_, fun j hj => ?_⟩
  · rw [← add_sum_erase _ _ hmem, update_self]
    congr 2
    exact sum_congr rfl fun j hj => (update_of_ne (ne_of_mem_erase hj) _ _).symm
  · by_cases hji : j = i
    · subst hji
      rw [update_self]
      exact hentry
    · have hkey : ∀ v < B ^ (d + 1), leaf' (j * B ^ (d + 1) + v) = leaf (j * B ^ (d + 1) + v) := by
        intro v hv
        apply hleaf
        rw [Nat.mul_comm, Nat.mul_add_div (by omega), Nat.div_eq_of_lt hv]
        exact hji
      rw [update_of_ne hji, hroot j hj hji]
      rcases hsub j hj with ⟨h0, hs, hz⟩ | ⟨c, hc, hr⟩
      · exact .inl ⟨h0, hs, fun v hv => (hkey v hv).trans (hz v hv)⟩
      · refine .inr ⟨c, hc, (hr.congr fun a ha => hrest a ?_).leaf_congr hkey⟩
        exact Multiset.mem_sum.mpr ⟨j, mem_erase.mpr ⟨hji, mem_range.mpr hj⟩, ha⟩

theorem Rep.empty (d : Nat) (h : ∀ k < B, W t k = 0) : Rep B link W d t (fun _ => 0) {t} := by
  cases d with
  | zero => exact ⟨rfl, h⟩
  | succ d => exact ⟨fun _ => 0, by simp, fun i hi => .inl ⟨h i hi, rfl, fun _ _ => rfl⟩⟩

theorem Rep.nodes_of_zero
    (hlink : ∀ c, link c ≠ 0) (h : Rep B link W (d + 1) t leaf nodes) (hz : ∀ k < B, W t k = 0) : nodes = {t} := by
  obtain ⟨sub, rfl, hsub⟩ := h
  have hs : ∀ i ∈ range B, sub i = 0 := by
    intro i hi
    rcases hsub i (mem_range.mp hi) with ⟨_, hs, _⟩ | ⟨c, hc, _⟩
    · exact hs
    · exact absurd (hc.symm.trans (hz i (mem_range.mp hi))) (hlink c)
  rw [sum_eq_zero hs]
  rfl

/-! ## The word of a key

`child` takes the link of a table of the tree back to the table. -/

variable {child : V → A}

variable (B child) in
/-- The word of key `v` is word `k` of table `a`. -/
def Place (W : A → Nat → V) : Nat → A → Nat → A → Nat → Prop
  | 0, t, v, a, k => a = t ∧ k = v
  | d + 1, t, v, a, k => W t (v / B ^ (d + 1)) ≠ 0 ∧
      Place W d (child (W t (v / B ^ (d + 1)))) (v % B ^ (d + 1)) a k

theorem Rep.place_word : ∀ {t a : A} {v k : Nat} {leaf : Nat → V} {nodes : Multiset A}, Rep B link W d t leaf nodes →
      (∀ c ∈ nodes, child (link c) = c) → v < B ^ (d + 1) → Place B child W d t v a k →
      a ∈ nodes ∧ k < B ∧ W a k = leaf v := by
  induction d with
  | zero =>
    rintro t a v k leaf nodes h - hv ⟨rfl, rfl⟩
    have hk : k < B := by simpa using hv
    exact ⟨h.root_mem, hk, h.2 k hk⟩
  | succ d ih =>
    rintro t a v k leaf nodes h hchild hv ⟨hc, hp⟩
    obtain ⟨hi, hkey⟩ := split_key hv
    obtain ⟨s, rest, rfl, hentry, -⟩ := h.focus hi
    have hs : ∀ {x}, x ∈ s → x ∈ t ::ₘ (s + rest) := fun hx =>
      Multiset.mem_cons_of_mem (Multiset.mem_add.mpr (.inl hx))
    rcases hentry with ⟨h0, -, -⟩ | ⟨c, hlink, hr⟩
    · exact absurd h0 hc
    · rw [hlink, hchild c (hs hr.root_mem)] at hp
      have hpos : 0 < B ^ (d + 1) := Nat.pow_pos (Nat.zero_lt_of_lt hi)
      obtain ⟨ha, hk, hw⟩ := ih hr (fun c hc => hchild c (hs hc)) (Nat.mod_lt _ hpos) hp
      exact ⟨hs ha, hk, hw.trans (congrArg leaf hkey)⟩

theorem Rep.place_inj :
    ∀ {t a : A} {v w k : Nat} {leaf : Nat → V} {nodes : Multiset A}, Rep B link W d t leaf nodes → nodes.Nodup →
      (∀ c ∈ nodes, child (link c) = c) → v < B ^ (d + 1) → w < B ^ (d + 1) → Place B child W d t v a k →
      Place B child W d t w a k → v = w := by
  induction d with
  | zero =>
    rintro t a v w k leaf nodes - - - - - ⟨-, rfl⟩ ⟨-, hw⟩
    exact hw
  | succ d ih =>
    rintro t a v w k leaf nodes ⟨sub, rfl, hsub⟩ hnd hchild hv hw ⟨hcv, hpv⟩ ⟨hcw, hpw⟩
    have hsum := (Multiset.nodup_cons.mp hnd).2
    have hmem : ∀ {i x}, i < B → x ∈ sub i → x ∈ t ::ₘ ∑ j ∈ range B, sub j := fun hi hx =>
      Multiset.mem_cons_of_mem (Multiset.mem_sum.mpr ⟨_, mem_range.mpr hi, hx⟩)
    have hpos : ∀ {i}, i < B → 0 < B ^ (d + 1) := fun hi => Nat.pow_pos (Nat.zero_lt_of_lt hi)
    -- the entry of a key leads to a tree below it, in which its place is
    have hbelow : ∀ u, u < B ^ (d + 2) → W t (u / B ^ (d + 1)) ≠ 0 →
        Place B child W d (child (W t (u / B ^ (d + 1)))) (u % B ^ (d + 1)) a k →
        ∃ c, Rep B link W d c (fun x => leaf (u / B ^ (d + 1) * B ^ (d + 1) + x)) (sub (u / B ^ (d + 1))) ∧
          W t (u / B ^ (d + 1)) = link c ∧ child (link c) = c ∧ a ∈ sub (u / B ^ (d + 1)) := by
      intro u hu hc hp
      obtain ⟨hi, -⟩ := split_key hu
      rcases hsub _ hi with ⟨h0, -, -⟩ | ⟨c, hlink, hr⟩
      · exact absurd h0 hc
      · have hcc := hchild c (hmem hi hr.root_mem)
        rw [hlink, hcc] at hp
        exact ⟨c, hr, hlink, hcc, (hr.place_word (fun x hx => hchild x (hmem hi hx)) (Nat.mod_lt _ (hpos hi)) hp).1⟩
    obtain ⟨hiv, hkv⟩ := split_key hv
    obtain ⟨hiw, hkw⟩ := split_key hw
    obtain ⟨c, hr, hlink, hcc, hav⟩ := hbelow v hv hcv hpv
    obtain ⟨-, -, -, -, haw⟩ := hbelow w hw hcw hpw
    have hidx : v / B ^ (d + 1) = w / B ^ (d + 1) := by
      by_contra hne
      rw [← add_sum_erase _ _ (mem_range.mpr hiv)] at hsum
      refine Multiset.disjoint_left.mp (Multiset.nodup_add.mp hsum).2.2 hav ?_
      exact Multiset.mem_sum.mpr ⟨_, mem_erase.mpr ⟨Ne.symm hne, mem_range.mpr hiw⟩, haw⟩
    rw [← hidx, hlink, hcc] at hpw
    rw [hlink, hcc] at hpv
    have hnds : (sub (v / B ^ (d + 1))).Nodup := by
      rw [← add_sum_erase _ _ (mem_range.mpr hiv)] at hsum
      exact (Multiset.nodup_add.mp hsum).1
    have hmod := ih hr hnds (fun x hx => hchild x (hmem hiv hx)) (Nat.mod_lt _ (hpos hiv))
      (Nat.mod_lt _ (hpos hiv)) hpv hpw
    rw [← hkv, ← hkw, hidx, hmod]

/-- Writing the word of `v` changes the value of `v` and nothing else. -/
theorem Rep.place_write {W' : A → Nat → V} :
    ∀ {t a : A} {v k : Nat} {leaf : Nat → V} {nodes : Multiset A}, Rep B link W d t leaf nodes → nodes.Nodup →
      (∀ c ∈ nodes, child (link c) = c) → v < B ^ (d + 1) → Place B child W d t v a k →
      (∀ a' ∈ nodes, ∀ k' < B, ¬(a' = a ∧ k' = k) → W' a' k' = W a' k') →
      Rep B link W' d t (update leaf v (W' a k)) nodes := by
  induction d with
  | zero =>
    rintro t a v k leaf nodes h - - hv ⟨rfl, rfl⟩ hw
    refine ⟨h.1, fun k' hk' => ?_⟩
    by_cases hkk : k' = k
    · subst hkk
      rw [update_self]
    · rw [update_of_ne hkk, hw a h.root_mem k' hk' fun hc => hkk hc.2]
      exact h.2 k' hk'
  | succ d ih =>
    rintro t a v k leaf nodes h hnd hchild hv ⟨hc, hp⟩ hw
    obtain ⟨hi, hkey⟩ := split_key hv
    obtain ⟨s, rest, rfl, hentry, hput⟩ := h.focus hi
    obtain ⟨hts, hsr⟩ := Multiset.nodup_cons.mp hnd
    obtain ⟨hnds, -, hdisj⟩ := Multiset.nodup_add.mp hsr
    have hs : ∀ {x}, x ∈ s → x ∈ t ::ₘ (s + rest) := fun hx =>
      Multiset.mem_cons_of_mem (Multiset.mem_add.mpr (.inl hx))
    rcases hentry with ⟨h0, -, -⟩ | ⟨c, hlink, hr⟩
    · exact absurd h0 hc
    rw [hlink, hchild c (hs hr.root_mem)] at hp
    have hpos : 0 < B ^ (d + 1) := Nat.pow_pos (Nat.zero_lt_of_lt hi)
    obtain ⟨ha, -, -⟩ := hr.place_word (fun c hc => hchild c (hs hc)) (Nat.mod_lt _ hpos) hp
    have hat : t ≠ a := fun hc => hts (hc ▸ Multiset.mem_add.mpr (.inl ha))
    have hroot : ∀ k' < B, W' t k' = W t k' := fun k' hk' =>
      hw t (Multiset.mem_cons_self _ _) k' hk' fun hc => hat hc.1
    have hsub := ih hr hnds (fun c hc => hchild c (hs hc)) (Nat.mod_lt _ hpos) hp fun a' ha' => hw a' (hs ha')
    refine hput (fun k' hk' _ => hroot k' hk') (fun a' ha' k' hk' => ?_) (fun w hvw => ?_) ?_
    · refine hw a' (Multiset.mem_cons_of_mem (Multiset.mem_add.mpr (.inr ha'))) k' hk' fun hc => ?_
      exact Multiset.disjoint_left.mp hdisj ha (hc.1 ▸ ha')
    · exact update_of_ne (fun hc => hvw (by rw [hc])) _ _
    · refine .inr ⟨c, (hroot _ hi).trans hlink, hsub.leaf_congr fun w hw' => ?_⟩
      -- inside the segment of entry `v / B ^ (d + 1)`, the key `v` is `v % B ^ (d + 1)`
      by_cases hwv : w = v % B ^ (d + 1)
      · rw [hwv, update_self, hkey, update_self]
      · rw [update_of_ne hwv, update_of_ne]
        intro hc
        apply hwv
        omega

end Radix
