import Xv6.Vm.Copy

/-!
# The page table as a finite map

`Table m t map nodes`: the page table at `t`, of the pages `nodes`, maps the
virtual page `v` to the physical page and the flags `map v`.  `walk`, `mappages`
and `uvmunmap` are the operations of such a map:

    walk with alloc   map               (Table.walk_alloc)
    mappages          mapped map …      (Table.mappages)
    uvmunmap          removed map …     (Table.uvmunmap)

whatever `kalloc` returns.  `mappages` and `uvmunmap` compute the end of their
range in 64 bits; the theorems are about ranges that do not wrap.
-/

namespace Xv6.Vm

open Total Function

/-! ## Maps -/

/-- What an entry maps its page to: a physical page and flags. -/
def entry (pte : Nat) : Option (Nat × Nat) := if pte &&& PTE_V = 0 then none else some (PTE2PA pte, PTE_FLAGS pte)

/-- The map of a table with the entries `leaf`. -/
def readMap (leaf : Nat → Nat) (v : Nat) : Option (Nat × Nat) := if v * PGSIZE < MAXVA then entry (leaf v) else none

/-- `n` pages from `v0` on are mapped to the pages of the addresses `pa, pa + PGSIZE, …`. -/
def mapped (map : Nat → Option (Nat × Nat)) (v0 n pa perm : Nat) (v : Nat) : Option (Nat × Nat) :=
  if v0 ≤ v ∧ v < v0 + n then some (PGROUNDDOWN ((pa + (v - v0) * PGSIZE) % 2 ^ 64), perm ||| PTE_V) else map v

/-- `n` pages from `v0` on are not mapped any more. -/
def removed (map : Nat → Option (Nat × Nat)) (v0 n : Nat) (v : Nat) : Option (Nat × Nat) :=
  if v0 ≤ v ∧ v < v0 + n then none else map v

/-- The physical pages of `n` virtual pages from `v0` on. -/
def mapFrames (map : Nat → Option (Nat × Nat)) (v0 n : Nat) : Multiset Nat :=
  (List.range' v0 n).map fun v => ((map v).getD (0, 0)).1

theorem entry_zero : entry 0 = none := rfl

theorem entry_mkPte {pa perm : Nat} (hpa : pa < 2 ^ 64) (hperm : perm < 1024) :
    entry (mkPte pa perm) = some (PGROUNDDOWN pa, perm ||| PTE_V) := by
  have hp := perm_lt hperm
  have hpage : PTE2PA (mkPte pa perm) = PGROUNDDOWN pa := by
    rw [PTE2PA_eq, mkPte_eq hperm, PGROUNDDOWN, PGSIZE]
    omega
  rw [entry, if_neg (mkPte_valid pa perm), hpage, PTE_FLAGS_mkPte hperm]

theorem readMap_update {leaf : Nat → Nat} {v : Nat} (hv : v * PGSIZE < MAXVA) (pte : Nat) :
    readMap (update leaf v pte) = update (readMap leaf) v (entry pte) := by
  funext w
  by_cases hw : w = v
  · subst hw
    rw [readMap, if_pos hv, update_self, update_self]
  · rw [readMap, update_of_ne hw, update_of_ne hw, readMap]

theorem mapped_zero (map : Nat → Option (Nat × Nat)) (v0 pa perm : Nat) : mapped map v0 0 pa perm = map := by
  funext v
  exact if_neg (by omega)

theorem mapped_succ {pa : Nat} (hpa : pa < 2 ^ 64) (map : Nat → Option (Nat × Nat)) (v0 n perm : Nat) :
    mapped (update map v0 (some (PGROUNDDOWN pa, perm ||| PTE_V))) (v0 + 1) n ((pa + PGSIZE) % 2 ^ 64) perm =
      mapped map v0 (n + 1) pa perm := by
  funext v
  unfold mapped
  by_cases hv : v = v0
  · subst hv
    rw [if_neg (by omega), if_pos (by omega), update_self, Nat.sub_self, Nat.zero_mul, Nat.add_zero,
      Nat.mod_eq_of_lt hpa]
  · rw [update_of_ne hv]
    by_cases hr : v0 + 1 ≤ v ∧ v < v0 + 1 + n
    · have hsplit : pa + PGSIZE + (v - (v0 + 1)) * PGSIZE = pa + (v - v0) * PGSIZE := by
        rw [show v - v0 = v - (v0 + 1) + 1 by omega, Nat.add_mul]
        omega
      rw [if_pos hr, if_pos (by omega), Nat.mod_add_mod, hsplit]
    · rw [if_neg hr, if_neg (by omega)]

theorem removed_unmapped (leaf : Nat → Nat) (lo n : Nat) :
    readMap (unmapped leaf lo n) = removed (readMap leaf) lo n := by
  funext v
  unfold readMap removed unmapped
  by_cases hr : lo ≤ v ∧ v < lo + n
  · rw [if_pos hr, if_pos hr, entry_zero, ite_self]
  · rw [if_neg hr, if_neg hr]

theorem walk_panics {t va : Nat} {alloc : Bool} (h : MAXVA ≤ va) (m : Mem) : walk t va alloc m = .error .walk := by
  rw [walk, if_pos h]
  rfl

variable {m : Mem} {nodes : Multiset Nat} {map : Nat → Option (Nat × Nat)}

section
variable [Symbols]

/-! ## Tables -/

/-- The page table at `t` is the map `map`; its pages `nodes` are different pages of the allocator, each reached
by one path. -/
structure Table (m : Mem) (t : Nat) (map : Nat → Option (Nat × Nat)) (nodes : Multiset Nat) : Prop where
  ram : Ram m nodes
  tree : ∃ leaf, Tree m 2 t leaf nodes ∧ map = readMap leaf

theorem frames_of_map {leaf : Nat → Nat} {lo n : Nat}
    (h : Ram m (nodes + mapFrames (readMap leaf) lo n)) : mapFrames (readMap leaf) lo n = frames leaf lo n := by
  unfold mapFrames frames
  refine congrArg _ (List.map_congr_left fun v hv => ?_)
  have hpage := h.own_isPage (Multiset.mem_add.mpr (.inr (List.mem_map.mpr ⟨v, hv, rfl⟩)))
  unfold readMap entry at hpage ⊢
  split at hpage
  · split at hpage
    · exact absurd hpage.pos (by decide)
    · rename_i h1 h2
      rw [if_pos h1, if_neg h2]
      rfl
  · exact absurd hpage.pos (by decide)

theorem Table.walk_reads {t va : Nat} (h : Table m t map nodes) (hva : va < MAXVA) : Ok (walk t va false) m fun r m' =>
      m' = m ∧ map (va / PGSIZE) = r.bind fun x => entry (word m x.1 x.2) := by
  obtain ⟨leaf, ht, rfl⟩ := h.tree
  have hin : va / PGSIZE * PGSIZE < MAXVA := Nat.lt_of_le_of_lt (Nat.div_mul_le_self va PGSIZE) hva
  refine (walk_find ht h.ram hva).mono ?_
  rintro r m' ⟨rfl, hres⟩
  refine ⟨rfl, ?_⟩
  rw [readMap, if_pos hin]
  rcases hres with ⟨rfl, hz⟩ | ⟨a, k, rfl, hslot⟩
  · rw [hz]
    rfl
  · exact congrArg entry hslot.word_eq.symm

theorem Table.walk_inj {t va va' : Nat}
    (h : Table m t map nodes) (hva : va < MAXVA) (hva' : va' < MAXVA) {x : Nat × Nat}
    (hw : walk t va false m = .ok (some x, m)) (hw' : walk t va' false m = .ok (some x, m)) :
    va / PGSIZE = va' / PGSIZE := by
  obtain ⟨leaf, ht, -⟩ := h.tree
  have hplace : ∀ u, u < MAXVA → walk t u false m = .ok (some x, m) →
      Radix.Place 512 PTE2PA (word m) 2 t (u / 4096 % 512 ^ 3) x.1 x.2 := by
    intro u hu hrun
    rw [walk, if_neg (by omega)] at hrun
    obtain ⟨-, ⟨hn, -⟩ | ⟨a, ha, hp⟩⟩ := (walkLoop_find 2 ht fun c hc => h.ram.own_isPage hc).result hrun
    · cases hn
    · cases ha
      exact hp
  rw [← vpn_mod hva, ← vpn_mod hva']
  exact Radix.Rep.place_inj ht h.ram.own_nodup (fun c hc => PTE2PA_link (h.ram.own_isPage hc)) (key_lt 3 va)
    (key_lt 3 va') (hplace va hva hw) (hplace va' hva' hw')

theorem Table.walk_alloc {t : Nat}
    (h : Table m t map nodes) (va : Nat) : After (walk t va true) m fun r m' => va < MAXVA ∧ ∃ nodes',
      Table m' t map nodes' ∧ (r = none ∨ ∃ a k, r = some (a, k) ∧ (entry (word m' a k) = map (va / PGSIZE)) ∧
        ∀ pte < 2 ^ 64, Table (m'.setPte a k pte) t (update map (va / PGSIZE) (entry pte)) nodes') := by
  obtain ⟨leaf, ht, rfl⟩ := h.tree
  by_cases hva : MAXVA ≤ va
  · exact After.of_error (walk_panics hva m)
  have hlt : va < MAXVA := Nat.lt_of_not_le hva
  have hin : va / PGSIZE * PGSIZE < MAXVA := Nat.lt_of_le_of_lt (Nat.div_mul_le_self va PGSIZE) hlt
  refine ((Vm.walk_alloc ht h.ram hlt).mono ?_).after
  rintro r m' ⟨nodes', ht', hf, hres⟩
  have hram := hf.ram h.ram
  refine ⟨hlt, nodes', ⟨hram, leaf, ht', rfl⟩, hres.imp_right ?_⟩
  rintro ⟨a, k, rfl, hslot⟩
  refine ⟨a, k, rfl, ?_, fun pte hpte => ⟨?_, _, hslot.write pte hpte, ?_⟩⟩
  · rw [hslot.word_eq, readMap, if_pos hin]
  · exact (Frame.setPte hslot.mem k pte).ram hram
  · exact (readMap_update hin pte).symm

/-! ## `mappages` -/

theorem mapLoop_after {t last perm : Nat} (hperm : perm < 1024) (fuel : Nat) : ∀ {m : Mem} {v0 n pa : Nat}
    {map : Nat → Option (Nat × Nat)} {nodes : Multiset Nat}, Table m t map nodes → last = (v0 + n) * PGSIZE →
    last < 2 ^ 64 → pa < 2 ^ 64 → After (mapLoop t last perm fuel (v0 * PGSIZE) pa) m fun r m' =>
      (r = 0 ∧ (∀ v, v0 ≤ v → v ≤ v0 + n → v * PGSIZE < MAXVA ∧ map v = none) ∧
        ∃ nodes', Table m' t (mapped map v0 (n + 1) pa perm) nodes') ∨
      (r = -1 ∧ ∃ k ≤ n, ∃ nodes', Table m' t (mapped map v0 k pa perm) nodes') := by
  induction fuel with
  | zero =>
    intro m v0 n pa map nodes _ _ _ _
    exact After.of_error rfl
  | succ fuel ih =>
    intro m v0 n pa map nodes h hlast hmax hpa
    rw [mapLoop]
    refine (h.walk_alloc _).bind ?_
    rintro r m1 ⟨hlt, nodes1, h1, rfl | ⟨a, k, rfl, hentry, hwrite⟩⟩
    · refine (Ok.pure ?_).after
      exact .inr ⟨rfl, 0, Nat.zero_le n, nodes1, (mapped_zero map v0 pa perm).symm ▸ h1⟩
    rw [page_mul_div] at hentry hwrite
    have hread : getPte a k m1 = .ok (word m1 a k, m1) := rfl
    intro res m' hrun
    replace hrun := (bind_eq hread).symm.trans hrun
    by_cases hv : word m1 a k &&& PTE_V ≠ 0
    · rw [if_pos hv] at hrun
      cases hrun
    rw [if_neg hv] at hrun
    have hnone : map v0 = none := by rw [← hentry, entry, if_pos (not_not.mp hv)]
    have hset : setPte a k (mkPte pa perm) m1 = .ok ((), m1.setPte a k (mkPte pa perm)) := rfl
    replace hrun := (bind_eq hset).symm.trans hrun
    have h2 := hwrite (mkPte pa perm) (by
      have := perm_lt hperm
      rw [mkPte_eq hperm]
      omega)
    rw [entry_mkPte hpa hperm] at h2
    by_cases hend : v0 * PGSIZE = last
    · have hn : n = 0 := by
        rw [hlast, PGSIZE] at hend
        omega
      subst hn
      rw [if_pos hend] at hrun
      cases hrun
      refine .inl ⟨rfl, fun v hv1 hv2 => ?_, nodes1, ?_⟩
      · obtain rfl : v = v0 := by omega
        exact ⟨hlt, hnone⟩
      · rw [← mapped_succ hpa, mapped_zero]
        exact h2
    · rw [if_neg hend] at hrun
      obtain ⟨n, rfl⟩ : ∃ n', n = n' + 1 := by
        refine Nat.exists_eq_succ_of_ne_zero ?_
        rintro rfl
        exact hend hlast.symm
      have hnext : (v0 * PGSIZE + PGSIZE) % 2 ^ 64 = (v0 + 1) * PGSIZE := by
        simp only [PGSIZE] at hlast ⊢
        omega
      rw [hnext] at hrun
      rcases ih h2 (hlast.trans (by rw [Nat.add_assoc, Nat.add_comm 1 n])) hmax (Nat.mod_lt _ (by decide)) _ _ hrun with
        ⟨rfl, hall, nodes', h'⟩ | ⟨rfl, j, hj, nodes', h'⟩
      · rw [mapped_succ hpa] at h'
        refine .inl ⟨rfl, fun v hv1 hv2 => ?_, nodes', h'⟩
        by_cases hv0 : v = v0
        · subst hv0
          exact ⟨hlt, hnone⟩
        · have := hall v (by omega) (by omega)
          rwa [update_of_ne hv0] at this
      · rw [mapped_succ hpa] at h'
        exact .inr ⟨rfl, j + 1, by omega, nodes', h'⟩

/-- `mappages` of a range that does not wrap: when it returns 0 the pages the range touches were free and are
mapped now, and when it runs out of memory the first `k` of them are. -/
theorem Table.mappages {t va size pa perm : Nat}
    (h : Table m t map nodes) (hsize : 0 < size) (hend : va + size ≤ 2 ^ 64) (hpa : pa < 2 ^ 64)
    (hperm : perm < 1024) : After (mappages t va size pa perm) m fun r m' =>
      (r = 0 ∧ (∀ v, va / PGSIZE ≤ v → v ≤ (va + size - 1) / PGSIZE → v * PGSIZE < MAXVA ∧ map v = none) ∧
        ∃ nodes', Table m' t
          (mapped map (va / PGSIZE) ((va + size - 1) / PGSIZE + 1 - va / PGSIZE) pa perm) nodes') ∨
      (r = -1 ∧ ∃ k ≤ (va + size - 1) / PGSIZE - va / PGSIZE, ∃ nodes',
        Table m' t (mapped map (va / PGSIZE) k pa perm) nodes') := by
  have hle : va / PGSIZE ≤ (va + size - 1) / PGSIZE := Nat.div_le_div_right (by omega)
  obtain ⟨n, hn⟩ := Nat.exists_eq_add_of_le hle
  have hlast : PGROUNDDOWN ((va + size - 1) % 2 ^ 64) = (va / PGSIZE + n) * PGSIZE := by
    rw [Nat.mod_eq_of_lt (by omega), PGROUNDDOWN, hn]
  have hlt : PGROUNDDOWN ((va + size - 1) % 2 ^ 64) < 2 ^ 64 :=
    Nat.lt_of_le_of_lt (Nat.div_mul_le_self _ _) (Nat.mod_lt _ (by decide))
  rw [Vm.mappages, if_neg (by omega), PGROUNDDOWN]
  have hloop := mapLoop_after hperm (size / PGSIZE + 2) h hlast hlt hpa
  rw [hn, show va / PGSIZE + n + 1 - va / PGSIZE = n + 1 by omega, Nat.add_sub_cancel_left]
  exact hloop

/-! ## `uvmunmap` -/

theorem unmapLoop_after {t stop : Nat} (do_free : Bool) (n : Nat) : ∀ {m : Mem} {lo : Nat} {leaf : Nat → Nat}
    {nodes : Multiset Nat}, Tree m 2 t leaf nodes → stop = (lo + n) * PGSIZE → stop < 2 ^ 64 →
    Ram m (nodes + if do_free then frames leaf lo n else 0) →
    After (unmapLoop t stop do_free n (lo * PGSIZE)) m fun _ m' =>
      (∀ v, lo ≤ v → v < lo + n → (readMap leaf v).isSome) ∧ Tree m' 2 t (unmapped leaf lo n) nodes ∧ Ram m' nodes := by
  induction n with
  | zero =>
    intro m lo leaf nodes h _ _ hram
    exact (Ok.pure ⟨fun v h1 h2 => absurd h2 (by omega), Radix.Rep.leaf_congr h fun v _ => if_neg (by omega),
      hram.left⟩).after
  | succ n ih =>
    intro m lo leaf nodes h hstop hmax hram
    have hlt : lo * PGSIZE < stop := by
      rw [hstop]
      exact Nat.mul_lt_mul_of_pos_right (by omega) (by decide)
    have hnext : (lo + 1) * PGSIZE = (lo * PGSIZE + PGSIZE) % 2 ^ 64 := by
      simp only [PGSIZE] at hlt hstop ⊢
      omega
    rw [unmapLoop, if_pos hlt]
    by_cases hva : MAXVA ≤ lo * PGSIZE
    · refine After.bind (P := fun _ _ => False) (After.of_error (walk_panics hva m)) ?_
      intro _ _ hc
      exact hc.elim
    refine After.bind (walk_find h hram.left (Nat.lt_of_not_le hva)).after ?_
    rintro _ m1 ⟨rfl, ⟨rfl, -⟩ | ⟨a, k, rfl, hslot⟩⟩
    · exact After.of_error rfl
    rw [page_mul_div] at hslot
    intro res m' hrun
    have hread : getPte a k m1 = .ok (leaf lo, m1) := congrArg (fun w => Except.ok (w, m1)) hslot.word_eq
    replace hrun := (bind_eq hread).symm.trans hrun
    by_cases hv : leaf lo &&& PTE_V = 0
    · rw [if_pos hv] at hrun
      cases hrun
    by_cases hl : PTE_FLAGS (leaf lo) = PTE_V
    · rw [if_neg hv, if_pos hl] at hrun
      cases hrun
    rw [if_neg hv, if_neg hl, ← hnext] at hrun
    obtain ⟨m2, hround, htree, hf⟩ := unmap_round do_free hslot hram
    replace hrun := (hround fun _ => unmapLoop t stop do_free n ((lo + 1) * PGSIZE)).symm.trans hrun
    obtain ⟨hall, ht, hram'⟩ := ih htree (hstop.trans (by rw [Nat.add_assoc, Nat.add_comm 1 n])) hmax (hf.ram hram)
      _ _ hrun
    rw [unmapped_succ] at ht
    refine ⟨fun v h1 h2 => ?_, ht, hram'⟩
    by_cases hvl : v = lo
    · subst hvl
      rw [readMap, if_pos (Nat.lt_of_not_le hva), entry, if_neg hv]
      rfl
    · have := hall v (by omega) (by omega)
      rwa [readMap, update_of_ne hvl] at this

/-- `uvmunmap` of a range that does not wrap.  Pages that it frees are allocated ones other than the tables. -/
theorem Table.uvmunmap {t va npages : Nat} {do_free : Bool}
    (h : Table m t map nodes) (hend : va + npages * PGSIZE < 2 ^ 64)
    (hfree : do_free = true → Ram m (nodes + mapFrames map (va / PGSIZE) npages)) :
    After (uvmunmap t va npages do_free) m fun _ m' =>
      (∀ v, va / PGSIZE ≤ v → v < va / PGSIZE + npages → (map v).isSome) ∧
        Table m' t (removed map (va / PGSIZE) npages) nodes := by
  obtain ⟨leaf, ht, rfl⟩ := h.tree
  rw [Vm.uvmunmap]
  by_cases ha : va % PGSIZE ≠ 0
  · rw [if_pos ha]
    exact After.of_error rfl
  rw [if_neg ha, Nat.mod_eq_of_lt hend]
  have hva : va / PGSIZE * PGSIZE = va := Nat.div_mul_cancel (Nat.dvd_of_mod_eq_zero (not_not.mp ha))
  have hram : Ram m (nodes + if do_free then frames leaf (va / PGSIZE) npages else 0) := by
    cases do_free with
    | false => simpa using h.ram
    | true =>
      have := hfree rfl
      rw [frames_of_map this] at this
      exact this
  have hloop := unmapLoop_after do_free npages ht (show va + npages * PGSIZE = (va / PGSIZE + npages) * PGSIZE by
    rw [Nat.add_mul, hva]) hend hram
  rw [hva] at hloop
  intro r m' hrun
  obtain ⟨hall, ht', hram'⟩ := hloop r m' hrun
  exact ⟨hall, hram', _, ht', (removed_unmapped leaf _ _).symm⟩

/-! ## The finite map -/

/-- The operations of a page table are those of a finite map. -/
theorem page_table_finite_map {m : Mem} {t : Nat} {map : Nat → Option (Nat × Nat)} {nodes : Multiset Nat}
    (h : Table m t map nodes) : nodes.Nodup ∧
    (∀ va < MAXVA, Ok (walk t va false) m fun r m' =>
      m' = m ∧ map (va / PGSIZE) = r.bind fun x => entry (word m x.1 x.2)) ∧
    (∀ va < MAXVA, ∀ va' < MAXVA, ∀ x, walk t va false m = .ok (some x, m) → walk t va' false m = .ok (some x, m) →
      va / PGSIZE = va' / PGSIZE) ∧
    (∀ va, After (walk t va true) m fun _ m' => ∃ nodes', Table m' t map nodes') ∧
    (∀ va size pa perm, 0 < size → va + size ≤ 2 ^ 64 → pa < 2 ^ 64 → perm < 1024 →
      perm &&& (PTE_R ||| PTE_W ||| PTE_X) ≠ 0 → After (Vm.mappages t va size pa perm) m fun r m' =>
        (r = 0 ∧ (∀ v, va / PGSIZE ≤ v → v ≤ (va + size - 1) / PGSIZE → v * PGSIZE < MAXVA ∧ map v = none) ∧
          ∃ nodes', Table m' t
            (mapped map (va / PGSIZE) ((va + size - 1) / PGSIZE + 1 - va / PGSIZE) pa perm) nodes') ∨
        (r = -1 ∧ ∃ k ≤ (va + size - 1) / PGSIZE - va / PGSIZE, ∃ nodes',
          Table m' t (mapped map (va / PGSIZE) k pa perm) nodes')) ∧
    (∀ va npages do_free, va + npages * PGSIZE < 2 ^ 64 →
      (do_free = true → Ram m (nodes + mapFrames map (va / PGSIZE) npages)) →
      After (Vm.uvmunmap t va npages do_free) m fun _ m' =>
        (∀ v, va / PGSIZE ≤ v → v < va / PGSIZE + npages → (map v).isSome) ∧
          Table m' t (removed map (va / PGSIZE) npages) nodes) := by
  refine ⟨h.ram.own_nodup, fun va hva => h.walk_reads hva, fun va hva va' hva' x hw hw' => h.walk_inj hva hva' hw hw',
    fun va r m' hrun => ?_, fun va size pa perm hs he hpa hp _ => h.mappages hs he hpa hp,
    fun va npages do_free he hf => h.uvmunmap he hf⟩
  obtain ⟨-, nodes', h', -⟩ := h.walk_alloc va r m' hrun
  exact ⟨nodes', h'⟩

end

/-- A memory of zeros with two free pages. -/
def freshMem : Mem := { page := fun _ _ => 0, free := [0x80011000, 0x80012000], deny := [] }

theorem freshMem_table : @Table smallKernel freshMem 0x80010000 (fun _ => none) {0x80010000} := by
  refine @Table.mk smallKernel _ _ _ _ (@Ram.mk smallKernel _ _ (by decide) (by decide)) ⟨fun _ => 0, ?_, ?_⟩
  · exact Radix.Rep.empty 2 fun k _ => word_zero rfl k
  · funext v
    rw [readMap, entry_zero, ite_self]

/-- In this table two pages are mapped, and the first is unmapped again. -/
theorem page_table_finite_map_fresh : ∃ m1 m2 nodes', mappages 0x80010000 100 5000 0x80013000 PTE_R freshMem =
    .ok (0, m1) ∧
    @uvmunmap smallKernel 0x80010000 0 1 false m1 = .ok ((), m2) ∧
    @Table smallKernel m2 0x80010000 (removed (mapped (fun _ => none) 0 2 0x80013000 PTE_R) 0 1) nodes' ∧
    removed (mapped (fun _ => none) 0 2 0x80013000 PTE_R) 0 1 1 = some (0x80014000, PTE_R ||| PTE_V) := by
  have hret : (mappages 0x80010000 100 5000 0x80013000 PTE_R freshMem).toOption.map (fun r =>
      (r.1, (@uvmunmap smallKernel 0x80010000 0 1 false r.2).toOption.map (·.1))) = some (0, some ()) := by
    decide +kernel
  have hmap := (@page_table_finite_map smallKernel _ _ _ _ freshMem_table).2.2.2.2.1 100 5000 0x80013000 PTE_R
    (by decide) (by decide) (by decide) (by decide) (by decide)
  rcases hrun1 : mappages 0x80010000 100 5000 0x80013000 PTE_R freshMem with _ | ⟨r, m1⟩
  · rw [hrun1] at hret
    cases hret
  rw [hrun1] at hret
  obtain ⟨rfl, hret⟩ := Prod.mk.inj (Option.some.inj hret)
  rcases hmap _ _ hrun1 with ⟨-, -, nodes', h1⟩ | ⟨hc, -⟩
  swap
  · exact absurd hc (by decide)
  rcases hrun2 : @uvmunmap smallKernel 0x80010000 0 1 false m1 with _ | ⟨u, m2⟩
  · rw [hrun2] at hret
    cases hret
  obtain ⟨-, h2⟩ := (@page_table_finite_map smallKernel _ _ _ _ h1).2.2.2.2.2 0 1 false (by decide) nofun u m2 hrun2
  exact ⟨m1, m2, nodes', rfl, hrun2, h2, by decide⟩

/-- The end of a range is computed in 64 bits.  `mappages` of `2 ^ 64 - 50` bytes from address 100 on maps the first
page only and returns 0, and `uvmunmap` of `2 ^ 52` pages removes nothing. -/
theorem mappages_uvmunmap_wrap : @Table smallKernel freshMem 0x80010000 (fun _ => none) {0x80010000} ∧
    (∃ m' nodes', mappages 0x80010000 100 (2 ^ 64 - 50) 0x80013000 PTE_R freshMem = .ok (0, m') ∧
      @Table smallKernel m' 0x80010000 (mapped (fun _ => none) 0 1 0x80013000 PTE_R) nodes') ∧
    @uvmunmap smallKernel 0x80010000 0 (2 ^ 52) false freshMem = .ok ((), freshMem) := by
  have hret : (mapLoop 0x80010000 0 PTE_R 1 0 0x80013000 freshMem).toOption.map (·.1) = some 0 := by decide
  refine ⟨freshMem_table, ?_, ?_⟩
  · have hfirst : mappages 0x80010000 100 (2 ^ 64 - 50) 0x80013000 PTE_R freshMem =
        mapLoop 0x80010000 0 PTE_R 1 0 0x80013000 freshMem := rfl
    rw [hfirst]
    cases hrun : mapLoop 0x80010000 0 PTE_R 1 0 0x80013000 freshMem with
    | error e =>
      rw [hrun] at hret
      cases hret
    | ok r =>
      rw [hrun] at hret
      obtain ⟨r, m'⟩ := r
      cases Option.some.inj hret
      rcases @mapLoop_after smallKernel 0x80010000 0 PTE_R (by decide) 1 _ 0 0 _ _ _ freshMem_table rfl (by decide)
        (by decide) 0 m' hrun with ⟨-, -, nodes', h'⟩ | ⟨hc, -⟩
      · exact ⟨m', nodes', rfl, h'⟩
      · exact absurd hc (by decide)
  · rfl

end Xv6.Vm
