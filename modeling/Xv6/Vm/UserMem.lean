import Mathlib.Data.Finset.Card
import Xv6.Vm.PageTable

/-!
# User address spaces

`uvmalloc`, `uvmdealloc`, `uvmfree`, `uvmcopy` of `kernel/vm.c`, and
`proc_pagetable` and `proc_freepagetable` of `kernel/proc.c`.

`Space m t tf n leaf nodes`: the page table `t` maps the user pages `0, …, n - 1`,
the trapframe page `tf` and the trampoline, and nothing else.  The functions take
such tables to such tables; when they run out of memory the user pages are as
before.
-/

namespace Xv6.Vm

open Total Function

/-- A C `int` converted to `uint64`. -/
def toUInt64 (i : Int) : Nat := (i % 2 ^ 64).toNat

/-! ## `kernel/vm.c` -/

section
variable [Symbols]

def uvmdealloc (pagetable oldsz newsz : Nat) : Kernel Nat :=
  if newsz ≥ oldsz then pure oldsz
  else if PGROUNDUP newsz < PGROUNDUP oldsz then do
    -- the number of pages is an `int`, and `uvmunmap` takes a `uint64`
    uvmunmap pagetable (PGROUNDUP newsz) (toUInt64 (toInt32 ((PGROUNDUP oldsz - PGROUNDUP newsz) / PGSIZE))) true
    pure newsz
  else pure newsz

def allocLoop (pagetable oldsz newsz xperm : Nat) : Nat → Nat → Kernel Nat
  | 0, _ => panic .fuel
  | fuel + 1, a =>
    if a < newsz then do
      match ← kalloc with
      | none => do
          let _ ← uvmdealloc pagetable a oldsz
          pure 0
      | some mem => do
          memset mem 0
          let r ← mappages pagetable a PGSIZE mem (PTE_R ||| PTE_U ||| xperm)
          if r ≠ 0 then do
            kfree mem
            let _ ← uvmdealloc pagetable a oldsz
            pure 0
          else allocLoop pagetable oldsz newsz xperm fuel ((a + PGSIZE) % 2 ^ 64)
    else pure newsz

def uvmalloc (pagetable oldsz newsz xperm : Nat) : Kernel Nat :=
  if newsz < oldsz then pure oldsz
  else allocLoop pagetable (PGROUNDUP oldsz) newsz xperm (newsz / PGSIZE + 2) (PGROUNDUP oldsz)

def uvmfree (pagetable sz : Nat) : Kernel Unit := do
  (if sz > 0 then uvmunmap pagetable 0 (PGROUNDUP sz / PGSIZE) true else pure ())
  freewalk 3 pagetable

/-- `memmove(dst, src, PGSIZE)` -/
def movePage (dst src : Nat) : Kernel Unit := fun m =>
  .ok ((), { m with page := update m.page dst (m.page src) })

def copyLoop (old new sz : Nat) : Nat → Nat → Kernel Int
  | 0, _ => panic .fuel
  | fuel + 1, i =>
    if i < sz then do
      match ← walk old i false with
      | none => panic .uvmcopyPte
      | some (t, k) => do
          let pte ← getPte t k
          if pte &&& PTE_V = 0 then panic .uvmcopyNotPresent
          else do
            match ← kalloc with
            | none => do
                uvmunmap new 0 (i / PGSIZE) true
                pure (-1)
            | some mem => do
                movePage mem (PTE2PA pte)
                let r ← mappages new i PGSIZE mem (PTE_FLAGS pte)
                if r ≠ 0 then do
                  kfree mem
                  uvmunmap new 0 (i / PGSIZE) true
                  pure (-1)
                else copyLoop old new sz fuel ((i + PGSIZE) % 2 ^ 64)
    else pure 0

def uvmcopy (old new sz : Nat) : Kernel Int := copyLoop old new sz (sz / PGSIZE + 2) 0

/-! ## `kernel/proc.c` -/

/-- `proc_pagetable` for a process with the trapframe page `trapframe`. -/
def procPagetable (trapframe : Nat) : Kernel (Option Nat) := do
  match ← uvmcreate with
  | none => pure none
  | some pagetable => do
      let r ← mappages pagetable TRAMPOLINE PGSIZE trampoline (PTE_R ||| PTE_X)
      if r < 0 then do
        uvmfree pagetable 0
        pure none
      else do
        let r ← mappages pagetable TRAPFRAME PGSIZE trapframe (PTE_R ||| PTE_W)
        if r < 0 then do
          uvmunmap pagetable TRAMPOLINE 1 false
          uvmfree pagetable 0
          pure none
        else pure (some pagetable)

def procFreepagetable (pagetable sz : Nat) : Kernel Unit := do
  uvmunmap pagetable TRAMPOLINE 1 false
  uvmunmap pagetable TRAPFRAME 1 false
  uvmfree pagetable sz

end

/-! ## Sizes and pages -/

def pages (sz : Nat) : Nat := (sz + 4095) / 4096

theorem PGROUNDUP_eq {sz : Nat} (h : sz + 4095 < 2 ^ 64) : PGROUNDUP sz = pages sz * PGSIZE := by
  rw [PGROUNDUP, pages, PGSIZE, Nat.add_sub_assoc (by decide), Nat.mod_eq_of_lt h]

theorem pages_mul (n : Nat) : pages (n * PGSIZE) = n := by
  rw [pages, PGSIZE]
  omega

theorem le_pages (sz : Nat) : sz ≤ pages sz * PGSIZE := by
  rw [pages, PGSIZE]
  omega

theorem pages_mono {a b : Nat} (h : a ≤ b) : pages a ≤ pages b := Nat.div_le_div_right (by omega)

/-- The virtual pages of the trapframe and of the trampoline. -/
def trapframePage : Nat := TRAPFRAME / PGSIZE

def trampolinePage : Nat := TRAMPOLINE / PGSIZE

/-- The number of pages between `KERNBASE` and `PHYSTOP`. -/
def ramPages : Nat := 32768

theorem ramPages_lt : ramPages < trapframePage ∧ trapframePage < trampolinePage ∧ trampolinePage < 512 ^ 3 := by
  decide

theorem frames_add (leaf : Nat → Nat) (lo a b : Nat) :
    frames leaf lo (a + b) = frames leaf lo a + frames leaf (lo + a) b := by
  rw [frames, frames, frames, Multiset.coe_add, ← List.map_append, List.range'_append_1]

theorem frames_last (leaf : Nat → Nat) (lo n : Nat) :
    frames leaf lo (n + 1) = PTE2PA (leaf (lo + n)) ::ₘ frames leaf lo n := by
  rw [frames_add, frames_succ, Multiset.add_cons]
  exact congrArg _ (add_zero _)

variable {leaf : Nat → Nat} {m : Mem}

variable {n : Nat} {nodes own : Multiset Nat}

theorem mem_frames {lo w : Nat} (h1 : lo ≤ w) (h2 : w < lo + n) : PTE2PA (leaf w) ∈ frames leaf lo n :=
  Multiset.mem_coe.mpr (List.mem_map.mpr ⟨w, List.mem_range'_1.mpr ⟨h1, h2⟩, rfl⟩)

theorem card_frames (leaf : Nat → Nat) (lo n : Nat) : (frames leaf lo n).card = n := by
  rw [frames, Multiset.coe_card, List.length_map, List.length_range']

variable [Symbols]

theorem Ram.card_le_of (h : Ram m own) {N : Nat} (hN : PHYSTOP ≤ KERNBASE + N * PGSIZE) : own.card ≤ N := by
  have hmaps : ∀ p ∈ own.toFinset, (p - KERNBASE) / PGSIZE ∈ Finset.range N := by
    intro p hp
    obtain ⟨-, h2, h3⟩ := h.own_isPage (Multiset.mem_toFinset.mp hp)
    rw [Finset.mem_range, Nat.div_lt_iff_lt_mul (by decide)]
    have hk := kernbase_le_end
    omega
  have hinj : ∀ p ∈ own.toFinset, ∀ q ∈ own.toFinset, (p - KERNBASE) / PGSIZE = (q - KERNBASE) / PGSIZE → p = q := by
    intro p hp q hq heq
    obtain ⟨h1, h2, -⟩ := h.own_isPage (Multiset.mem_toFinset.mp hp)
    obtain ⟨h3, h4, -⟩ := h.own_isPage (Multiset.mem_toFinset.mp hq)
    have hk := kernbase_le_end
    simp only [KERNBASE, PGSIZE] at h1 h3 hk heq
    omega
  have hle := Finset.card_le_card_of_injOn _ hmaps hinj
  rwa [Finset.card_range, Multiset.toFinset_card_of_nodup h.own_nodup] at hle

theorem Ram.card_le (h : Ram m own) : own.card ≤ ramPages := h.card_le_of (by decide)

/-- The page table `t` maps the user pages `0, …, n - 1`, the trapframe `tf` and the trampoline. -/
structure Space (m : Mem) (t tf n : Nat) (leaf : Nat → Nat) (nodes : Multiset Nat) : Prop where
  tree : Tree m 2 t leaf nodes
  user : ∀ v < n, IsLeaf (leaf v)
  trapframe : leaf trapframePage = mkPte tf (PTE_R ||| PTE_W)
  trampoline : leaf trampolinePage = mkPte trampoline (PTE_R ||| PTE_X)
  unmapped : ∀ v < 512 ^ 3, n ≤ v → v ≠ trapframePage → v ≠ trampolinePage → leaf v = 0

theorem Ram.pages_le {lo : Nat} (h : Ram m (nodes + frames leaf lo n)) : n ≤ ramPages := by
  have hc := h.right.card_le
  rwa [card_frames] at hc

theorem Space.unmap {m' : Mem} {t tf k : Nat} (h : Space m t tf n leaf nodes) (hk : k ≤ n) (hn : n ≤ ramPages)
    (ht : Tree m' 2 t (Vm.unmapped leaf k (n - k)) nodes) : Space m' t tf k (Vm.unmapped leaf k (n - k)) nodes := by
  obtain ⟨h1, h2, -⟩ := ramPages_lt
  refine ⟨ht, fun v hv => ?_, ?_, ?_, fun v hv hkv hv1 hv2 => ?_⟩
  · rw [Vm.unmapped, if_neg (by omega)]
    exact h.user v (by omega)
  · rw [Vm.unmapped, if_neg (by omega)]
    exact h.trapframe
  · rw [Vm.unmapped, if_neg (by omega)]
    exact h.trampoline
  · by_cases hvn : v < n
    · exact if_pos (by omega)
    · exact (if_neg (by omega)).trans (h.unmapped v hv (by omega) hv1 hv2)

theorem uvmdealloc_spec {t tf oldsz newsz : Nat}
    (h : Space m t tf (pages oldsz) leaf nodes) (hram : Ram m (nodes + frames leaf 0 (pages oldsz))) :
    Ok (uvmdealloc t oldsz newsz) m fun r m' => (oldsz ≤ newsz ∧ r = oldsz ∧ m' = m) ∨
      (newsz < oldsz ∧ r = newsz ∧
        Space m' t tf (pages newsz) (unmapped leaf (pages newsz) (pages oldsz - pages newsz)) nodes ∧
        Frame m m' (nodes + frames leaf (pages newsz) (pages oldsz - pages newsz)) nodes) := by
  have hle := hram.pages_le
  rw [uvmdealloc]
  by_cases hsz : newsz ≥ oldsz
  · rw [if_pos hsz]
    exact Ok.pure (.inl ⟨hsz, rfl, rfl⟩)
  have hk : pages newsz ≤ pages oldsz := pages_mono (by omega)
  have hold := le_pages oldsz
  simp only [ramPages, PGSIZE] at hle hold
  rw [if_neg hsz, PGROUNDUP_eq (by omega), PGROUNDUP_eq (by omega)]
  obtain ⟨k, hsum⟩ := Nat.exists_eq_add_of_le hk
  have hsub : pages oldsz - pages newsz = k := by omega
  rw [hsub]
  by_cases hlt : pages newsz * PGSIZE < pages oldsz * PGSIZE
  · have hnp : (pages oldsz * PGSIZE - pages newsz * PGSIZE) / PGSIZE = k := by
      rw [← Nat.sub_mul, hsub]
      exact Nat.mul_div_cancel k (by decide)
    have hcount : toUInt64 (toInt32 k) = k := by
      rw [toInt32_of_lt k (by omega), toUInt64]
      omega
    rw [if_pos hlt, hnp, hcount]
    have hsplit : frames leaf 0 (pages oldsz) = frames leaf 0 (pages newsz) + frames leaf (pages newsz) k := by
      rw [hsum, frames_add, Nat.zero_add]
    rw [hsplit, add_left_comm] at hram
    refine Ok.bind (uvmunmap_spec (n := k) true h.tree rfl ?_ (fun v _ hv => h.user v (by omega)) hram.right) ?_
    · rw [← hsum, PGSIZE, MAXVA]
      omega
    · rintro _ m' ⟨ht, hf⟩
      refine Ok.pure (.inr ⟨by omega, rfl, ?_, hf⟩)
      have hs := h.unmap hk hle (hsub.symm ▸ ht)
      rwa [hsub] at hs
  · have hk0 : k = 0 := by
      have := Nat.le_of_mul_le_mul_right (Nat.le_of_not_lt hlt) (by decide : 0 < PGSIZE)
      omega
    subst hk0
    rw [if_neg hlt]
    refine Ok.pure (.inr ⟨by omega, rfl, ?_, ?_⟩)
    · have ht : Tree m 2 t (Vm.unmapped leaf (pages newsz) (pages oldsz - pages newsz)) nodes :=
        Radix.Rep.leaf_congr h.tree fun v _ => if_neg (by omega)
      have hs := h.unmap hk hle ht
      rwa [hsub] at hs
    · exact (add_zero nodes).symm ▸ .refl m nodes

/-! ## `uvmalloc` -/

/-- The address space `leaf` with `n` pages, grown to `v` pages with fresh ones of zeros. -/
structure Grown (m : Mem) (t tf n : Nat) (leaf : Nat → Nat) (nodes : Multiset Nat) (perm v : Nat) (m' : Mem)
    (leaf' : Nat → Nat) (nodes' : Multiset Nat) : Prop where
  le : n ≤ v
  space : Space m' t tf v leaf' nodes'
  old : ∀ w, ¬(n ≤ w ∧ w < v) → leaf' w = leaf w
  new : ∀ w, n ≤ w → w < v → ∃ p, leaf' w = mkPte p perm ∧ PTE2PA (leaf' w) = p ∧ m'.page p = fun _ => 0
  frame : Frame m m' nodes (nodes' + frames leaf' n (v - n))

section
variable {m m' : Mem} {t tf n v perm : Nat} {leaf leaf' : Nat → Nat} {nodes nodes' : Multiset Nat}

theorem Grown.refl (h : Space m t tf n leaf nodes) (perm : Nat) : Grown m t tf n leaf nodes perm n m leaf nodes := by
  refine ⟨Nat.le_refl n, h, fun _ _ => rfl, fun w h1 h2 => absurd h2 (by omega), ?_⟩
  rw [Nat.sub_self]
  exact (add_zero nodes).symm ▸ .refl m nodes

section
variable (h : Grown m t tf n leaf nodes perm v m' leaf' nodes')
include h

theorem Grown.frames_eq : frames leaf' 0 v = frames leaf 0 n + frames leaf' n (v - n) := by
  have hle := h.le
  obtain ⟨k, rfl⟩ := Nat.exists_eq_add_of_le hle
  rw [frames_add, Nat.zero_add, Nat.add_sub_cancel_left,
    frames_congr fun w _ h2 => h.old w (by omega)]

theorem Grown.frame_all : Frame m m' (nodes + frames leaf 0 n) (nodes' + frames leaf' 0 v) := by
  have hf := h.frame.add (frames leaf 0 n)
  rwa [add_assoc, add_comm (frames leaf' n (v - n)), ← h.frames_eq] at hf

theorem Grown.ram (hram : Ram m (nodes + frames leaf 0 n)) : Ram m' (nodes' + frames leaf' 0 v) := h.frame_all.ram hram

variable {nodes1 : Multiset Nat}

theorem Grown.retable {m1 : Mem}
    (hram : Ram m (nodes + frames leaf 0 n)) (hf : Frame m' m1 nodes' nodes1) (ht : Tree m1 2 t leaf' nodes1) :
    Grown m t tf n leaf nodes perm v m1 leaf' nodes1 := by
  refine ⟨h.le, ⟨ht, h.space.user, h.space.trapframe, h.space.trampoline, h.space.unmapped⟩, h.old, ?_, ?_⟩
  · intro w h1 h2
    obtain ⟨p, hl, hp, hz⟩ := h.new w h1 h2
    have hsame := hf.other (h.ram hram) (hp ▸ mem_frames (Nat.zero_le w) (by omega))
    exact ⟨p, hl, hp, hsame.trans hz⟩
  · exact h.frame.trans (hf.add _)

theorem Grown.succ {m1 : Mem} {p : Nat}
    (hram : Ram m (nodes + frames leaf 0 n)) (hv : v < ramPages) (hpage : IsPage p) (hperm : perm < 1024)
    (hr : perm &&& PTE_R ≠ 0) (hf : Frame m' m1 nodes' (p ::ₘ nodes1)) (hz : m1.page p = fun _ => 0)
    (ht : Tree m1 2 t (update leaf' v (mkPte p perm)) nodes1) :
    Grown m t tf n leaf nodes perm (v + 1) m1 (update leaf' v (mkPte p perm)) nodes1 := by
  obtain ⟨h1, h2, h3⟩ := ramPages_lt
  have hle := h.le
  have hpa : PTE2PA (mkPte p perm) = p := PTE2PA_mkPte hpage.1 hpage.lt hperm
  refine ⟨by omega, ⟨ht, fun w hw => ?_, ?_, ?_, fun w hw hvw hw1 hw2 => ?_⟩, fun w hw => ?_, fun w hw1 hw2 => ?_, ?_⟩
  · rcases Nat.lt_succ_iff_lt_or_eq.mp hw with hw | rfl
    · rw [update_of_ne (by omega)]
      exact h.space.user w hw
    · rw [update_self]
      exact isLeaf_mkPte hr
  · rw [update_of_ne (by omega)]
    exact h.space.trapframe
  · rw [update_of_ne (by omega)]
    exact h.space.trampoline
  · rw [update_of_ne (by omega)]
    exact h.space.unmapped w hw (by omega) hw1 hw2
  · rw [update_of_ne (by omega)]
    exact h.old w (by omega)
  · rcases Nat.lt_succ_iff_lt_or_eq.mp hw2 with hw2 | rfl
    · obtain ⟨q, hl, hq, hzq⟩ := h.new w hw1 hw2
      rw [update_of_ne (by omega)]
      have hsame := hf.other (h.ram hram) (hq ▸ mem_frames (Nat.zero_le w) (by omega))
      exact ⟨q, hl, hq, hsame.trans hzq⟩
    · rw [update_self]
      exact ⟨p, rfl, hpa, hz⟩
  · have hframes : frames (update leaf' v (mkPte p perm)) n (v + 1 - n) = p ::ₘ frames leaf' n (v - n) := by
      have hsub : v + 1 - n = v - n + 1 := by omega
      rw [hsub, frames_last, frames_congr fun w _ h2 => update_of_ne (by omega) _ _,
        Nat.add_sub_cancel' hle, update_self, hpa]
    have hall := h.frame.trans (hf.add _)
    rwa [hframes, Multiset.add_cons, ← Multiset.cons_add]

/-- Giving up: the pages added so far are unmapped and freed. -/
theorem Grown.fail (hs : Space m t tf n leaf nodes) (hram : Ram m (nodes + frames leaf 0 n)) :
    Ok (uvmdealloc t (v * PGSIZE) (n * PGSIZE)) m' fun _ m1 => Space m1 t tf n leaf nodes' ∧
    Frame m m1 nodes nodes' := by
  have hle := h.le
  have hr := h.ram hram
  have hvr := hr.pages_le
  obtain ⟨h1, h2, -⟩ := ramPages_lt
  have hspec : Ok (uvmdealloc t (v * PGSIZE) (n * PGSIZE)) m' _ :=
    uvmdealloc_spec ((pages_mul v).symm ▸ h.space) ((pages_mul v).symm ▸ hr)
  refine hspec.mono ?_
  rw [pages_mul, pages_mul]
  rintro r m1 (⟨hnv, -, rfl⟩ | ⟨-, -, hsp, hf⟩)
  · obtain rfl : v = n := Nat.le_antisymm (Nat.le_of_mul_le_mul_right hnv (by decide)) hle
    have hfr := h.frame
    rw [Nat.sub_self] at hfr
    refine ⟨⟨Radix.Rep.leaf_congr h.space.tree fun w _ => (h.old w (by omega)).symm, hs.user, hs.trapframe,
      hs.trampoline, hs.unmapped⟩, ?_⟩
    exact (add_zero nodes') ▸ hfr
  · refine ⟨⟨Radix.Rep.leaf_congr hsp.tree fun w hw => ?_, hs.user, hs.trapframe, hs.trampoline, hs.unmapped⟩,
      h.frame.trans hf⟩
    unfold Vm.unmapped
    by_cases hwv : n ≤ w ∧ w < n + (v - n)
    · rw [if_pos hwv]
      exact hs.unmapped w hw hwv.1 (by omega) (by omega)
    · rw [if_neg hwv]
      exact (h.old w (by omega)).symm

end

theorem fresh_page {m1 : Mem} {p : Nat} (hpages : ∀ q, q ≠ p → m1.page q = m'.page q)
    (hf : Frame m' m1 own (p ::ₘ own)) (hram : Ram m' own) :
    Frame m' (m1.memset p 0) own (p ::ₘ own) ∧ Ram (m1.memset p 0) (p ::ₘ own) ∧ IsPage p ∧
      (∀ q ∈ own, (m1.memset p 0).page q = m'.page q) ∧ (m1.memset p 0).page p = fun _ => 0 := by
  have hf1 : Frame m1 (m1.memset p 0) (p ::ₘ own) (p ::ₘ own) := .of_pages rfl fun q hq => by
    refine update_of_ne ?_ _ _
    rintro rfl
    exact hq (Multiset.mem_cons_self _ _)
  have hf2 := hf.trans hf1
  have hram2 := hf2.ram hram
  refine ⟨hf2, hram2, hram2.own_isPage (Multiset.mem_cons_self p own), fun q hq => ?_, update_self _ _ _⟩
  have hqp : q ≠ p := fun hc => (Multiset.nodup_cons.mp hram2.own_nodup).1 (hc ▸ hq)
  exact (update_of_ne hqp _ _).trans (hpages q hqp)

theorem allocLoop_spec {newsz xperm : Nat} (hs : Space m t tf n leaf nodes) (hram : Ram m (nodes + frames leaf 0 n))
    (hx : xperm < 1024) (fuel : Nat) : ∀ {v : Nat} {m' : Mem} {leaf' : Nat → Nat}
    {nodes' : Multiset Nat}, Grown m t tf n leaf nodes (PTE_R ||| PTE_U ||| xperm) v m' leaf' nodes' →
    v ≤ pages newsz → newsz / PGSIZE + 2 ≤ fuel + v →
    Ok (allocLoop t (n * PGSIZE) newsz xperm fuel (v * PGSIZE)) m' fun r m1 =>
      (r = 0 ∧ ∃ nodes1, Space m1 t tf n leaf nodes1 ∧ Frame m m1 nodes nodes1) ∨
      (r = newsz ∧ ∃ leaf1 nodes1,
        Grown m t tf n leaf nodes (PTE_R ||| PTE_U ||| xperm) (pages newsz) m1 leaf1 nodes1) := by
  have hperm : PTE_R ||| PTE_U ||| xperm < 1024 := Nat.or_lt_two_pow (n := 10) (by decide) hx
  have hread : (PTE_R ||| PTE_U ||| xperm) &&& PTE_R ≠ 0 := by
    rw [Nat.and_or_distrib_right]
    exact fun hc => absurd (Nat.or_eq_zero_iff.mp hc).1 (by decide)
  obtain ⟨hr1, hr2, hr3⟩ := ramPages_lt
  have hpg : pages newsz ≤ newsz / PGSIZE + 1 := by
    rw [pages, PGSIZE]
    omega
  -- giving up at any point leaves the address space as it was
  have hfail : ∀ {v : Nat} {m' : Mem} {leaf' : Nat → Nat} {nodes' : Multiset Nat},
      Grown m t tf n leaf nodes (PTE_R ||| PTE_U ||| xperm) v m' leaf' nodes' →
      Ok (uvmdealloc t (v * PGSIZE) (n * PGSIZE) >>= fun _ => pure 0) m' fun r m1 =>
        (r = 0 ∧ ∃ nodes1, Space m1 t tf n leaf nodes1 ∧ Frame m m1 nodes nodes1) ∨ (r = newsz ∧ ∃ leaf1 nodes1,
          Grown m t tf n leaf nodes (PTE_R ||| PTE_U ||| xperm) (pages newsz) m1 leaf1 nodes1) := by
    intro v m' leaf' nodes' h
    refine Ok.bind (h.fail hs hram) ?_
    rintro _ m1 ⟨hsp, hf⟩
    exact Ok.pure (.inl ⟨rfl, nodes', hsp, hf⟩)
  induction fuel with
  | zero =>
    intro v m' leaf' nodes' _ h1 h2
    omega
  | succ fuel ih =>
    intro v m' leaf' nodes' h hv hfuel
    have hr := h.ram hram
    rw [allocLoop]
    by_cases ha : v * PGSIZE < newsz
    · rw [if_pos ha]
      refine Ok.bind (kalloc_spec m' nodes') ?_
      rintro _ m1 (⟨rfl, hpages, hf⟩ | ⟨p, rfl, hpages, hf⟩)
      · exact hfail (h.retable hram hf (h.space.tree.congr fun a _ => by rw [hpages]))
      · obtain ⟨hf2, hram2, hpp, hsame, hzero⟩ := fresh_page hpages hf hr.left
        -- `v` user pages and `p` are pages of the allocator
        have hcard := (hf.add (frames leaf' 0 v)).ram hr |>.card_le
        rw [Multiset.card_add, Multiset.card_cons, card_frames] at hcard
        apply memset_bind
        have hva : v * PGSIZE < MAXVA := by
          simp only [ramPages, PGSIZE, MAXVA] at hcard ⊢
          omega
        have hdiv : v * PGSIZE / PGSIZE = v := Nat.mul_div_cancel _ (by decide)
        have hfree : leaf' (v * PGSIZE / PGSIZE) &&& PTE_V = 0 := by
          rw [hdiv, h.space.unmapped v (by omega) (Nat.le_refl v) (by omega) (by omega), Nat.zero_and]
        refine Ok.bind (mappages_spec (h.space.tree.congr hsame) hram2.tail (Nat.mul_mod_left _ _) hva hpp.lt hperm
          hfree) ?_
        rintro r m2 ⟨nodes2, hf3, ⟨rfl, ht⟩ | ⟨rfl, ht⟩⟩
        · rw [if_pos (by decide)]
          refine Ok.bind (kfree_spec hpp nodes2) ?_
          rintro _ m3 ⟨hpages3, -, hf4⟩
          have hpn := (Multiset.nodup_cons.mp ((hf3.cons p).ram hram2).own_nodup).1
          refine hfail (h.retable hram (hf2.trans ((hf3.cons p).trans hf4)) (ht.congr fun a ha => hpages3 a ?_))
          rintro rfl
          exact hpn ha
        · rw [if_neg (by decide)]
          have hnext : (v * PGSIZE + PGSIZE) % 2 ^ 64 = (v + 1) * PGSIZE := by
            simp only [PGSIZE, MAXVA] at hva ⊢
            omega
          have hz := (hf3.page p hram2.head_not_mem).trans hzero
          rw [hdiv] at ht
          have hgrown := h.succ hram (by omega) hpp hperm hread (hf2.trans (hf3.cons p)) hz ht
          rw [hnext]
          refine ih hgrown ?_ (by omega)
          simp only [pages, PGSIZE] at ha ⊢
          omega
    · rw [if_neg ha]
      have hvp : v = pages newsz := by
        simp only [pages, PGSIZE] at ha hv ⊢
        omega
      exact Ok.pure (.inr ⟨rfl, leaf', nodes', hvp ▸ h⟩)

theorem uvmalloc_spec {oldsz newsz xperm : Nat} (hs : Space m t tf (pages oldsz) leaf nodes)
    (hram : Ram m (nodes + frames leaf 0 (pages oldsz))) (hx : xperm < 1024) :
    Ok (uvmalloc t oldsz newsz xperm) m fun r m' => (newsz < oldsz ∧ r = oldsz ∧ m' = m) ∨ (oldsz ≤ newsz ∧
      ((r = 0 ∧ ∃ nodes', Space m' t tf (pages oldsz) leaf nodes' ∧ Frame m m' nodes nodes') ∨
       (r = newsz ∧ ∃ leaf' nodes', Grown m t tf (pages oldsz) leaf nodes (PTE_R ||| PTE_U ||| xperm) (pages newsz)
          m' leaf' nodes'))) := by
  rw [uvmalloc]
  by_cases hlt : newsz < oldsz
  · rw [if_pos hlt]
    exact Ok.pure (.inl ⟨hlt, rfl, rfl⟩)
  · have hle := hram.pages_le
    have hold := le_pages oldsz
    simp only [ramPages, PGSIZE] at hle hold
    rw [if_neg hlt, PGROUNDUP_eq (by omega)]
    refine (allocLoop_spec hs hram hx _ (.refl hs _) (pages_mono (by omega)) (by omega)).mono ?_
    intro r m' h
    exact .inr ⟨by omega, h⟩

/-! ## Freeing an address space -/

theorem uvmfree_spec {sz : Nat} (ht : Tree m 2 t leaf nodes) (hram : Ram m (nodes + frames leaf 0 (pages sz)))
    (huser : ∀ v < pages sz, IsLeaf (leaf v)) (hrest : ∀ v < 512 ^ 3, pages sz ≤ v → leaf v &&& PTE_V = 0) :
    Ok (uvmfree t sz) m fun _ m' => Frame m m' (nodes + frames leaf 0 (pages sz)) 0 := by
  have hle := hram.pages_le
  have hsz := le_pages sz
  simp only [ramPages, PGSIZE] at hle hsz
  rw [uvmfree, PGROUNDUP_eq (by omega), Nat.mul_div_cancel _ (by decide)]
  have hunmap : Ok (if sz > 0 then uvmunmap t 0 (pages sz) true else pure ()) m fun _ m' =>
      Tree m' 2 t (unmapped leaf 0 (pages sz)) nodes ∧ Frame m m' (nodes + frames leaf 0 (pages sz)) nodes := by
    by_cases h0 : sz > 0
    · rw [if_pos h0]
      refine uvmunmap_spec true ht (Nat.zero_mul _).symm ?_ (fun v _ hv => huser v (by omega)) hram
      simp only [PGSIZE, MAXVA]
      omega
    · obtain rfl : sz = 0 := by omega
      rw [if_neg h0]
      exact Ok.pure ⟨Radix.Rep.leaf_congr ht fun v _ => if_neg (by simp [pages]), (add_zero nodes).symm ▸ .refl m nodes⟩
  refine Ok.bind hunmap ?_
  rintro _ m1 ⟨ht1, hf⟩
  refine (freewalk_spec 2 ht1 (hf.ram hram) fun v hv => ?_).mono fun _ m2 hf2 => hf.trans hf2
  unfold Vm.unmapped
  by_cases hp : v < pages sz
  · rw [if_pos (by omega), Nat.zero_and]
  · rw [if_neg (by omega)]
    exact hrest v hv (by omega)

theorem unmap_top (va : Nat) (ht : Tree m 2 t leaf nodes) (hram : Ram m nodes) (ha : va % PGSIZE = 0)
    (hva : va < MAXVA) (hl : IsLeaf (leaf (va / PGSIZE))) : Ok (uvmunmap t va 1 false) m fun _ m' =>
      Tree m' 2 t (update leaf (va / PGSIZE) 0) nodes ∧ Frame m m' nodes nodes := by
  have hmul : va = va / PGSIZE * PGSIZE := (Nat.div_mul_cancel (Nat.dvd_of_mod_eq_zero ha)).symm
  have hmax : (va / PGSIZE + 1) * PGSIZE ≤ MAXVA := by
    simp only [PGSIZE, MAXVA] at hva ⊢
    omega
  have hspec := uvmunmap_spec (m := m) (n := 1) false ht hmul hmax
    (fun v h1 h2 => (by omega : v = va / PGSIZE) ▸ hl) ((add_zero nodes).symm ▸ hram)
  refine hspec.mono ?_
  rintro _ m' ⟨ht', hf⟩
  rw [if_neg Bool.false_ne_true, add_zero] at hf
  refine ⟨Radix.Rep.leaf_congr ht' fun v _ => ?_, hf⟩
  unfold Vm.unmapped
  by_cases hv : v = va / PGSIZE
  · rw [if_pos (by omega), hv, update_self]
  · rw [if_neg (by omega), update_of_ne hv]

/-! ## New address spaces -/

theorem trampoline_lt : trampoline < 2 ^ 56 := by
  have h1 := Symbols.trampoline_kernel
  have h2 := Symbols.end_ram
  exact Nat.lt_of_le_of_lt (by omega : trampoline ≤ PHYSTOP) (by decide)

/-- `proc_pagetable` makes an address space without user pages, or gives back all it took. -/
theorem procPagetable_spec (hram : Ram m 0) (htf : tf < 2 ^ 56) : Ok (procPagetable tf) m fun r m' =>
    (r = none ∧ Frame m m' 0 0) ∨ ∃ t leaf nodes, r = some t ∧ Space m' t tf 0 leaf nodes ∧ Frame m m' 0 nodes := by
  refine Ok.bind (uvmcreate_spec m 0) ?_
  rintro _ m1 (⟨rfl, hf, -⟩ | ⟨t, rfl, ht, hf, -⟩)
  · exact Ok.pure (.inl ⟨rfl, hf⟩)
  have hram1 := hf.ram hram
  -- a table that maps no user page, and nothing else, is freed with all its pages
  have hfree : ∀ {m2 : Mem} {leaf : Nat → Nat} {nodes : Multiset Nat}, Tree m2 2 t leaf nodes →
      (∀ v < 512 ^ 3, leaf v = 0) → Frame m m2 0 nodes → Ok (uvmfree t 0 >>= fun _ => pure none) m2 fun r m' =>
        (r = none ∧ Frame m m' 0 0) ∨ ∃ t leaf nodes, r = some t ∧ Space m' t tf 0 leaf nodes ∧ Frame m m' 0 nodes := by
    intro m2 leaf nodes ht2 hz hf2
    have hram2 : Ram m2 (nodes + frames leaf 0 (pages 0)) := (add_zero nodes).symm ▸ hf2.ram hram
    refine Ok.bind (uvmfree_spec ht2 hram2 (fun v hv => absurd hv (by simp [pages])) fun v hv _ => ?_) ?_
    · rw [hz v hv, Nat.zero_and]
    · intro _ m3 hf3
      exact Ok.pure (.inl ⟨rfl, hf2.trans ((add_zero nodes) ▸ hf3)⟩)
  refine Ok.bind (mappages_spec ht hram1 (by decide) (by decide) trampoline_lt (by decide) rfl) ?_
  rintro r m2 ⟨nodes2, hf2, ⟨rfl, ht2⟩ | ⟨rfl, ht2⟩⟩
  · rw [if_pos (by decide)]
    exact hfree ht2 (fun _ _ => rfl) (hf.trans hf2)
  have hf12 := hf.trans hf2
  rw [if_neg (by decide)]
  refine Ok.bind (mappages_spec ht2 (hf12.ram hram) (by decide) (by decide) htf (by decide) ?_) ?_
  · rw [update_of_ne (by decide : TRAPFRAME / PGSIZE ≠ TRAMPOLINE / PGSIZE), Nat.zero_and]
  rintro r m3 ⟨nodes3, hf3, ⟨rfl, ht3⟩ | ⟨rfl, ht3⟩⟩
  · rw [if_pos (by decide)]
    have hf13 := hf12.trans hf3
    refine Ok.bind (unmap_top TRAMPOLINE ht3 (hf13.ram hram) (by decide) (by decide) ?_) ?_
    · rw [update_self]
      exact isLeaf_mkPte (by decide)
    · rintro _ m4 ⟨ht4, hf4⟩
      refine hfree ht4 (fun v _ => ?_) (hf13.trans hf4)
      by_cases hv : v = TRAMPOLINE / PGSIZE
      · rw [hv, update_self]
      · rw [update_of_ne hv, update_of_ne hv]
  · rw [if_neg (by decide)]
    refine Ok.pure (.inr ⟨t, _, nodes3, rfl, ⟨ht3, fun v hv => absurd hv (by omega), ?_, ?_, fun v _ _ h1 h2 => ?_⟩,
      hf12.trans hf3⟩)
    · exact update_self _ _ _
    · rw [update_of_ne (by decide : trampolinePage ≠ TRAPFRAME / PGSIZE)]
      exact update_self _ _ _
    · exact (update_of_ne h1 _ _).trans (update_of_ne h2 _ _)

end

end Xv6.Vm
