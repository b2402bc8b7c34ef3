import Xv6.Vm.Copy

/-!
# The break of a process

`growproc` of `kernel/proc.c` and `sys_sbrk` of `kernel/sysproc.c`.  The size is a
`uint64` and the increment an `int`, so `sz + n` is taken modulo `2 ^ 64`.  When
`sz + n` is not negative, `sbrk` moves the break by `n` or fails without a trace
(`sysSbrk_exact`); below zero the sum wraps to a size that `uvmdealloc` takes for
growth, and `sbrk` succeeds without moving the break.
-/

namespace Xv6.Vm

open Total

/-- The fields of `struct proc` that say where its memory is. -/
structure UserProc where
  pagetable : Nat
  sz : Nat
  trapframe : Nat
  deriving DecidableEq, Repr

theorem userByte_congr {m m' : Mem} {leaf leaf' : Nat → Nat} {k va : Nat} (hva : va < k * PGSIZE)
    (hsame : ∀ v < k, leaf' v = leaf v ∧ m'.page (PTE2PA (leaf v)) = m.page (PTE2PA (leaf v))) :
    userByte m' leaf' va = userByte m leaf va := by
  obtain ⟨hl, hp⟩ := hsame (va / PGSIZE) (Nat.div_lt_of_lt_mul (Nat.mul_comm k PGSIZE ▸ hva))
  show m'.page (PTE2PA (leaf' (va / PGSIZE))) (va % PGSIZE) = _
  rw [hl, hp]
  rfl

section
variable [Symbols]

def growproc (p : UserProc) (n : Int) : Kernel (Int × UserProc) :=
  if n > 0 then do
    let sz ← uvmalloc p.pagetable p.sz (toUInt64 (p.sz + n)) PTE_W
    if sz = 0 then pure (-1, p) else pure (0, { p with sz := sz })
  else if n < 0 then do
    let sz ← uvmdealloc p.pagetable p.sz (toUInt64 (p.sz + n))
    pure (0, { p with sz := sz })
  else pure (0, p)

def sysSbrk (p : UserProc) (n : Int) : Kernel (Int × UserProc) := do
  let (r, p') ← growproc p n
  if r < 0 then pure (-1, p') else pure (p.sz, p')

/-- The memory of a process: its address space, and the pages it owns. -/
structure HasSpace (m : Mem) (p : UserProc) (leaf : Nat → Nat) (nodes : Multiset Nat) : Prop where
  space : Space m p.pagetable p.trapframe (pages p.sz) leaf nodes
  ram : Ram m (nodes + frames leaf 0 (pages p.sz))

variable {leaf : Nat → Nat} {nodes : Multiset Nat}

theorem HasSpace.size_le {m : Mem} {p : UserProc} (h : HasSpace m p leaf nodes) : p.sz ≤ ramPages * PGSIZE :=
  Nat.le_trans (le_pages p.sz) (Nat.mul_le_mul_right _ h.ram.pages_le)

section
variable {m m' : Mem} {p : UserProc} {leaf leaf' : Nat → Nat} {nodes nodes' : Multiset Nat} {perm sz : Nat}

theorem Grown.hasSpace (h : HasSpace m p leaf nodes)
    (hg : Grown m p.pagetable p.trapframe (pages p.sz) leaf nodes perm (pages sz) m' leaf' nodes') :
    HasSpace m' { p with sz := sz } leaf' nodes' ∧
      (∀ v < pages p.sz, leaf' v = leaf v ∧ m'.page (PTE2PA (leaf v)) = m.page (PTE2PA (leaf v))) ∧
      ∀ v, pages p.sz ≤ v → v < pages sz → m'.page (PTE2PA (leaf' v)) = fun _ => 0 := by
  refine ⟨⟨hg.space, hg.ram h.ram⟩, fun v hv => ⟨hg.old v (by omega), ?_⟩, fun v h1 h2 => ?_⟩
  · exact hg.frame.other h.ram (mem_frames (Nat.zero_le v) (by omega))
  · obtain ⟨q, -, hq, hz⟩ := hg.new v h1 h2
    rw [hq, hz]

theorem HasSpace.shrink (h : HasSpace m p leaf nodes) (hle : pages sz ≤ pages p.sz)
    (hs : Space m' p.pagetable p.trapframe (pages sz) (unmapped leaf (pages sz) (pages p.sz - pages sz)) nodes)
    (hf : Frame m m' (nodes + frames leaf (pages sz) (pages p.sz - pages sz)) nodes) :
    HasSpace m' { p with sz := sz } (unmapped leaf (pages sz) (pages p.sz - pages sz)) nodes ∧
      ∀ v < pages sz, unmapped leaf (pages sz) (pages p.sz - pages sz) v = leaf v ∧
        m'.page (PTE2PA (leaf v)) = m.page (PTE2PA (leaf v)) := by
  have hlow : ∀ v < pages sz, unmapped leaf (pages sz) (pages p.sz - pages sz) v = leaf v := fun v hv =>
    if_neg (by omega)
  have hram := h.ram
  obtain ⟨k, hk⟩ := Nat.exists_eq_add_of_le hle
  have hsub : pages p.sz - pages sz = k := by omega
  rw [hsub] at hs hf hlow ⊢
  have hall : nodes + frames leaf 0 (pages p.sz) = nodes + frames leaf (pages sz) k + frames leaf 0 (pages sz) := by
    rw [hk, frames_add, Nat.zero_add, add_assoc, add_comm (frames leaf (pages sz) k)]
  rw [hall] at hram
  refine ⟨⟨hs, ?_⟩, fun v hv => ⟨hlow v hv, hf.other hram (mem_frames (Nat.zero_le v) (by omega))⟩⟩
  have hframes : frames (unmapped leaf (pages sz) k) 0 (pages sz) = frames leaf 0 (pages sz) :=
    frames_congr fun v _ hv => hlow v (by omega)
  show Ram m' (nodes + frames (unmapped leaf (pages sz) k) 0 (pages sz))
  rw [hframes]
  exact (hf.add _).ram hram

end

/-- The user memory is as in `m`: the same pages with the same bytes. -/
def Kept (m : Mem) (p : UserProc) (leaf : Nat → Nat) (m' : Mem) : Prop :=
  (∃ nodes', HasSpace m' p leaf nodes') ∧ ∀ v < pages p.sz, m'.page (PTE2PA (leaf v)) = m.page (PTE2PA (leaf v))

/-- The break is at `p'.sz`: the bytes below both breaks are as in `m` and the new pages are zero. -/
def Moved (m : Mem) (p : UserProc) (leaf : Nat → Nat) (p' : UserProc) (m' : Mem) : Prop :=
  ∃ leaf' nodes', HasSpace m' p' leaf' nodes' ∧ (∀ va < min p.sz p'.sz, userByte m' leaf' va = userByte m leaf va) ∧
    ∀ v, pages p.sz ≤ v → v < pages p'.sz → m'.page (PTE2PA (leaf' v)) = fun _ => 0

theorem growproc_spec {m : Mem} {p : UserProc} (h : HasSpace m p leaf nodes)
    {n : Int} {newsz : Nat} (hnew : (newsz : Int) = p.sz + n) (hlt : newsz < 2 ^ 64) : Ok (growproc p n) m fun r m' =>
      (r = (-1, p) ∧ Kept m p leaf m') ∨ (r = (0, { p with sz := newsz }) ∧ Moved m p leaf
      { p with sz := newsz } m') := by
  have hw : toUInt64 (p.sz + n) = newsz := by
    rw [← hnew, toUInt64]
    omega
  rw [growproc, hw]
  by_cases hpos : n > 0
  · rw [if_pos hpos]
    refine Ok.bind (uvmalloc_spec h.space h.ram (by decide)) ?_
    rintro r m' (⟨hlt, -, -⟩ | ⟨-, ⟨rfl, nodes', hs, hf⟩ | ⟨rfl, leaf', nodes', hg⟩⟩)
    · omega
    · rw [if_pos rfl]
      refine Ok.pure (.inl ⟨rfl, ⟨nodes', hs, (hf.add _).ram h.ram⟩, fun v hv => ?_⟩)
      exact hf.other h.ram (mem_frames (Nat.zero_le v) (by omega))
    · obtain ⟨hsp, hold, hzero⟩ := hg.hasSpace h
      rw [if_neg (by omega)]
      refine Ok.pure (.inr ⟨rfl, leaf', nodes', hsp, fun va hva => ?_, hzero⟩)
      exact userByte_congr (Nat.lt_of_lt_of_le (Nat.lt_of_lt_of_le hva (Nat.min_le_left _ _)) (le_pages p.sz)) hold
  rw [if_neg hpos]
  by_cases hneg : n < 0
  · rw [if_pos hneg]
    refine Ok.bind (uvmdealloc_spec h.space h.ram) ?_
    rintro r m' (⟨hle, -, -⟩ | ⟨hlt, rfl, hs, hf⟩)
    · omega
    · have hle : pages r ≤ pages p.sz := pages_mono (by omega)
      obtain ⟨hsp, hold⟩ := h.shrink hle hs hf
      refine Ok.pure (.inr ⟨rfl, _, nodes, hsp, fun va hva => ?_, fun v h1 h2 => ?_⟩)
      · exact userByte_congr (Nat.lt_of_lt_of_le (Nat.lt_of_lt_of_le hva (Nat.min_le_right _ _)) (le_pages r)) hold
      · exact absurd h2 (Nat.not_lt.mpr (Nat.le_trans hle h1))
  · obtain rfl : newsz = p.sz := by omega
    rw [if_neg hneg]
    exact Ok.pure (.inr ⟨rfl, leaf, nodes, h, fun _ _ => rfl, fun v h1 h2 => absurd h2 (Nat.not_lt.mpr h1)⟩)

/-- What `sbrk(n)` is to do: it fails and leaves the user memory as it was, or it returns the old break and moves it
by `n`. -/
def Moves (m : Mem) (p : UserProc) (leaf : Nat → Nat) (n r : Int) (p' : UserProc) (m' : Mem) : Prop :=
  (r = -1 ∧ p' = p ∧ Kept m p leaf m') ∨
    (r = p.sz ∧ p' = { p with sz := p'.sz } ∧ (p'.sz : Int) = p.sz + n ∧ Moved m p leaf p' m')

/-- Below address 0 the sum wraps around, and `uvmdealloc` leaves the break where it is. -/
theorem growproc_wraps {p : UserProc} {n : Int} (hsz : p.sz < 2 ^ 63) (hlo : -2 ^ 31 ≤ n) (hn : p.sz + n < 0)
    (m : Mem) : growproc p n m = .ok ((0, p), m) := by
  have hge : toUInt64 (p.sz + n) ≥ p.sz := by
    rw [toUInt64]
    omega
  have hdealloc : uvmdealloc p.pagetable p.sz (toUInt64 (p.sz + n)) = pure p.sz := by
    rw [uvmdealloc, if_pos hge]
  rw [growproc, if_neg (by omega), if_pos (by omega), hdealloc]
  rfl

/-- `sbrk` moves the break by `n` or fails exactly when the break does not go below address 0. -/
theorem sysSbrk_exact {m : Mem} {p : UserProc} {leaf : Nat → Nat} {nodes : Multiset Nat} (h : HasSpace m p leaf nodes)
    (n : Int) (hlo : -2 ^ 31 ≤ n) (hhi : n < 2 ^ 31) :
    ∃ r p' m', sysSbrk p n m = .ok ((r, p'), m') ∧ (Moves m p leaf n r p' m' ↔ 0 ≤ p.sz + n) := by
  have hsz := h.size_le
  simp only [ramPages, PGSIZE] at hsz
  by_cases hn : 0 ≤ p.sz + n
  · obtain ⟨newsz, hnew⟩ := Int.eq_ofNat_of_zero_le hn
    obtain ⟨rp, m', hrun, ⟨rfl, hk⟩ | ⟨rfl, hm⟩⟩ := growproc_spec h hnew.symm (by omega)
    · exact ⟨-1, p, m', bind_eq hrun, iff_of_true (.inl ⟨rfl, rfl, hk⟩) hn⟩
    · exact ⟨p.sz, _, m', bind_eq hrun, iff_of_true (.inr ⟨rfl, rfl, hnew.symm, hm⟩) hn⟩
  · refine ⟨p.sz, p, m, bind_eq (growproc_wraps (by omega) hlo (by omega) m), iff_of_false ?_ hn⟩
    rintro (⟨hr, -, -⟩ | ⟨-, -, hmoved, -⟩) <;> omega

end

/-! ## The first process -/

def bootMem : Mem := ⟨fun _ _ => 0, (List.range 8).map fun i => 0x80011000 + 4096 * i, []⟩

/-- A page table with the trapframe `0x80010000`, grown to `sz` bytes. -/
def firstSpace [Symbols] (sz : Nat) : Kernel (Option (Nat × Nat)) := do
  match ← procPagetable 0x80010000 with
  | none => pure none
  | some t => do
      let r ← uvmalloc t 0 sz PTE_W
      pure (some (t, r))

theorem firstSpace_spec [Symbols] {sz : Nat} (h0 : 0 < sz) (m : Mem) (hram : Ram m 0) : Ok (firstSpace sz) m fun r m' =>
    ∀ t, r = some (t, sz) → ∃ leaf nodes, HasSpace m' ⟨t, sz, 0x80010000⟩ leaf nodes := by
  refine Ok.bind (procPagetable_spec hram (by decide)) ?_
  rintro _ m1 (⟨rfl, -⟩ | ⟨t, leaf, nodes, rfl, hs, hf⟩)
  · exact Ok.pure fun t ht => absurd ht (by simp)
  · have hram1 : Ram m1 (nodes + frames leaf 0 (pages 0)) := (add_zero nodes).symm ▸ hf.ram hram
    have halloc : Ok (uvmalloc t 0 sz PTE_W) m1 _ := uvmalloc_spec hs hram1 (by decide)
    refine Ok.bind halloc ?_
    rintro r m2 (⟨hlt, -, -⟩ | ⟨-, ⟨rfl, -⟩ | ⟨rfl, leaf', nodes', hg⟩⟩)
    · exact absurd hlt (by omega)
    · exact Ok.pure fun t' ht => absurd (Prod.mk.inj (Option.some.inj ht)).2 (by omega)
    · refine Ok.pure fun t' ht => ?_
      obtain ⟨rfl, -⟩ := Prod.mk.inj (Option.some.inj ht)
      exact ⟨leaf', nodes', hg.space, hg.ram hram1⟩

def memAfter {α : Type} (f : Kernel α) (m : Mem) : Mem :=
  match f m with
  | .ok (_, m') => m'
  | .error _ => m

theorem memAfter_ok {α : Type} {f : Kernel α} {m m' : Mem} {a : α} (h : f m = .ok (a, m')) : memAfter f m = m' := by
  rw [memAfter, h]

/-- The memory after the first process has grown to `sz` bytes. -/
def firstMem (sz : Nat) : Mem := memAfter (@firstSpace smallKernel sz) bootMem

theorem first_process (sz : Nat) (h0 : 0 < sz)
    (hrun : (@firstSpace smallKernel sz bootMem).toOption.map (·.1) = some (some (0x80011000, sz))) :
    ∃ leaf nodes, @HasSpace smallKernel (firstMem sz) ⟨0x80011000, sz, 0x80010000⟩ leaf nodes := by
  have hram : @Ram smallKernel bootMem 0 := @Ram.mk smallKernel _ _ (by decide) (by decide)
  obtain ⟨r, m, heq, h⟩ := @firstSpace_spec smallKernel sz h0 bootMem hram
  rw [heq] at hrun
  rw [firstMem, memAfter_ok heq]
  exact h _ (Option.some.inj hrun)

/-- A process of one page that grows by 5000 bytes: its address space then has three pages. -/
theorem sysSbrk_exact_grow : ∃ leaf m',
    @sysSbrk smallKernel ⟨0x80011000, 4096, 0x80010000⟩ 5000 (firstMem 4096) =
      .ok ((4096, ⟨0x80011000, 9096, 0x80010000⟩), m') ∧
    @Moved smallKernel (firstMem 4096) ⟨0x80011000, 4096, 0x80010000⟩ leaf ⟨0x80011000, 9096, 0x80010000⟩ m' := by
  obtain ⟨leaf, nodes, h⟩ := first_process 4096 (by decide) (by decide +kernel)
  obtain ⟨r, p', m', hrun, hiff⟩ := @sysSbrk_exact smallKernel _ _ _ _ h 5000 (by decide) (by decide)
  have hres : (@sysSbrk smallKernel ⟨0x80011000, 4096, 0x80010000⟩ 5000 (firstMem 4096)).toOption.map (·.1) =
      some (4096, ⟨0x80011000, 9096, 0x80010000⟩) := by
    decide +kernel
  rw [hrun] at hres
  obtain ⟨rfl, rfl⟩ := Prod.mk.inj (Option.some.inj hres)
  rcases hiff.mpr (by decide) with ⟨hr, -⟩ | ⟨-, -, -, hm⟩
  · exact absurd hr (by decide)
  · exact ⟨leaf, m', hrun, hm⟩

/-- A process of one page that asks to give back two: `sbrk` returns the old break, which does not move. -/
theorem sysSbrk_below_zero : ∃ leaf nodes,
    @HasSpace smallKernel (firstMem 4096) ⟨0x80011000, 4096, 0x80010000⟩ leaf nodes ∧
    @sysSbrk smallKernel ⟨0x80011000, 4096, 0x80010000⟩ (-8192) (firstMem 4096) =
      .ok ((4096, ⟨0x80011000, 4096, 0x80010000⟩), firstMem 4096) := by
  obtain ⟨leaf, nodes, h⟩ := first_process 4096 (by decide) (by decide +kernel)
  exact ⟨leaf, nodes, h, rfl⟩

end Xv6.Vm
