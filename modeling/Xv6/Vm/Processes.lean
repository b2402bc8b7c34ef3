import Mathlib.Algebra.BigOperators.Group.Finset.Basic
import Xv6.Param
import Xv6.Vm.Sbrk

/-!
# The memory of all processes

What `allocproc`, `freeproc` and `fork` of `kernel/proc.c` do to memory, and runs of them and
of `growproc` on the whole process table, where any call of `kalloc` may fail.  Every page
is at all times free or in one process, once (`run_owns`).
-/

namespace Xv6.Vm

open Total Function
open Multiset (mem_add mem_cons_self mem_cons_of_mem nodup_cons cons_add add_cons)

/-! ## Pages -/

variable {m : Mem}

theorem movePage_spec (dst src : Nat) : Ok (movePage dst src) m fun _ m' => (∀ q, q ≠ dst → m'.page q = m.page q) ∧
    m'.free = m.free ∧ m'.page dst = m.page src :=
  Ok.of_eq rfl ⟨fun _ hq => update_of_ne hq _ _, rfl, update_self _ _ _⟩

/-- `*(np->trapframe) = *(p->trapframe); np->trapframe->a0 = 0` -/
def forkTrapframe (np p : Nat) : Kernel Unit := fun m =>
  .ok ((), { m with page := update m.page np fun k =>
    if 112 ≤ k ∧ k < 120 then 0 else if k < 288 then m.page p k else m.page np k })

theorem forkTrapframe_spec (np q : Nat) : Ok (forkTrapframe np q) m fun _ m' => (∀ a, a ≠ np → m'.page a = m.page a) ∧
    m'.free = m.free ∧ ∀ k < 288, m'.page np k = if 112 ≤ k ∧ k < 120 then 0 else m.page q k := by
  refine Ok.of_eq rfl ⟨fun a ha => update_of_ne ha _ _, rfl, fun k hk => ?_⟩
  show update m.page np _ np k = _
  rw [update_self, if_pos hk]

theorem IsLeaf.flags {pte : Nat} (h : IsLeaf pte) : PTE_FLAGS pte &&& PTE_R ≠ 0 ∧ PTE_FLAGS pte ||| PTE_V =
    PTE_FLAGS pte := by
  have hodd : ∀ x < 1024, x &&& PTE_V ≠ 0 → x ||| PTE_V = x := by decide +kernel
  have hand : ∀ f, 0x3FF &&& f = f → PTE_FLAGS pte &&& f = pte &&& f := fun f hf => by rw [PTE_FLAGS, Nat.and_assoc, hf]
  refine ⟨hand PTE_R rfl ▸ h.2, hodd _ ?_ (hand PTE_V rfl ▸ h.1)⟩
  rw [PTE_FLAGS_eq]
  omega

/-- The pages of a process. -/
def UserProc.own (p : UserProc) (leaf : Nat → Nat) (nodes : Multiset Nat) : Multiset Nat :=
  p.trapframe ::ₘ (nodes + frames leaf 0 (pages p.sz))

theorem pages_zero : pages 0 = 0 := by decide

theorem own_zero (t tf : Nat) (leaf : Nat → Nat) (nodes : Multiset Nat) :
    (⟨t, 0, tf⟩ : UserProc).own leaf nodes = tf ::ₘ nodes := by
  rw [UserProc.own, pages_zero]
  exact congrArg _ (add_zero nodes)

theorem own_sum (own : Fin NPROC → Multiset Nat) (i : Fin NPROC) :
    ∑ j, own j = own i + ∑ j ∈ Finset.univ \ {i}, own j := by
  rw [← Finset.sum_update_of_mem (Finset.mem_univ i), update_eq_self]

/-! ## `kernel/proc.c` -/

section
variable [Symbols]

def freeproc (p : UserProc) : Kernel Unit := do
  (if p.trapframe ≠ 0 then kfree p.trapframe else pure ())
  (if p.pagetable ≠ 0 then procFreepagetable p.pagetable p.sz else pure ())

/-- `allocproc`, from the trapframe on. -/
def allocproc : Kernel (Option UserProc) := do
  match ← kalloc with
  | none => do
      freeproc ⟨0, 0, 0⟩
      pure none
  | some trapframe => do
      match ← procPagetable trapframe with
      | none => do
          freeproc ⟨0, 0, trapframe⟩
          pure none
      | some pagetable => pure (some ⟨pagetable, 0, trapframe⟩)

def fork (p : UserProc) : Kernel (Option UserProc) := do
  match ← allocproc with
  | none => pure none
  | some np => do
      let r ← uvmcopy p.pagetable np.pagetable p.sz
      if r < 0 then do
        freeproc np
        pure none
      else do
        forkTrapframe np.trapframe p.trapframe
        pure (some { np with sz := p.sz })

variable {m' : Mem} {t tf n : Nat} {leaf : Nat → Nat} {nodes o : Multiset Nat}

theorem Space.congr (h : Space m t tf n leaf nodes) (hp : ∀ a ∈ nodes, m'.page a = m.page a) :
    Space m' t tf n leaf nodes :=
  ⟨h.tree.congr hp, h.user, h.trapframe, h.trampoline, h.unmapped⟩

/-! ## `uvmcopy` -/

theorem Space.succ {v pa perm : Nat} (h : Space m t tf v leaf nodes) (hv : v < ramPages) (hr : perm &&& PTE_R ≠ 0)
    (ht : Tree m' 2 t (update leaf v (mkPte pa perm)) o) : Space m' t tf (v + 1) (update leaf v (mkPte pa perm)) o := by
  obtain ⟨h1, h2, -⟩ := ramPages_lt
  refine ⟨ht, fun w hw => ?_, ?_, ?_, fun w hw hvw hw1 hw2 => ?_⟩
  · rcases Nat.lt_succ_iff_lt_or_eq.mp hw with hw | rfl
    · rw [update_of_ne (by omega)]
      exact h.user w hw
    · rw [update_self]
      exact isLeaf_mkPte hr
  · rw [update_of_ne (by omega)]
    exact h.trapframe
  · rw [update_of_ne (by omega)]
    exact h.trampoline
  · rw [update_of_ne (by omega)]
    exact h.unmapped w hw (by omega) hw1 hw2

/-- The table `t` has copies of the pages `0, …, v - 1` of the table with the entries `old`. -/
structure Copied (m : Mem) (old : Nat → Nat) (nodes : Multiset Nat) (t tf v : Nat) (m' : Mem) (leaf' : Nat → Nat)
    (nodes' : Multiset Nat) : Prop where
  space : Space m' t tf v leaf' nodes'
  same : ∀ w < v, PTE_FLAGS (leaf' w) = PTE_FLAGS (old w) ∧ m'.page (PTE2PA (leaf' w)) = m.page (PTE2PA (old w))
  frame : Frame m m' nodes (nodes' + frames leaf' 0 v)

/-- How `uvmcopy` ends: without a page of the new table, or with copies of all. -/
def CopyEnd (m : Mem) (old : Nat → Nat) (nodes : Multiset Nat) (t tf n : Nat) (r : Int) (m' : Mem) : Prop :=
  (r = -1 ∧ ∃ leaf' nodes', Space m' t tf 0 leaf' nodes' ∧ Frame m m' nodes nodes') ∨
    (r = 0 ∧ ∃ leaf' nodes', Copied m old nodes t tf n m' leaf' nodes')

section
variable {old leaf' : Nat → Nat} {v : Nat} {nodes' nodes1 : Multiset Nat} {m1 : Mem}
  (h : Copied m old nodes t tf v m' leaf' nodes')
include h

theorem Copied.fail (hv : v ≤ ramPages) (hram : Ram m nodes) (ht : Tree m1 2 t leaf' nodes1)
    (hf : Frame m m1 nodes (nodes1 + frames leaf' 0 v)) :
    Ok (uvmunmap t 0 v true >>= fun _ => pure (-1)) m1 (CopyEnd m old nodes t tf n) := by
  refine Ok.bind (uvmunmap_spec true ht (Nat.zero_mul _).symm ?_ (fun w _ hw => h.space.user w (by omega))
    (hf.ram hram)) ?_
  · simp only [ramPages, PGSIZE, MAXVA] at hv ⊢
    omega
  · rintro _ m2 ⟨ht2, hf2⟩
    have hs : Space m1 t tf v leaf' nodes1 := ⟨ht, h.space.user, h.space.trapframe, h.space.trampoline,
      h.space.unmapped⟩
    exact Ok.pure (.inl ⟨rfl, _, nodes1, hs.unmap (Nat.zero_le v) hv ht2, hf.trans hf2⟩)

theorem Copied.succ {p : Nat} (hv : v < ramPages) (hl : IsLeaf (old v)) (hp : IsPage p)
    (hf : Frame m' m1 (nodes' + frames leaf' 0 v) (p ::ₘ (nodes1 + frames leaf' 0 v)))
    (hkeep : ∀ q ∈ frames leaf' 0 v, m1.page q = m'.page q) (hcopy : m1.page p = m.page (PTE2PA (old v)))
    (ht : Tree m1 2 t (update leaf' v (mkPte p (PTE_FLAGS (old v)))) nodes1) :
    Copied m old nodes t tf (v + 1) m1 (update leaf' v (mkPte p (PTE_FLAGS (old v)))) nodes1 := by
  obtain ⟨hread, hflags⟩ := hl.flags
  have hperm : PTE_FLAGS (old v) < 1024 := by
    rw [PTE_FLAGS_eq]
    omega
  have hpa : PTE2PA (mkPte p (PTE_FLAGS (old v))) = p := PTE2PA_mkPte hp.1 hp.lt hperm
  refine ⟨h.space.succ hv hread ht, fun w hw => ?_, ?_⟩
  · rcases Nat.lt_succ_iff_lt_or_eq.mp hw with hw | rfl
    · rw [update_of_ne (by omega), hkeep _ (mem_frames (Nat.zero_le w) (by omega))]
      exact h.same w hw
    · rw [update_self, hpa, PTE_FLAGS_mkPte hperm, hflags]
      exact ⟨rfl, hcopy⟩
  · rw [frames_last, frames_congr fun w _ h2 => update_of_ne (by omega) _ _, Nat.zero_add, update_self, hpa, add_cons]
    exact h.frame.trans hf

end

theorem copyLoop_spec {old otf sz : Nat} {oleaf : Nat → Nat} {onodes : Multiset Nat}
    (ho : Space m old otf (pages sz) oleaf onodes) (hram : Ram m (nodes + (onodes + frames oleaf 0 (pages sz))))
    (fuel : Nat) : ∀ {v : Nat} {m' : Mem} {leaf' : Nat → Nat} {nodes' : Multiset Nat},
    Copied m oleaf nodes t tf v m' leaf' nodes' → v ≤ pages sz → sz / PGSIZE + 2 ≤ fuel + v →
    Ok (copyLoop old t sz fuel (v * PGSIZE)) m' (CopyEnd m oleaf nodes t tf (pages sz)) := by
  have hn := hram.right.pages_le
  obtain ⟨hr1, hr2, hr3⟩ := ramPages_lt
  induction fuel with
  | zero =>
    intro v m' leaf' nodes' _ h1 h2
    simp only [pages, PGSIZE] at h1 h2
    omega
  | succ fuel ih =>
    intro v m' leaf' nodes' h hv hfuel
    have hram' := (h.frame.add _).ram hram
    rw [copyLoop]
    by_cases ha : v * PGSIZE < sz
    swap
    · have hvp : v = pages sz := by
        simp only [pages, PGSIZE] at ha hv ⊢
        omega
      rw [if_neg ha]
      exact Ok.pure (.inr ⟨rfl, leaf', nodes', hvp ▸ h⟩)
    have hvn : v < pages sz := by
      simp only [pages, PGSIZE] at ha ⊢
      omega
    have hva : v * PGSIZE < MAXVA := by
      simp only [ramPages, PGSIZE, MAXVA] at hn ⊢
      omega
    have hdiv : v * PGSIZE / PGSIZE = v := Nat.mul_div_cancel _ (by decide)
    rw [if_pos ha]
    -- the pages of the old table are as they were
    have hold : ∀ a ∈ onodes + frames oleaf 0 (pages sz), m'.page a = m.page a := fun a ha => h.frame.other hram ha
    refine Ok.bind (walk_find (ho.tree.congr fun a ha => hold a (mem_add.mpr (.inl ha))) hram'.right.left hva) ?_
    rw [hdiv]
    rintro _ m' ⟨rfl, ⟨-, hz⟩ | ⟨a, k, rfl, hslot⟩⟩
    · exact absurd (by rw [hz, Nat.zero_and]) (ho.user v hvn).1
    apply getPte_bind
    rw [hslot.word_eq, if_neg (ho.user v hvn).1]
    refine Ok.bind (kalloc_spec m' (nodes' + frames leaf' 0 v)) ?_
    rintro _ m1 (⟨rfl, hpages, hf⟩ | ⟨p, rfl, hpages, hf⟩)
    · exact h.fail (by omega) hram.left (h.space.tree.congr fun a _ => by rw [hpages]) (h.frame.trans hf)
    refine Ok.bind (movePage_spec p (PTE2PA (oleaf v))) ?_
    rintro _ m2 ⟨hother, hfree2, hcopy⟩
    have hf2 := hf.trans (.of_pages hfree2 fun q hq => hother q fun hc => hq (hc ▸ mem_cons_self _ _))
    have hram2 := (hf2.add _).ram hram'
    have hpp := hram2.left.own_isPage (mem_cons_self p _)
    have hkeep : ∀ q ∈ nodes' + frames leaf' 0 v, m2.page q = m'.page q := fun q hq => by
      have hne : q ≠ p := fun hc => (nodup_cons.mp hram2.left.own_nodup).1 (hc ▸ hq)
      rw [hother q hne, hpages q hne]
    have hperm : PTE_FLAGS (oleaf v) < 1024 := by
      rw [PTE_FLAGS_eq]
      omega
    have hfree : leaf' (v * PGSIZE / PGSIZE) &&& PTE_V = 0 := by
      rw [hdiv, h.space.unmapped v (by omega) (Nat.le_refl v) (by omega) (by omega), Nat.zero_and]
    refine Ok.bind (mappages_spec (h.space.tree.congr fun a ha => hkeep a (mem_add.mpr (.inl ha)))
      hram2.left.tail.left (Nat.mul_mod_left _ _) hva hpp.lt hperm hfree) ?_
    rintro r m3 ⟨nodes3, hf3, ht3⟩
    have hf' := (hf3.add (frames leaf' 0 v)).cons p
    rcases ht3 with ⟨rfl, ht3⟩ | ⟨rfl, ht3⟩
    · rw [if_pos (by decide)]
      refine Ok.bind (kfree_spec hpp (nodes3 + frames leaf' 0 v)) ?_
      rintro _ m4 ⟨hpages4, -, hf4⟩
      refine h.fail (by omega) hram.left (ht3.congr fun a ha => hpages4 a ?_)
        (h.frame.trans (hf2.trans (hf'.trans hf4)))
      rintro rfl
      exact (nodup_cons.mp (hf'.ram hram2.left).own_nodup).1 (mem_add.mpr (.inl ha))
    · have hnext : (v * PGSIZE + PGSIZE) % 2 ^ 64 = (v + 1) * PGSIZE := by
        simp only [PGSIZE, MAXVA] at hva ⊢
        omega
      have hsrc : PTE2PA (oleaf v) ∈ onodes + frames oleaf 0 (pages sz) :=
        mem_add.mpr (.inr (mem_frames (Nat.zero_le v) (by omega)))
      have hne : PTE2PA (oleaf v) ≠ p := fun hc => hram2.not_mem hsrc (mem_add.mpr (.inr (hc ▸ mem_cons_self _ _)))
      rw [hdiv] at ht3
      rw [if_neg (by decide), hnext]
      refine ih (h.succ (by omega) (ho.user v hvn) hpp (hf2.trans hf') (fun q hq => ?_) ?_ ht3) hvn (by omega)
      · rw [hf3.other hram2.left.tail hq, hkeep q (mem_add.mpr (.inr hq))]
      · rw [hf3.page p (cons_add p nodes' _ ▸ hram2.left).left.head_not_mem, hcopy, hpages _ hne, hold _ hsrc]

/-! ## Processes -/

theorem procFreepagetable_spec {sz : Nat} (hs : Space m t tf (pages sz) leaf nodes)
    (hram : Ram m (nodes + frames leaf 0 (pages sz))) :
    Ok (procFreepagetable t sz) m fun _ m' => Frame m m' (nodes + frames leaf 0 (pages sz)) 0 := by
  have hle := hram.pages_le
  obtain ⟨h1, h2, h3⟩ := ramPages_lt
  have hl1 : IsLeaf (leaf trampolinePage) := hs.trampoline ▸ isLeaf_mkPte (by decide)
  have hl2 : IsLeaf (leaf trapframePage) := hs.trapframe ▸ isLeaf_mkPte (by decide)
  refine Ok.bind (unmap_top TRAMPOLINE hs.tree hram.left (by decide) (by decide) hl1) ?_
  rintro _ m1 ⟨ht1, hf1⟩
  refine Ok.bind (unmap_top TRAPFRAME ht1 (hf1.ram hram.left) (by decide) (by decide) ?_) ?_
  · exact update_of_ne (by decide : trapframePage ≠ trampolinePage) _ _ ▸ hl2
  rintro _ m2 ⟨ht2, hf2⟩
  change Tree m2 2 t (update (update leaf trampolinePage 0) trapframePage 0) nodes at ht2
  have hf := (hf1.trans hf2).add (frames leaf 0 (pages sz))
  have hsame : ∀ v < pages sz, update (update leaf trampolinePage 0) trapframePage 0 v = leaf v := by
    intro v hv
    rw [update_of_ne (by omega), update_of_ne (by omega)]
  have hframes : frames (update (update leaf trampolinePage 0) trapframePage 0) 0 (pages sz) = frames leaf 0
    (pages sz) :=
    frames_congr fun v _ hv => hsame v (by omega)
  have hfree : Ok (uvmfree t sz) m2 _ := uvmfree_spec ht2 (hframes.symm ▸ hf.ram hram)
    (fun v hv => hsame v hv ▸ hs.user v hv) fun v hv hp => ?_
  · exact hfree.mono fun _ m3 hf3 => hf.trans (hframes ▸ hf3)
  · by_cases hv1 : v = trapframePage
    · rw [hv1, update_self, Nat.zero_and]
    · by_cases hv2 : v = trampolinePage
      · rw [update_of_ne hv1, hv2, update_self, Nat.zero_and]
      · rw [update_of_ne hv1, update_of_ne hv2, hs.unmapped v hv hp hv1 hv2, Nat.zero_and]

/-- A process with its address space and its own pages. -/
structure Live (m : Mem) (p : UserProc) (leaf : Nat → Nat) (nodes : Multiset Nat) : Prop where
  space : Space m p.pagetable p.trapframe (pages p.sz) leaf nodes
  ram : Ram m (p.own leaf nodes)

variable {p : UserProc}

theorem freeproc_spec (h : Live m p leaf nodes) : Ok (freeproc p) m fun _ m' => Frame m m' (p.own leaf nodes) 0 := by
  obtain ⟨hs, hram⟩ := h
  have hp := hram.own_isPage (mem_cons_self _ _)
  have ht := hram.tail.left.own_isPage (Radix.Rep.root_mem hs.tree)
  rw [freeproc, if_pos (Nat.ne_of_gt hp.pos), if_pos (Nat.ne_of_gt ht.pos)]
  refine Ok.bind (kfree_spec hp (nodes + frames leaf 0 (pages p.sz))) ?_
  rintro _ m1 ⟨hpages, -, hf⟩
  refine (procFreepagetable_spec (hs.congr fun a ha => hpages a ?_) (hf.ram hram)).mono fun _ m2 hf2 => hf.trans hf2
  rintro rfl
  exact (nodup_cons.mp hram.own_nodup).1 (mem_add.mpr (.inl ha))

theorem allocproc_spec (hram : Ram m 0) : Ok allocproc m fun r m' => (r = none ∧ Frame m m' 0 0) ∨
    ∃ t tf leaf nodes, r = some ⟨t, 0, tf⟩ ∧ Space m' t tf 0 leaf nodes ∧ Frame m m' 0 (tf ::ₘ nodes) := by
  refine Ok.bind (kalloc_spec m 0) ?_
  rintro _ m1 (⟨rfl, -, hf⟩ | ⟨tf, rfl, -, hf⟩)
  · exact Ok.of_eq rfl (.inl ⟨rfl, hf⟩)
  have hram1 := hf.ram hram
  have hp := hram1.own_isPage (mem_cons_self tf 0)
  refine Ok.bind (procPagetable_spec hram1.tail hp.lt) ?_
  rintro _ m2 (⟨rfl, hf2⟩ | ⟨t, leaf, nodes, rfl, hs, hf2⟩)
  · refine Ok.bind (P := fun _ m' => Frame m2 m' (tf ::ₘ 0) 0) ?_ fun _ m3 hf3 =>
      Ok.pure (.inl ⟨rfl, hf.trans ((hf2.cons tf).trans hf3)⟩)
    rw [freeproc, if_pos (Nat.ne_of_gt hp.pos)]
    exact Ok.bind (kfree_spec hp 0) fun _ m3 h => Ok.pure h.2.2
  · exact Ok.pure (.inr ⟨t, tf, leaf, nodes, rfl, hs, hf.trans (hf2.cons tf)⟩)

/-- What `fork` makes: a process with copies of the pages and the registers of `p`, but for `a0`, in
pages that were free. -/
structure Forked (m : Mem) (p : UserProc) (leaf : Nat → Nat) (m' : Mem) (np : UserProc) (leaf' : Nat → Nat)
    (nodes' : Multiset Nat) : Prop where
  sz : np.sz = p.sz
  space : Space m' np.pagetable np.trapframe (pages np.sz) leaf' nodes'
  frame : Frame m m' 0 (np.own leaf' nodes')
  same : ∀ w < pages p.sz, PTE_FLAGS (leaf' w) = PTE_FLAGS (leaf w) ∧ m'.page (PTE2PA (leaf' w)) = m.page
    (PTE2PA (leaf w))
  regs : ∀ k < 288, m'.page np.trapframe k = if 112 ≤ k ∧ k < 120 then 0 else m.page p.trapframe k

theorem fork_spec (h : Live m p leaf nodes) : Ok (fork p) m fun r m' => (r = none ∧ Frame m m' 0 0) ∨
    ∃ np leaf' nodes', r = some np ∧ Forked m p leaf m' np leaf' nodes' := by
  have hz : Ram m (0 + p.own leaf nodes) := (zero_add (p.own leaf nodes)).symm ▸ h.ram
  refine Ok.bind (allocproc_spec hz.left) ?_
  rintro _ m1 (⟨rfl, hf⟩ | ⟨t, tf, leaf1, nodes1, rfl, hsp, hf⟩)
  · exact Ok.pure (.inl ⟨rfl, hf⟩)
  have hsame : ∀ a ∈ p.own leaf nodes, m1.page a = m.page a := fun a ha => hf.other hz ha
  have hram1 : Ram m1 (nodes1 + p.own leaf nodes) := by
    have hr := (hf.add (p.own leaf nodes)).ram hz
    rw [cons_add] at hr
    exact hr.tail
  have hram2 : Ram m1 (nodes1 + (nodes + frames leaf 0 (pages p.sz))) := by
    rw [UserProc.own, add_cons] at hram1
    exact hram1.tail
  have hcopy : Ok (uvmcopy p.pagetable t p.sz) m1 _ := copyLoop_spec
    (h.space.congr fun a ha => hsame a (mem_cons_of_mem (mem_add.mpr (.inl ha)))) hram2 _
    (v := 0) ⟨hsp, fun w hw => absurd hw (Nat.not_lt_zero w), (add_zero nodes1).symm ▸ .refl m1 nodes1⟩ (Nat.zero_le _)
    (Nat.le_refl _)
  refine Ok.bind hcopy ?_
  rintro r m2 (⟨rfl, leaf2, nodes2, hs2, hf2⟩ | ⟨rfl, leaf2, nodes2, hc⟩)
  · -- the size of the child is still 0
    rw [if_pos (by decide)]
    have hf' := hf.trans (hf2.cons tf)
    have hnew : Live m2 ⟨t, 0, tf⟩ leaf2 nodes2 :=
      ⟨pages_zero.symm ▸ hs2, (own_zero t tf leaf2 nodes2).symm ▸ hf'.ram hz.left⟩
    refine Ok.bind (freeproc_spec hnew) fun _ m3 hf3 => ?_
    exact Ok.pure (.inl ⟨rfl, hf'.trans (own_zero t tf leaf2 nodes2 ▸ hf3)⟩)
  · rw [if_neg (by decide)]
    refine Ok.bind (forkTrapframe_spec tf p.trapframe) ?_
    rintro _ m3 ⟨hpages, hfree, hregs⟩
    have hf' := hf.trans (hc.frame.cons tf)
    have hnot : ∀ a ∈ nodes2 + frames leaf2 0 (pages p.sz), m3.page a = m2.page a := fun a ha =>
      hpages a fun he => (nodup_cons.mp (hf'.ram hz.left).own_nodup).1 (he ▸ ha)
    refine Ok.pure (.inr ⟨⟨t, p.sz, tf⟩, leaf2, nodes2, rfl, ?_⟩)
    refine ⟨rfl, hc.space.congr fun a ha => hnot a (mem_add.mpr (.inl ha)), hf'.trans (.of_pages hfree fun q hq =>
      hpages q fun he => hq (he ▸ mem_cons_self _ _)), fun w hw => ⟨(hc.same w hw).1, ?_⟩, fun k hk => ?_⟩
    · rw [hnot _ (mem_add.mpr (.inr (mem_frames (Nat.zero_le w) (by omega)))), (hc.same w hw).2]
      exact hsame _ (mem_cons_of_mem (mem_add.mpr (.inr (mem_frames (Nat.zero_le w) (by omega)))))
    · rw [hregs k hk, hc.frame.other hram1 (mem_cons_self _ _), hsame _ (mem_cons_self _ _)]

theorem growproc_frame (h : Live m p leaf nodes) (n : Int) : Ok (growproc p n) m fun r m' => ∃ sz leaf' nodes',
    r.2 = { p with sz := sz } ∧ Space m' p.pagetable p.trapframe (pages sz) leaf' nodes' ∧
      Frame m m' (p.own leaf nodes) (p.trapframe ::ₘ (nodes' + frames leaf' 0 (pages sz))) := by
  obtain ⟨hs, hram⟩ := h
  rw [growproc]
  split
  · refine Ok.bind (uvmalloc_spec hs hram.tail (by decide)) ?_
    rintro r m' (⟨-, rfl, rfl⟩ | ⟨hle, ⟨rfl, nodes', hs', hf⟩ | ⟨hr, leaf', nodes', hg⟩⟩)
    · split <;> exact Ok.pure ⟨p.sz, leaf, nodes, rfl, hs, .refl _ _⟩
    · exact Ok.pure ⟨p.sz, leaf, nodes', rfl, hs', (hf.add _).cons _⟩
    · rw [← hr] at hle hg
      split
      · have hsz : p.sz = r := by omega
        exact Ok.pure ⟨r, leaf', nodes', hsz ▸ rfl, hg.space, hg.frame_all.cons _⟩
      · exact Ok.pure ⟨r, leaf', nodes', rfl, hg.space, hg.frame_all.cons _⟩
  · split
    · refine Ok.bind (uvmdealloc_spec hs hram.tail) ?_
      rintro r m' (⟨-, rfl, rfl⟩ | ⟨hlt, hr, hs', hf⟩)
      · exact Ok.pure ⟨p.sz, leaf, nodes, rfl, hs, .refl _ _⟩
      · rw [← hr] at hlt hs' hf
        have hlow : frames (unmapped leaf (pages r) (pages p.sz - pages r)) 0 (pages r) = frames leaf 0 (pages r) :=
          frames_congr fun v _ hv => if_neg (by omega)
        have hall := frames_add leaf 0 (pages r) (pages p.sz - pages r)
        rw [Nat.add_sub_cancel' (pages_mono (by omega)), Nat.zero_add] at hall
        refine Ok.pure ⟨r, _, nodes, rfl, hs', Frame.cons ?_ _⟩
        rw [hlow, hall, add_comm (frames leaf 0 (pages r)), ← add_assoc]
        exact hf.add _
    · exact Ok.pure ⟨p.sz, leaf, nodes, rfl, hs, .refl _ _⟩

/-! ## The process table -/

abbrev Procs := Fin NPROC → Option UserProc

/-- The calls of `allocproc` by `userinit`, of `freeproc` by `wait`, and two system calls of process `i`. -/
inductive Call
  | allocproc
  | fork (i : Fin NPROC)
  | sbrk (i : Fin NPROC) (n : Int)
  | free (i : Fin NPROC)

/-- Process `j` asks for the change of its memory, or is freed. -/
def Call.Touches : Call → Fin NPROC → Prop
  | .sbrk i _, j | .free i, j => i = j
  | _, _ => False

/-- A new process, in the first entry that is UNUSED. -/
def setNew (tb : Procs) (new : Kernel (Option UserProc)) : Kernel Procs :=
  match (List.finRange NPROC).find? fun i => (tb i).isNone with
  | none => pure tb
  | some i => do
      let r ← new
      pure (update tb i r)

def onProc (tb : Procs) (i : Fin NPROC) (f : UserProc → Kernel Procs) : Kernel Procs :=
  match tb i with
  | none => pure tb
  | some p => f p

def call (tb : Procs) : Call → Kernel Procs
  | .allocproc => setNew tb allocproc
  | .fork i => onProc tb i fun p => setNew tb (fork p)
  | .sbrk i n => onProc tb i fun p => do
      let r ← growproc p n
      pure (update tb i (some r.2))
  | .free i => onProc tb i fun p => do
      freeproc p
      pure (update tb i none)

def run (cs : List Call) (tb : Procs) : Kernel Procs := cs.foldlM call tb

/-- The pages of an entry of the table. -/
inductive Has (m : Mem) : Option UserProc → Multiset Nat → Prop
  | none : Has m none 0
  | some {p : UserProc} {leaf : Nat → Nat} {nodes : Multiset Nat}
      (h : Space m p.pagetable p.trapframe (pages p.sz) leaf nodes) : Has m (some p) (p.own leaf nodes)

theorem Has.congr {r : Option UserProc} (h : Has m r o) (hp : ∀ a ∈ o, m'.page a = m.page a) : Has m' r o := by
  cases h with
  | none => exact .none
  | some h => exact .some (h.congr fun a ha => hp a (mem_cons_of_mem (mem_add.mpr (.inl ha))))

structure Owns (m : Mem) (tb : Procs) (own : Fin NPROC → Multiset Nat) : Prop where
  has : ∀ i, Has m (tb i) (own i)
  ram : Ram m (∑ i, own i)

/-- The table stays in order, no page is lost, and the processes outside of `S` keep their memory. -/
def Goes (m : Mem) (tb : Procs) (own : Fin NPROC → Multiset Nat) (S : Fin NPROC → Prop) (tb' : Procs)
    (m' : Mem) : Prop :=
  ∃ own', Owns m' tb' own' ∧ Frame m m' (∑ i, own i) (∑ i, own' i) ∧
    ∀ j, tb j ≠ none → ¬ S j → tb' j = tb j ∧ own' j = own j ∧ ∀ a ∈ own j, m'.page a = m.page a

section
variable {tb tb' : Procs} {own : Fin NPROC → Multiset Nat} {S : Fin NPROC → Prop} (h : Owns m tb own)
include h

theorem Owns.stay : Goes m tb own S tb m := ⟨own, h, .refl _ _, fun _ _ _ => ⟨rfl, rfl, fun _ _ => rfl⟩⟩

theorem Owns.ram_part (i : Fin NPROC) : Ram m (own i + ∑ j ∈ Finset.univ \ {i}, own j) := own_sum own i ▸ h.ram

/-- Entry `i` changes. -/
theorem Owns.set {r : Option UserProc} (i : Fin NPROC) (hf : Frame m m' (own i) o) (hr : Has m' r o)
    (hS : tb i = none ∨ S i) : Goes m tb own S (update tb i r) m' := by
  have hsame : ∀ j, j ≠ i → ∀ a ∈ own j, m'.page a = m.page a := fun j hj a ha =>
    hf.other (h.ram_part i) (Multiset.mem_sum.mpr ⟨j, by simpa using hj, ha⟩)
  have hall : Frame m m' (∑ j, own j) (∑ j, update own i o j) := by
    rw [own_sum own i, Finset.sum_update_of_mem (Finset.mem_univ i)]
    exact hf.add _
  refine ⟨update own i o, ⟨fun j => ?_, hall.ram h.ram⟩, hall, fun j hj hn => ?_⟩
  · by_cases hj : j = i
    · subst hj
      rwa [update_self, update_self]
    · rw [update_of_ne hj, update_of_ne hj]
      exact (h.has j).congr (hsame j hj)
  · have hji : j ≠ i := by
      rintro rfl
      exact hS.elim hj hn
    exact ⟨update_of_ne hji _ _, update_of_ne hji _ _, hsame j hji⟩

theorem Owns.setNew {new : Kernel (Option UserProc)} (hn : Ok new m fun r m' => ∃ o, Has m' r o ∧ Frame m m' 0 o) :
    Ok (setNew tb new) m (Goes m tb own S) := by
  rw [Vm.setNew]
  split
  · exact Ok.pure h.stay
  next i hi =>
    have hnone : tb i = none := by simpa using List.find?_some hi
    refine Ok.bind hn ?_
    rintro r m' ⟨o, hr, hf⟩
    have h0 : own i = 0 := by
      have hi := h.has i
      rw [hnone] at hi
      generalize own i = o at hi
      cases hi
      rfl
    exact Ok.pure (h.set i (h0.symm ▸ hf) hr (.inl hnone))

theorem Owns.entry {p : UserProc} {i : Fin NPROC} (hp : tb i = some p) :
    ∃ leaf nodes, Live m p leaf nodes ∧ own i = p.own leaf nodes := by
  have hi := h.has i
  have hr := (h.ram_part i).left
  rw [hp] at hi
  generalize own i = o at hi hr
  cases hi with
  | some hs => exact ⟨_, _, ⟨hs, hr⟩, rfl⟩

theorem Owns.onProc {f : UserProc → Kernel Procs} (i : Fin NPROC) (hf : ∀ p leaf nodes, Live m p leaf nodes →
    own i = p.own leaf nodes → Ok (f p) m (Goes m tb own S)) : Ok (onProc tb i f) m (Goes m tb own S) := by
  rw [Vm.onProc]
  cases hp : tb i with
  | none => exact Ok.pure h.stay
  | some p =>
    obtain ⟨leaf, nodes, hl, ho⟩ := h.entry hp
    exact hf p leaf nodes hl ho

theorem Owns.call (c : Call) (hS : ∀ j, c.Touches j → S j) : Ok (call tb c) m (Goes m tb own S) := by
  cases c with
  | allocproc =>
    refine h.setNew ((allocproc_spec (Ram.left ((zero_add (∑ i, own i)).symm ▸ h.ram))).mono ?_)
    rintro _ m' (⟨rfl, hf⟩ | ⟨t, tf, leaf, nodes, rfl, hs, hf⟩)
    · exact ⟨0, .none, hf⟩
    · exact ⟨_, .some (p := ⟨t, 0, tf⟩) (pages_zero.symm ▸ hs), own_zero t tf leaf nodes ▸ hf⟩
  | fork i =>
    refine h.onProc i fun p leaf nodes hl _ => h.setNew ((fork_spec hl).mono ?_)
    rintro _ m' (⟨rfl, hf⟩ | ⟨np, leaf', nodes', rfl, hn⟩)
    · exact ⟨0, .none, hf⟩
    · exact ⟨_, .some hn.space, hn.frame⟩
  | sbrk i n =>
    refine h.onProc i fun p leaf nodes hl ho => Ok.bind (growproc_frame hl n) ?_
    rintro ⟨r, p'⟩ m' ⟨sz, leaf', nodes', rfl, hs', hf⟩
    exact Ok.pure (h.set i (ho ▸ hf) (.some (p := { p with sz := sz }) hs') (.inr (hS i rfl)))
  | free i =>
    refine h.onProc i fun p leaf nodes hl ho => Ok.bind (freeproc_spec hl) fun _ m' hf => ?_
    exact Ok.pure (h.set i (ho ▸ hf) .none (.inr (hS i rfl)))

end

theorem run_goes {S : Fin NPROC → Prop} (cs : List Call) (hS : ∀ c ∈ cs, ∀ j, c.Touches j → S j) :
    ∀ {m : Mem} {tb : Procs} {own : Fin NPROC → Multiset Nat}, Owns m tb own → Ok (run cs tb) m (Goes m tb own S) := by
  induction cs with
  | nil => exact fun h => Ok.pure h.stay
  | cons c cs ih =>
    intro m tb own h
    refine Ok.bind (h.call c (hS c List.mem_cons_self)) ?_
    rintro tb1 m1 ⟨own1, h1, hf1, hkeep1⟩
    refine (ih (fun c hc => hS c (List.mem_cons_of_mem _ hc)) h1).mono ?_
    rintro tb2 m2 ⟨own2, h2, hf2, hkeep2⟩
    refine ⟨own2, h2, hf1.trans hf2, fun j hj hn => ?_⟩
    obtain ⟨ht1, ho1, hp1⟩ := hkeep1 j hj hn
    obtain ⟨ht2, ho2, hp2⟩ := hkeep2 j (ht1 ▸ hj) hn
    exact ⟨ht2.trans ht1, ho2.trans ho1, fun a ha => (hp2 a (ho1 ▸ ha)).trans (hp1 a ha)⟩

/-- From a memory of free pages, any sequence of calls runs without a panic, whichever calls of `kalloc` fail.
Every process has its own address space, and each page is free or in one process, once. -/
theorem run_owns {m : Mem} (hram : Ram m 0) (cs : List Call) : ∃ tb m', ∃ own : Fin NPROC → Multiset Nat,
    run cs (fun _ => none) m = .ok (tb, m') ∧ (∀ i, Has m' (tb i) (own i)) ∧
    (m'.free : Multiset Nat) + ∑ i, own i = m.free ∧ ((m'.free : Multiset Nat) + ∑ i, own i).Nodup := by
  have h : Owns m (fun _ => none) fun _ => 0 := ⟨fun _ => .none, by simpa using hram⟩
  obtain ⟨tb, m', hrun, own, ho, hf, -⟩ := run_goes (S := fun _ => True) cs (fun _ _ _ _ => trivial) h
  exact ⟨tb, m', own, hrun, ho.has, by simpa using hf.conserved, ho.ram.nodup⟩

/-- Memory isolation: a process keeps its pages and every byte of them while only others call. -/
theorem run_isolated {m : Mem} {tb : Procs} {own : Fin NPROC → Multiset Nat} (h : Owns m tb own) (cs : List Call)
    (j : Fin NPROC) (hj : tb j ≠ none) (hcs : ∀ c ∈ cs, ¬ c.Touches j) : ∃ tb' m' own', run cs tb m = .ok (tb', m') ∧
      Owns m' tb' own' ∧ tb' j = tb j ∧ own' j = own j ∧ ∀ a ∈ own j, m'.page a = m.page a := by
  obtain ⟨tb', m', hrun, own', ho, -, hkeep⟩ := run_goes (S := (· ≠ j)) cs
    (fun c hc i hi => fun he => hcs c hc (he ▸ hi)) h
  exact ⟨tb', m', own', hrun, ho, hkeep j hj fun hn => hn rfl⟩

/-- `fork` changes no page of its process.  It fails and leaves the same pages free, or makes a copy in other pages. -/
theorem fork_exact {m : Mem} {p : UserProc} {leaf : Nat → Nat} {nodes : Multiset Nat}
    (hl : Live m p leaf nodes) : ∃ r m', fork p m = .ok (r, m') ∧ (∀ a ∈ p.own leaf nodes, m'.page a = m.page a) ∧
      ((r = none ∧ (m'.free : Multiset Nat) = m.free) ∨ ∃ np leaf' nodes', r = some np ∧
        Forked m p leaf m' np leaf' nodes' ∧ ∀ a ∈ np.own leaf' nodes', a ∉ p.own leaf nodes) := by
  have hz : Ram m (0 + p.own leaf nodes) := (zero_add (p.own leaf nodes)).symm ▸ hl.ram
  obtain ⟨r, m', hrun, ⟨rfl, hf⟩ | ⟨np, leaf', nodes', rfl, h⟩⟩ := fork_spec hl
  · have hfree := hf.conserved
    rw [add_zero, add_zero] at hfree
    exact ⟨none, m', hrun, fun a ha => hf.other hz ha, .inl ⟨rfl, hfree⟩⟩
  · refine ⟨_, m', hrun, fun a ha => h.frame.other hz ha, .inr ⟨np, leaf', nodes', rfl, h, fun a ha hp => ?_⟩⟩
    exact ((h.frame.add _).ram hz).not_mem hp (mem_add.mpr (.inr ha))

end

def first : Fin NPROC := ⟨0, by decide⟩

def child : Fin NPROC := ⟨1, by decide⟩

/-- Twenty free pages. -/
def roomyMem : Mem := ⟨fun _ _ => 0, (List.range 20).map fun i => 0x80011000 + 4096 * i, []⟩

theorem roomy_ram : @Ram smallKernel roomyMem 0 := @Ram.mk smallKernel _ _ (by decide) (by decide)

/-- A run on this memory, with a test of its end. -/
theorem roomy_run {cs : List Call} {f : Procs × Mem → Bool}
    (hf : (@run smallKernel cs (fun _ => none) roomyMem).toOption.map f = some true) :
    ∃ tb m own, @Owns smallKernel m tb own ∧ f (tb, m) = true := by
  have h : @Owns smallKernel roomyMem (fun _ => none) fun _ => 0 :=
    @Owns.mk smallKernel _ _ _ (fun _ => @Has.none smallKernel _) (by simpa using roomy_ram)
  obtain ⟨tb, m, hrun, own, ho, -⟩ := @run_goes smallKernel (fun _ => True) cs (fun _ _ _ _ => trivial) _ _ _ h
  rw [hrun] at hf
  exact ⟨tb, m, own, ho, Option.some.inj hf⟩

/-- A first process with one page forks. -/
theorem fork_exact_first : ∃ m p leaf np m' leaf' nodes', p.sz = 4096 ∧ @fork smallKernel p m = .ok (some np, m') ∧
    @Forked smallKernel m p leaf m' np leaf' nodes' := by
  obtain ⟨tb, m, own, h, hf⟩ := @roomy_run [.allocproc, .sbrk first 4096] (fun r => (r.1 first).any fun p =>
    p.sz == 4096 && (@fork smallKernel p r.2).toOption.any fun x => x.1.isSome) (by decide +kernel)
  obtain ⟨p, hp, hf⟩ := (Option.any_eq_true _ _).mp hf
  obtain ⟨hsz, hsome⟩ := Bool.and_eq_true_iff.mp hf
  obtain ⟨leaf, nodes, hl, -⟩ := @Owns.entry _ smallKernel _ _ h _ _ hp
  obtain ⟨r, m', hrun, -, hr⟩ := @fork_exact smallKernel _ _ _ _ hl
  rw [hrun] at hsome
  rcases hr with ⟨rfl, -⟩ | ⟨np, leaf', nodes', rfl, hfork, -⟩
  · cases hsome
  · exact ⟨m, p, leaf, np, m', leaf', nodes', beq_iff_eq.mp hsz, hrun, hfork⟩

theorem run_owns_first : ∃ tb m', ∃ own : Fin NPROC → Multiset Nat,
    @run smallKernel [.allocproc, .sbrk first 4096, .fork first] (fun _ => none) roomyMem =
      .ok (tb, m') ∧ (m'.free : Multiset Nat) + ∑ i, own i = roomyMem.free := by
  obtain ⟨tb, m', own, hrun, -, hall, -⟩ := @run_owns smallKernel _ roomy_ram _
  exact ⟨tb, m', own, hrun, hall⟩

/-- The child of the first process grows and is freed. -/
theorem run_isolated_first : ∃ m tb own tb' m', @Owns smallKernel m tb own ∧ (tb first).isSome ∧ (tb child).isSome ∧
    @run smallKernel [.sbrk child 4096, .free child] tb m = .ok (tb', m') ∧ tb' first = tb first ∧
    ∀ a ∈ own first, m'.page a = m.page a := by
  obtain ⟨tb, m, own, h, hf⟩ := @roomy_run [.allocproc, .sbrk first 4096, .fork first]
    (fun r => (r.1 first).isSome && (r.1 child).isSome) (by decide +kernel)
  obtain ⟨h0, h1⟩ := Bool.and_eq_true_iff.mp hf
  obtain ⟨tb', m', -, hrun, -, hp, -, hsame⟩ := @run_isolated smallKernel _ _ _ h [.sbrk child 4096, .free child] first
    (Option.isSome_iff_ne_none.mp h0) (by rintro c (_ | ⟨_, _ | ⟨_, ⟨⟩⟩⟩) <;> exact (by decide : child ≠ first))
  exact ⟨m, tb, own, tb', m', h, h0, h1, hrun, hp, hsame⟩

end Xv6.Vm
