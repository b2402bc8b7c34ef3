import Mathlib.Algebra.Order.Group.Multiset
import Mathlib.Data.Nat.Bitwise
import Xv6.Lib.Total
import Xv6.Param

/-!
# Physical memory

The macros of `kernel/riscv.h` and `kernel/memlayout.h` for page tables, and the
page allocator of `kernel/kalloc.c`.  A page is named by its physical address; a
page table's entries are 8-byte words in its page.  `deny` says which of the
next calls of `kalloc` return 0 although pages are left, as when other processes
hold them.

`Frame m m' own own'` is what a call that owns the pages `own` may do: it keeps
the pages that are free or owned (`own'` afterwards) and touches no other.
-/

namespace Xv6.Vm

open Total Function

/-! ## `kernel/riscv.h`, `kernel/memlayout.h` -/

def PGSIZE : Nat := 4096

def PTE_V : Nat := 1
def PTE_R : Nat := 2
def PTE_W : Nat := 4
def PTE_X : Nat := 8
def PTE_U : Nat := 16

/-- `~(PGSIZE-1)` clears the offset in the page. -/
def PGROUNDUP (sz : Nat) : Nat := (sz + PGSIZE - 1) % 2 ^ 64 / PGSIZE * PGSIZE

def PGROUNDDOWN (a : Nat) : Nat := a / PGSIZE * PGSIZE

def PA2PTE (pa : Nat) : Nat := (pa >>> 12) <<< 10

def PTE2PA (pte : Nat) : Nat := ((pte >>> 10) <<< 12) % 2 ^ 64

def PTE_FLAGS (pte : Nat) : Nat := pte &&& 0x3FF

def PX (level va : Nat) : Nat := (va >>> (12 + 9 * level)) &&& 0x1FF

def MAXVA : Nat := 2 ^ 38

def TRAMPOLINE : Nat := MAXVA - PGSIZE

def TRAPFRAME : Nat := TRAMPOLINE - PGSIZE

def KERNBASE : Nat := 0x80000000

def PHYSTOP : Nat := KERNBASE + 128 * 1024 * 1024

/-! ## Page-table entries -/

theorem and_two_pow_mul {a f n : Nat} (hf : f < 2 ^ n) : (a <<< n) &&& f = 0 := by
  apply Nat.eq_of_testBit_eq
  intro i
  rw [Nat.testBit_and, Nat.testBit_shiftLeft, Nat.zero_testBit]
  by_cases hi : n ≤ i
  · rw [Nat.testBit_lt_two_pow (Nat.lt_of_lt_of_le hf (Nat.pow_le_pow_right (by decide) hi)), Bool.and_false]
  · simp [hi]

/-- `PA2PTE(pa) | perm | PTE_V` -/
def mkPte (pa perm : Nat) : Nat := PA2PTE pa ||| perm ||| PTE_V

/-- `PA2PTE(pagetable) | PTE_V` -/
def link (pagetable : Nat) : Nat := PA2PTE pagetable ||| PTE_V

theorem link_eq (c : Nat) : link c = mkPte c 0 := by
  rw [link, mkPte, Nat.or_zero]

theorem mkPte_and {pa perm f : Nat} (hf : f < 1024) : mkPte pa perm &&& f = (perm ||| PTE_V) &&& f := by
  rw [mkPte, PA2PTE, Nat.or_assoc, Nat.and_or_distrib_right, and_two_pow_mul (by omega), Nat.zero_or]

theorem perm_lt {perm : Nat} (hp : perm < 1024) : perm ||| PTE_V < 1024 := Nat.or_lt_two_pow (n := 10) hp (by decide)

variable {p : Nat} {pa perm : Nat} {a b : Multiset Nat} {own : Multiset Nat}

theorem mkPte_eq (hp : perm < 1024) : mkPte pa perm = pa / 4096 * 1024 + (perm ||| PTE_V) := by
  rw [mkPte, PA2PTE, Nat.or_assoc, ← Nat.shiftLeft_add_eq_or_of_lt (perm_lt hp), Nat.shiftLeft_eq,
    Nat.shiftRight_eq_div_pow]

theorem PTE2PA_eq (pte : Nat) : PTE2PA pte = pte / 1024 * 4096 % 2 ^ 64 := by
  rw [PTE2PA, Nat.shiftLeft_eq, Nat.shiftRight_eq_div_pow]

theorem PTE_FLAGS_eq (pte : Nat) : PTE_FLAGS pte = pte % 1024 := Nat.and_two_pow_sub_one_eq_mod pte 10

theorem PX_eq (level va : Nat) : PX level va = va / 4096 / 512 ^ level % 512 := by
  rw [PX, Nat.and_two_pow_sub_one_eq_mod _ 9, Nat.shiftRight_eq_div_pow, Nat.pow_add, ← Nat.div_div_eq_div_mul,
    Nat.pow_mul]

theorem PTE2PA_mkPte (ha : pa % PGSIZE = 0) (hlt : pa < 2 ^ 56) (hp : perm < 1024) : PTE2PA (mkPte pa perm) = pa := by
  have hperm := perm_lt hp
  rw [PGSIZE] at ha
  rw [PTE2PA_eq, mkPte_eq hp]
  omega

theorem PTE_FLAGS_mkPte (hp : perm < 1024) : PTE_FLAGS (mkPte pa perm) = perm ||| PTE_V := by
  have hperm := perm_lt hp
  rw [PTE_FLAGS_eq, mkPte_eq hp]
  omega

theorem mkPte_lt (hlt : pa < 2 ^ 56) (hp : perm < 1024) : mkPte pa perm < 2 ^ 64 := by
  have hperm := perm_lt hp
  rw [mkPte_eq hp]
  omega

theorem mkPte_valid (pa perm : Nat) : mkPte pa perm &&& PTE_V ≠ 0 := by
  rw [mkPte_and (by decide), Nat.and_or_distrib_right]
  simp [PTE_V]

theorem link_ne_zero (c : Nat) : link c ≠ 0 := by
  intro h
  have hv := mkPte_valid c 0
  rw [← link_eq, h] at hv
  exact hv rfl

/-! ## `kernel/kalloc.c` -/

/-- The addresses the linker gives to symbols of the kernel. -/
class Symbols where
  /-- `end`, the first address after the kernel -/
  kernelEnd : Nat
  trampoline : Nat
  trampoline_page : trampoline % PGSIZE = 0
  trampoline_kernel : KERNBASE ≤ trampoline ∧ trampoline + PGSIZE ≤ kernelEnd
  end_ram : kernelEnd ≤ PHYSTOP

export Symbols (kernelEnd trampoline)

/-- A page of the allocator. -/
def IsPage [Symbols] (pa : Nat) : Prop := pa % PGSIZE = 0 ∧ kernelEnd ≤ pa ∧ pa < PHYSTOP

instance [Symbols] (pa : Nat) : Decidable (IsPage pa) := inferInstanceAs (Decidable (_ ∧ _))

/-- Physical memory: the bytes of each page, `kmem.freelist`, and the calls of
`kalloc` still to be refused. -/
structure Mem where
  page : Nat → Bytes.Mem
  free : List Nat
  deny : List Bool

variable {m : Mem}

inductive Panic
  | kfree
  | walk
  | mappagesSize
  | mappagesRemap
  | uvmunmapNotAligned
  | uvmunmapWalk
  | uvmunmapNotMapped
  | uvmunmapNotALeaf
  | freewalkLeaf
  | uvmcopyPte
  | uvmcopyNotPresent
  | loadseg
  /-- a loop of the model that did not end within its bound -/
  | fuel
  deriving DecidableEq, Repr

/-- Kernel code: a panic, or a result and the memory after it. -/
abbrev Kernel := StateT Mem (Except Panic)

def panic {α : Type} (e : Panic) : Kernel α := fun _ => .error e

/-- The memory after `memset(pa, c, PGSIZE)`. -/
def Mem.memset (m : Mem) (pa : Nat) (c : UInt8) : Mem := { m with page := update m.page pa fun _ => c }

def memset (pa : Nat) (c : UInt8) : Kernel Unit := fun m => .ok ((), m.memset pa c)

def kalloc : Kernel (Option Nat) := fun m =>
  if m.deny.headD false then .ok (none, { m with deny := m.deny.tail })
  else
    match m.free with
    | [] => .ok (none, { m with deny := m.deny.tail })
    | r :: free => .ok (some r,
        { page := update m.page r fun _ => 5, free := free, deny := m.deny.tail })

def kfree [Symbols] (pa : Nat) : Kernel Unit := fun m =>
  if pa % PGSIZE ≠ 0 ∨ pa < kernelEnd ∨ pa ≥ PHYSTOP then .error .kfree
  else .ok ((), { m with page := update m.page pa fun _ => 1, free := pa :: m.free })

/-- `pagetable[i]` -/
def word (m : Mem) (pagetable i : Nat) : Nat := Bytes.getLE (m.page pagetable) (8 * i) 8

def getPte (pagetable i : Nat) : Kernel Nat := fun m => .ok (word m pagetable i, m)

/-- The memory after `pagetable[i] = pte`. -/
def Mem.setPte (m : Mem) (pagetable i pte : Nat) : Mem :=
  { m with page := update m.page pagetable (Bytes.putLE (m.page pagetable) (8 * i) 8 pte) }

def setPte (pagetable i pte : Nat) : Kernel Unit := fun m => .ok ((), m.setPte pagetable i pte)

variable {i pte t : Nat} {m' : Mem} {α : Type} {own' : Multiset Nat}

variable {Q : α → Mem → Prop} {f : Unit → Kernel α}

theorem getPte_bind {f : Nat → Kernel α} (h : Ok (f (word m t i)) m Q) : Ok (getPte t i >>= f) m Q := Ok.bind_eq rfl h

theorem setPte_bind (h : Ok (f ()) (m.setPte t i pte) Q) : Ok (setPte t i pte >>= f) m Q := Ok.bind_eq rfl h

theorem memset_bind {c : UInt8} (h : Ok (f ()) (m.memset pa c) Q) : Ok (Vm.memset pa c >>= f) m Q := Ok.bind_eq rfl h

theorem word_setPte_self (h : pte < 2 ^ 64) : word (m.setPte t i pte) t i = pte := by
  show Bytes.getLE (update m.page t _ t) _ _ = pte
  rw [update_self]
  exact Bytes.getLE_putLE_of_lt _ _ _ _ h

theorem word_setPte_of_ne {t' i' : Nat} (h : ¬(t' = t ∧ i' = i)) : word (m.setPte t i pte) t' i' = word m t' i' := by
  by_cases ht : t' = t
  · have hi : i' ≠ i := fun hi => h ⟨ht, hi⟩
    subst ht
    show Bytes.getLE (update m.page t' _ t') _ _ = _
    rw [update_self]
    exact Bytes.getLE_putLE_disjoint _ _ _ _ _ _ (by omega)
  · show Bytes.getLE (update m.page t _ t') _ _ = _
    rw [update_of_ne ht]
    rfl

theorem page_setPte_of_ne (h : p ≠ t) : (m.setPte t i pte).page p = m.page p :=
  update_of_ne h _ _

theorem word_congr {a : Nat} (h : m'.page a = m.page a) (k : Nat) : word m' a k = word m a k := by
  rw [word, word, h]

theorem word_zero {a : Nat} (h : m.page a = fun _ => 0) (k : Nat) : word m a k = 0 := by
  rw [word, h]
  exact Bytes.getLE_zero _ _

/-! ## Ownership of pages -/

/-- From `m` to `m'` the pages that are free or owned stay so, and no other page changes. -/
structure Frame (m m' : Mem) (own own' : Multiset Nat) : Prop where
  conserved : (m'.free : Multiset Nat) + own' = m.free + own
  page : ∀ p, p ∉ (m.free : Multiset Nat) + own → m'.page p = m.page p

theorem Frame.refl (m : Mem) (own : Multiset Nat) : Frame m m own own := ⟨rfl, fun _ _ => rfl⟩

theorem Frame.trans {m1 m2 : Mem} {own1 own2 : Multiset Nat} (h : Frame m m1 own own1)
    (h' : Frame m1 m2 own1 own2) : Frame m m2 own own2 where
  conserved := h'.conserved.trans h.conserved
  page p hp := (h'.page p (h.conserved ▸ hp)).trans (h.page p hp)

theorem Frame.add (h : Frame m m' own own') (r : Multiset Nat) : Frame m m' (own + r) (own' + r) where
  conserved := by rw [← add_assoc, h.conserved, add_assoc]
  page p hp := h.page p fun hc => hp (by rw [← add_assoc]; exact Multiset.mem_add.mpr (.inl hc))

theorem Frame.cons (h : Frame m m' own own') (p : Nat) : Frame m m' (p ::ₘ own) (p ::ₘ own') := by
  rw [← Multiset.singleton_add, ← Multiset.singleton_add, add_comm, add_comm {p} own']
  exact h.add {p}

theorem kalloc_spec (m : Mem) (own : Multiset Nat) : Ok kalloc m fun r m' =>
    (r = none ∧ m'.page = m.page ∧ Frame m m' own own) ∨
      ∃ p, r = some p ∧ (∀ q, q ≠ p → m'.page q = m.page q) ∧ Frame m m' own (p ::ₘ own) := by
  by_cases hd : m.deny.headD false = true
  · have hrun : kalloc m = .ok (none, { m with deny := m.deny.tail }) := if_pos hd
    exact Ok.of_eq hrun (.inl ⟨rfl, rfl, rfl, fun _ _ => rfl⟩)
  · cases hf : m.free with
    | nil =>
      have hrun : kalloc m = .ok (none, { m with deny := m.deny.tail }) := by
        rw [kalloc, if_neg hd, hf]
      exact Ok.of_eq hrun (.inl ⟨rfl, rfl, rfl, fun _ _ => rfl⟩)
    | cons r free =>
      have hrun : kalloc m = .ok (some r,
          { page := update m.page r fun _ => 5, free := free, deny := m.deny.tail }) := by
        rw [kalloc, if_neg hd, hf]
      refine Ok.of_eq hrun (.inr ⟨r, rfl, fun q hq => update_of_ne hq _ _, ?_, ?_⟩)
      · rw [hf, Multiset.add_cons, ← Multiset.cons_coe, Multiset.cons_add]
      · intro p hp
        rw [hf] at hp
        refine update_of_ne ?_ _ _
        rintro rfl
        exact hp (by simp)

variable [Symbols]

theorem kernbase_le_end : KERNBASE ≤ kernelEnd := by
  have h := Symbols.trampoline_kernel
  omega

theorem IsPage.lt (h : IsPage pa) : pa < 2 ^ 56 := Nat.lt_trans h.2.2 (by decide)

theorem IsPage.pos (h : IsPage pa) : 0 < pa := by
  have hk : 0 < KERNBASE := by decide
  have he := kernbase_le_end
  have := h.2.1
  omega

theorem PTE2PA_link {c : Nat} (h : IsPage c) : PTE2PA (link c) = c := by
  rw [link_eq]
  exact PTE2PA_mkPte h.1 h.lt (by decide)

/-- The free pages and the pages `own` are different pages of the allocator. -/
structure Ram (m : Mem) (own : Multiset Nat) : Prop where
  nodup : ((m.free : Multiset Nat) + own).Nodup
  isPage : ∀ p ∈ (m.free : Multiset Nat) + own, IsPage p

theorem Frame.ram (h : Frame m m' own own') (hr : Ram m own) : Ram m' own' :=
  ⟨h.conserved ▸ hr.nodup, h.conserved ▸ hr.isPage⟩

theorem Ram.left (h : Ram m (a + b)) : Ram m a := by
  constructor
  · have := h.nodup
    rw [← add_assoc] at this
    exact (Multiset.nodup_add.mp this).1
  · intro p hp
    apply h.isPage
    rw [← add_assoc]
    exact Multiset.mem_add.mpr (.inl hp)

theorem Ram.comm (h : Ram m (a + b)) : Ram m (b + a) := by
  rwa [add_comm]

theorem Ram.right (h : Ram m (a + b)) : Ram m b := h.comm.left

theorem Ram.own_nodup (h : Ram m own) : own.Nodup := (Multiset.nodup_add.mp h.nodup).2.1

theorem Ram.own_isPage (h : Ram m own) (hp : p ∈ own) : IsPage p :=
  h.isPage p (Multiset.mem_add.mpr (.inr hp))

theorem Ram.not_mem (h : Ram m (a + b)) (hp : p ∈ b) : p ∉ (m.free : Multiset Nat) + a := by
  have := h.nodup
  rw [← add_assoc] at this
  exact fun hc => Multiset.disjoint_left.mp (Multiset.nodup_add.mp this).2.2 hc hp

theorem Ram.tail (h : Ram m (p ::ₘ own)) : Ram m own := by
  rw [← Multiset.singleton_add] at h
  exact h.right

theorem Ram.head_not_mem (h : Ram m (p ::ₘ own)) : p ∉ (m.free : Multiset Nat) + own := by
  rw [← Multiset.singleton_add] at h
  exact h.comm.not_mem (Multiset.mem_singleton_self p)

theorem Frame.other {r : Multiset Nat} (h : Frame m m' own own') (hr : Ram m (own + r))
    (hp : p ∈ r) : m'.page p = m.page p := h.page p (hr.not_mem hp)

theorem kfree_spec (h : IsPage pa) (own : Multiset Nat) : Ok (kfree pa) m fun _ m' =>
    (∀ q, q ≠ pa → m'.page q = m.page q) ∧ m'.free = pa :: m.free ∧ Frame m m' (pa ::ₘ own) own := by
  obtain ⟨ha, he, hp⟩ := h
  refine Ok.of_eq (if_neg (by omega)) ⟨fun q hq => update_of_ne hq _ _, rfl, ?_, ?_⟩
  · rw [Multiset.add_cons, ← Multiset.cons_coe, Multiset.cons_add]
  · intro p hp
    refine update_of_ne ?_ _ _
    rintro rfl
    exact hp (by simp)

end Xv6.Vm
