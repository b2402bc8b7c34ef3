import Xv6.Vm.UserMem

/-!
# Copying to and from user memory

`copyout` and `copyin` of `kernel/vm.c`.  The loop of `copyout` stops at the
first page of the range that is not mapped for the user; `Stored` says what the
bytes before it did to memory.  `walkaddr` tests `PTE_V` and `PTE_U` only, so a
page without `PTE_W` is written like any other; when the user's pages of the
range are writable, `copyout` changes writable pages only.
-/

namespace Xv6.Vm

open Total Function

/-! ## `kernel/vm.c` -/

/-- The memory after `memmove(pa + off, src, n)` in the page `pa`. -/
def Mem.store (m : Mem) (pa off : Nat) (src : Nat → UInt8) (n : Nat) : Mem :=
  { m with page := update m.page pa fun x =>
      if off ≤ x ∧ x < off + n then src (x - off) else m.page pa x }

theorem Mem.store_page (m : Mem) (pa off : Nat) (src : Nat → UInt8) (n : Nat) : (m.store pa off src n).page =
    update m.page pa fun x => if off ≤ x ∧ x < off + n then src (x - off) else m.page pa x := rfl

def store (pa off : Nat) (src : Nat → UInt8) (n : Nat) : Kernel Unit := fun m => .ok ((), m.store pa off src n)

/-- `copyout`; a round copies at least one byte, so `len` rounds are enough. -/
def copyoutLoop (pagetable : Nat) : Nat → Nat → (Nat → UInt8) → Nat → Kernel Int
  | 0, _, _, _ => pure 0
  | fuel + 1, dstva, src, len =>
    if len > 0 then do
      let pa0 ← walkaddr pagetable (PGROUNDDOWN dstva)
      if pa0 = 0 then pure (-1)
      else do
        let n := min (PGSIZE - (dstva - PGROUNDDOWN dstva)) len
        store pa0 (dstva - PGROUNDDOWN dstva) src n
        copyoutLoop pagetable fuel ((PGROUNDDOWN dstva + PGSIZE) % 2 ^ 64) (fun i => src (n + i)) (len - n)
    else pure 0

def copyout (pagetable dstva : Nat) (src : Nat → UInt8) (len : Nat) : Kernel Int :=
  copyoutLoop pagetable len dstva src len

/-- `n` bytes of `src` moved to `dst + off`. -/
def move (dst : Bytes.Mem) (off : Nat) (src : Nat → UInt8) (n : Nat) : Bytes.Mem :=
  fun x => if off ≤ x ∧ x < off + n then src (x - off) else dst x

/-- `copyin` to the kernel buffer `dst` from offset `off` on. -/
def copyinLoop (pagetable : Nat) : Nat → Bytes.Mem → Nat → Nat → Nat → Kernel (Int × Bytes.Mem)
  | 0, dst, _, _, _ => pure (0, dst)
  | fuel + 1, dst, off, srcva, len =>
    if len > 0 then do
      let pa0 ← walkaddr pagetable (PGROUNDDOWN srcva)
      if pa0 = 0 then pure (-1, dst)
      else do
        let n := min (PGSIZE - (srcva - PGROUNDDOWN srcva)) len
        let page ← fun m => .ok (m.page pa0, m)
        copyinLoop pagetable fuel (move dst off (fun i => page (srcva - PGROUNDDOWN srcva + i)) n) (off + n)
          ((PGROUNDDOWN srcva + PGSIZE) % 2 ^ 64) (len - n)
    else pure (0, dst)

def copyin (pagetable : Nat) (dst : Bytes.Mem) (off srcva len : Nat) : Kernel (Int × Bytes.Mem) :=
  copyinLoop pagetable len dst off srcva len

/-! ## Where the bytes go -/

/-- The user may access the page of this entry. -/
def Accessible (pte : Nat) : Prop := pte &&& PTE_V ≠ 0 ∧ pte &&& PTE_U ≠ 0

/-- The user may write the page of this entry. -/
def Writable (pte : Nat) : Prop := pte &&& PTE_V ≠ 0 ∧ pte &&& PTE_U ≠ 0 ∧ pte &&& PTE_W ≠ 0

instance (pte : Nat) : Decidable (Accessible pte) := inferInstanceAs (Decidable (_ ∧ _))

instance (pte : Nat) : Decidable (Writable pte) := inferInstanceAs (Decidable (_ ∧ _))

/-- The physical place of a user address. -/
def place (leaf : Nat → Nat) (va : Nat) : Nat × Nat := (PTE2PA (leaf (va / PGSIZE)), va % PGSIZE)

/-- The byte of user memory at `va`. -/
def userByte (m : Mem) (leaf : Nat → Nat) (va : Nat) : UInt8 := m.page (place leaf va).1 (place leaf va).2

/-- `k` bytes of `src` were stored at `dst`, and nothing else. -/
structure Stored (leaf : Nat → Nat) (m : Mem) (dst : Nat) (src : Nat → UInt8) (k : Nat) (m' : Mem) : Prop where
  outside : ∀ p off, (∀ i < k, (p, off) ≠ place leaf (dst + i)) → m'.page p off = m.page p off
  bytes : ∀ i < k, m'.page (place leaf (dst + i)).1 (place leaf (dst + i)).2 = src i
  free : m'.free = m.free
  deny : m'.deny = m.deny

theorem move_zero (dst : Bytes.Mem) (off : Nat) (src : Nat → UInt8) : move dst off src 0 = dst := by
  funext x
  exact if_neg (by omega)

variable {k len n va : Nat}

theorem move_congr {dst : Bytes.Mem} {off : Nat} {src src' : Nat → UInt8} (h : ∀ i < n, src i = src' i) :
    move dst off src n = move dst off src' n := by
  funext x
  unfold move
  by_cases hx : off ≤ x ∧ x < off + n
  · rw [if_pos hx, if_pos hx, h _ (by omega)]
  · rw [if_neg hx, if_neg hx]

theorem move_append (dst : Bytes.Mem) (off n k : Nat) (src : Nat → UInt8) :
    move (move dst off src n) (off + n) (fun i => src (n + i)) k = move dst off src (n + k) := by
  funext x
  unfold move
  by_cases h2 : off + n ≤ x ∧ x < off + n + k
  · rw [if_pos h2, if_pos (by omega)]
    exact congrArg src (by omega)
  · rw [if_neg h2]
    by_cases h1 : off ≤ x ∧ x < off + n
    · rw [if_pos h1, if_pos (by omega)]
    · rw [if_neg h1, if_neg (by omega)]

theorem Stored.zero (leaf : Nat → Nat) (m : Mem) (dst : Nat) (src : Nat → UInt8) : Stored leaf m dst src 0 m :=
  ⟨fun _ _ _ => rfl, fun i hi => absurd hi (by omega), rfl, rfl⟩

variable {m : Mem} {leaf : Nat → Nat}

theorem stored_store {dst : Nat} {src : Nat → UInt8} (hn : dst % PGSIZE + n ≤ PGSIZE) :
    Stored leaf m dst src n (m.store (PTE2PA (leaf (dst / PGSIZE))) (dst % PGSIZE) src n) := by
  have hplace : ∀ i < n, place leaf (dst + i) = (PTE2PA (leaf (dst / PGSIZE)), dst % PGSIZE + i) := by
    intro i hi
    have hd : (dst + i) / PGSIZE = dst / PGSIZE := by
      simp only [PGSIZE] at hn ⊢
      omega
    have hm : (dst + i) % PGSIZE = dst % PGSIZE + i := by
      simp only [PGSIZE] at hn ⊢
      omega
    rw [place, hd, hm]
  refine ⟨fun p off hne => ?_, fun i hi => ?_, rfl, rfl⟩
  · rw [Mem.store_page]
    by_cases hp : p = PTE2PA (leaf (dst / PGSIZE))
    · subst hp
      rw [update_self, if_neg]
      rintro ⟨h1, h2⟩
      obtain ⟨i, rfl⟩ := Nat.exists_eq_add_of_le h1
      exact hne i (by omega) (hplace i (by omega)).symm
    · rw [update_of_ne hp]
  · rw [hplace i hi, Mem.store_page, update_self, if_pos (by omega), Nat.add_sub_cancel_left]

/-- The user address `va` is mapped for the user. -/
def Mapped (leaf : Nat → Nat) (va : Nat) : Prop := va < MAXVA ∧ Accessible (leaf (va / PGSIZE))

instance (leaf : Nat → Nat) (va : Nat) : Decidable (Mapped leaf va) := inferInstanceAs (Decidable (_ ∧ _))

/-- `walkaddr` finds the user's pages by the entries `leaf`; none of them is the physical page 0, the value it
returns for an address that is not mapped. -/
structure ReadTable (m : Mem) (t : Nat) (leaf : Nat → Nat) : Prop where
  walk : ∀ va, walkaddr t va m = .ok (if va ≥ MAXVA then 0 else userPage (leaf (va / PGSIZE)), m)
  page : ∀ v, v < MAXVA / PGSIZE → Accessible (leaf v) → PTE2PA (leaf v) ≠ 0

variable {t : Nat}

theorem Mapped.vpn (h : Mapped leaf va) : va / PGSIZE < MAXVA / PGSIZE := by
  have := h.1
  simp only [PGSIZE, MAXVA] at this ⊢
  omega

theorem walkaddr_mapped (h : ReadTable m t leaf) (hm : Mapped leaf va) :
    walkaddr t (PGROUNDDOWN va) m = .ok (PTE2PA (leaf (va / PGSIZE)), m) ∧ PTE2PA (leaf (va / PGSIZE)) ≠ 0 := by
  have hdiv : PGROUNDDOWN va / PGSIZE = va / PGSIZE := Nat.mul_div_cancel _ (by decide)
  have hlt : ¬PGROUNDDOWN va ≥ MAXVA := by
    have := hm.1
    simp only [PGROUNDDOWN, PGSIZE, MAXVA] at this ⊢
    omega
  refine ⟨?_, h.page _ hm.vpn hm.2⟩
  rw [h.walk, if_neg hlt, hdiv, userPage, if_neg (not_or.mpr hm.2)]

theorem walkaddr_unmapped (h : ReadTable m t leaf) (hm : ¬Mapped leaf va) :
    walkaddr t (PGROUNDDOWN va) m = .ok (0, m) := by
  have hdiv : PGROUNDDOWN va / PGSIZE = va / PGSIZE := Nat.mul_div_cancel _ (by decide)
  rw [h.walk, hdiv]
  by_cases hlt : PGROUNDDOWN va ≥ MAXVA
  · rw [if_pos hlt]
  · have hva : va < MAXVA := by
      simp only [PGROUNDDOWN, PGSIZE, MAXVA] at hlt ⊢
      omega
    have hacc : ¬Accessible (leaf (va / PGSIZE)) := fun hc => hm ⟨hva, hc⟩
    rw [if_neg hlt, userPage, if_pos (by simpa [Accessible, or_iff_not_imp_left] using hacc)]

/-- One round of the copy loops: `n` bytes on the page of `va`. -/
structure Round (leaf : Nat → Nat) (va len n : Nat) : Prop where
  page : va % PGSIZE + n ≤ PGSIZE
  pos : 0 < n
  le : n ≤ len
  next : n < len → (PGROUNDDOWN va + PGSIZE) % 2 ^ 64 = va + n
  offset : va - PGROUNDDOWN va = va % PGSIZE
  place : ∀ i < n, place leaf (va + i) = (PTE2PA (leaf (va / PGSIZE)), va % PGSIZE + i)
  mapped : ∀ i < n, Mapped leaf (va + i)

theorem Mapped.round (hm : Mapped leaf va) (h0 : 0 < len) (hn : min (PGSIZE - va % PGSIZE) len = n) :
    Round leaf va len n := by
  have hva := hm.1
  simp only [PGSIZE, MAXVA] at hn hva
  have hsame : ∀ i < n, (va + i) / PGSIZE = va / PGSIZE ∧ (va + i) % PGSIZE = va % PGSIZE + i ∧ va + i < MAXVA := by
    intro i hi
    simp only [PGSIZE, MAXVA]
    omega
  refine ⟨?_, ?_, ?_, fun hlt => ?_, ?_, fun i hi => ?_, fun i hi => ?_⟩
  · simp only [PGSIZE]
    omega
  · omega
  · omega
  · simp only [PGROUNDDOWN, PGSIZE]
    omega
  · simp only [PGROUNDDOWN, PGSIZE]
    omega
  · rw [Vm.place, (hsame i hi).1, (hsame i hi).2.1]
  · exact ⟨(hsame i hi).2.2, (hsame i hi).1 ▸ hm.2⟩

/-- A copy of `len` bytes stops after `k`: at the end, or where the address is not mapped. -/
def Stops (leaf : Nat → Nat) (va len : Nat) (r : Int) (k : Nat) : Prop :=
  (∀ i < k, Mapped leaf (va + i)) ∧ ((r = 0 ∧ k = len) ∨ (r = -1 ∧ k < len ∧ ¬Mapped leaf (va + k)))

theorem stops_zero (h : len = 0) : Stops leaf va len 0 0 :=
  ⟨fun i hi => absurd hi (by omega), .inl ⟨rfl, h.symm⟩⟩

theorem stops_unmapped (h0 : len > 0) (hm : ¬Mapped leaf va) : Stops leaf va len (-1) 0 :=
  ⟨fun i hi => absurd hi (by omega), .inr ⟨rfl, h0, hm⟩⟩

theorem mapped_add (hn : ∀ i < n, Mapped leaf (va + i)) (hk : ∀ i < k, Mapped leaf (va + n + i)) :
    ∀ i < n + k, Mapped leaf (va + i) := by
  intro i hi
  by_cases hin : i < n
  · exact hn i hin
  · obtain ⟨j, rfl⟩ := Nat.exists_eq_add_of_le (Nat.le_of_not_lt hin)
    exact Nat.add_assoc va n j ▸ hk j (by omega)

theorem Round.stops {r : Int} (hr : Round leaf va len n) (h : Stops leaf (va + n) (len - n) r k) :
    Stops leaf va len r (n + k) := by
  have := hr.le
  refine ⟨mapped_add hr.mapped h.1, ?_⟩
  rcases h.2 with ⟨hr, hkl⟩ | ⟨hr, hkl, hno⟩
  · exact .inl ⟨hr, by omega⟩
  · exact .inr ⟨hr, by omega, Nat.add_assoc va n k ▸ hno⟩

theorem Stops.done {r : Int} (h : Stops leaf va len r k) (h0 : len = 0) : k = 0 ∧ r = 0 := by
  rcases h.2 with ⟨hr, hkl⟩ | ⟨-, hkl, -⟩
  · exact ⟨hkl.trans h0, hr⟩
  · omega

theorem Stops.before {r : Int} (h : Stops leaf va len r k) {i : Nat} (hi : i < len)
    (hm : ∀ j ≤ i, Mapped leaf (va + j)) : i < k := by
  rcases h.2 with ⟨-, hk⟩ | ⟨-, -, hno⟩
  · exact hk ▸ hi
  · exact Nat.lt_of_not_le fun hk => hno (hm k hk)

/-- `copyin` copies the bytes up to the first one whose page is not mapped for the user. -/
theorem copyinLoop_spec (h : ReadTable m t leaf) (fuel : Nat) : ∀ {dst : Bytes.Mem} {off src len : Nat}, len ≤ fuel →
    ∃ r k, copyinLoop t fuel dst off src len m = .ok ((r, move dst off (fun i => userByte m leaf (src + i)) k), m) ∧
      Stops leaf src len r k := by
  induction fuel with
  | zero =>
    intro dst off src len hlen
    refine ⟨0, 0, ?_, stops_zero (by omega)⟩
    rw [move_zero]
    rfl
  | succ fuel ih =>
    intro dst off src len hlen
    by_cases h0 : len > 0
    swap
    · refine ⟨0, 0, ?_, stops_zero (by omega)⟩
      rw [copyinLoop, if_neg h0, move_zero]
      rfl
    by_cases hm : Mapped leaf src
    swap
    · refine ⟨-1, 0, ?_, stops_unmapped h0 hm⟩
      rw [copyinLoop, if_pos h0, move_zero]
      exact (bind_eq (walkaddr_unmapped h hm)).trans rfl
    obtain ⟨hwalk, hne⟩ := walkaddr_mapped h hm
    obtain ⟨n, hn⟩ : ∃ n, min (PGSIZE - src % PGSIZE) len = n := ⟨_, rfl⟩
    have hr := hm.round h0 hn
    have hlen' := hr.le
    have hpos := hr.pos
    have hfirst : move dst off (fun i => m.page (PTE2PA (leaf (src / PGSIZE))) (src % PGSIZE + i)) n =
        move dst off (fun i => userByte m leaf (src + i)) n := move_congr fun i hi => by
      show _ = m.page (place leaf (src + i)).1 (place leaf (src + i)).2
      rw [hr.place i hi]
    have hrest : ∃ r k, copyinLoop t fuel (move dst off (fun i => userByte m leaf (src + i)) n) (off + n)
        ((PGROUNDDOWN src + PGSIZE) % 2 ^ 64) (len - n) m = .ok ((r, _), m) ∧ _ := ih (by omega)
    obtain ⟨r, k, hrun, hstop⟩ := hrest
    have hstep : copyinLoop t (fuel + 1) dst off src len m =
        copyinLoop t fuel (move dst off (fun i => userByte m leaf (src + i)) n) (off + n)
          ((PGROUNDDOWN src + PGSIZE) % 2 ^ 64) (len - n) m := by
      rw [copyinLoop, if_pos h0]
      refine (bind_eq hwalk).trans ?_
      rw [if_neg hne, hr.offset, hn, ← hfirst]
      rfl
    rw [hstep, hrun]
    by_cases hlt : n < len
    · rw [hr.next hlt] at hstop ⊢
      refine ⟨r, n + k, ?_, hr.stops hstop⟩
      rw [← move_append]
      simp only [Nat.add_assoc]
    · obtain ⟨rfl, rfl⟩ := hstop.done (by omega)
      rw [move_zero]
      exact ⟨0, n, rfl, hr.stops (k := 0) (stops_zero (by omega))⟩

theorem copyin_spec (h : ReadTable m t leaf) (dst : Bytes.Mem) (off src len : Nat) :
    ∃ r k, copyin t dst off src len m = .ok ((r, move dst off (fun i => userByte m leaf (src + i)) k), m) ∧
      Stops leaf src len r k :=
  copyinLoop_spec h len (Nat.le_refl len)

section
variable [Symbols]

/-- A page table whose user pages are different pages, none of them a page of the table. -/
structure UserTable (m : Mem) (t : Nat) (leaf : Nat → Nat) (nodes : Multiset Nat) : Prop where
  tree : Tree m 2 t leaf nodes
  ram : Ram m nodes
  user : ∀ v, v < MAXVA / PGSIZE → Accessible (leaf v) → IsPage (PTE2PA (leaf v)) ∧ PTE2PA (leaf v) ∉ nodes
  inj : ∀ v w, v < MAXVA / PGSIZE → w < MAXVA / PGSIZE → Accessible (leaf v) → Accessible (leaf w) →
    PTE2PA (leaf v) = PTE2PA (leaf w) → v = w

section
variable {m m' m1 : Mem} {t : Nat} {leaf : Nat → Nat} {nodes : Multiset Nat}

theorem UserTable.readTable (h : UserTable m t leaf nodes) : ReadTable m t leaf :=
  ⟨fun _ => walkaddr_spec h.tree h.ram, fun v hv hacc => Nat.ne_of_gt (h.user v hv hacc).1.pos⟩

theorem UserTable.congr (h : UserTable m t leaf nodes) (hfree : m'.free = m.free)
    (hp : ∀ a ∈ nodes, m'.page a = m.page a) : UserTable m' t leaf nodes :=
  ⟨h.tree.congr hp, ⟨hfree ▸ h.ram.nodup, hfree ▸ h.ram.isPage⟩, h.user, h.inj⟩

/-- The address spaces that the kernel builds are such page tables. -/
theorem Space.userTable {tf : Nat} (h : Space m t tf n leaf nodes) (hram : Ram m (nodes + frames leaf 0 n)) :
    UserTable m t leaf nodes := by
  have hkernel : ∀ {pa perm}, (perm ||| PTE_V) &&& PTE_U = 0 → ¬Accessible (mkPte pa perm) := by
    intro pa perm hp hacc
    refine hacc.2 ?_
    rw [mkPte_and (by decide), hp]
  have huser : ∀ v, v < MAXVA / PGSIZE → Accessible (leaf v) → v < n := by
    intro v hv hacc
    by_contra hn
    by_cases htf : v = trapframePage
    · exact hkernel (by decide) (h.trapframe ▸ htf ▸ hacc)
    by_cases htr : v = trampolinePage
    · exact hkernel (by decide) (h.trampoline ▸ htr ▸ hacc)
    rw [h.unmapped v (Nat.lt_of_lt_of_le hv (by decide)) (by omega) htf htr] at hacc
    exact hacc.1 (Nat.zero_and _)
  have hnodup := (Multiset.coe_nodup.mp hram.right.own_nodup)
  refine ⟨h.tree, hram.left, fun v hv hacc => ?_, fun v w hv hw hav haw heq => ?_⟩
  · have hmem := @mem_frames leaf n 0 v (Nat.zero_le v) (by simpa using huser v hv hacc)
    exact ⟨hram.right.own_isPage hmem, fun hc => hram.not_mem hmem (Multiset.mem_add.mpr (.inr hc))⟩
  · have hinj := List.inj_on_of_nodup_map hnodup
    exact hinj (by simpa using huser v hv hav) (by simpa using huser w hw haw) heq

theorem Stored.userTable {dst : Nat} {src : Nat → UInt8} (hst : Stored leaf m dst src k m')
    (h : UserTable m t leaf nodes) (hk : ∀ i < k, Mapped leaf (dst + i)) : UserTable m' t leaf nodes := by
  refine h.congr hst.free fun a ha => ?_
  funext off
  refine hst.outside a off fun i hi heq => ?_
  exact (h.user _ (hk i hi).vpn (hk i hi).2).2 ((Prod.mk.inj heq).1 ▸ ha)

theorem UserTable.place_inj (h : UserTable m t leaf nodes) {wa : Nat} (hv : Mapped leaf va) (hw : Mapped leaf wa)
    (heq : place leaf va = place leaf wa) : va = wa := by
  obtain ⟨h1, h2⟩ := Prod.mk.inj heq
  have hpage := h.inj _ _ hv.vpn hw.vpn hv.2 hw.2 h1
  rw [← Nat.div_add_mod va PGSIZE, ← Nat.div_add_mod wa PGSIZE, hpage, h2]

theorem Stored.append {dst : Nat} {src : Nat → UInt8} (h : UserTable m t leaf nodes)
    (h1 : Stored leaf m dst src n m1) (h2 : Stored leaf m1 (dst + n) (fun i => src (n + i)) k m')
    (hn : ∀ i < n, Mapped leaf (dst + i)) (hk : ∀ i < k, Mapped leaf (dst + n + i)) :
    Stored leaf m dst src (n + k) m' := by
  refine ⟨fun p off hne => ?_, fun i hi => ?_, h2.free.trans h1.free, h2.deny.trans h1.deny⟩
  · rw [h2.outside p off fun i hi => Nat.add_assoc dst n i ▸ hne (n + i) (by omega)]
    exact h1.outside p off fun i hi => hne i (by omega)
  · by_cases hin : i < n
    · refine (h2.outside _ _ fun j hj heq => ?_).trans (h1.bytes i hin)
      have := h.place_inj (hn i hin) (hk j hj) heq
      omega
    · obtain ⟨j, rfl⟩ := Nat.exists_eq_add_of_le (Nat.le_of_not_lt hin)
      rw [← Nat.add_assoc]
      exact h2.bytes j (by omega)

/-- `copyout` stores the bytes up to the first one whose page is not mapped for the user. -/
theorem copyoutLoop_spec (fuel : Nat) : ∀ {m : Mem} {dst len : Nat} {src : Nat → UInt8}, UserTable m t leaf nodes →
    len ≤ fuel → ∃ r m' k, copyoutLoop t fuel dst src len m = .ok (r, m') ∧ Stored leaf m dst src k m' ∧
      Stops leaf dst len r k := by
  induction fuel with
  | zero =>
    intro m dst len src _ hlen
    exact ⟨0, m, 0, rfl, .zero leaf m dst src, stops_zero (by omega)⟩
  | succ fuel ih =>
    intro m dst len src h hlen
    by_cases h0 : len > 0
    swap
    · have hrun : copyoutLoop t (fuel + 1) dst src len m = .ok (0, m) := by
        rw [copyoutLoop, if_neg h0]
        rfl
      exact ⟨0, m, 0, hrun, .zero leaf m dst src, stops_zero (by omega)⟩
    by_cases hm : Mapped leaf dst
    swap
    · have hrun : copyoutLoop t (fuel + 1) dst src len m = .ok (-1, m) := by
        rw [copyoutLoop, if_pos h0]
        exact (bind_eq (walkaddr_unmapped h.readTable hm)).trans rfl
      exact ⟨-1, m, 0, hrun, .zero leaf m dst src, stops_unmapped h0 hm⟩
    obtain ⟨hwalk, hne⟩ := walkaddr_mapped h.readTable hm
    obtain ⟨n, hn⟩ : ∃ n, min (PGSIZE - dst % PGSIZE) len = n := ⟨_, rfl⟩
    have hr := hm.round h0 hn
    have hst : Stored leaf m dst src n (m.store (PTE2PA (leaf (dst / PGSIZE))) (dst % PGSIZE) src n) :=
      stored_store hr.page
    have h1 : UserTable (m.store (PTE2PA (leaf (dst / PGSIZE))) (dst % PGSIZE) src n) t leaf nodes :=
      hst.userTable h hr.mapped
    have hlen' := hr.le
    have hpos := hr.pos
    have hrest : ∃ r m' k, copyoutLoop t fuel ((PGROUNDDOWN dst + PGSIZE) % 2 ^ 64) (fun i => src (n + i)) (len - n)
        (m.store (PTE2PA (leaf (dst / PGSIZE))) (dst % PGSIZE) src n) = .ok (r, m') ∧ _ := ih h1 (by omega)
    obtain ⟨r, m', k, hrun, hst2, hstop⟩ := hrest
    have hrun' : copyoutLoop t (fuel + 1) dst src len m = .ok (r, m') := by
      rw [copyoutLoop, if_pos h0]
      refine (bind_eq hwalk).trans ?_
      rw [if_neg hne, hr.offset, hn, ← hrun]
      rfl
    refine ⟨r, m', n + k, hrun', ?_⟩
    by_cases hlt : n < len
    · rw [hr.next hlt] at hst2 hstop
      exact ⟨hst.append h hst2 hr.mapped hstop.1, hr.stops hstop⟩
    · obtain ⟨rfl, rfl⟩ := hstop.done (by omega)
      have hst0 : Stored leaf _ (dst + n) (fun i => src (n + i)) 0 m' :=
        ⟨fun p off _ => hst2.outside p off fun i hi => absurd hi (by omega), fun i hi => absurd hi (by omega),
          hst2.free, hst2.deny⟩
      have hend : Stops leaf (dst + n) (len - n) 0 0 := stops_zero (by omega)
      exact ⟨hst.append h hst0 hr.mapped hend.1, hr.stops hend⟩

end

/-- What `copyout` is to do: it changes only bytes of writable pages in the range, and returns 0 exactly when all of
the range is writable, which then holds the bytes of the source. -/
def Protects (leaf : Nat → Nat) (m : Mem) (dst : Nat) (src : Nat → UInt8) (len : Nat) (r : Int) (m' : Mem) : Prop :=
  (∀ p off, m'.page p off ≠ m.page p off → ∃ va, dst ≤ va ∧ va < dst + len ∧ va < MAXVA ∧
    Writable (leaf (va / PGSIZE)) ∧ (p, off) = place leaf va) ∧
  (r = 0 ↔ ∀ va, dst ≤ va → va < dst + len → va < MAXVA ∧ Writable (leaf (va / PGSIZE))) ∧
  (r = 0 → ∀ i < len, m'.page (place leaf (dst + i)).1 (place leaf (dst + i)).2 = src i)

/-- A byte that `copyout` stores on a page without `PTE_W` must already be there, and the call must fail. -/
def MayStore (leaf : Nat → Nat) (m : Mem) (dst : Nat) (src : Nat → UInt8) (len i : Nat) : Prop :=
  leaf ((dst + i) / PGSIZE) &&& PTE_W ≠ 0 ∨
    src i = userByte m leaf (dst + i) ∧ ∃ j < len, ¬Mapped leaf (dst + j)

/-- `copyout` respects write protection exactly when the bytes before the first one that is not mapped for the user
may be stored. -/
theorem copyout_protects_iff {m : Mem} {t : Nat} {leaf : Nat → Nat} {nodes : Multiset Nat}
    (h : UserTable m t leaf nodes) (dst len : Nat) (src : Nat → UInt8) :
    ∃ r m', copyout t dst src len m = .ok (r, m') ∧ (r = 0 ∨ r = -1) ∧ m'.free = m.free ∧
      (Protects leaf m dst src len r m' ↔
        ∀ i < len, (∀ j ≤ i, Mapped leaf (dst + j)) → MayStore leaf m dst src len i) := by
  have hloop : ∃ r m' k, copyoutLoop t len dst src len m = .ok (r, m') ∧ _ := copyoutLoop_spec len h (Nat.le_refl len)
  obtain ⟨r, m', k, hrun, hst, hstop⟩ := hloop
  have hk := hstop.1
  have hres := hstop.2
  refine ⟨r, m', hrun, by omega, hst.free, ⟨fun ⟨hch, hiff, _⟩ i hi hm => ?_, fun hmay => ⟨?_, ?_, ?_⟩⟩⟩
  · refine or_iff_not_imp_left.mpr fun hro => ⟨?_, ?_⟩
    · -- a byte that changes is on a writable page
      by_contra hne
      have hik := hstop.before hi hm
      obtain ⟨va, -, -, hmax, hwr, heq⟩ := hch _ _ (by rw [hst.bytes i hik]; exact hne)
      rw [h.place_inj (hk i hik) ⟨hmax, hwr.1, hwr.2.1⟩ heq] at hro
      exact hro hwr.2.2
    · rcases hres with ⟨hr, -⟩ | ⟨-, hlt, hno⟩
      · exact absurd ((hiff.mp hr (dst + i) (by omega) (by omega)).2.2.2) hro
      · exact ⟨k, hlt, hno⟩
  · intro p off hne
    have hin : ∃ i < k, (p, off) = place leaf (dst + i) := by
      by_contra hno
      exact hne (hst.outside p off fun i hi heq => hno ⟨i, hi, heq⟩)
    obtain ⟨i, hi, heq⟩ := hin
    obtain ⟨rfl, rfl⟩ := Prod.mk.inj heq
    rcases hmay i (by omega) fun j hj => hk j (by omega) with hw | ⟨hsame, -⟩
    · exact ⟨dst + i, by omega, by omega, (hk i hi).1, ⟨(hk i hi).2.1, (hk i hi).2.2, hw⟩, rfl⟩
    · exact absurd ((hst.bytes i hi).trans hsame) hne
  · constructor
    · intro hr va h1 h2
      obtain ⟨i, rfl⟩ := Nat.exists_eq_add_of_le h1
      have hmap : ∀ j < len, Mapped leaf (dst + j) := fun j hj => hk j (by omega)
      rcases hmay i (by omega) fun j hj => hmap j (by omega) with hw | ⟨-, j, hj, hno⟩
      · exact ⟨(hmap i (by omega)).1, (hmap i (by omega)).2.1, (hmap i (by omega)).2.2, hw⟩
      · exact absurd (hmap j hj) hno
    · intro hall
      rcases hres with ⟨hr, -⟩ | ⟨-, hlt, hno⟩
      · exact hr
      · obtain ⟨hmax, hwr⟩ := hall (dst + k) (by omega) (by omega)
        exact absurd ⟨hmax, hwr.1, hwr.2.1⟩ hno
  · exact fun hr i hi => hst.bytes i (by omega)

end

/-! ## A read-only page -/

theorem Tree.first {d c : Nat} {nodes : Multiset Nat} (h : Tree m d c leaf nodes)
    (h0 : word m t 0 = link c) (hk : ∀ k, k ≠ 0 → word m t k = 0) (hleaf : ∀ v, 512 ^ (d + 1) ≤ v → leaf v = 0) :
    Tree m (d + 1) t leaf (t ::ₘ nodes) := by
  refine ⟨fun i => if i = 0 then nodes else 0, ?_, fun i _ => ?_⟩
  · rw [Finset.sum_ite_eq' (Finset.range 512) 0 fun _ => nodes, if_pos (by simp)]
  · beta_reduce
    by_cases hi : i = 0
    · subst hi
      rw [if_pos rfl]
      refine .inr ⟨c, h0, Radix.Rep.leaf_congr h fun v _ => ?_⟩
      rw [Nat.zero_mul, Nat.zero_add]
    · rw [if_neg hi]
      refine .inl ⟨hk i hi, rfl, fun v _ => hleaf _ (Nat.le_trans ?_ (Nat.le_add_right _ _))⟩
      exact Nat.le_mul_of_pos_left _ (Nat.pos_of_ne_zero hi)

/-- A kernel that ends at `0x80010000`. -/
@[reducible] def smallKernel : Symbols where
  kernelEnd := 0x80010000
  trampoline := 0x80001000
  trampoline_page := by decide
  trampoline_kernel := by decide
  end_ram := by decide

def zeroMem : Mem := ⟨fun _ _ => 0, [], []⟩

/-- Memory with a page table at `0x80010000` that maps the page `0x80013000` at address 0. -/
def onePage (perm : Nat) : Mem :=
  ((zeroMem.setPte 0x80010000 0 (link 0x80011000)).setPte 0x80011000 0 (link 0x80012000)).setPte
    0x80012000 0 (mkPte 0x80013000 perm)

theorem onePage_word {perm a : Nat} (hp : perm < 1024) : word (onePage perm) a k =
    if a = 0x80012000 ∧ k = 0 then mkPte 0x80013000 perm else if a = 0x80011000 ∧ k = 0 then link 0x80012000
    else if a = 0x80010000 ∧ k = 0 then link 0x80011000 else 0 := by
  by_cases h1 : a = 0x80012000 ∧ k = 0
  · rw [if_pos h1, h1.1, h1.2]
    exact word_setPte_self (mkPte_lt (by decide) hp)
  rw [if_neg h1, onePage, word_setPte_of_ne h1]
  by_cases h2 : a = 0x80011000 ∧ k = 0
  · rw [if_pos h2, h2.1, h2.2]
    exact word_setPte_self (by decide)
  rw [if_neg h2, word_setPte_of_ne h2]
  by_cases h3 : a = 0x80010000 ∧ k = 0
  · rw [if_pos h3, h3.1, h3.2]
    exact word_setPte_self (by decide)
  rw [if_neg h3, word_setPte_of_ne h3]
  exact word_zero rfl k

theorem onePage_userTable (perm : Nat) (hp : perm < 1024) : @UserTable smallKernel (onePage perm) 0x80010000
    (fun v => if v = 0 then mkPte 0x80013000 perm else 0) {0x80010000, 0x80011000, 0x80012000} := by
  have hzero : ∀ v d, 512 ^ (d + 1) ≤ v → (if v = 0 then mkPte 0x80013000 perm else 0) = 0 := by
    intro v d hv
    have hpos : 0 < 512 ^ (d + 1) := Nat.pow_pos (by decide)
    exact if_neg (by omega)
  have h0 : Tree (onePage perm) 0 0x80012000 (fun v => if v = 0 then mkPte 0x80013000 perm else 0) {0x80012000} := by
    refine ⟨rfl, fun k _ => ?_⟩
    rw [onePage_word hp]
    simp
  have h1 := h0.first (t := 0x80011000) (by rw [onePage_word hp]; simp) (fun k hk => by rw [onePage_word hp]; simp [hk])
    fun v hv => hzero v 0 hv
  have h2 := h1.first (t := 0x80010000) (by rw [onePage_word hp]; simp) (fun k hk => by rw [onePage_word hp]; simp [hk])
    fun v hv => hzero v 1 hv
  have hv0 : ∀ v, Accessible (if v = 0 then mkPte 0x80013000 perm else 0) → v = 0 := by
    intro v hacc
    by_contra hv
    rw [if_neg hv] at hacc
    exact hacc.1 (Nat.zero_and _)
  have hfree : (onePage perm).free = [] := rfl
  have hram : @Ram smallKernel (onePage perm) {0x80010000, 0x80011000, 0x80012000} :=
    @Ram.mk smallKernel _ _ (by rw [hfree]; decide) (by rw [hfree]; decide)
  refine @UserTable.mk smallKernel _ _ _ _ h2 hram (fun v _ hacc => ?_) fun v w _ _ hv hw _ =>
    (hv0 v hv).trans (hv0 w hw).symm
  · rw [hv0 v hacc, if_pos rfl, PTE2PA_mkPte (by decide) (by decide) hp]
    exact ⟨by decide, by decide⟩

/-- Three bytes of which the last is past a writable page: the two on the page are stored, and `copyout` fails. -/
theorem copyout_protects_page : ∃ m', copyout 0x80010000 4094 (fun i => 7 + UInt8.ofNat i) 3
    (onePage (PTE_R ||| PTE_W ||| PTE_U)) = .ok (-1, m') ∧
    Protects (fun v => if v = 0 then mkPte 0x80013000 (PTE_R ||| PTE_W ||| PTE_U) else 0)
      (onePage (PTE_R ||| PTE_W ||| PTE_U)) 4094 (fun i => 7 + UInt8.ofNat i) 3 (-1) m' := by
  obtain ⟨r, m', hrun, -, -, hiff⟩ := @copyout_protects_iff smallKernel _ _ _ _
    (onePage_userTable (PTE_R ||| PTE_W ||| PTE_U) (by decide)) 4094 3 fun i => 7 + UInt8.ofNat i
  have hr : r = -1 := (Prod.mk.inj (Except.ok.inj (hrun.symm.trans rfl))).1
  subst hr
  refine ⟨m', hrun, hiff.mpr fun i hi hm => .inl ?_⟩
  have hi2 : i ≠ 2 := by
    rintro rfl
    exact absurd (hm 2 (Nat.le_refl 2)) (by decide)
  obtain rfl | rfl : i = 0 ∨ i = 1 := by omega
  · decide
  · decide

/-- `copyout` also writes a page that is mapped without `PTE_W`, as text pages are. -/
theorem copyout_read_only : ∃ m', copyout 0x80010000 0 (fun _ => 7) 1 (onePage (PTE_R ||| PTE_X ||| PTE_U)) =
    .ok (0, m') ∧ m'.page 0x80013000 0 ≠ (onePage (PTE_R ||| PTE_X ||| PTE_U)).page 0x80013000 0 ∧
    word (onePage (PTE_R ||| PTE_X ||| PTE_U)) 0x80012000 0 = mkPte 0x80013000 (PTE_R ||| PTE_X ||| PTE_U) ∧
    mkPte 0x80013000 (PTE_R ||| PTE_X ||| PTE_U) &&& PTE_W = 0 := by
  have hperm : PTE_R ||| PTE_X ||| PTE_U < 1024 := by decide
  obtain ⟨r, m', k, hrun, hst, hk, ⟨rfl, rfl⟩ | ⟨-, hlt, hno⟩⟩ :=
    @copyoutLoop_spec smallKernel _ _ _ 1 _ 0 1 (fun _ => 7) (onePage_userTable _ hperm) (Nat.le_refl 1)
  · have h7 : m'.page 0x80013000 0 = 7 := hst.bytes 0 (by decide)
    refine ⟨m', hrun, ?_, ?_, by decide⟩
    · rw [h7]
      decide
    · rw [onePage_word hperm]
      rfl
  · obtain rfl : k = 0 := by omega
    exact absurd (by decide) hno

end Xv6.Vm
