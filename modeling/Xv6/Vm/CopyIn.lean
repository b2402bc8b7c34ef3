import Xv6.Vm.Sbrk

/-!
# Reading user memory

`copyinstr` of `kernel/vm.c`, and what `copyin` and `copyinstr` return for every
page table.  `leafOf m t v` is the entry a walk of the table at `t` finds for the
virtual page `v`, whatever memory holds there; `Mapped (leafOf m t) va` says that
`va` is below `MAXVA` and its entry has `PTE_V` and `PTE_U`.

`walkaddr` returns the physical page, and 0 when there is none, so a user page
that is the physical page 0 counts as not mapped (`copyin_page_zero`).
-/

namespace Xv6.Vm

open Total Function

/-! ## `kernel/vm.c` -/

/-- The inner loop of `copyinstr`: at most `n` bytes of `p`.  It returns `got_null`, the buffer, and where the next
byte goes and how many there may be. -/
def strLoop (p : Nat → UInt8) : Nat → Bytes.Mem → Nat → Nat → Bool × Bytes.Mem × Nat × Nat
  | 0, dst, off, max => (false, dst, off, max)
  | n + 1, dst, off, max =>
    if p 0 = 0 then (true, update dst off 0, off, max)
    else strLoop (fun i => p (i + 1)) n (update dst off (p 0)) (off + 1) (max - 1)

/-- `copyinstr` to the kernel buffer `dst` from offset `off` on; a round that goes on copies at least one byte, so
`max` rounds are enough. -/
def copyinstrLoop (pagetable : Nat) : Nat → Bytes.Mem → Nat → Nat → Nat → Kernel (Int × Bytes.Mem)
  | 0, dst, _, _, _ => pure (-1, dst)
  | fuel + 1, dst, off, srcva, max =>
    if max > 0 then do
      let pa0 ← walkaddr pagetable (PGROUNDDOWN srcva)
      if pa0 = 0 then pure (-1, dst)
      else do
        let n := min (PGSIZE - (srcva - PGROUNDDOWN srcva)) max
        let page ← fun m => .ok (m.page pa0, m)
        let r := strLoop (fun i => page (srcva - PGROUNDDOWN srcva + i)) n dst off max
        if r.1 then pure (0, r.2.1)
        else copyinstrLoop pagetable fuel r.2.1 r.2.2.1 ((PGROUNDDOWN srcva + PGSIZE) % 2 ^ 64) r.2.2.2
    else pure (-1, dst)

def copyinstr (pagetable : Nat) (dst : Bytes.Mem) (off srcva max : Nat) : Kernel (Int × Bytes.Mem) :=
  copyinstrLoop pagetable max dst off srcva max

/-! ## The entries of any page table -/

/-- The entry that `walk` finds, 0 if a table is missing. -/
def lookup (m : Mem) (va : Nat) : Nat → Nat → Nat
  | 0, pagetable => word m pagetable (PX 0 va)
  | level + 1, pagetable =>
    if word m pagetable (PX (level + 1) va) &&& PTE_V ≠ 0 then
      lookup m va level (PTE2PA (word m pagetable (PX (level + 1) va)))
    else 0

/-- The entry of the virtual page `v`. -/
def leafOf (m : Mem) (t v : Nat) : Nat := lookup m (v * PGSIZE) 2 t

variable {m : Mem} {t : Nat} {leaf : Nat → Nat}

theorem lookup_congr {va va' : Nat} (h : va / PGSIZE = va' / PGSIZE) (level : Nat) : ∀ t,
    lookup m va level t = lookup m va' level t := by
  have hpx : ∀ l, PX l va = PX l va' := by
    intro l
    rw [PGSIZE] at h
    rw [PX_eq, PX_eq, h]
  induction level with
  | zero =>
    intro t
    rw [lookup, lookup, hpx]
  | succ level ih =>
    intro t
    rw [lookup, lookup, hpx]
    split
    · exact ih _
    · rfl

theorem walkLoop_lookup (m : Mem) (va level : Nat) : ∀ t, ∃ r, walkLoop va false level t m = .ok (r, m) ∧
    lookup m va level t = (r.elim 0 fun x => word m x.1 x.2) := by
  induction level with
  | zero =>
    intro t
    exact ⟨_, rfl, rfl⟩
  | succ level ih =>
    intro t
    have hread : getPte t (PX (level + 1) va) m = .ok (word m t (PX (level + 1) va), m) := rfl
    rw [walkLoop, bind_eq hread, lookup]
    by_cases hv : word m t (PX (level + 1) va) &&& PTE_V ≠ 0
    · rw [if_pos hv, if_pos hv]
      exact ih _
    · rw [if_neg hv, if_neg hv]
      exact ⟨none, rfl, rfl⟩

theorem walkaddr_leafOf (m : Mem) (t va : Nat) :
    walkaddr t va m = .ok (if va ≥ MAXVA then 0 else userPage (leafOf m t (va / PGSIZE)), m) := by
  unfold walkaddr
  by_cases hva : va ≥ MAXVA
  · rw [if_pos hva, if_pos hva]
    rfl
  rw [if_neg hva, if_neg hva, leafOf, lookup_congr (page_mul_div (va / PGSIZE))]
  obtain ⟨r, hrun, hlook⟩ := walkLoop_lookup m va 2 t
  have hwalk : walk t va false m = .ok (r, m) := by
    rw [walk, if_neg hva]
    exact hrun
  rw [bind_eq hwalk, hlook]
  cases r with
  | none =>
    show (pure 0 : Kernel Nat) m = .ok (userPage 0, m)
    rfl
  | some x =>
    have hread : getPte x.1 x.2 m = .ok (word m x.1 x.2, m) := rfl
    show (getPte x.1 x.2 >>= _) m = .ok (userPage (word m x.1 x.2), m)
    rw [bind_eq hread, userPage]
    by_cases hv : word m x.1 x.2 &&& PTE_V = 0
    · rw [if_pos hv, if_pos (.inl hv)]
      rfl
    · by_cases hu : word m x.1 x.2 &&& PTE_U = 0
      · rw [if_neg hv, if_pos hu, if_pos (.inr hu)]
        rfl
      · rw [if_neg hv, if_neg hu, if_neg (not_or.mpr ⟨hv, hu⟩)]
        rfl

/-- No entry gives the user the physical page 0. -/
def NoPageZero (m : Mem) (t : Nat) : Prop :=
  ∀ v, v < MAXVA / PGSIZE → Accessible (leafOf m t v) → PTE2PA (leafOf m t v) ≠ 0

theorem NoPageZero.readTable (h : NoPageZero m t) : ReadTable m t (leafOf m t) :=
  ⟨walkaddr_leafOf m t, h⟩

theorem leafOf_tree [Symbols] {t v : Nat} {nodes : Multiset Nat}
    (h : Tree m 2 t leaf nodes) (hram : Ram m nodes) (hv : v < MAXVA / PGSIZE) : leafOf m t v = leaf v := by
  have hlt : v * PGSIZE < MAXVA := by
    simp only [MAXVA, PGSIZE] at hv ⊢
    omega
  obtain ⟨r, hrun, hlook⟩ := walkLoop_lookup m (v * PGSIZE) 2 t
  have hwalk : walk t (v * PGSIZE) false m = .ok (r, m) := by
    rw [walk, if_neg (by omega)]
    exact hrun
  obtain ⟨-, hres⟩ := (walk_find h hram hlt).result hwalk
  rw [page_mul_div] at hres
  rw [leafOf, hlook]
  rcases hres with ⟨rfl, hz⟩ | ⟨a, k, rfl, hslot⟩
  · exact hz.symm
  · exact hslot.word_eq

theorem UserTable.noPageZero [Symbols] {nodes : Multiset Nat}
    (h : UserTable m t leaf nodes) : NoPageZero m t := by
  intro v hv hacc
  rw [leafOf_tree h.tree h.ram hv] at hacc ⊢
  exact h.readTable.page v hv hacc

/-! ## `copyinstr` -/

theorem move_one (dst : Bytes.Mem) (off : Nat) (p : Nat → UInt8) : update dst off (p 0) = move dst off p 1 := by
  funext x
  unfold move
  by_cases hx : x = off
  · subst hx
    rw [update_self, if_pos (by omega), Nat.sub_self]
  · rw [update_of_ne hx, if_neg (by omega)]

theorem move_cons (dst : Bytes.Mem) (off n : Nat) (p : Nat → UInt8) :
    move (update dst off (p 0)) (off + 1) (fun i => p (i + 1)) n = move dst off p (n + 1) := by
  have hshift : (fun i => p (i + 1)) = fun i => p (1 + i) := funext fun i => by rw [Nat.add_comm]
  rw [move_one, hshift, move_append, Nat.add_comm]

theorem strLoop_spec (n : Nat) : ∀ (p : Nat → UInt8) (dst : Bytes.Mem) (off max : Nat),
    (∃ k < n, (∀ i < k, p i ≠ 0) ∧ p k = 0 ∧ strLoop p n dst off max = (true, move dst off p (k + 1), off + k,
    max - k)) ∨
      ((∀ i < n, p i ≠ 0) ∧ strLoop p n dst off max = (false, move dst off p n, off + n, max - n)) := by
  induction n with
  | zero =>
    intro p dst off max
    refine .inr ⟨fun i hi => absurd hi (by omega), ?_⟩
    rw [move_zero]
    rfl
  | succ n ih =>
    intro p dst off max
    by_cases h0 : p 0 = 0
    · refine .inl ⟨0, Nat.succ_pos n, fun i hi => absurd hi (by omega), h0, ?_⟩
      rw [strLoop, if_pos h0, ← move_one, h0]
      rfl
    rw [strLoop, if_neg h0]
    have htext : ∀ {k}, (∀ i < k, p (i + 1) ≠ 0) → ∀ i < k + 1, p i ≠ 0 := by
      intro k hk i hi
      cases i with
      | zero => exact h0
      | succ i => exact hk i (by omega)
    rcases ih (fun i => p (i + 1)) (update dst off (p 0)) (off + 1) (max - 1) with
      ⟨k, hkn, hk, hnul, hrun⟩ | ⟨hk, hrun⟩
    · refine .inl ⟨k + 1, by omega, htext hk, hnul, ?_⟩
      rw [hrun, move_cons, Nat.sub_sub, Nat.add_assoc off 1 k, Nat.add_comm 1 k]
    · refine .inr ⟨htext hk, ?_⟩
      rw [hrun, move_cons, Nat.sub_sub, Nat.add_assoc off 1 n, Nat.add_comm 1 n]

/-- User byte `va` is mapped and not NUL. -/
def IsText (m : Mem) (leaf : Nat → Nat) (va : Nat) : Prop := Mapped leaf va ∧ userByte m leaf va ≠ 0

/-- The user's string at `src` has its NUL at index `k`. -/
def IsString (m : Mem) (leaf : Nat → Nat) (src k : Nat) : Prop :=
  (∀ i < k, IsText m leaf (src + i)) ∧ Mapped leaf (src + k) ∧ userByte m leaf (src + k) = 0

/-- What `copyinstr` returns after it copied `c` bytes. -/
inductive Scan (m : Mem) (leaf : Nat → Nat) (src max : Nat) : Int → Nat → Prop
  | found (k : Nat) (hk : k < max) (h : IsString m leaf src k) : Scan m leaf src max 0 (k + 1)
  | long (h : ∀ i < max, IsText m leaf (src + i)) : Scan m leaf src max (-1) max
  | unmapped (k : Nat) (hk : k < max) (h : ∀ i < k, IsText m leaf (src + i)) (hno : ¬Mapped leaf (src + k)) :
      Scan m leaf src max (-1) k

theorem Scan.shift {src max n c : Nat} {r : Int} (hn : n ≤ max)
    (ht : ∀ i < n, IsText m leaf (src + i)) (h : Scan m leaf (src + n) (max - n) r c) :
    Scan m leaf src max r (n + c) := by
  have htext : ∀ {k}, (∀ i < k, IsText m leaf (src + n + i)) → ∀ i < n + k, IsText m leaf (src + i) := by
    intro k hk i hi
    by_cases hin : i < n
    · exact ht i hin
    · obtain ⟨j, rfl⟩ := Nat.exists_eq_add_of_le (Nat.le_of_not_lt hin)
      exact Nat.add_assoc src n j ▸ hk j (by omega)
  cases h with
  | found k hk h =>
    obtain ⟨hk', hm, hnul⟩ := h
    rw [Nat.add_assoc] at hm hnul
    exact .found (n + k) (by omega) ⟨htext hk', hm, hnul⟩
  | long h =>
    rw [Nat.add_sub_cancel' hn]
    exact .long (Nat.add_sub_cancel' hn ▸ htext h)
  | unmapped _ hk h hno =>
    rw [Nat.add_assoc] at hno
    exact .unmapped (n + c) (by omega) (htext h) hno

theorem copyinstrLoop_spec (h : ReadTable m t leaf) (fuel : Nat) :
    ∀ {dst : Bytes.Mem} {off src max : Nat}, max ≤ fuel → ∃ r c, copyinstrLoop t fuel dst off src max m =
      .ok ((r, move dst off (fun i => userByte m leaf (src + i)) c), m) ∧ Scan m leaf src max r c := by
  induction fuel with
  | zero =>
    intro dst off src max hmax
    obtain rfl : max = 0 := by omega
    refine ⟨-1, 0, ?_, .long fun i hi => absurd hi (by omega)⟩
    rw [move_zero]
    rfl
  | succ fuel ih =>
    intro dst off src max hmax
    by_cases h0 : max > 0
    swap
    · obtain rfl : max = 0 := by omega
      refine ⟨-1, 0, ?_, .long fun i hi => absurd hi (by omega)⟩
      rw [copyinstrLoop, if_neg h0, move_zero]
      rfl
    by_cases hm : Mapped leaf src
    swap
    · refine ⟨-1, 0, ?_, .unmapped 0 h0 (fun i hi => absurd hi (by omega)) hm⟩
      rw [copyinstrLoop, if_pos h0, move_zero]
      exact (bind_eq (walkaddr_unmapped h hm)).trans rfl
    obtain ⟨hwalk, hne⟩ := walkaddr_mapped h hm
    obtain ⟨n, hn⟩ : ∃ n, min (PGSIZE - src % PGSIZE) max = n := ⟨_, rfl⟩
    have hr := hm.round h0 hn
    have hle := hr.le
    have hpos := hr.pos
    obtain ⟨p, hp⟩ : ∃ p : Nat → UInt8, (fun i => m.page (PTE2PA (leaf (src / PGSIZE))) (src % PGSIZE + i)) =
      p := ⟨_, rfl⟩
    have hbyte : ∀ i < n, p i = userByte m leaf (src + i) := by
      intro i hi
      rw [← hp]
      show _ = m.page (place leaf (src + i)).1 (place leaf (src + i)).2
      rw [hr.place i hi]
    have hmove : ∀ {k}, k ≤ n → move dst off p k = move dst off (fun i => userByte m leaf (src + i)) k := fun hk =>
      move_congr fun i hi => hbyte i (by omega)
    have hstep : ∀ r, strLoop p n dst off max = r → copyinstrLoop t (fuel + 1) dst off src max m =
        (if r.1 then pure (0, r.2.1)
          else copyinstrLoop t fuel r.2.1 r.2.2.1 ((PGROUNDDOWN src + PGSIZE) % 2 ^ 64) r.2.2.2) m := by
      rintro r rfl
      rw [copyinstrLoop, if_pos h0]
      refine (bind_eq hwalk).trans ?_
      rw [if_neg hne, hr.offset, hn, ← hp]
      rfl
    rcases strLoop_spec n p dst off max with ⟨k, hkn, htext, hnul, hrun⟩ | ⟨htext, hrun⟩
    · rw [hstep _ hrun, hmove (by omega)]
      refine ⟨0, k + 1, rfl, .found k (by omega) ⟨fun i hi => ⟨hr.mapped i (by omega), ?_⟩, hr.mapped k hkn, ?_⟩⟩
      · exact hbyte i (by omega) ▸ htext i hi
      · exact hbyte k hkn ▸ hnul
    have ht : ∀ i < n, IsText m leaf (src + i) := fun i hi => ⟨hr.mapped i hi, hbyte i hi ▸ htext i hi⟩
    rw [hstep _ hrun, hmove (Nat.le_refl n)]
    have hrest : ∃ r c, copyinstrLoop t fuel (move dst off (fun i => userByte m leaf (src + i)) n) (off + n)
        ((PGROUNDDOWN src + PGSIZE) % 2 ^ 64) (max - n) m = .ok ((r, _), m) ∧ Scan m leaf _ (max - n) r c :=
        ih (by omega)
    obtain ⟨r, c, hloop, hscan⟩ := hrest
    by_cases hlt : n < max
    · rw [hr.next hlt] at hscan hloop
      refine ⟨r, n + c, ?_, hscan.shift hle ht⟩
      rw [hr.next hlt, ← move_append]
      simp only [Nat.add_assoc] at hloop ⊢
      exact hloop
    · -- the buffer is full
      obtain rfl : n = max := by omega
      rw [Nat.sub_self] at hscan hloop ⊢
      refine ⟨-1, n, ?_, .long ht⟩
      cases hscan with
      | found k hk _ => exact absurd hk (by omega)
      | long _ =>
        rw [move_zero] at hloop
        exact hloop
      | unmapped _ hk _ _ => exact absurd hk (by omega)

/-! ## Every page table -/

theorem Scan.zero_iff {src max c : Nat} {r : Int} (h : Scan m leaf src max r c) :
    (r = 0 ↔ ∃ k < max, IsString m leaf src k) ∧ (∀ k < max, IsString m leaf src k → c = k + 1) ∧ c ≤ max ∧
      (r = 0 ∨ r = -1) := by
  cases h with
  | found k hk h =>
    refine ⟨⟨fun _ => ⟨k, hk, h⟩, fun _ => rfl⟩, fun k' _ h' => ?_, hk, .inl rfl⟩
    rcases Nat.lt_trichotomy k k' with hlt | rfl | hlt
    · exact absurd h.2.2 (h'.1 k hlt).2
    · rfl
    · exact absurd h'.2.2 (h.1 k' hlt).2
  | long h =>
    have hno : ∀ k < max, ¬IsString m leaf src k := fun k hk hs => (h k hk).2 hs.2.2
    exact ⟨⟨fun hc => absurd hc (by decide), fun ⟨k, hk, hs⟩ => absurd hs (hno k hk)⟩,
      fun k hk hs => absurd hs (hno k hk), Nat.le_refl _, .inr rfl⟩
  | unmapped _ hk h hno =>
    have hstr : ∀ k < max, ¬IsString m leaf src k := by
      intro k _ hs
      rcases Nat.lt_trichotomy k c with hlt | rfl | hlt
      · exact (h k hlt).2 hs.2.2
      · exact hno hs.2.1
      · exact hno (hs.1 c hlt).1
    exact ⟨⟨fun hc => absurd hc (by decide), fun ⟨k, hk, hs⟩ => absurd hs (hstr k hk)⟩,
      fun k hk hs => absurd hs (hstr k hk), Nat.le_of_lt hk, .inr rfl⟩

/-- `copyin` and `copyinstr` of any page table that does not give the user the physical page 0. -/
theorem copyin_copyinstr_exact (h : NoPageZero m t) (dst : Bytes.Mem) (off srcva : Nat) :
    (∀ len, ∃ r dst', copyin t dst off srcva len m = .ok ((r, dst'), m) ∧ (r = 0 ∨ r = -1) ∧
      (r = 0 ↔ ∀ i < len, Mapped (leafOf m t) (srcva + i)) ∧
      (r = 0 → dst' = move dst off (fun i => userByte m (leafOf m t) (srcva + i)) len)) ∧
    (∀ max, ∃ r dst', copyinstr t dst off srcva max m = .ok ((r, dst'), m) ∧ (r = 0 ∨ r = -1) ∧
      (r = 0 ↔ ∃ k < max, IsString m (leafOf m t) srcva k) ∧
      (∀ k < max, IsString m (leafOf m t) srcva k →
        dst' = move dst off (fun i => userByte m (leafOf m t) (srcva + i)) (k + 1)) ∧
      (∀ x, x < off ∨ off + max ≤ x → dst' x = dst x) ∧
      -- nothing after the first NUL matters
      (∀ k < max, IsString m (leafOf m t) srcva k → ∀ m2 t2, NoPageZero m2 t2 →
        (∀ i ≤ k, Mapped (leafOf m2 t2) (srcva + i) ∧
          userByte m2 (leafOf m2 t2) (srcva + i) = userByte m (leafOf m t) (srcva + i)) →
        copyinstr t2 dst off srcva max m2 = .ok ((r, dst'), m2))) := by
  refine ⟨fun len => ?_, fun max => ?_⟩
  · obtain ⟨r, k, hrun, hk, hres⟩ := copyin_spec h.readTable dst off srcva len
    refine ⟨r, _, hrun, ?_, ?_, ?_⟩
    · exact hres.imp And.left And.left
    · rcases hres with ⟨rfl, rfl⟩ | ⟨rfl, hlt, hno⟩
      · exact ⟨fun _ => hk, fun _ => rfl⟩
      · exact ⟨fun hc => absurd hc (by decide), fun hall => absurd (hall k hlt) hno⟩
    · rcases hres with ⟨rfl, rfl⟩ | ⟨rfl, -, -⟩
      · exact fun _ => rfl
      · exact fun hc => absurd hc (by decide)
  · obtain ⟨r, c, hrun, hscan⟩ := @copyinstrLoop_spec m t _ h.readTable max dst off srcva max (Nat.le_refl max)
    obtain ⟨hzero, hcount, hle, hval⟩ := hscan.zero_iff
    refine ⟨r, _, hrun, hval, hzero, fun k hk hs => by rw [hcount k hk hs], fun x hx => if_neg (by omega), ?_⟩
    intro k hk hs m2 t2 h2 hsame
    have hs2 : IsString m2 (leafOf m2 t2) srcva k := by
      refine ⟨fun i hi => ⟨(hsame i (by omega)).1, ?_⟩, (hsame k (Nat.le_refl k)).1, ?_⟩
      · rw [(hsame i (by omega)).2]
        exact (hs.1 i hi).2
      · rw [(hsame k (Nat.le_refl k)).2]
        exact hs.2.2
    obtain ⟨r2, c2, hrun2, hscan2⟩ := @copyinstrLoop_spec m2 t2 _ h2.readTable max dst off srcva max (Nat.le_refl max)
    obtain ⟨hzero2, hcount2, -, -⟩ := hscan2.zero_iff
    have hr : r = 0 := hzero.mpr ⟨k, hk, hs⟩
    have hr2 : r2 = 0 := hzero2.mpr ⟨k, hk, hs2⟩
    rw [hcount2 k hk hs2, hr2] at hrun2
    rw [hcount k hk hs, hr]
    refine hrun2.trans ?_
    rw [move_congr fun i hi => (hsame i (by omega)).2]

/-- A process of two pages with the string "ab" across the end of the first. -/
def stringMem : Mem := memAfter (copyout 0x80011000 4095 (fun i => if i = 2 then 0 else 97 + UInt8.ofNat i) 3)
    (firstMem 8192)

theorem copyout_userTable [Symbols] {nodes : Multiset Nat} (dst len : Nat)
    (src : Nat → UInt8) (h : UserTable m t leaf nodes) :
    UserTable (memAfter (copyout t dst src len) m) t leaf nodes := by
  obtain ⟨r, m', k, hrun, hst, hk, -⟩ := @copyoutLoop_spec _ t leaf nodes len m dst len src h (Nat.le_refl len)
  rw [copyout, memAfter_ok hrun]
  exact hst.userTable h hk

theorem stringMem_noPageZero : NoPageZero stringMem 0x80011000 := by
  obtain ⟨leaf, nodes, hs⟩ := first_process 8192 (by decide) (by decide +kernel)
  have hu : @UserTable smallKernel (firstMem 8192) 0x80011000 leaf nodes :=
    @Space.userTable _ smallKernel _ _ _ _ _ (@HasSpace.space smallKernel _ _ _ _ hs)
      (@HasSpace.ram smallKernel _ _ _ _ hs)
  exact @UserTable.noPageZero _ _ _ smallKernel _ (@copyout_userTable _ _ _ smallKernel _ 4095 3 _ hu)

/-- Four bytes around the edge of the page, and the string. -/
theorem copyin_copyinstr_exact_edge :
    (∃ dst', copyin 0x80011000 (fun _ => 7) 0 4094 4 stringMem = .ok ((0, dst'), stringMem) ∧
      (List.range 5).map dst' = [0, 97, 98, 0, 7]) ∧
    ∃ dst', copyinstr 0x80011000 (fun _ => 7) 0 4095 6 stringMem = .ok ((0, dst'), stringMem) ∧
      (List.range 5).map dst' = [97, 98, 0, 7, 7] := by
  have hstr : IsString stringMem (leafOf stringMem 0x80011000) 4095 2 := by
    refine ⟨fun i hi => ?_, by decide +kernel, by decide +kernel⟩
    obtain rfl | rfl : i = 0 ∨ i = 1 := by omega
    · exact ⟨by decide +kernel, by decide +kernel⟩
    · exact ⟨by decide +kernel, by decide +kernel⟩
  constructor
  · obtain ⟨r, dst', hrun, -, hiff, hbytes⟩ := (copyin_copyinstr_exact stringMem_noPageZero (fun _ => 7) 0 4094).1 4
    obtain rfl := hiff.mpr (by decide +kernel)
    exact ⟨dst', hrun, by rw [hbytes rfl]; decide +kernel⟩
  · obtain ⟨r, dst', hrun, -, hiff, hbytes, -⟩ := (copyin_copyinstr_exact stringMem_noPageZero (fun _ => 7) 0 4095).2 6
    obtain rfl := hiff.mpr ⟨2, by decide, hstr⟩
    exact ⟨dst', hrun, by rw [hbytes 2 (by decide) hstr]; decide +kernel⟩

/-- Memory with a page table at `0x80010000` that maps the physical page 0 at address 0. -/
def pageZero : Mem :=
  ((zeroMem.setPte 0x80010000 0 (link 0x80011000)).setPte 0x80011000 0 (link 0x80012000)).setPte
    0x80012000 0 (mkPte 0 (PTE_R ||| PTE_U))

/-- `walkaddr` returns 0 for the physical page 0, and `copyin` takes it for an address that is not mapped. -/
theorem copyin_page_zero : Mapped (leafOf pageZero 0x80010000) 0 ∧
    copyin 0x80010000 (fun _ => 7) 0 0 1 pageZero = .ok ((-1, fun _ => 7), pageZero) := by
  refine ⟨by decide, ?_⟩
  have hwalk : walkaddr 0x80010000 0 pageZero = .ok (0, pageZero) := by
    rw [walkaddr_leafOf]
    have hpage : (if 0 ≥ MAXVA then 0 else userPage (leafOf pageZero 0x80010000 (0 / PGSIZE))) = 0 := by decide
    rw [hpage]
  rw [copyin, copyinLoop, if_pos (by decide)]
  exact bind_eq hwalk

end Xv6.Vm
