import Xv6.Proc.Kernel
import Xv6.Vm.Copy

/-!
# Reading a pipe into user memory

`piperead` of `kernel/pipe.c`, with the `copyout` of each byte.  A byte leaves the
pipe before it is copied out, so the byte whose `copyout` fails is lost.  The bytes
that leave are those that arrive exactly when the addresses that they go to are
mapped (`piperead_exact`).
-/

namespace Xv6.Vm

open Total Proc

/-! ## `kernel/pipe.c` -/

/-- The second loop of `piperead`, with `fuel` bytes to go: the number of bytes and the pipe. -/
def pipereadCopy (pagetable addr : Nat) : Nat → Nat → Pipe → Kernel (Nat × Pipe)
  | 0, i, pi => pure (i, pi)
  | fuel + 1, i, pi =>
    if pi.nread = pi.nwrite then pure (i, pi)
    else do
      let r ← copyout pagetable ((addr + i) % 2 ^ 64) (fun _ => pi.first) 1
      if r = -1 then pure (i, pi.take) else pipereadCopy pagetable addr fuel (i + 1) pi.take

/-- `piperead` by a process that finds the pipe, and whether it was killed, as in `looks` when it gets `pi->lock`:
the first time and after each `sleep`.  The result is the value returned with the pipe before and after the second
loop, or `none` when the process is still asleep. -/
def piperead (pagetable addr : Nat) (n : Int) : List (Pipe × Bool) → Kernel (Option (Int × Pipe × Pipe))
  | [] => pure none
  | (pi, killed) :: looks =>
    if pi.nread = pi.nwrite ∧ pi.writeopen then
      if killed then pure (some (-1, pi, pi)) else piperead pagetable addr n looks
    else do
      let (i, pi') ← pipereadCopy pagetable addr n.toNat 0 pi
      pure (some (i, pi, pi'))

/-! ## The bytes of a pipe -/

def pipeSize (pi : Pipe) : Nat := (pi.nwrite - pi.nread).toNat

def pipeByte (pi : Pipe) (j : Nat) : UInt8 := pi.data ((pi.nread + UInt32.ofNat j).toNat % PIPESIZE)

def pipeDrop (pi : Pipe) (k : Nat) : Pipe := { pi with nread := pi.nread + UInt32.ofNat k }

theorem pipeDrop_zero (pi : Pipe) : pipeDrop pi 0 = pi := by
  show { pi with nread := pi.nread + 0 } = pi
  rw [UInt32.add_zero]

theorem pipeDrop_take (pi : Pipe) (k : Nat) : (pipeDrop pi k).take = pipeDrop pi (k + 1) := by
  show { pi with nread := pi.nread + UInt32.ofNat k + 1 } = { pi with nread := pi.nread + UInt32.ofNat (k + 1) }
  rw [UInt32.ofNat_add, UInt32.add_assoc]
  rfl

theorem pipeDrop_first (pi : Pipe) (k : Nat) : (pipeDrop pi k).first = pipeByte pi k := rfl

theorem pipeDrop_empty {pi : Pipe} {k : Nat} (hk : k ≤ pipeSize pi) :
    (pipeDrop pi k).nread = (pipeDrop pi k).nwrite ↔ k = pipeSize pi := by
  show pi.nread + UInt32.ofNat k = pi.nwrite ↔ _
  have hlt : pipeSize pi < 2 ^ 32 := (pi.nwrite - pi.nread).toNat_lt
  have hsz : pipeSize pi = (2 ^ 32 - pi.nread.toNat + pi.nwrite.toNat) % 2 ^ 32 := UInt32.toNat_sub _ _
  have hr := pi.nread.toNat_lt
  have hw := pi.nwrite.toNat_lt
  rw [← UInt32.toNat_inj, UInt32.toNat_add, UInt32.toNat_ofNat']
  omega

theorem pipeDrop_succ_ne (pi : Pipe) (k : Nat) : pipeDrop pi (k + 1) ≠ pipeDrop pi k := by
  intro hc
  have hread : pi.nread + UInt32.ofNat (k + 1) = pi.nread + UInt32.ofNat k := congrArg Pipe.nread hc
  rw [← UInt32.toNat_inj, UInt32.toNat_add, UInt32.toNat_add, UInt32.toNat_ofNat', UInt32.toNat_ofNat'] at hread
  omega

theorem alone_pipereadCopy {mapped : Nat → Bool} {fuel i c k : Nat} {s s' : Proc.Mem}
    (hend : s.pipe.nread ≠ s.pipe.nwrite)
    (h : Cpus.Alone machine c (if mapped i then Proc.pipereadCopy mapped fuel (i + 1) else pure i)
      { s with pipe := s.pipe.take, delivered := if mapped i then s.delivered ++ [s.pipe.first] else s.delivered }
      k s') : Cpus.Alone machine c (Proc.pipereadCopy mapped (fuel + 1) i) s k s' := by
  refine .op (x := ⟨true, []⟩) rfl rfl ?_
  show Cpus.Alone machine c (if _ then _ else _) s k s'
  rw [if_neg hend]
  exact .op (x := ⟨true, []⟩) rfl rfl h

section
variable [Symbols] {m : Mem} {t addr : Nat} {leaf : Nat → Nat} {nodes : Multiset Nat}

/-- The loop ends with the bytes that it has taken all stored, or at a byte that is taken and has no place. -/
theorem pipereadCopy_spec {pi : Pipe} (h : UserTable m t leaf nodes) (haddr : addr < 2 ^ 64) (fuel : Nat) :
    ∀ {i : Nat} {m' : Mem},
    Stored leaf m addr (pipeByte pi) i m' → UserTable m' t leaf nodes → (∀ j < i, Mapped leaf (addr + j)) →
    i ≤ pipeSize pi → i + fuel ≤ 2 ^ 31 →
    ∃ k pi' m'', pipereadCopy t addr fuel i (pipeDrop pi i) m' = .ok ((k, pi'), m'') ∧
      Stored leaf m addr (pipeByte pi) k m'' ∧
      ((pi' = pipeDrop pi k ∧ ∀ j < i + fuel, j < pipeSize pi → Mapped leaf (addr + j)) ∨
        (pi' = pipeDrop pi (k + 1) ∧ k < i + fuel ∧ k < pipeSize pi ∧ addr + k < 2 ^ 64 ∧
          ¬Mapped leaf (addr + k))) := by
  induction fuel with
  | zero =>
    intro i m' hst _ hlow _ _
    exact ⟨i, _, m', rfl, hst, .inl ⟨rfl, fun j hj _ => hlow j hj⟩⟩
  | succ fuel ih =>
    intro i m' hst ht hlow hi hint
    rw [pipereadCopy]
    by_cases hend : (pipeDrop pi i).nread = (pipeDrop pi i).nwrite
    · rw [if_pos hend]
      have hsize := (pipeDrop_empty hi).mp hend
      exact ⟨i, _, m', rfl, hst, .inl ⟨rfl, fun j _ hj => hlow j (by omega)⟩⟩
    have hlt : i < pipeSize pi := by
      have := mt (pipeDrop_empty hi).mpr hend
      omega
    -- the first byte is mapped, so the addresses do not wrap
    have hwrap : addr + i < 2 ^ 64 := by
      rcases Nat.eq_zero_or_pos i with rfl | hpos
      · exact haddr
      · have := (hlow 0 hpos).1
        simp only [MAXVA] at this
        omega
    have hcopy : ∃ r m1 k, copyoutLoop t 1 (addr + i) (fun _ => pipeByte pi i) 1 m' = .ok (r, m1) ∧ _ :=
      copyoutLoop_spec 1 ht (Nat.le_refl 1)
    obtain ⟨r, m1, k, hrun, hst1, hk1, hres⟩ := hcopy
    rw [if_neg hend, Nat.mod_eq_of_lt hwrap, pipeDrop_first, pipeDrop_take]
    rcases hres with ⟨rfl, rfl⟩ | ⟨rfl, hk, hno⟩
    · have hm : Mapped leaf (addr + i) := hk1 0 (by omega)
      have hst2 : Stored leaf m addr (pipeByte pi) (i + 1) m1 := by
        refine hst.append h ?_ hlow fun j hj => (by omega : j = 0) ▸ hm
        refine ⟨hst1.outside, fun j hj => ?_, hst1.free, hst1.deny⟩
        obtain rfl : j = 0 := by omega
        exact hst1.bytes 0 hj
      have hlow' : ∀ j < i + 1, Mapped leaf (addr + j) := by
        intro j hj
        rcases Nat.lt_succ_iff_lt_or_eq.mp hj with hj | rfl
        · exact hlow j hj
        · exact hm
      obtain ⟨k, pi', m2, hrun2, hst3, hend2⟩ := ih hst2 (hst1.userTable ht hk1) hlow' hlt (by omega)
      rw [Nat.add_right_comm] at hend2
      exact ⟨k, pi', m2, (bind_eq hrun).trans hrun2, hst3, hend2⟩
    · obtain rfl : k = 0 := by omega
      have hst0 : Stored leaf m addr (pipeByte pi) (i + 0) m1 := by
        refine hst.append h ?_ hlow fun j hj => absurd hj (by omega)
        exact ⟨hst1.outside, fun j hj => absurd hj (by omega), hst1.free, hst1.deny⟩
      exact ⟨i, _, m1, (bind_eq hrun).trans rfl, hst0, .inr ⟨rfl, by omega, hlt, hwrap, hno⟩⟩

/-- Run by a process, the loop takes the same bytes: `copyout` fails where an address is not mapped. -/
theorem pipereadCopy_alone (c fuel : Nat) :
    ∀ {i : Nat} {m : Mem} {s : Proc.Mem}, UserTable m t leaf nodes →
    ∃ k m', ∃ s' : Proc.Mem, pipereadCopy t addr fuel i s.pipe m = .ok ((k, s'.pipe), m') ∧
      Cpus.Alone machine c (Proc.pipereadCopy (fun j => decide (Mapped leaf ((addr + j) % 2 ^ 64))) fuel i) s k s' := by
  induction fuel with
  | zero => exact fun {i m s} _ => ⟨i, m, s, rfl, .ret _ _⟩
  | succ fuel ih =>
    intro i m s ht
    rw [pipereadCopy]
    by_cases hend : s.pipe.nread = s.pipe.nwrite
    · rw [if_pos hend]
      refine ⟨i, m, s, rfl, .op (x := ⟨true, []⟩) rfl rfl ?_⟩
      show Cpus.Alone machine c (if _ then _ else _) s i s
      rw [if_pos hend]
      exact .ret _ _
    have hcopy : ∃ r m1 k, copyoutLoop t 1 ((addr + i) % 2 ^ 64) (fun _ => s.pipe.first) 1 m = .ok (r, m1) ∧ _ :=
      copyoutLoop_spec 1 ht (Nat.le_refl 1)
    obtain ⟨r, m1, k, hrun, hst, hk, hres⟩ := hcopy
    rw [if_neg hend]
    rcases hres with ⟨rfl, rfl⟩ | ⟨rfl, h0, hno⟩
    · obtain ⟨k, m2, s', hrun2, hal⟩ := ih (i := i + 1)
        (s := { s with pipe := s.pipe.take, delivered := s.delivered ++ [s.pipe.first] }) (hst.userTable ht hk)
      refine ⟨k, m2, s', (bind_eq hrun).trans hrun2, alone_pipereadCopy hend ?_⟩
      simp only [show Mapped leaf ((addr + i) % 2 ^ 64) from hk 0 Nat.one_pos, decide_true, if_true]
      exact hal
    · obtain rfl : k = 0 := by omega
      refine ⟨i, m1, { s with pipe := s.pipe.take }, (bind_eq hrun).trans rfl, alone_pipereadCopy hend ?_⟩
      simp only [show ¬Mapped leaf ((addr + i) % 2 ^ 64) from hno, decide_false]
      exact .ret _ _

/-- What `piperead` is to do: what it returns is what it removed and stored, and -1 that it removed nothing. -/
def Delivers (leaf : Nat → Nat) (m : Mem) (addr : Nat) (r : Int) (pi pi' : Pipe) (m' : Mem) : Prop :=
  (r = -1 ∧ pi' = pi ∧ m' = m) ∨ ∃ k : Nat, r = k ∧ pi' = pipeDrop pi k ∧ Stored leaf m addr (pipeByte pi) k m'

/-- `piperead`, which stops waiting when it finds the pipe `pi`, removes what it delivers exactly when every address
that a byte of the pipe goes to is mapped. -/
theorem piperead_exact (h : UserTable m t leaf nodes)
    (haddr : addr < 2 ^ 64) (n : Int) (hint : n < 2 ^ 31) (looks : List (Pipe × Bool)) :
    ∃ res m', piperead t addr n looks m = .ok (res, m') ∧ ∀ r pi pi', res = some (r, pi, pi') →
      (∃ killed, (pi, killed) ∈ looks) ∧ (Delivers leaf m addr r pi pi' m' ↔
        ∀ j : Nat, j < n → j < pipeSize pi → Mapped leaf ((addr + j) % 2 ^ 64)) := by
  induction looks with
  | nil => exact ⟨none, m, rfl, fun _ _ _ hc => absurd hc (by simp)⟩
  | cons look looks ih =>
    obtain ⟨pi, killed⟩ := look
    rw [piperead]
    by_cases hempty : pi.nread = pi.nwrite ∧ pi.writeopen
    · rw [if_pos hempty]
      by_cases hk : killed
      · rw [if_pos hk]
        refine ⟨_, m, rfl, fun r pi1 pi2 hres => ?_⟩
        obtain ⟨rfl, hp⟩ := Prod.mk.inj (Option.some.inj hres)
        obtain ⟨rfl, rfl⟩ := Prod.mk.inj hp
        have hsize : pipeSize pi = 0 := by simp [pipeSize, hempty.1]
        exact ⟨⟨_, List.mem_cons_self⟩, iff_of_true (.inl ⟨rfl, rfl, rfl⟩) fun j _ hj => absurd hj (by omega)⟩
      · rw [if_neg hk]
        obtain ⟨res, m', hrun, hres⟩ := ih
        refine ⟨res, m', hrun, fun r pi1 pi2 he => ?_⟩
        obtain ⟨⟨killed', hmem⟩, hiff⟩ := hres r pi1 pi2 he
        exact ⟨⟨killed', List.mem_cons_of_mem _ hmem⟩, hiff⟩
    · rw [if_neg hempty]
      obtain ⟨k, pi', m', hrun, hst, hend⟩ := pipereadCopy_spec h haddr n.toNat (.zero leaf m addr (pipeByte pi)) h
        (fun j hj => absurd hj (by omega)) (Nat.zero_le _) (by omega)
      rw [pipeDrop_zero] at hrun
      refine ⟨_, m', bind_eq hrun, fun r pi1 pi2 hres => ?_⟩
      obtain ⟨rfl, hp⟩ := Prod.mk.inj (Option.some.inj hres)
      obtain ⟨rfl, rfl⟩ := Prod.mk.inj hp
      refine ⟨⟨killed, List.mem_cons_self⟩, ?_⟩
      rcases hend with ⟨rfl, hmap⟩ | ⟨rfl, hkn, hks, hwrap, hno⟩
      · refine iff_of_true (.inr ⟨k, rfl, rfl, hst⟩) fun j hj hs => ?_
        have hm := hmap j (by omega) hs
        rwa [Nat.mod_eq_of_lt (Nat.lt_trans hm.1 (by decide))]
      · refine iff_of_false ?_ fun hmap => hno ?_
        · rintro (⟨hr, -, -⟩ | ⟨k', hk', hpi, -⟩)
          · omega
          · obtain rfl : k = k' := by omega
            exact pipeDrop_succ_ne pi k hpi
        · have hm := hmap k (by omega) hks
          rwa [Nat.mod_eq_of_lt hwrap] at hm

end

/-! ## A pipe at a page -/

def oneByte : Pipe := { data := fun _ => 97, nread := 0, nwrite := 1, readopen := true, writeopen := true }

/-- Three bytes, of which the first is at the end of the ring. -/
def threeBytes : Pipe :=
  { data := fun i => if i = 511 then 97 else 98, nread := 511, nwrite := 514, readopen := true, writeopen := true }

/-- A reader that has waited once gets the first two of three bytes. -/
theorem piperead_exact_page : ∃ m', piperead 0x80010000 4094 2 [({ oneByte with nwrite := 0 }, false),
    (threeBytes, false)]
      (onePage (PTE_R ||| PTE_W ||| PTE_U)) = .ok (some (2, threeBytes, pipeDrop threeBytes 2), m') ∧
    m'.page 0x80013000 4094 = 97 ∧ m'.page 0x80013000 4095 = 98 := by
  obtain ⟨res, m', hrun, hres⟩ := @piperead_exact smallKernel _ _ 4094 _ _
    (onePage_userTable (PTE_R ||| PTE_W ||| PTE_U) (by decide)) (by decide) 2 (by decide)
    [({ oneByte with nwrite := 0 }, false), (threeBytes, false)]
  have htwo : res = some (2, threeBytes, pipeDrop threeBytes 2) := (Prod.mk.inj (Except.ok.inj (hrun.symm.trans rfl))).1
  subst htwo
  have hdel := (hres _ _ _ rfl).2.mpr fun j hj _ => by
    obtain rfl | rfl : j = 0 ∨ j = 1 := by omega
    · decide
    · decide
  rcases hdel with ⟨hr, -, -⟩ | ⟨k, hk, -, hst⟩
  · exact absurd hr (by decide)
  · obtain rfl : k = 2 := by omega
    exact ⟨m', hrun, hst.bytes 0 (by decide), hst.bytes 1 (by decide)⟩

/-- The byte read into an address that is not mapped: `piperead` returns 0 and the byte is gone. -/
theorem piperead_unmapped : piperead 0x80010000 4096 1 [(oneByte, false)] (onePage (PTE_R ||| PTE_W ||| PTE_U)) =
    .ok (some (0, oneByte, pipeDrop oneByte 1), onePage (PTE_R ||| PTE_W ||| PTE_U)) ∧
    (pipeDrop oneByte 1).nread ≠ oneByte.nread := by
  exact ⟨rfl, by decide⟩

end Xv6.Vm
