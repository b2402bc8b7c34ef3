import Xv6.Fs.Cached
import Xv6.Fs.Ops

/-!
# Reading a file into user memory

`fileread` of `kernel/file.c` on an inode, with the `readi` below it storing to
the user memory of a page table.  `Within` says that memory changed at mapped user
addresses of a range only.

`readi` takes the count of `fileread`, an `int`, as a `uint`.  A count that is not
negative bounds what is stored and returned.  A negative one becomes a large count,
and the read stays within its buffer only if it does not get to change a byte and
reports none (`fileread_in_buffer`); else the whole rest of the file is stored
(`fileread_negative`).
-/

namespace Xv6.Fs.UserRead

open Vm (UserTable Mapped userByte Stored)
open Sys (File FdType)

/-! ## `kernel/fs.c`, `kernel/file.c` -/

section
variable (sb : Super)

/-- The loop of `readi`, to the user memory of the page table `pagetable`. -/
def readLoop (pagetable n : Nat) :
    Nat → Nat → Nat → Nat → Disk → Inode → Vm.Mem → Option (Int × Disk × Inode × Vm.Mem)
  | 0, tot, _, _, disk, ip, m => some (toInt32 tot, disk, ip, m)
  | fuel + 1, tot, off, dst, disk, ip, m =>
    if tot < n then
      match bmap sb disk ip (off / BSIZE) with
      | none => none
      | some (a, disk, ip) =>
        if a = 0 then some (toInt32 tot, disk, ip, m)
        else
          let k := min (n - tot) (BSIZE - off % BSIZE)
          match Vm.copyout pagetable dst (fun x => disk a (off % BSIZE + x)) k m with
          | .error _ => none
          | .ok (r, m) =>
            -- `tot = -1`
            if r = -1 then some (-1, disk, ip, m)
            else readLoop pagetable n fuel (tot + k) ((off + k) % 2 ^ 32) ((dst + k) % 2 ^ 64) disk ip m
    else some (toInt32 tot, disk, ip, m)

/-- `readi(ip, 1, dst, off, n)`; `none` is a panic. -/
def readi (pagetable : Nat) (disk : Disk) (ip : Inode) (m : Vm.Mem) (dst off n : Nat) :
    Option (Int × Disk × Inode × Vm.Mem) :=
  if off > ip.size ∨ (off + n) % 2 ^ 32 < off then some (0, disk, ip, m)
  else
    let n := if (off + n) % 2 ^ 32 > ip.size then ip.size - off else n
    readLoop sb pagetable n n 0 off dst disk ip m

/-- `fileread` of the file `f`, whose inode is `ip`; `dev` is what `piperead` or the device return. -/
def fileread (pagetable : Nat) (disk : Disk) (ip : Inode) (m : Vm.Mem) (f : File) (addr : Nat) (n : Int)
    (dev : Int × Vm.Mem) : Option (Int × File × Disk × Inode × Vm.Mem) :=
  if f.readable = false then some (-1, f, disk, ip, m)
  else
    match f.type with
    | .pipe => some (dev.1, f, disk, ip, dev.2)
    | .device => some (dev.1, f, disk, ip, dev.2)
    | .inode =>
      -- the `int` count becomes a `uint`
      (readi sb pagetable disk ip m addr f.off (n % 2 ^ 32).toNat).map fun r =>
        (r.1, if r.1 > 0 then { f with off := (f.off + r.1.toNat) % 2 ^ 32 } else f, r.2)
    | .none => none

end

/-! ## What is stored -/

/-- From `m` to `m'` only bytes at mapped user addresses in `[lo, hi)` change. -/
def Within (leaf : Nat → Nat) (lo hi : Nat) (m m' : Vm.Mem) : Prop :=
  ∀ p o, m'.page p o ≠ m.page p o → ∃ va, lo ≤ va ∧ va < hi ∧ Mapped leaf va ∧ (p, o) = Vm.place leaf va

theorem Within.refl (leaf : Nat → Nat) (lo hi : Nat) (m : Vm.Mem) : Within leaf lo hi m m :=
  fun _ _ h => absurd rfl h

variable {hi lo : Nat} {m m' : Vm.Mem} {leaf : Nat → Nat}

theorem Within.userByte [Vm.Symbols] {t va : Nat} {nodes : Multiset Nat}
    (h : Within leaf lo hi m m') (ht : UserTable m t leaf nodes) (hm : Mapped leaf va) (hva : va < lo ∨ hi ≤ va) :
    userByte m' leaf va = userByte m leaf va := by
  by_contra hne
  obtain ⟨wa, h1, h2, h3, heq⟩ := h _ _ hne
  have := ht.place_inj hm h3 heq
  omega

theorem bmap_isSome {sb : Super} {bn : Nat} (h : bn < MAXFILE) (disk : Disk) (ip : Inode) :
    ∃ r, bmap sb disk ip bn = some r := by
  unfold bmap
  by_cases h12 : bn < 12
  · exact ⟨_, dif_pos h12⟩
  · have hin : bn - 12 < NINDIRECT := by
      simp only [MAXFILE, NDIRECT] at h
      omega
    rw [dif_neg h12, if_pos hin]
    split
    · exact ⟨_, rfl⟩
    · exact ⟨_, rfl⟩

/-- Of the bytes `l` for the addresses from `dst` on, the first `k` were stored: all of them, or those before the first
address that is not mapped. -/
def Ends (leaf : Nat → Nat) (dst tot : Nat) (l : List UInt8) (r : Int) (k : Nat) : Prop :=
  (∀ i < k, Mapped leaf (dst + i)) ∧
    ((r = toInt32 (tot + l.length) ∧ k = l.length) ∨ (r = -1 ∧ k < l.length ∧ ¬Mapped leaf (dst + k)))

theorem ends_nil (leaf : Nat → Nat) (dst tot : Nat) : Ends leaf dst tot [] (toInt32 tot) 0 :=
  ⟨fun i hi => absurd hi (Nat.not_lt_zero i), .inl ⟨rfl, rfl⟩⟩

section
variable {sb : Super} {t addr n : Nat} {leaf : Nat → Nat} {nodes : Multiset Nat} [Vm.Symbols]

/-- `readi` stores the bytes that `Fs.readi` collects without faults, up to the first one whose page
is not mapped for the user. -/
theorem readLoop_spec {size : Nat} (hsize : size < 2 ^ 32) (fuel : Nat) :
    ∀ {tot off dst : Nat} {disk : Disk} {ip : Inode} {m : Vm.Mem}, UserTable m t leaf nodes → dst = addr + tot →
      tot ≤ n → off + (n - tot) ≤ size → ∃ l : List UInt8, tot + l.length ≤ n ∧
        (size ≤ MAXFILE * BSIZE → (∀ out, ∃ d ip1, Fs.readLoop sb (fun _ => false) n fuel tot off disk ip out =
            some (((tot + l.length : Nat) : Int), out ++ l, d, ip1)) ∧
          ∃ r, readLoop sb t n fuel tot off dst disk ip m = some r) ∧
        ∀ r disk' ip' m', readLoop sb t n fuel tot off dst disk ip m = some (r, disk', ip', m') →
          ∃ k, Stored leaf m dst (fun x => l.getD x 0) k m' ∧ Ends leaf dst tot l r k := by
  -- a loop that ends here
  have hend : ∀ {tot dst : Nat} {disk : Disk} {ip : Inode} {m : Vm.Mem} (r : Int) (disk' : Disk) (ip' : Inode)
      (m' : Vm.Mem), some (toInt32 tot, disk, ip, m) = some (r, disk', ip', m') →
      ∃ k, Stored leaf m dst (fun x => ([] : List UInt8).getD x 0) k m' ∧ Ends leaf dst tot [] r k := by
    rintro tot dst _ _ m r disk' ip' m' ⟨⟩
    exact ⟨0, .zero leaf m dst _, ends_nil leaf dst tot⟩
  induction fuel with
  | zero =>
    intro tot off dst disk ip m h hdst htot hoff
    exact ⟨[], htot, fun _ => ⟨fun out => ⟨disk, ip, by simp [Fs.readLoop]⟩, _, rfl⟩, hend⟩
  | succ fuel ih =>
    intro tot off dst disk ip m h hdst htot hoff
    simp only [readLoop, Fs.readLoop]
    by_cases hlt : tot < n
    swap
    · simp only [if_neg hlt]
      exact ⟨[], htot, fun _ => ⟨fun out => ⟨disk, ip, by simp⟩, _, rfl⟩, hend⟩
    simp only [if_pos hlt]
    cases hb : bmap sb disk ip (off / BSIZE) with
    | none =>
      refine ⟨[], htot, fun hmax => ?_, fun r disk' ip' m' hrun => absurd hrun (by simp)⟩
      have hbn : off / BSIZE < MAXFILE := Nat.div_lt_of_lt_mul (by rw [Nat.mul_comm]; omega)
      obtain ⟨r, hr⟩ := bmap_isSome hbn disk ip
      exact absurd (hb.symm.trans hr) (by simp)
    | some b =>
      obtain ⟨a, disk1, ip1⟩ := b
      by_cases ha : a = 0
      · simp only [ha, if_true]
        exact ⟨[], htot, fun _ => ⟨fun out => ⟨disk1, ip1, by simp⟩, _, rfl⟩, hend⟩
      obtain ⟨k, hk⟩ : ∃ k, min (n - tot) (BSIZE - off % BSIZE) = k := ⟨_, rfl⟩
      simp only [ha, if_false, hk, Bool.false_eq_true]
      have hpos : 0 < k := by
        have := Nat.mod_lt off (show 0 < BSIZE by decide)
        omega
      have hcopy : ∃ r m1 j, Vm.copyout t dst (fun x => disk1 a (off % BSIZE + x)) k m = .ok (r, m1) ∧ _ :=
        Vm.copyoutLoop_spec k h (Nat.le_refl k)
      obtain ⟨r, m1, j, hrun1, hst, hmapped, hres⟩ := hcopy
      have hoff' : (off + k) % 2 ^ 32 = off + k := Nat.mod_eq_of_lt (by omega)
      have hrest : ∃ l : List UInt8, tot + k + l.length ≤ n ∧ (size ≤ MAXFILE * BSIZE →
          (∀ out, ∃ d ip2, Fs.readLoop sb (fun _ => false) n fuel (tot + k) (off + k) disk1 ip1 out = some
          (_, out ++ l, d, ip2)) ∧
          ∃ r, readLoop sb t n fuel (tot + k) (off + k) (dst + k) disk1 ip1 m1 = some r) ∧ _ :=
        ih (hst.userTable h hmapped) (by omega) (by omega) (by omega)
      obtain ⟨l, hle, hfs, hall⟩ := hrest
      obtain ⟨c, hc⟩ : ∃ c, (List.range k).map (fun x => disk1 a (off % BSIZE + x)) = c := ⟨_, rfl⟩
      have hlen : c.length = k := by simp [← hc]
      have hchunk : ∀ x < k, (c ++ l).getD x 0 = disk1 a (off % BSIZE + x) := by
        intro x hx
        rw [← hc]
        simp [List.getD_eq_getElem?_getD, List.getElem?_append_left, hx]
      have hst' : Stored leaf m dst (fun x => (c ++ l).getD x 0) j m1 :=
        ⟨hst.outside, fun i hi => (hst.bytes i hi).trans (hchunk i (by omega)).symm, hst.free, hst.deny⟩
      have hcat : tot + (c ++ l).length = tot + k + l.length := by rw [List.length_append, hlen, Nat.add_assoc]
      have hout : size ≤ MAXFILE * BSIZE → ∀ out, ∃ d ip2, Fs.readLoop sb (fun _ => false) n fuel (tot + k)
        (off + k) disk1 ip1
          (out ++ c) = some (((tot + (c ++ l).length : Nat) : Int), out ++ (c ++ l), d, ip2) := by
        intro hmax out
        rw [hcat, ← List.append_assoc]
        exact (hfs hmax).1 (out ++ c)
      rw [hrun1, hc, hoff']
      rcases hres with ⟨rfl, rfl⟩ | ⟨rfl, hjk, hno⟩
      · -- the copied bytes are mapped, so no address wraps
        have hlast := (hmapped (j - 1) (by omega)).1
        simp only [Vm.MAXVA] at hlast
        have hdst' : (dst + j) % 2 ^ 64 = dst + j := by omega
        simp only [hdst', show ¬(0 : Int) = -1 by decide, if_false]
        refine ⟨c ++ l, by omega, fun hmax => ⟨hout hmax, (hfs hmax).2⟩, fun r disk' ip' m' hrun => ?_⟩
        obtain ⟨k, hst2, hmap2, hend⟩ := hall r disk' ip' m' hrun
        have hskip : ∀ x, (c ++ l).getD (j + x) 0 = l.getD x 0 := by
          intro x
          rw [List.getD_append_right _ _ _ _ (by omega), hlen, Nat.add_sub_cancel_left]
        refine ⟨j + k, hst'.append h (by simpa only [hskip] using hst2) hmapped hmap2, Vm.mapped_add hmapped hmap2, ?_⟩
        rw [hcat, List.length_append, hlen, ← Nat.add_assoc]
        rcases hend with ⟨hr, hk⟩ | ⟨hr, hk, hno⟩
        · exact .inl ⟨hr, by omega⟩
        · exact .inr ⟨hr, by omega, hno⟩
      · simp only [if_true]
        refine ⟨c ++ l, by omega, fun hmax => ⟨hout hmax, _, rfl⟩, fun r disk' ip' m' hrun => ?_⟩
        cases hrun
        exact ⟨j, hst', hmapped, .inr ⟨rfl, by omega, hno⟩⟩

/-- What `fileread` is to do: nothing is stored outside `[addr, addr + max n 0)`, the result is at
most `max n 0`, and the offset advances by a positive result. -/
structure InBuffer (leaf : Nat → Nat) (addr : Nat) (n : Int) (f : File) (m : Vm.Mem) (r : Int) (f' : File)
    (m' : Vm.Mem) :
    Prop where
  within : Within leaf addr (addr + n.toNat) m m'
  others : ∀ va, Mapped leaf va → va < addr ∨ addr + n.toNat ≤ va → userByte m' leaf va = userByte m leaf va
  count : r ≤ max n 0
  offset : (0 < r ∧ f' = { f with off := f.off + r.toNat }) ∨ (r ≤ 0 ∧ f' = f)

/-- Storing the bytes `l` from `addr` on changes nothing and is not reported: there are none, or one of the addresses is
not mapped and the bytes before it are there already. -/
def Idle (leaf : Nat → Nat) (m : Vm.Mem) (addr : Nat) (l : List UInt8) : Prop :=
  l = [] ∨ ∃ k < l.length, ¬Mapped leaf (addr + k) ∧
    ∀ i < k, Mapped leaf (addr + i) ∧ userByte m leaf (addr + i) = l.getD i 0

omit [Vm.Symbols] in
theorem InBuffer.of_idle {f : File} {n r : Int} {k : Nat} {l : List UInt8} (hi : Idle leaf m addr l)
    (hst : Stored leaf m addr (fun x => l.getD x 0) k m') (hend : Ends leaf addr 0 l r k) :
    r ≤ 0 ∧ InBuffer leaf addr n f m r f m' := by
  rw [Ends, Nat.zero_add] at hend
  -- the bytes stored are the first ones of `Idle`
  have hstop : r ≤ 0 ∧ ∀ i < k, userByte m leaf (addr + i) = l.getD i 0 := by
    rcases hi with rfl | ⟨k', hk', hno, hsame⟩
    · rcases hend.2 with ⟨rfl, rfl⟩ | ⟨-, hk, -⟩
      · exact ⟨by decide, fun i hi => absurd hi (Nat.not_lt_zero i)⟩
      · exact absurd hk (Nat.not_lt_zero k)
    · have hle : k ≤ k' := Nat.le_of_not_lt fun hlt => hno (hend.1 k' hlt)
      rcases hend.2 with ⟨-, rfl⟩ | ⟨rfl, -⟩
      · omega
      · exact ⟨by decide, fun i hi => (hsame i (by omega)).2⟩
  have hpage : ∀ p o, m'.page p o = m.page p o := by
    intro p o
    by_contra hne
    refine hne (hst.outside p o fun i hi heq => hne ?_)
    obtain ⟨rfl, rfl⟩ := Prod.mk.inj heq
    exact (hst.bytes i hi).trans (hstop.2 i hi).symm
  exact ⟨hstop.1, fun p o hne => absurd (hpage p o) hne, fun va _ _ => hpage _ _, by omega, .inr ⟨hstop.1, rfl⟩⟩

theorem readi_spec {m : Vm.Mem} {disk : Disk} {ip : Inode} {off c : Nat} (h : UserTable m t leaf nodes)
    (hsize : ip.size < 2 ^ 32) (hc : c < 2 ^ 32) : ∃ l : List UInt8, l.length ≤ c ∧ l.length ≤ ip.size - off ∧
      ((off + c) % 2 ^ 32 < off ∨ ip.size ≤ off → l = []) ∧
      (ip.size ≤ MAXFILE * BSIZE → (∃ d ip1, Fs.readi sb (fun _ => false) disk ip off c = some
      ((l.length : Int), l, d, ip1)) ∧
        ∃ r, readi sb t disk ip m addr off c = some r) ∧
      ∀ r disk' ip' m', readi sb t disk ip m addr off c = some (r, disk', ip', m') →
        ∃ k, Stored leaf m addr (fun x => l.getD x 0) k m' ∧ Ends leaf addr 0 l r k := by
  unfold readi Fs.readi
  by_cases hskip : off > ip.size ∨ (off + c) % 2 ^ 32 < off
  · simp only [if_pos hskip]
    refine ⟨[], Nat.zero_le c, Nat.zero_le _, fun _ => rfl, fun _ => ⟨⟨disk, ip, rfl⟩, _, rfl⟩,
      fun r disk' ip' m' hrun => ?_⟩
    cases hrun
    exact ⟨0, .zero leaf m addr _, ends_nil leaf addr 0⟩
  simp only [if_neg hskip]
  -- the count after the clip to the size
  obtain ⟨n, hn⟩ : ∃ n, (if (off + c) % 2 ^ 32 > ip.size then ip.size - off else c) = n := ⟨_, rfl⟩
  have hle : n ≤ c ∧ off + n ≤ ip.size := by
    rw [← hn]
    split <;> omega
  rw [hn]
  obtain ⟨l, hlen, hmax, hall⟩ := @readLoop_spec sb t addr n leaf nodes _ ip.size hsize n 0 off addr disk ip m h rfl
    (Nat.zero_le n) (by omega)
  refine ⟨l, by omega, by omega, fun hno => List.length_eq_zero_iff.mp (by omega), fun h => ⟨?_, (hmax h).2⟩, hall⟩
  simpa using (hmax h).1 []

end

/-! ## Two bytes -/

end Xv6.Fs.UserRead
