import Xv6.Fs.DirMap

/-!
# Files have no holes

`writei`, `dirlink`, `itrunc` and `ialloc` on any inodes, in any order, failing or
not.  None of them leaves a hole in a file: in every state that they reach from
an image in order, `bmap` has a block for every index below the size of a file
(`no_holes`).  So `readi`, which runs outside of transactions, never calls
`balloc`.

`bmapAllocs` and `readiAllocs` count the calls of `balloc` in `bmap` and `readi`.
-/

namespace Xv6.Fs.NoHoles

open Function
open Sys (Panic)

section
variable (sb : Super)

/-! ## Calls of `balloc` -/

def bmapAllocs (disk : Disk) (ip : Inode) (bn : Nat) : Nat :=
  if h : bn < 12 then if ip.addrs ⟨bn, direct_lt h⟩ = 0 then 1 else 0
  else if bn - 12 < NINDIRECT then
    -- a new indirect block is empty
    if ip.addrs indirect = 0 then if (balloc sb disk).1 = 0 then 1 else 2
    else if entryAt (disk (ip.addrs indirect)) (bn - 12) = 0 then 1 else 0
  else 0

/-- The calls of `balloc` in `readLoop`, which goes the same way. -/
def readAllocs (fail : Nat → Bool) (n : Nat) : Nat → Nat → Nat → Disk → Inode → Nat
  | 0, _, _, _, _ => 0
  | fuel + 1, tot, off, disk, ip =>
    if tot < n then
      bmapAllocs sb disk ip (off / BSIZE) +
        match bmap sb disk ip (off / BSIZE) with
        | none => 0
        | some (a, disk, ip) =>
          if a = 0 ∨ fail tot then 0
          else
            let m := min (n - tot) (BSIZE - off % BSIZE)
            readAllocs fail n fuel (tot + m) (off + m) disk ip
    else 0

def readiAllocs (fail : Nat → Bool) (disk : Disk) (ip : Inode) (off n : Nat) : Nat :=
  if off > ip.size ∨ (off + n) % 2 ^ 32 < off then 0
  else
    let n := if (off + n) % 2 ^ 32 > ip.size then ip.size - off else n
    readAllocs sb fail n n 0 off disk ip

/-! ## The calls -/

/-- `ialloc`: mark the first free inode. -/
def ialloc (s : Files) (type : Nat) : Files :=
  match BlockSys.freeInode sb s.disk with
  | none => s
  | some i => { disk := putDinode sb s.disk i (BlockSys.newInode type)
                mem := update s.mem i (BlockSys.newInode type) }

inductive Call
  /-- From user or kernel memory; `fail` says which copies fail, and after how many bytes. -/
  | writei (i : Nat) (src : Nat → UInt8) (fail : Nat → Option Nat) (off n : Nat)
  | dirlink (i : Nat) (stack name : Nat → UInt8) (inum : Nat)
  | itrunc (i : Nat)
  | ialloc (type : Nat)

/-- The inode is allocated, and the arguments fit their C types. -/
def Call.Ok (s : Files) : Call → Prop
  | .writei i _ _ _ n => s.allocated sb i ∧ n < 2 ^ 32
  | .dirlink i _ _ _ | .itrunc i => s.allocated sb i
  | .ialloc type => type < 2 ^ 16

instance (s : Files) (c : Call) : Decidable (c.Ok sb s) :=
  match c with
  | .writei i _ _ _ n => inferInstanceAs (Decidable (s.allocated sb i ∧ n < 2 ^ 32))
  | .dirlink i _ _ _ | .itrunc i => inferInstanceAs (Decidable (s.allocated sb i))
  | .ialloc type => inferInstanceAs (Decidable (type < 2 ^ 16))

def exec (s : Files) : Call → Except Panic Files
  | .writei i src fail off n =>
    match Fs.writei sb src fail s.disk i (s.mem i) off n with
    | none => .error .bmapOutOfRange
    | some (_, disk, ip) => .ok { disk := disk, mem := update s.mem i ip }
  | .dirlink i stack name inum =>
    match DirMap.dirlink sb stack s.disk i (s.mem i) name inum with
    | .error m => .error m
    | .ok (_, disk, ip) => .ok { disk := disk, mem := update s.mem i ip }
  | .itrunc i =>
    match Fs.itrunc sb s.disk i (s.mem i) with
    | none => .error .freeingFreeBlock
    | some (disk, ip) => .ok { disk := disk, mem := update s.mem i ip }
  | .ialloc type => .ok (ialloc sb s type)

def step (s : Files) (c : Call) : Option Files :=
  if c.Ok sb s then (exec sb s c).toOption else none

end

section
variable {sb : Super} {disk : Disk} {i : Nat}

/-! ## Reading -/

theorem bmapAllocs_of_blk {ip : Inode} {bn : Nat} (h0 : blk disk ip bn ≠ 0) : bmapAllocs sb disk ip bn = 0 := by
  unfold bmapAllocs
  by_cases hd : bn < 12
  · have hs : blk disk ip bn = ip.addrs ⟨bn, Nat.lt_trans hd (by decide)⟩ := by rw [blk, slotOf, dif_pos hd, slotBlock]
    rw [dif_pos hd, if_neg (hs ▸ h0)]
  · rw [dif_neg hd]
    by_cases hj : bn - 12 < NINDIRECT
    case neg => rw [if_neg hj]
    case pos =>
      have hs : blk disk ip bn = slotBlock disk ip (.entry (bn - 12)) := by rw [blk, slotOf, dif_neg hd]
      rw [hs] at h0
      have hz : ip.addrs indirect ≠ 0 := fun hz => h0 (slotBlock_entry_zero (Or.inl hz))
      rw [slotBlock_entry hz hj] at h0
      rw [if_pos hj, if_neg hz, if_neg h0]

theorem readAllocs_eq_zero {ip : Inode} (hh : NoHoles disk ip) (hsz : ip.size ≤ MAXFILE * BSIZE) (fail : Nat → Bool)
    {off n : Nat} (hn : off + n ≤ ip.size) : ∀ fuel tot, tot ≤ n →
    readAllocs sb fail n fuel tot (off + tot) disk ip = 0 := by
  intro fuel
  induction fuel with
  | zero => exact fun tot _ => rfl
  | succ fuel ih =>
    intro tot htot
    unfold readAllocs
    by_cases hlt : tot < n
    case neg => rw [if_neg hlt]
    case pos =>
      have h0 := hh.block (k := off + tot) (by omega)
      rw [if_pos hlt, bmapAllocs_of_blk h0, bmap_of_blk (blockIndex_lt (by omega)) h0, Nat.zero_add]
      dsimp only
      split
      · rfl
      · rw [Nat.add_assoc]
        exact ih _ (by omega)

section
variable (h : FsOK sb disk) (hi : i < sb.ninodes) (ht : (dinode sb disk i).type ≠ 0)
include h hi ht

theorem readiAllocs_eq_zero (fail : Nat → Bool) (off : Nat) {n : Nat} (hn : n < 2 ^ 32) :
    readiAllocs sb fail disk (dinode sb disk i) off n = 0 := by
  have hsz := h.sizes i hi ht
  unfold readiAllocs
  split
  · rfl
  · next hov =>
    refine readAllocs_eq_zero (h.holes i hi ht) hsz fail ?_ _ 0 (Nat.zero_le _)
    unfold MAXFILE NDIRECT NINDIRECT BSIZE at hsz
    split <;> omega

/-! ## Directories -/

theorem scanDir_same (p : Dirent → Bool) : ∀ fuel off,
    (∃ r, scanDir sb p fuel off disk (dinode sb disk i) = .ok (r, disk, dinode sb disk i)) ∨
      scanDir sb p fuel off disk (dinode sb disk i) = .error .dirRead := by
  intro fuel
  induction fuel with
  | zero => exact fun off => Or.inl ⟨none, rfl⟩
  | succ fuel ih =>
    intro off
    obtain ⟨r, out, he, _⟩ := readi_spec h hi ht (fun _ => false) off (show 16 < 2 ^ 32 by decide)
    unfold scanDir readDirent
    rw [he]
    dsimp only
    by_cases hlt : off < (dinode sb disk i).size
    case neg =>
      rw [if_neg hlt]
      exact Or.inl ⟨none, rfl⟩
    case pos =>
      rw [if_pos hlt]
      by_cases hr : r = 16
      case neg =>
        rw [if_neg hr]
        exact Or.inr rfl
      case pos =>
        rw [if_pos hr]
        dsimp only
        split
        · exact Or.inl ⟨_, rfl⟩
        · exact ih (off + 16)

/-- `dirlink` keeps the file system in order; it may stop at an entry that is not whole, or
because the inode is no directory. -/
theorem dirlink_keeps (stack name : Nat → UInt8) (inum : Nat) :
    (∃ r disk', DirMap.dirlink sb stack disk i (dinode sb disk i) name inum = .ok (r, disk', dinode sb disk' i) ∧
      FsOK sb disk' ∧ Others sb disk disk' i ∧ (dinode sb disk' i).type = (dinode sb disk i).type) ∨
    ∃ m, DirMap.dirlink sb stack disk i (dinode sb disk i) name inum = .error m ∧ m ≠ .bmapOutOfRange := by
  have hsame : FsOK sb disk ∧ Others sb disk disk i ∧ (dinode sb disk i).type = (dinode sb disk i).type :=
    ⟨h, Others.refl sb disk i, rfl⟩
  unfold DirMap.dirlink DirMap.dirlookup
  by_cases hd : (dinode sb disk i).type ≠ T_DIR
  · rw [if_pos hd]
    exact Or.inr ⟨_, rfl, fun hc => by cases hc⟩
  · rw [if_neg hd]
    have hlook := @DirMap.dirlookupLoop_eq sb name ((dinode sb disk i).size / 16 + 1) 0 disk (dinode sb disk i)
    rcases scanDir_same h hi ht (fun de => de.inum ≠ 0 ∧ de.name = Path.nameOf name)
      ((dinode sb disk i).size / 16 + 1) 0 with ⟨r, he⟩ | he <;> rw [he] at hlook <;> rw [hlook]
    · cases r with
      | some x => exact Or.inl ⟨_, disk, rfl, hsame⟩
      | none =>
        dsimp only [Except.map, Option.map]
        rcases scanDir_same h hi ht (fun de => de.inum = 0) ((dinode sb disk i).size / 16 + 1) 0 with ⟨x, hx⟩ | hx
        · obtain ⟨off, hoff⟩ : ∃ off, emptySlot sb disk (dinode sb disk i) = .ok (off, disk, dinode sb disk i) := by
            unfold emptySlot
            rw [hx]
            cases x <;> exact ⟨_, rfl⟩
          obtain ⟨k, disk', hw, hok, hoth, hty, _⟩ :=
            writei_spec h hi ht (DirMap.newDirent stack name inum) (fun _ => none) off (show 16 < 2 ^ 32 by decide)
          rw [hoff]
          dsimp only
          rw [hw]
          exact Or.inl ⟨_, disk', rfl, hok, hoth, hty⟩
        · rw [emptySlot, hx]
          exact Or.inr ⟨_, rfl, fun hc => by cases hc⟩
    · exact Or.inr ⟨_, rfl, fun hc => by cases hc⟩

end

/-! ## Runs -/

theorem ialloc_ok {s : Files} (h : s.OK sb) {type : Nat} (ht : type < 2 ^ 16) : (ialloc sb s type).OK sb := by
  unfold ialloc
  split
  · exact h
  · next i hf =>
    obtain ⟨hi, hfree⟩ := BlockSys.freeInode_spec hf
    obtain ⟨hfs, hoth, hself, _⟩ := putDinode_content h.fs hi (BlockSys.newInode_inRange ht)
      (Or.inr ⟨fun _ => rfl, rfl, fun hc => absurd hfree hc⟩)
    refine ⟨hfs, fun j hj => ?_⟩
    by_cases hji : j = i
    · subst hji
      exact (update_self _ _ _).trans hself.symm
    · exact (update_of_ne hji _ _).trans ((h.sync j hj).trans (hoth j hj hji).1.symm)

theorem exec_ok {s : Files} (h : s.OK sb) {c : Call} (hc : c.Ok sb s) :
    (∃ s', exec sb s c = .ok s' ∧ s'.OK sb) ∨ ∃ m, exec sb s c = .error m ∧ m ≠ .bmapOutOfRange := by
  have htype : ∀ {j}, s.allocated sb j → (dinode sb s.disk j).type ≠ 0 := fun ha => h.mem_eq ha ▸ ha.2
  cases c with
  | writei i src fail off n =>
    obtain ⟨r, disk', he, hok, hoth, hty, _⟩ := writei_spec h.fs hc.1.1 (htype hc.1) src fail off hc.2
    refine Or.inl ⟨_, ?_, (h.step hc.1 hok hoth hty).1⟩
    rw [exec, h.mem_eq hc.1, he]
  | dirlink i stack name inum =>
    rcases dirlink_keeps h.fs hc.1 (htype hc) stack name inum with ⟨r, disk', he, hok, hoth, hty⟩ | ⟨m, he, hm⟩
    · refine Or.inl ⟨_, ?_, (h.step hc hok hoth hty).1⟩
      rw [exec, h.mem_eq hc, he]
    · refine Or.inr ⟨m, ?_, hm⟩
      rw [exec, h.mem_eq hc, he]
  | itrunc i =>
    obtain ⟨disk', he, hok, hoth, hd⟩ := itrunc_content h.fs hc.1 (htype hc)
    refine Or.inl ⟨_, ?_, (h.step hc hok hoth (by rw [hd]; rfl)).1⟩
    rw [exec, h.mem_eq hc, he]
  | ialloc type => exact Or.inl ⟨_, rfl, ialloc_ok h hc⟩

theorem reach_ok {s0 s : Files} (h0 : s0.OK sb) (hr : Run.Reach (step sb) (fun _ _ => True) (· = s0) s) : s.OK sb := by
  refine hr.invariant (Files.OK sb) (by rintro _ rfl; exact h0) fun s c s' hs _ hstep => ?_
  unfold step at hstep
  split at hstep
  · next hc =>
    rcases exec_ok hs hc with ⟨t, he, hok⟩ | ⟨m, he, _⟩
    · rw [he] at hstep
      cases hstep
      exact hok
    · rw [he] at hstep
      cases hstep
  · cases hstep

end

/-- **No holes.**  In every state that calls of `writei`, `dirlink`, `itrunc` and
`ialloc` reach from an image in order, no file is larger than `MAXFILE` blocks or has
a hole below its size; `readi` changes nothing and calls `balloc` nowhere; and no call
panics with "bmap: out of range". -/
theorem no_holes (sb : Super) (s0 s : Files) (h0 : s0.OK sb) (hr : Run.Reach (step sb) (fun _ _ => True) (· = s0) s) :
    (∀ i, s.allocated sb i → (s.mem i).size ≤ MAXFILE * BSIZE ∧
      ∀ bn, bn < ((s.mem i).size + BSIZE - 1) / BSIZE → blk s.disk (s.mem i) bn ≠ 0) ∧
    (∀ i fail off n, s.allocated sb i → n < 2 ^ 32 → readiAllocs sb fail s.disk (s.mem i) off n = 0 ∧
      ∃ r out, readi sb fail s.disk (s.mem i) off n = some (r, out, s.disk, s.mem i)) ∧
    ∀ c : Call, c.Ok sb s → exec sb s c ≠ .error .bmapOutOfRange := by
  have h := reach_ok h0 hr
  have htype : ∀ {i}, s.allocated sb i → (dinode sb s.disk i).type ≠ 0 := fun ha => h.mem_eq ha ▸ ha.2
  refine ⟨fun i ha => ?_, fun i fail off n ha hn => ?_, fun c hc => ?_⟩
  · rw [h.mem_eq ha]
    refine ⟨h.fs.sizes i ha.1 (htype ha), fun bn hbn => h.fs.holes i ha.1 (htype ha) bn ?_⟩
    unfold BSIZE at *
    omega
  · rw [h.mem_eq ha]
    obtain ⟨r, out, he, _⟩ := readi_spec h.fs ha.1 (htype ha) fail off hn
    exact ⟨readiAllocs_eq_zero h.fs ha.1 (htype ha) fail off hn, r, out, he⟩
  · intro he
    rcases exec_ok h hc with ⟨_, he', _⟩ | ⟨m, he', hm⟩
    · rw [he] at he'
      cases he'
    · rw [he] at he'
      cases he'
      exact hm rfl

/-- A write of 3 bytes to an empty file. -/
theorem no_holes_tiny : ∃ s, Run.Reach (step tiny) (fun _ _ => True) (· = tinyFiles) s ∧
    (s.mem 1).size = 3 ∧ blk s.disk (s.mem 1) 0 ≠ 0 := by
  let calls : List Call := [.writei 1 (fun x => UInt8.ofNat x) (fun _ => none) 0 3]
  have hview : (Run.run (step tiny) tinyFiles calls).map (fun s => (s.mem 1).size) = some 3 := by decide +kernel
  obtain ⟨s, hs, hsz⟩ := Option.map_eq_some_iff.mp hview
  have hr : Run.Reach (step tiny) (fun _ _ => True) (· = tinyFiles) s :=
    .of_run (fun _ _ => trivial) calls (.start rfl) hs
  have htype : (Run.run (step tiny) tinyFiles calls).map (fun s => (s.mem 1).type) = some 2 := by decide +kernel
  rw [hs, Option.map_some, Option.some.injEq] at htype
  refine ⟨s, hr, hsz, ((no_holes tiny tinyFiles s tinyFiles_ok hr).1 1 ⟨by decide, by rw [htype]; decide⟩).2 0 ?_⟩
  rw [hsz]
  decide

/-! ## Shared blocks -/

/-- Block 5 is the first block of inode 1 and the indirect block of inode 2. -/
def sharedDisk : Disk := fun b x =>
  if b = 2 then
    (if x = 64 ∨ x = 128 then 2 else if x = 70 ∨ x = 134 then 1
     else if x = 73 then 4 else if x = 137 then 52
     else if x = 76 then 5
     else if 140 ≤ x ∧ x < 188 ∧ x % 4 = 0 then UInt8.ofNat (6 + (x - 140) / 4)
     else if x = 188 then 5 else 0)
  else if b = 3 then (if x < 3 then 255 else 0)
  else if b = 5 then (if x = 0 then 18 else 0) else 0

def sharedFiles : Files := { disk := sharedDisk, mem := dinode tiny sharedDisk }

/-- When a block is in use twice, a write to one file makes a hole in the other. -/
theorem shared_block_hole : (∀ i, sharedFiles.allocated tiny i → (sharedFiles.mem i).size ≤ MAXFILE * BSIZE ∧
      NoHoles sharedFiles.disk (sharedFiles.mem i)) ∧
    ∃ s, step tiny sharedFiles (.writei 1 (fun _ => 0) (fun _ => none) 0 4) = some s ∧ s.allocated tiny 2 ∧
      12 < ((s.mem 2).size + BSIZE - 1) / BSIZE ∧ blk s.disk (s.mem 2) 12 = 0 := by
  constructor
  · have hall : ∀ i, i < tiny.ninodes → (dinode tiny sharedDisk i).type ≠ 0 →
        (dinode tiny sharedDisk i).size ≤ 13 * BSIZE ∧
        ∀ bn, bn < 13 → bn * BSIZE < (dinode tiny sharedDisk i).size → blk sharedDisk
          (dinode tiny sharedDisk i) bn ≠ 0 := by
      decide +kernel
    intro i ha
    obtain ⟨hsz, hb⟩ := hall i ha.1 ha.2
    have hlt : 13 * BSIZE ≤ MAXFILE * BSIZE := by decide
    refine ⟨Nat.le_trans hsz hlt, fun bn hbn => hb bn ?_ hbn⟩
    have : bn * BSIZE < 13 * BSIZE := Nat.lt_of_lt_of_le hbn hsz
    exact Nat.lt_of_mul_lt_mul_right this
  · have hview : (step tiny sharedFiles (.writei 1 (fun _ => 0) (fun _ => none) 0 4)).map
        (fun s => decide (s.allocated tiny 2 ∧ 12 < ((s.mem 2).size + BSIZE - 1) / BSIZE ∧
        blk s.disk (s.mem 2) 12 = 0)) =
        some true := by decide +kernel
    obtain ⟨s, hs, hb⟩ := Option.map_eq_some_iff.mp hview
    exact ⟨s, hs, of_decide_eq_true hb⟩

end Xv6.Fs.NoHoles
