import Xv6.Fs.Content
import Xv6.Fs.Ops

/-!
# Directories on the disk

The loops of `dirlookup`, `dirlink` and `isdirempty` over the entries of a
directory, and the `writei` of one entry, on the bytes of the disk.  `DirOK`
says that a directory is a whole number of entries and that every entry has an
inode number that exists; writing one entry keeps it (`writeDirent_spec`).
-/

namespace Xv6.Fs

open Sys (Panic)

/-! ## `kernel/fs.c`, `kernel/sysfile.c` -/

/-- `struct dirent` read from 16 bytes. -/
def getDirent (bytes : List UInt8) : Dirent :=
  { inum := (bytes.getD 0 0).toNat + 256 * (bytes.getD 1 0).toNat
    name := (bytes.drop 2).takeWhile (· ≠ 0) }

/-- The bytes of `struct dirent`; `strncpy` fills up with zeros. -/
def direntBytes (de : Dirent) (x : Nat) : UInt8 :=
  if x = 0 then UInt8.ofNat de.inum else if x = 1 then UInt8.ofNat (de.inum / 256) else de.name.getD (x - 2) 0

section
variable (sb : Super)

/-- `readi` of the entry at `off` into the kernel. -/
def readDirent (disk : Disk) (ip : Inode) (off : Nat) : Except Panic (Dirent × Disk × Inode) :=
  match readi sb (fun _ => false) disk ip off 16 with
  | none => .error .bmapOutOfRange
  | some (r, bytes, disk, ip) => if r = 16 then .ok (getDirent bytes, disk, ip) else .error .dirRead

/-- A loop over the entries from `off` on, up to the first one that meets `p`. -/
def scanDir (p : Dirent → Bool) : Nat → Nat → Disk → Inode → Except Panic (Option (Dirent × Nat) × Disk × Inode)
  | 0, _, disk, ip => .ok (none, disk, ip)
  | fuel + 1, off, disk, ip =>
    if off < ip.size then
      match readDirent sb disk ip off with
      | .error m => .error m
      | .ok (de, disk, ip) =>
        if p de then .ok (some (de, off), disk, ip) else scanDir p fuel (off + 16) disk ip
    else .ok (none, disk, ip)

/-- `dirlookup` without its `iget`: the inode number and the offset of the entry. -/
def dirlookup (disk : Disk) (ip : Inode) (name : Name) : Except Panic (Option (Nat × Nat) × Disk × Inode) :=
  if ip.type ≠ T_DIR then .error .dirlookupNotDir
  else
    match scanDir sb (fun de => de.inum ≠ 0 ∧ de.name = name) (ip.size / 16 + 1) 0 disk ip with
    | .error m => .error m
    | .ok (r, disk, ip) => .ok (r.map fun x => (x.1.inum, x.2), disk, ip)

/-- `dirlink`'s loop: the offset of the first empty entry, or the first one after the end. -/
def emptySlot (disk : Disk) (ip : Inode) : Except Panic (Nat × Disk × Inode) :=
  match scanDir sb (fun de => de.inum = 0) (ip.size / 16 + 1) 0 disk ip with
  | .error m => .error m
  | .ok (some x, disk, ip) => .ok (x.2, disk, ip)
  | .ok (none, disk, ip) => .ok ((ip.size + 15) / 16 * 16, disk, ip)

/-- Whether there is no entry after the first two. -/
def isdirempty (disk : Disk) (ip : Inode) : Except Panic (Bool × Disk × Inode) :=
  match scanDir sb (fun de => de.inum ≠ 0) (ip.size / 16 + 1) 32 disk ip with
  | .error m => .error m
  | .ok (r, disk, ip) => .ok (r.isNone, disk, ip)

/-- `writei` of an entry from the kernel: whether it wrote all 16 bytes. -/
def writeDirent (disk : Disk) (i : Nat) (ip : Inode) (off : Nat) (de : Dirent) : Option (Bool × Disk × Inode) :=
  (writei sb (direntBytes de) (fun _ => none) disk i ip off 16).map fun r => (r.1 = 16, r.2)

end

/-! ## Directories in order -/

def inumAt (disk : Disk) (ip : Inode) (n : Nat) : Nat :=
  (byteAt disk ip (16 * n)).toNat + 256 * (byteAt disk ip (16 * n + 1)).toNat

structure DirOK (sb : Super) (disk : Disk) (ip : Inode) : Prop where
  whole : ip.size % 16 = 0
  inums : ∀ n, 16 * n < ip.size → inumAt disk ip n < sb.ninodes

section
variable {sb : Super} {disk disk' : Disk} {i : Nat}

variable {off : Nat} {ip ip' : Inode}

theorem slice_getD {n x : Nat} (hx : x < n) : (slice disk ip off n).getD x 0 = byteAt disk ip (off + x) := by
  rw [slice, List.getD_eq_getElem?_getD, List.getElem?_map, List.getElem?_range hx]
  rfl

def direntAt (disk : Disk) (ip : Inode) (n : Nat) : Dirent := getDirent (slice disk ip (16 * n) 16)

theorem direntAt_inum (ip : Inode) (n : Nat) : (direntAt disk ip n).inum = inumAt disk ip n := by
  show ((slice disk ip (16 * n) 16).getD 0 0).toNat + 256 * ((slice disk ip (16 * n) 16).getD 1 0).toNat = _
  rw [slice_getD (by decide), slice_getD (by decide)]
  rfl

section
variable (h : FsOK sb disk) (hi : i < sb.ninodes)
include h hi

section
variable (ht : (dinode sb disk i).type ≠ 0) (hw : (dinode sb disk i).size % 16 = 0)
include ht hw

theorem readi_entry {n : Nat} (hn : 16 * n < (dinode sb disk i).size) :
    readi sb (fun _ => false) disk (dinode sb disk i) (16 * n) 16 =
      some (16, slice disk (dinode sb disk i) (16 * n) 16, disk, dinode sb disk i) := by
  have hsz := h.sizes i hi ht
  have hlt : 16 * n + 16 < 2 ^ 32 := by
    unfold MAXFILE NDIRECT NINDIRECT BSIZE at hsz
    omega
  obtain ⟨r, out, he, _, hgood⟩ := readi_spec h hi ht (fun _ => false) (16 * n) (show 16 < 2 ^ 32 by decide)
  obtain ⟨hr, hout⟩ := hgood ⟨by omega, hlt⟩ fun _ => rfl
  have hmin : min 16 ((dinode sb disk i).size - 16 * n) = 16 := by omega
  rw [← slice_eq_content (by omega), hmin] at hout
  rw [hmin] at hr
  rw [he, hr, hout]
  rfl

theorem readDirent_eq {n : Nat} (hn : 16 * n < (dinode sb disk i).size) :
    readDirent sb disk (dinode sb disk i) (16 * n) =
      .ok (direntAt disk (dinode sb disk i) n, disk, dinode sb disk i) := by
  rw [readDirent, readi_entry h hi ht hw hn]
  rfl

theorem scanDir_first (p : Dirent → Bool) : ∀ (fuel n : Nat),
    ∃ r, scanDir sb p fuel (16 * n) disk (dinode sb disk i) = .ok (r, disk, dinode sb disk i) ∧
      (∀ de off, r = some (de, off) → ∃ m, off = 16 * m ∧ 16 * m < (dinode sb disk i).size ∧
        de = direntAt disk (dinode sb disk i) m ∧ p de = true) ∧
      (r = none → (dinode sb disk i).size ≤ 16 * (n + fuel) → ∀ m, n ≤ m → 16 * m < (dinode sb disk i).size →
        p (direntAt disk (dinode sb disk i) m) = false) := by
  intro fuel
  induction fuel with
  | zero => exact fun n => ⟨none, rfl, nofun, fun _ _ m _ _ => by omega⟩
  | succ fuel ih =>
    intro n
    unfold scanDir
    by_cases hn : 16 * n < (dinode sb disk i).size
    case neg =>
      rw [if_neg hn]
      exact ⟨none, rfl, nofun, fun _ _ m _ _ => by omega⟩
    case pos =>
      rw [if_pos hn, readDirent_eq h hi ht hw hn]
      simp only
      by_cases hp : p (direntAt disk (dinode sb disk i) n) = true
      · rw [if_pos hp]
        refine ⟨_, rfl, fun de' off' heq => ?_, nofun⟩
        injection heq with heq
        injection heq with h1 h2
        subst h1 h2
        exact ⟨n, rfl, hn, rfl, hp⟩
      · rw [if_neg hp]
        obtain ⟨r, he, hsome, hnone⟩ := ih (n + 1)
        refine ⟨r, he, hsome, fun hr hf m hm hlt => ?_⟩
        rcases Nat.eq_or_lt_of_le hm with rfl | hm'
        · exact Bool.eq_false_iff.mpr hp
        · exact hnone hr (by omega) m hm' hlt

end

theorem scanDir_spec (ht : (dinode sb disk i).type ≠ 0)
    (hd : DirOK sb disk (dinode sb disk i)) (p : Dirent → Bool) (fuel n : Nat) :
    ∃ r, scanDir sb p fuel (16 * n) disk (dinode sb disk i) = .ok (r, disk, dinode sb disk i) ∧
      ∀ de off, r = some (de, off) → de.inum < sb.ninodes ∧ off % 16 = 0 ∧ off < (dinode sb disk i).size := by
  obtain ⟨r, he, hsome, _⟩ := scanDir_first h hi ht hd.whole p fuel n
  refine ⟨r, he, fun de off hr => ?_⟩
  obtain ⟨m, rfl, hm, rfl, _⟩ := hsome de off hr
  exact ⟨by rw [direntAt_inum]; exact hd.inums m hm, Nat.mul_mod_right 16 m, hm⟩

theorem dirlookup_spec (ht : (dinode sb disk i).type = T_DIR) (hd : DirOK sb disk (dinode sb disk i)) (name : Name) :
    ∃ r, dirlookup sb disk (dinode sb disk i) name = .ok (r, disk, dinode sb disk i) ∧
      ∀ inum off, r = some (inum, off) → inum < sb.ninodes ∧ off % 16 = 0 ∧ off < (dinode sb disk i).size := by
  obtain ⟨r, he, hr⟩ := scanDir_spec h hi (by rw [ht]; decide) hd (fun de => de.inum ≠ 0 ∧ de.name = name)
    ((dinode sb disk i).size / 16 + 1) 0
  refine ⟨r.map fun x => (x.1.inum, x.2), ?_, ?_⟩
  · rw [dirlookup, if_neg (by rw [ht]; simp), he]
  · intro inum off heq
    obtain ⟨⟨de, off'⟩, hx, hy⟩ := Option.map_eq_some_iff.mp heq
    injection hy with h1 h2
    rw [← h1, ← h2]
    exact hr de off' hx

theorem emptySlot_spec (ht : (dinode sb disk i).type ≠ 0) (hd : DirOK sb disk (dinode sb disk i)) :
    ∃ off, emptySlot sb disk (dinode sb disk i) = .ok (off, disk, dinode sb disk i) ∧ off % 16 = 0 ∧
      off ≤ (dinode sb disk i).size := by
  obtain ⟨r, he, hr⟩ := scanDir_spec h hi ht hd (fun de => de.inum = 0) ((dinode sb disk i).size / 16 + 1) 0
  rw [emptySlot, he]
  cases r with
  | none =>
    have hw := hd.whole
    exact ⟨_, rfl, by omega, by omega⟩
  | some x =>
    obtain ⟨_, h1, h2⟩ := hr x.1 x.2 rfl
    exact ⟨x.2, rfl, h1, Nat.le_of_lt h2⟩

theorem isdirempty_spec (ht : (dinode sb disk i).type ≠ 0) (hd : DirOK sb disk (dinode sb disk i)) :
    ∃ b, isdirempty sb disk (dinode sb disk i) = .ok (b, disk, dinode sb disk i) := by
  obtain ⟨r, he, _⟩ := scanDir_spec h hi ht hd (fun de => de.inum ≠ 0) ((dinode sb disk i).size / 16 + 1) 2
  exact ⟨r.isNone, by rw [isdirempty, he]⟩

end

theorem byteAt_of_content {k : Nat} (hk : k < ip.size) {b : UInt8} (h : (content disk ip)[k]? = some b) :
    byteAt disk ip k = b := by
  rw [content_getElem?, if_pos hk] at h
  exact Option.some.inj h

theorem DirOK.of_content (hd : DirOK sb disk ip) (hc : content disk' ip' = content disk ip) : DirOK sb disk' ip' := by
  have hsize : ip'.size = ip.size := by
    rw [← content_length disk' ip', hc, content_length]
  have hbyte : ∀ k, k < ip.size → byteAt disk' ip' k = byteAt disk ip k := by
    intro k hk
    refine byteAt_of_content (by omega) ?_
    rw [hc, content_getElem?, if_pos hk]
  refine ⟨by rw [hsize]; exact hd.whole, fun n hn => ?_⟩
  have hw := hd.whole
  rw [hsize] at hn
  rw [inumAt, hbyte _ hn, hbyte _ (by omega)]
  exact hd.inums n hn

/-- The bytes of a file after 16 of them were written at `off`. -/
structure Written (disk disk' : Disk) (ip ip' : Inode) (off : Nat) (src : Nat → UInt8) : Prop where
  size : ip'.size = max ip.size (off + 16)
  old : ∀ k, k < ip.size → ¬ (off ≤ k ∧ k < off + 16) → byteAt disk' ip' k = byteAt disk ip k
  new : ∀ x, x < 16 → byteAt disk' ip' (off + x) = src x

theorem Written.of_content (hle : off ≤ ip.size) {src : Nat → UInt8}
    (hc : content disk' ip' = (content disk ip).take off ++ (List.range 16).map src ++
      (content disk ip).drop (off + 16)) : Written disk disk' ip ip' off src := by
  have hlen : ((content disk ip).take off).length = off := by
    rw [List.length_take, content_length, Nat.min_eq_left hle]
  have hlen2 : ((content disk ip).take off ++ (List.range 16).map src).length = off + 16 := by
    rw [List.length_append, hlen, List.length_map, List.length_range]
  have hsize : ip'.size = max ip.size (off + 16) := by
    have h1 := content_length disk' ip'
    rw [hc, List.length_append, hlen2, List.length_drop, content_length] at h1
    omega
  refine ⟨hsize, fun k hk hout => ?_, fun x hx => ?_⟩
  · refine byteAt_of_content (by omega) ?_
    rw [hc]
    by_cases h1 : k < off
    · rw [List.getElem?_append_left (by omega), List.getElem?_append_left (by omega), List.getElem?_take_of_lt h1,
        content_getElem?, if_pos hk]
    · rw [List.getElem?_append_right (by omega), hlen2, List.getElem?_drop, Nat.add_sub_cancel' (by omega),
        content_getElem?, if_pos hk]
  · refine byteAt_of_content (by omega) ?_
    rw [hc, List.getElem?_append_left (by omega), List.getElem?_append_right (by omega), hlen, List.getElem?_map,
      Nat.add_sub_cancel_left, List.getElem?_range hx]
    rfl

theorem DirOK.write (hd : DirOK sb disk ip) (hoff : off % 16 = 0) (hle : off ≤ ip.size)
    {de : Dirent} (hinum : de.inum < sb.ninodes)
    (hc : content disk' ip' = (content disk ip).take off ++ (List.range 16).map (direntBytes de) ++
      (content disk ip).drop (off + 16)) : DirOK sb disk' ip' := by
  obtain ⟨hsize, hold, hnew⟩ := Written.of_content hle hc
  have hw := hd.whole
  refine ⟨by omega, fun n hn => ?_⟩
  by_cases hn' : 16 * n = off
  · have h0 := hnew 0 (by decide)
    have h1 := hnew 1 (by decide)
    have hlt := sb.ninodes_lt
    rw [Nat.add_zero] at h0
    have hb0 : (direntBytes de 0).toNat = de.inum % 256 := UInt8.toNat_ofNat'
    have hb1 : (direntBytes de 1).toNat = de.inum / 256 % 256 := UInt8.toNat_ofNat'
    rw [inumAt, hn', h0, h1, hb0, hb1]
    omega
  · have hlt : 16 * n < ip.size := by omega
    rw [inumAt, hold _ hlt (by omega), hold _ (by omega) (by omega)]
    exact hd.inums n hlt

theorem writeDirent_spec (h : FsOK sb disk) (hi : i < sb.ninodes) (ht : (dinode sb disk i).type ≠ 0)
    (hd : DirOK sb disk (dinode sb disk i)) (hoff : off % 16 = 0) (hle : off ≤ (dinode sb disk i).size)
    {de : Dirent} (hinum : de.inum < sb.ninodes) :
    ∃ ok disk', writeDirent sb disk i (dinode sb disk i) off de = some (ok, disk', dinode sb disk' i) ∧
      FsOK sb disk' ∧ Others sb disk disk' i ∧ (dinode sb disk' i).type = (dinode sb disk i).type ∧
      DirOK sb disk' (dinode sb disk' i) := by
  obtain ⟨r, disk', he, hok, hoth, hty, hbad, hgood⟩ :=
    writei_spec h hi ht (direntBytes de) (fun _ => none) off (show 16 < 2 ^ 32 by decide)
  refine ⟨r = 16, disk', by rw [writeDirent, he]; rfl, hok, hoth, hty, ?_⟩
  by_cases hw : Writable (dinode sb disk i) off 16
  · obtain ⟨k, _, hk, _, hend, hcont⟩ := hgood hw fun _ => rfl
    -- an entry does not cross a block, so it is written whole or not at all
    have hcase : k = 16 ∨ k = 0 := by
      unfold BSIZE at hend
      omega
    rcases hcase with rfl | rfl
    · exact hd.write hoff hle hinum hcont
    · apply hd.of_content
      rw [hcont, List.range_zero, List.map_nil, List.append_nil, Nat.add_zero, List.take_append_drop]
  · obtain ⟨_, rfl⟩ := hbad hw
    exact hd

end

end Xv6.Fs
