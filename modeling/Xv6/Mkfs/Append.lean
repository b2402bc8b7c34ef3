import Xv6.Mkfs.Build

/-!
# `iappend` and the kernel's `writei`

While `mkfs` runs, the bitmap is not on the image yet; `onDisk` is the image with
the bitmap that `mkfs` would write now.  On it the kernel's `balloc` finds the
block that `mkfs` takes next, so `fileBlock` is the kernel's `bmap`
(`fileBlock_spec`), and `iappend` leaves a file system in order and appends to
the content of the file (`iappend_spec`).  It succeeds exactly when the file does
not get too large and there are enough blocks.
-/

namespace Xv6.Mkfs

open Fs Function

variable {b n off : Nat} {α β : Type}

theorem ok_bind (a : α) (f : α → Except Exit β) : (Except.ok a >>= f) = f a := rfl

theorem error_bind (e : Exit) (f : α → Except Exit β) : (Except.error e >>= f) = .error e := rfl

theorem bind_eq_ok {x : Except Exit α} {f : α → Except Exit β} {r : β} (h : (x >>= f) = .ok r) :
    ∃ a, x = .ok a ∧ f a = .ok r := by
  cases x with
  | error e => cases h
  | ok a => exact ⟨a, rfl, h⟩

/-! ## The bitmap -/

theorem bitmap_succ (k : Nat) : bitmap (k + 1) = setBit (bitmap k) k := by
  rw [bitmap, List.range_succ, List.foldl_append]
  rfl

theorem bitSet_bitmap (k j : Nat) : bitSet (bitmap k) j = decide (j < k) := by
  induction k with
  | zero => simp [bitmap, bitSet, zeroBlock]
  | succ k ih =>
    rw [bitmap_succ, bitSet_setBit, ih]
    by_cases hj : j = k
    · simp [hj]
    · rw [if_neg hj]
      exact decide_eq_decide.mpr (by omega)

theorem bmapstart_lt_nmeta : sb.bmapstart < nmeta := by decide

/-- The image with the bitmap of the blocks taken so far. -/
def onDisk (img : Img) : Disk := update img.disk sb.bmapstart (bitmap img.freeblock)

variable {img : Img} {x : Nat} {disk : Disk} {ip : Inode} {i : Nat}

theorem onDisk_of_ne (h : x ≠ sb.bmapstart) : onDisk img x = img.disk x :=
  update_of_ne h _ _

theorem onDisk_data (h : nmeta ≤ x) : onDisk img x = img.disk x :=
  onDisk_of_ne (by have := bmapstart_lt_nmeta; omega)

theorem onDisk_wsect (h : x ≠ sb.bmapstart) (m : Block) : onDisk (wsect img x m) = update (onDisk img) x m := by
  rw [onDisk, onDisk, wsect]
  exact update_comm h _ _ _

/-- The image while `mkfs` builds it: the blocks not taken yet are clear. -/
structure Rep (img : Img) : Prop where
  len : img.len = FSSIZE
  lo : nmeta ≤ img.freeblock
  hi : img.freeblock ≤ FSSIZE
  zero : ∀ b, img.freeblock ≤ b → img.disk b = zeroBlock

theorem Rep.wsect (h : Rep img) (hx : x < img.freeblock) (m : Block) : Rep (wsect img x m) := { h with
  len := by
    have := h.hi
    have := h.len
    simp only [Mkfs.wsect]
    omega
  zero b hb := by
    have hb : img.freeblock ≤ b := hb
    exact (update_of_ne (by omega) _ _).trans (h.zero b hb) }

theorem Rep.succ (h : Rep img) (hlt : img.freeblock < FSSIZE) : Rep { img with freeblock := img.freeblock + 1 } where
  len := h.len
  lo := Nat.le_succ_of_le h.lo
  hi := hlt
  zero b hb := h.zero b (Nat.le_of_succ_le hb)

theorem inUse_onDisk (img : Img) (hb : b < FSSIZE) : inUse sb (onDisk img) b = decide (b < img.freeblock) := by
  have hlt : b < BPB := Nat.lt_trans hb (by decide)
  have hblock : BBLOCK sb b = sb.bmapstart := by
    rw [BBLOCK, Nat.div_eq_of_lt hlt, Nat.zero_add]
  rw [inUse, hblock, onDisk, update_self, Nat.mod_eq_of_lt hlt, bitSet_bitmap]

theorem scanBlock_first {m : Block} {k : Nat} (hset : ∀ j, j < k → bitSet m j = true) (hk : bitSet m k = false)
    (hlt : k < BPB) (hsize : b + k < sb.size) : ∀ fuel bi, bi ≤ k → k < bi + fuel → scanBlock sb m b fuel bi =
    some k := by
  intro fuel
  induction fuel with
  | zero => exact fun bi h1 h2 => by omega
  | succ fuel ih =>
    intro bi h1 h2
    rw [scanBlock, if_pos ⟨by omega, by omega⟩]
    rcases Nat.eq_or_lt_of_le h1 with rfl | h1
    · rw [if_pos hk]
    · rw [if_neg (by simp [hset bi h1])]
      exact ih (bi + 1) h1 (by omega)

theorem balloc_onDisk (h : Rep img) (hlt : img.freeblock < FSSIZE) :
    Fs.balloc sb (onDisk img) = (img.freeblock, onDisk { img with freeblock := img.freeblock + 1 }) := by
  have hlo := h.lo
  have hne : img.freeblock ≠ sb.bmapstart := by
    have := bmapstart_lt_nmeta
    omega
  have hscan : scanMap sb (onDisk img) (sb.size / BPB + 1) 0 = some img.freeblock := by
    have hself : onDisk img sb.bmapstart = bitmap img.freeblock := update_self ..
    rw [scanMap, if_pos (by decide), show BBLOCK sb 0 = sb.bmapstart by decide, hself,
      scanBlock_first (fun j hj => by simp [bitSet_bitmap, hj]) (by simp [bitSet_bitmap])
        (Nat.lt_trans hlt (by decide)) (by rw [Nat.zero_add]; exact hlt) BPB 0 (Nat.zero_le _)
        (by rw [Nat.zero_add]; exact Nat.lt_trans hlt (by decide))]
    simp
  have hblock : BBLOCK sb img.freeblock = sb.bmapstart := by
    rw [BBLOCK, Nat.div_eq_of_lt (Nat.lt_trans hlt (by decide)), Nat.zero_add]
  have htake : take sb (onDisk img) img.freeblock = onDisk { img with freeblock := img.freeblock + 1 } := by
    rw [take, hblock, Nat.mod_eq_of_lt (Nat.lt_trans hlt (by decide)), onDisk, update_self, ← bitmap_succ,
      update_idem, bzero, onDisk]
    -- the block is clear already
    refine update_eq_self_iff.mpr ?_
    rw [update_of_ne hne]
    exact (h.zero _ le_rfl).symm
  rw [Fs.balloc, hscan]
  simp only [htake]

/-! ## `fileBlock` and `bmap` -/

theorem blk_direct {bn : Nat} (h : bn < 12) : blk disk ip bn = ip.addrs ⟨bn, Nat.lt_trans h (by decide)⟩ := by
  rw [blk, slotOf, dif_pos h, slotBlock]

theorem blk_indirect {bn : Nat} (h : ¬ bn < 12) : blk disk ip bn = slotBlock disk ip (.entry (bn - 12)) := by
  rw [blk, slotOf, dif_neg h]

/-- `fileBlock` came to `x`, as `bmap` does. -/
structure Placed (img : Img) (din : Inode) (fbn x : Nat) (img' : Img) (din' : Inode) : Prop where
  bmap : Fs.bmap sb (onDisk img) din fbn = some (x, onDisk img', din')
  rep : Rep img'
  pos : x ≠ 0
  free : img'.freeblock = img.freeblock + missing (onDisk img) din fbn
  inodes : img'.freeinode = img.freeinode
  other : ∀ bn, bn ≠ fbn → blk (onDisk img') din' bn = blk (onDisk img) din bn
  ind : din'.addrs indirect ≠ 0 ↔ din.addrs indirect ≠ 0 ∨ 12 ≤ fbn

section
variable {img : Img} {din : Inode} {fbn : Nat}

theorem Placed.here (h : Rep img) (hfbn : fbn < MAXFILE) (h0 : blk (onDisk img) din fbn ≠ 0) :
    Placed img din fbn (blk (onDisk img) din fbn) img din where
  bmap := bmap_of_blk hfbn h0
  rep := h
  pos := h0
  free := by rw [missing, if_pos h0, Nat.add_zero]
  inodes := rfl
  other _ _ := rfl
  ind := by
    refine ⟨Or.inl, fun hor => hor.elim id fun h12 hz => h0 ?_⟩
    rw [blk_indirect (by omega), slotBlock_entry_zero (Or.inl hz)]

theorem Rep.pos (h : Rep img) : img.freeblock ≠ 0 := by
  have h1 := h.lo
  have h2 : 0 < nmeta := by decide
  omega

/-- The indirect block is one that `mkfs` has taken. -/
def IndOk (img : Img) (din : Inode) : Prop :=
  din.addrs indirect ≠ 0 → nmeta ≤ din.addrs indirect ∧ din.addrs indirect < img.freeblock

theorem Placed.direct (h : Rep img) (hind : IndOk img din) (hd : fbn < 12) (h0 : blk (onDisk img) din fbn = 0)
    (hlt : img.freeblock < FSSIZE) : Placed img din fbn img.freeblock { img with freeblock := img.freeblock + 1 }
      (setAddr din ⟨fbn, Nat.lt_trans hd (by decide)⟩ img.freeblock) := by
  have hsame : (setAddr din ⟨fbn, Nat.lt_trans hd (by decide)⟩ img.freeblock).addrs indirect = din.addrs indirect := by
    refine update_of_ne (fun hc => ?_) _ _
    have := congrArg Fin.val hc
    simp only [indirect] at this
    omega
  refine ⟨?_, h.succ hlt, h.pos, ?_, rfl, fun bn hbn => ?_, ?_⟩
  · rw [blk_direct hd] at h0
    rw [Fs.bmap, dif_pos hd, loadAddr, if_pos h0, balloc_onDisk h hlt]
    simp only [if_neg h.pos]
  · rw [missing, if_neg (fun hc => hc h0), if_neg (by omega)]
  · by_cases hb : bn < 12
    · rw [blk_direct hb, blk_direct hb]
      refine update_of_ne (fun hc => hbn ?_) _ _
      exact congrArg Fin.val hc
    · rw [blk_indirect hb, blk_indirect hb, slotBlock, slotBlock, hsame]
      by_cases hz : din.addrs indirect = 0
      · rw [if_pos (Or.inl hz), if_pos (Or.inl hz)]
      · rw [onDisk_data (hind hz).1, onDisk_data (hind hz).1]
  · rw [hsame]
    exact ⟨Or.inl, fun hor => hor.elim id fun h12 => by omega⟩

def withEntry (img : Img) (a j : Nat) : Img :=
  wsect { img with freeblock := img.freeblock + 1 } a (Bytes.putLE (img.disk a) (4 * j) 4 img.freeblock)

variable {a : Nat}

theorem withEntry_rep (h : Rep img) (hlt : img.freeblock < FSSIZE) (ha : a < img.freeblock) (j : Nat) :
    Rep (withEntry img a j) :=
  (h.succ hlt).wsect (Nat.lt_succ_of_lt ha) _

theorem withEntry_onDisk (img : Img) (ha : nmeta ≤ a) (j : Nat) : onDisk (withEntry img a j) =
    update (onDisk { img with freeblock := img.freeblock + 1 }) a
      (Bytes.putLE (onDisk { img with freeblock := img.freeblock + 1 } a) (4 * j) 4 img.freeblock) := by
  rw [withEntry, onDisk_wsect (by have := bmapstart_lt_nmeta; omega), onDisk_data (x := a) ha]

theorem withEntry_entryAt (img : Img) (hi : img.freeblock < FSSIZE) (ha : nmeta ≤ a) (j k : Nat) :
    entryAt (onDisk (withEntry img a j) a) k = if k = j then img.freeblock else entryAt (img.disk a) k := by
  rw [withEntry_onDisk _ ha, update_self, entryAt_putLE (Nat.lt_trans hi (by decide)), onDisk_data ha]

theorem Placed.entry (h : Rep img) (hind : IndOk img din) (hd : ¬ fbn < 12) (hfbn : fbn < MAXFILE)
    (hz : din.addrs indirect ≠ 0) (h0 : blk (onDisk img) din fbn = 0) (hlt : img.freeblock < FSSIZE) :
    Placed img din fbn img.freeblock (withEntry img (din.addrs indirect) (fbn - 12)) din := by
  obtain ⟨hlo, hhi⟩ := hind hz
  have hj : fbn - 12 < NINDIRECT := by
    unfold MAXFILE NDIRECT at hfbn
    omega
  have hold : entryAt (onDisk img (din.addrs indirect)) (fbn - 12) = 0 := by
    rw [← slotBlock_entry hz hj, ← blk_indirect hd]
    exact h0
  refine ⟨?_, withEntry_rep h hlt hhi _, h.pos, ?_, rfl, fun bn hbn => ?_, ⟨fun _ => Or.inl hz, fun _ => hz⟩⟩
  · rw [Fs.bmap, dif_neg hd, if_pos hj, loadAddr, if_neg hz]
    split
    · next heq => exact absurd (congrArg Prod.fst heq) hz
    · next heq =>
      simp only [Prod.mk.injEq] at heq
      obtain ⟨rfl, rfl, rfl⟩ := heq
      rw [loadEntry, if_pos hold, balloc_onDisk h hlt]
      simp only [if_neg h.pos, withEntry_onDisk _ hlo]
  · rw [missing, if_neg (fun hc => hc h0), if_neg (fun hc => hz hc.2)]
    rfl
  · by_cases hb : bn < 12
    · rw [blk_direct hb, blk_direct hb]
    · have hne : ¬ bn - 12 = fbn - 12 := by omega
      rw [blk_indirect hb, blk_indirect hb, slotBlock, slotBlock, withEntry_entryAt _ hlt hlo, if_neg hne,
        onDisk_data hlo]

theorem Placed.both (h : Rep img) (hd : ¬ fbn < 12) (hfbn : fbn < MAXFILE) (hz : din.addrs indirect = 0)
    (hlt : img.freeblock + 1 < FSSIZE) : Placed img din fbn (img.freeblock + 1)
      (withEntry { img with freeblock := img.freeblock + 1 } img.freeblock (fbn - 12))
      (setAddr din indirect img.freeblock) := by
  have hlt0 : img.freeblock < FSSIZE := Nat.lt_of_succ_lt hlt
  have h1 := h.succ hlt0
  have hself : (setAddr din indirect img.freeblock).addrs indirect = img.freeblock := by simp [setAddr]
  have hj : fbn - 12 < NINDIRECT := by
    unfold MAXFILE NDIRECT at hfbn
    omega
  have h0 : blk (onDisk img) din fbn = 0 := by rw [blk_indirect hd, slotBlock_entry_zero (Or.inl hz)]
  have hclear : img.disk img.freeblock = zeroBlock := h.zero _ le_rfl
  have hold : entryAt (onDisk { img with freeblock := img.freeblock + 1 } img.freeblock) (fbn - 12) = 0 := by
    rw [onDisk_data h.lo, hclear, entryAt_zeroBlock]
  refine ⟨?_, withEntry_rep h1 hlt (Nat.lt_succ_self _) _, Nat.succ_ne_zero _, ?_, rfl, fun bn hbn => ?_, ?_⟩
  · rw [Fs.bmap, dif_neg hd, if_pos hj, loadAddr, if_pos hz, balloc_onDisk h hlt0]
    simp only [if_neg h.pos]
    split
    · next heq => exact absurd (congrArg Prod.fst heq) h.pos
    · next heq =>
      simp only [Prod.mk.injEq] at heq
      obtain ⟨rfl, rfl, rfl⟩ := heq
      rw [loadEntry, if_pos hold, balloc_onDisk h1 hlt]
      simp only [if_neg h1.pos, withEntry_onDisk { img with freeblock := img.freeblock + 1 } h.lo]
  · rw [missing, if_neg (fun hc => hc h0), if_pos ⟨by omega, hz⟩]
    rfl
  · by_cases hb : bn < 12
    · rw [blk_direct hb, blk_direct hb]
      refine update_of_ne (fun hc => ?_) _ _
      have := congrArg Fin.val hc
      simp only [indirect] at this
      omega
    · rw [blk_indirect hb, blk_indirect hb, slotBlock_entry_zero (Or.inl hz), slotBlock, hself,
        withEntry_entryAt { img with freeblock := img.freeblock + 1 } hlt h.lo]
      split
      · rfl
      · rw [if_neg (by omega), hclear, entryAt_zeroBlock]
  · rw [hself]
    exact ⟨fun _ => Or.inr (by omega), fun _ => h.pos⟩

/-- `fileBlock` is `bmap` when there are enough blocks; otherwise it fails or comes to a
block past the end of the image. -/
theorem fileBlock_spec (h : Rep img) (hind : IndOk img din) (hfbn : fbn < MAXFILE) :
    (img.freeblock + missing (onDisk img) din fbn ≤ FSSIZE →
      ∃ x img' din', fileBlock img din fbn = .ok (x, img', din') ∧ Placed img din fbn x img' din') ∧
    (FSSIZE < img.freeblock + missing (onDisk img) din fbn →
      ∀ x img' din', fileBlock img din fbn = .ok (x, img', din') → img'.len ≤ x) := by
  have hfull := h.hi
  have hlen := h.len
  by_cases hd : fbn < 12
  · -- a direct block
    have hb : blk (onDisk img) din fbn = _ := blk_direct hd
    unfold fileBlock
    rw [dif_pos hd]
    dsimp only
    by_cases h0 : blk (onDisk img) din fbn = 0
    · have hm : missing (onDisk img) din fbn = 1 := by rw [missing, if_neg (fun hc => hc h0), if_neg (by omega)]
      rw [if_pos (hb ▸ h0), hm]
      refine ⟨fun hfit => ⟨_, _, _, rfl, Placed.direct h hind hd h0 hfit⟩, fun hno x img' din' he => ?_⟩
      cases he
      change img.len ≤ _
      omega
    · have hm : missing (onDisk img) din fbn = 0 := by rw [missing, if_pos h0]
      rw [if_neg (hb ▸ h0), hm]
      refine ⟨fun _ => ⟨_, _, _, rfl, ?_⟩, fun hno => absurd hno (by omega)⟩
      rw [← hb]
      exact Placed.here h hfbn h0
  · have hj : fbn - 12 < NINDIRECT := by
      unfold MAXFILE NDIRECT at hfbn
      omega
    unfold fileBlock
    rw [dif_neg hd]
    by_cases hz : din.addrs indirect = 0
    · -- neither an indirect block nor a block in it
      have h0 : blk (onDisk img) din fbn = 0 := by rw [blk_indirect hd, slotBlock_entry_zero (Or.inl hz)]
      have hm : missing (onDisk img) din fbn = 2 := by rw [missing, if_neg (fun hc => hc h0), if_pos ⟨by omega, hz⟩]
      have hself : (setAddr din indirect img.freeblock).addrs indirect = img.freeblock := by simp [setAddr]
      have hentry : entryAt (img.disk img.freeblock) (fbn - 12) = 0 := by rw [h.zero _ le_rfl, entryAt_zeroBlock]
      rw [if_pos hz, hm]
      dsimp only
      rw [hself, rsect]
      dsimp only
      by_cases hlt : img.freeblock < img.len
      · rw [if_pos hlt, ok_bind, if_pos hentry]
        refine ⟨fun hfit => ⟨_, _, _, rfl, Placed.both h hd hfbn hz (by omega)⟩, fun hno x img' din' he => ?_⟩
        cases he
        change max img.len (img.freeblock + 1) ≤ _
        omega
      · rw [if_neg hlt, error_bind]
        exact ⟨fun hfit => absurd hfit (by omega), fun _ x img' din' he => by cases he⟩
    · obtain ⟨hlo, hhi⟩ := hind hz
      have hb : blk (onDisk img) din fbn = entryAt (img.disk (din.addrs indirect)) (fbn - 12) := by
        rw [blk_indirect hd, slotBlock_entry hz hj, onDisk_data hlo]
      rw [if_neg hz]
      dsimp only
      rw [rsect, if_pos (by omega), ok_bind]
      by_cases h0 : blk (onDisk img) din fbn = 0
      · have hm : missing (onDisk img) din fbn = 1 := by
          rw [missing, if_neg (fun hc => hc h0), if_neg (fun hc => hz hc.2)]
        rw [if_pos (hb ▸ h0), hm]
        refine ⟨fun hfit => ⟨_, _, _, rfl, Placed.entry h hind hd hfbn hz h0 hfit⟩, fun hno x img' din' he => ?_⟩
        cases he
        change max img.len (din.addrs indirect + 1) ≤ _
        omega
      · have hm : missing (onDisk img) din fbn = 0 := by rw [missing, if_pos h0]
        rw [if_neg (hb ▸ h0), hm]
        refine ⟨fun _ => ⟨_, _, _, rfl, ?_⟩, fun hno => absurd hno (by omega)⟩
        rw [← hb]
        exact Placed.here h hfbn h0

end

/-! ## `iappend` -/

/-- The blocks of a file of `size` bytes, with its indirect block. -/
def used (size : Nat) : Nat := (size + BSIZE - 1) / BSIZE + if 12 * BSIZE < size then 1 else 0

/-- The inode has the blocks of its first `off` bytes and no others. -/
structure Exact (disk : Disk) (ip : Inode) (off : Nat) : Prop where
  blocks : ∀ bn, bn < MAXFILE → (blk disk ip bn ≠ 0 ↔ bn * BSIZE < off)
  ind : ip.addrs indirect ≠ 0 ↔ 12 * BSIZE < off

theorem Exact.missing (h : Exact disk ip off) (hoff : off < MAXFILE * BSIZE)
    (hn : 0 < n) : used off + missing disk ip (off / BSIZE) =
      used (off + min n ((off / BSIZE + 1) * BSIZE - off)) := by
  have hb := h.blocks (off / BSIZE) (blockIndex_lt hoff)
  have hi := h.ind
  by_cases h0 : blk disk ip (off / BSIZE) = 0
  · have hge : ¬ off / BSIZE * BSIZE < off := fun hc => hb.mpr hc h0
    by_cases hz : ip.addrs indirect = 0
    · have hle : ¬ 12 * BSIZE < off := fun hc => hi.mpr hc hz
      have hm : Fs.missing disk ip (off / BSIZE) = if 12 ≤ off / BSIZE then 2 else 1 := by simp [Fs.missing, h0, hz]
      rw [hm]
      unfold used BSIZE at *
      split_ifs <;> omega
    · have hlt : 12 * BSIZE < off := hi.mp hz
      have hm : Fs.missing disk ip (off / BSIZE) = 1 := by simp [Fs.missing, h0, hz]
      rw [hm]
      unfold used BSIZE at *
      split_ifs <;> omega
  · have hlt := hb.mp h0
    have hm : Fs.missing disk ip (off / BSIZE) = 0 := by simp [Fs.missing, h0]
    rw [hm]
    unfold used BSIZE at *
    split_ifs <;> omega

theorem Exact.grow {img' : Img} {din din' : Inode} (h : Exact (onDisk img) din off)
    (hp : Placed img din (off / BSIZE) x img' din') (hx : blk (onDisk img') din' (off / BSIZE) = x) (hn : 0 < n) :
    Exact (onDisk img') din' (off + min n ((off / BSIZE + 1) * BSIZE - off)) := by
  constructor
  · intro bn hbn
    by_cases he : bn = off / BSIZE
    · subst he
      rw [hx]
      refine iff_of_true hp.pos ?_
      unfold BSIZE at *
      omega
    · rw [hp.other bn he, h.blocks bn hbn]
      unfold BSIZE at *
      omega
  · rw [hp.ind, h.ind]
    unfold BSIZE at *
    omega

theorem Exact.congr {disk' : Disk} (h : Exact disk ip off)
    (hs : ∀ s, slotBlock disk' ip s = slotBlock disk ip s) : Exact disk' ip off :=
  ⟨fun bn hbn => by rw [blk, hs]; exact h.blocks bn hbn, h.ind⟩

theorem Exact.of_addrs {ip' : Inode} (h : Exact disk ip off) (ha : ip'.addrs = ip.addrs) : Exact disk ip' off :=
  ⟨fun bn hbn => by rw [blk, slotBlock_eq_of_addrs ha]; exact h.blocks bn hbn, by rw [ha]; exact h.ind⟩

theorem used_mono {a : Nat} (h : a ≤ b) : used a ≤ used b := by
  unfold used BSIZE
  split_ifs <;> omega

/-- The bytes do not make the file too large, and there are blocks for them. -/
def Fits (free off n : Nat) : Prop := off + n ≤ MAXFILE * BSIZE ∧ free + used (off + n) ≤ FSSIZE + used off

section
variable {disk0 : Disk} {ino : Nat → Inode} {i off0 : Nat} {p : Nat → UInt8}

theorem indOk_of_owned {din : Inode} (hi : i < NINODES) (ht : din.type ≠ 0)
    (h : Owned sb (onDisk img) (update ino i din)) : IndOk img din := by
  have hself : update ino i din i = din := update_self ..
  intro hz
  have hty : (update ino i din i).type ≠ 0 := by rw [hself]; exact ht
  have h0 : slotBlock (onDisk img) (update ino i din i) (.addr indirect) ≠ 0 := by rw [hself]; exact hz
  have hr := h.range i (.addr indirect) hi hty h0
  have hu := h.slot_inUse hi hty h0
  rw [inUse_onDisk img hr.2, decide_eq_true_eq] at hu
  rw [hself] at hr hu
  exact ⟨hr.1, hu⟩

/-- The state of the loop of `iappend` after `k` bytes. -/
structure Appending (disk0 : Disk) (ino : Nat → Inode) (i off0 : Nat) (p : Nat → UInt8) (k : Nat) (img : Img)
    (din : Inode) : Prop where
  rep : Rep img
  wrote : Wrote sb disk0 ino i off0 p k (onDisk img) din
  exact : Exact (onDisk img) din (off0 + k)

theorem Appending.round {k : Nat} {din : Inode} (hi : i < NINODES) (ht : (ino i).type ≠ 0)
    (h : Appending disk0 ino i off0 p k img din) (hoff : off0 + k < MAXFILE * BSIZE) (hn : 0 < n) {img1 : Img}
    {din1 : Inode} (hp : Placed img din ((off0 + k) / BSIZE) x img1 din1) : x < img1.freeblock ∧ nmeta ≤ x ∧
    Appending disk0 ino i off0 p (k + min n (((off0 + k) / BSIZE + 1) * BSIZE - (off0 + k)))
      (wsect img1 x (copyIn (img1.disk x) ((off0 + k) % BSIZE) (fun y => p (k + y))
        (min n (((off0 + k) / BSIZE + 1) * BSIZE - (off0 + k))))) din1 := by
  have hself : update ino i din i = din := update_self ..
  have hself1 : update ino i din1 i = din1 := update_self ..
  have hty : (update ino i din i).type ≠ 0 := by rw [hself, h.wrote.fields.1]; exact ht
  obtain ⟨a, disk1, ip1, hb, hg, ha, _⟩ := bmap_spec h.wrote.owned hi hty (blockIndex_lt hoff)
  rw [hself, hp.bmap] at hb
  cases hb
  have hw := h.wrote.grow hi ht hg
  have hx := ha hp.pos
  have hty1 : (update ino i din1 i).type ≠ 0 := by rw [hself1, hw.fields.1]; exact ht
  have h0 : blk (onDisk img1) (update ino i din1 i) ((off0 + k) / BSIZE) ≠ 0 := by
    rw [hself1, hx]
    exact hp.pos
  obtain ⟨hlo, hhi⟩ := hw.owned.blk_range hi hty1 h0
  have hu := hw.owned.slot_inUse hi hty1 h0
  have hdata := hw.owned.slotBlock_write hi hty1 h0
  have hx' : blk (onDisk img1) (update ino i din1 i) ((off0 + k) / BSIZE) = x := by rw [hself1, hx]
  change inUse sb (onDisk img1) (blk (onDisk img1) (update ino i din1 i) ((off0 + k) / BSIZE)) = true at hu
  rw [hx'] at hlo hhi hdata hu
  rw [inUse_onDisk img1 hhi, decide_eq_true_eq] at hu
  have hne : x ≠ sb.bmapstart := by
    have := bmapstart_lt_nmeta
    change nmeta ≤ x at hlo
    omega
  refine ⟨hu, hlo, hp.rep.wsect hu _, ?_, ?_⟩
  · rw [onDisk_wsect hne, ← (onDisk_data hlo : onDisk img1 x = _)]
    refine hw.copy hi ht hx hp.pos ?_
    unfold BSIZE
    omega
  · rw [onDisk_wsect hne, ← Nat.add_assoc]
    refine (h.exact.grow hp hx hn).congr fun s => ?_
    have := hdata (copyIn (img1.disk x) ((off0 + k) % BSIZE) (fun y => p (k + y))
        (min n (((off0 + k) / BSIZE + 1) * BSIZE - (off0 + k)))) i hi hty1 s
    rwa [hself1] at this

theorem iappendLoop_done (fuel off k : Nat) (img : Img) (din : Inode) :
    iappendLoop p fuel 0 off k img din = .ok (off, img, din) := by
  cases fuel with
  | zero => rfl
  | succ fuel => rfl

section
variable {n fuel off k x : Nat} {img img1 : Img} {din din1 : Inode} (hn : 0 < n) (hlt : ¬ MAXFILE ≤ off / BSIZE)
include hn hlt

theorem iappendLoop_round (hf : fileBlock img din (off / BSIZE) = .ok (x, img1, din1)) (hx : x < img1.len) :
    iappendLoop p (fuel + 1) n off k img din =
      iappendLoop p fuel (n - min n ((off / BSIZE + 1) * BSIZE - off)) (off + min n ((off / BSIZE + 1) * BSIZE - off))
        (k + min n ((off / BSIZE + 1) * BSIZE - off))
        (wsect img1 x (copyIn (img1.disk x) (off % BSIZE) (fun y => p (k + y))
        (min n ((off / BSIZE + 1) * BSIZE - off))))
        din1 := by
  have hmod : off - off / BSIZE * BSIZE = off % BSIZE := by unfold BSIZE; omega
  have hr : rsect img1 x = .ok (img1.disk x) := if_pos hx
  simp only [iappendLoop, if_pos hn, if_neg hlt, hf, hr, hmod, ok_bind]

theorem iappendLoop_dies (hf : ∀ x img1 din1, fileBlock img din (off / BSIZE) = .ok (x, img1, din1) → img1.len ≤ x) :
    ∃ e, iappendLoop p (fuel + 1) n off k img din = .error e := by
  simp only [iappendLoop, if_pos hn, if_neg hlt]
  cases he : fileBlock img din (off / BSIZE) with
  | error e => exact ⟨e, rfl⟩
  | ok r =>
    obtain ⟨x, img1, din1⟩ := r
    have hr : rsect img1 x = .error .die := if_neg (Nat.not_lt.mpr (hf x img1 din1 he))
    simp only [ok_bind, hr, error_bind]
    exact ⟨_, rfl⟩

end

/-- The loop ends well exactly when the bytes fit. -/
theorem iappendLoop_spec (hi : i < NINODES) (ht : (ino i).type ≠ 0) :
    ∀ (fuel n k : Nat) (img : Img) (din : Inode), n ≤ fuel →
    Appending disk0 ino i off0 p k img din → off0 + k ≤ MAXFILE * BSIZE →
    (Fits img.freeblock (off0 + k) n → ∃ img' din', iappendLoop p fuel n (off0 + k) k img din = .ok
    (off0 + k + n, img', din') ∧
      Appending disk0 ino i off0 p (k + n) img' din' ∧ img'.freeinode = img.freeinode ∧
      img'.freeblock + used (off0 + k) = img.freeblock + used (off0 + k + n)) ∧
    (¬ Fits img.freeblock (off0 + k) n → ∃ e, iappendLoop p fuel n (off0 + k) k img din = .error e)
  | fuel, 0, k, img, din, _, h, hmax => by
    rw [iappendLoop_done]
    refine ⟨fun _ => ⟨img, din, rfl, h, rfl, rfl⟩, fun hf => absurd ⟨hmax, ?_⟩ hf⟩
    exact Nat.add_le_add_right h.rep.hi _
  | fuel + 1, n + 1, k, img, din, hfuel, h, hmax => by
    by_cases hfull : MAXFILE ≤ (off0 + k) / BSIZE
    · refine ⟨fun hf => ?_, fun _ => ⟨.assertion, ?_⟩⟩
      · have := hf.1
        unfold MAXFILE BSIZE at *
        omega
      · rw [iappendLoop, if_pos (Nat.succ_pos n), if_pos hfull]
        rfl
    have hoff : off0 + k < MAXFILE * BSIZE := by unfold MAXFILE BSIZE at *; omega
    have hind := indOk_of_owned hi (by rw [h.wrote.fields.1]; exact ht) h.wrote.owned
    obtain ⟨hfit, hdie⟩ := fileBlock_spec h.rep hind (blockIndex_lt hoff)
    have hn1 : 0 < n + 1 := Nat.succ_pos n
    have hmiss := h.exact.missing hoff hn1
    have hm : 0 < ((off0 + k) / BSIZE + 1) * BSIZE - (off0 + k) := by unfold BSIZE; omega
    by_cases hroom : img.freeblock + missing (onDisk img) din ((off0 + k) / BSIZE) ≤ FSSIZE
    · obtain ⟨x, img1, din1, hfb, hp⟩ := hfit hroom
      obtain ⟨hx, _, h'⟩ := h.round hi ht hoff hn1 hp
      have hlen : x < img1.len := by
        rw [hp.rep.len]
        exact Nat.lt_of_lt_of_le hx hp.rep.hi
      rw [iappendLoop_round hn1 hfull hfb hlen]
      generalize hm' : min (n + 1) (((off0 + k) / BSIZE + 1) * BSIZE - (off0 + k)) = m at *
      have hm1 : 0 < m ∧ m ≤ n + 1 := by omega
      obtain ⟨hok, herr⟩ := iappendLoop_spec hi ht fuel (n + 1 - m) (k + m) _ _ (by omega) h'
        (by unfold MAXFILE BSIZE at *; omega)
      have hend : off0 + (k + m) + (n + 1 - m) = off0 + k + (n + 1) := by omega
      have hkend : k + m + (n + 1 - m) = k + (n + 1) := by omega
      have hfits : Fits img1.freeblock (off0 + (k + m)) (n + 1 - m) ↔ Fits img.freeblock (off0 + k) (n + 1) := by
        unfold Fits
        rw [hend, ← Nat.add_assoc off0, ← hmiss, hp.free]
        omega
      rw [hend, hkend] at hok
      simp only [← Nat.add_assoc off0] at hok herr hfits
      refine ⟨fun hf => ?_, fun hf => herr (fun hc => hf (hfits.mp hc))⟩
      obtain ⟨img', din', hr, ha, hino, hfree⟩ := hok (hfits.mpr hf)
      refine ⟨img', din', hr, ha, hino.trans hp.inodes, ?_⟩
      change img'.freeblock + used (off0 + k + m) = img1.freeblock + used (off0 + k + (n + 1)) at hfree
      rw [← hmiss, hp.free] at hfree
      omega
    · refine ⟨fun hf => ?_, fun _ => iappendLoop_dies hn1 hfull (hdie (Nat.lt_of_not_le hroom))⟩
      have hmono : used (off0 + k + min (n + 1) (((off0 + k) / BSIZE + 1) * BSIZE - (off0 + k))) ≤ used
        (off0 + k + (n + 1)) :=
        used_mono (by omega)
      have := hf.2
      omega

end

/-! ## Inodes -/

theorem IBLOCK_ne (hi : i < NINODES) : IBLOCK sb i ≠ sb.bmapstart := by
  have hlt : IBLOCK sb i < sb.bmapstart := IBLOCK_lt hi
  exact Nat.ne_of_lt hlt

theorem rsect_inode (h : Rep img) (hi : i < NINODES) : rsect img (IBLOCK sb i) = .ok (onDisk img (IBLOCK sb i)) := by
  have h1 : IBLOCK sb i < sb.bmapstart := IBLOCK_lt hi
  have h2 : sb.bmapstart < FSSIZE := by decide
  rw [rsect, if_pos (by rw [h.len]; omega), onDisk_of_ne (IBLOCK_ne hi)]

theorem rinode_ok (h : Rep img) (hi : i < NINODES) : rinode img i = .ok (dinode sb (onDisk img) i) := by
  rw [rinode, rsect_inode h hi]
  rfl

theorem winode_ok (h : Rep img) (hi : i < NINODES) (ip : Inode) :
    ∃ img', winode img i ip = .ok img' ∧ onDisk img' = putDinode sb (onDisk img) i ip ∧ Rep img' ∧
      img'.freeinode = img.freeinode ∧ img'.freeblock = img.freeblock := by
  have h1 : IBLOCK sb i < sb.bmapstart := IBLOCK_lt hi
  have h2 := bmapstart_lt_nmeta
  have h3 := h.lo
  refine ⟨_, by rw [winode, rsect_inode h hi]; rfl, ?_, h.wsect (by omega) _, rfl, rfl⟩
  rw [onDisk_wsect (IBLOCK_ne hi)]
  rfl

theorem putDinode_low (hx : x < sb.inodestart) : putDinode sb disk i ip x = disk x :=
  putDinode_of_ne (Nat.ne_of_lt (Nat.lt_of_lt_of_le hx (Nat.le_add_left _ _))) _

/-- A consistent image: files have the blocks below their size and no others,
and no inode number from `freeinode` on is taken. -/
structure Good (img : Img) : Prop where
  rep : Rep img
  fs : FsOK sb (onDisk img)
  exact : ∀ j, j < NINODES → (dinode sb (onDisk img) j).type ≠ 0 →
    Exact (onDisk img) (dinode sb (onDisk img) j) (dinode sb (onDisk img) j).size
  fresh : ∀ j, j < NINODES → img.freeinode ≤ j → (dinode sb (onDisk img) j).type = 0

/-- `bytes` were appended to file `i`. -/
structure Appended (img : Img) (i : Nat) (bytes : List UInt8) (img' : Img) : Prop where
  good : Good img'
  others : Others sb (onDisk img) (onDisk img') i
  type : (dinode sb (onDisk img') i).type = (dinode sb (onDisk img) i).type
  content : content (onDisk img') (dinode sb (onDisk img') i) = content (onDisk img) (dinode sb (onDisk img) i) ++ bytes
  inodes : img'.freeinode = img.freeinode
  low : ∀ x, x < sb.inodestart → onDisk img' x = onDisk img x
  blocks : img'.freeblock + used (dinode sb (onDisk img) i).size =
    img.freeblock + used ((dinode sb (onDisk img) i).size + bytes.length)

theorem Appending.exact_put {img1 : Img} {p : Nat → UInt8} {din1 : Inode} (h : Good img) (hi : i < NINODES)
    (ht : (dinode sb (onDisk img) i).type ≠ 0)
    (ha : Appending (onDisk img) (dinode sb (onDisk img)) i (dinode sb (onDisk img) i).size p n img1 din1)
    (hip : ip.addrs = din1.addrs) (hsize : ip.size = (dinode sb (onDisk img) i).size + n) (hr : ip.InRange) :
    ∀ j, j < NINODES → (dinode sb (putDinode sb (onDisk img1) i ip) j).type ≠ 0 →
      Exact (putDinode sb (onDisk img1) i ip) (dinode sb (putDinode sb (onDisk img1) i ip) j)
        (dinode sb (putDinode sb (onDisk img1) i ip) j).size := by
  intro j hj htj
  have hdata : ∀ x, sb.nmeta ≤ x → putDinode sb (onDisk img1) i ip x = onDisk img1 x := by
    intro x hx
    have h1 : IBLOCK sb i < sb.bmapstart := IBLOCK_lt hi
    have h2 := sb.bmapstart_lt
    exact putDinode_of_ne (by omega) _
  have hslot := ha.wrote.owned.slotBlock_of_disk hdata
  by_cases hji : j = i
  · subst hji
    have hs := fun s => hslot j s hj (by rw [update_self, ha.wrote.fields.1]; exact ht)
    rw [update_self] at hs
    rw [dinode_putDinode_self hr, hsize]
    exact (ha.exact.congr hs).of_addrs hip
  · rw [dinode_putDinode_of_ne hji, show dinode sb (onDisk img1) j = dinode sb (onDisk img) j from
      dinode_congr (ha.wrote.metadata _ (IBLOCK_lt hj))] at htj ⊢
    refine (h.exact j hj htj).congr fun s => ?_
    have hs := hslot j s hj (by rw [update_of_ne hji]; exact htj)
    rw [update_of_ne hji] at hs
    rw [hs, ha.wrote.others j hj htj hji]

theorem iappend_spec (h : Good img) (hi : i < NINODES) (ht : (dinode sb (onDisk img) i).type ≠ 0)
    (p : Nat → UInt8) (n : Nat) : (Fits img.freeblock (dinode sb (onDisk img) i).size n →
      ∃ img', iappend img i p n = .ok img' ∧ Appended img i ((List.range n).map p) img') ∧
    (¬ Fits img.freeblock (dinode sb (onDisk img) i).size n → ∃ e, iappend img i p n = .error e) := by
  have hstart : Appending (onDisk img) (dinode sb (onDisk img)) i (dinode sb (onDisk img) i).size p 0 img
      (dinode sb (onDisk img) i) := ⟨h.rep, Wrote.start h.fs.owned i _ p, h.exact i hi ht⟩
  obtain ⟨hok, herr⟩ := iappendLoop_spec hi ht n n 0 img _ le_rfl hstart (h.fs.sizes i hi ht)
  have hr := rinode_ok h.rep hi
  simp only [Nat.add_zero, Nat.zero_add] at hok herr
  refine ⟨fun hf => ?_, fun hf => ?_⟩
  · obtain ⟨img1, din1, hloop, ha, hino, hfree⟩ := hok hf
    obtain ⟨_, _, _, _, f5⟩ := ha.wrote.fields
    obtain ⟨disk2, ip2, hfin, hip2, hfs, hoth, hty, hsize, _, hbytes⟩ :=
      finishWrite_spec h.fs hi ht le_rfl le_rfl hf.1 ha.wrote
    have hsame : (if (dinode sb (onDisk img) i).size + n > din1.size then
      (dinode sb (onDisk img) i).size + n else din1.size) =
        (dinode sb (onDisk img) i).size + n := by
      rw [f5]
      split <;> omega
    rw [finishWrite, hsame] at hfin
    cases hfin
    obtain ⟨img2, hw, hdisk, hrep, hino2, hfree2⟩ :=
      winode_ok ha.rep hi { din1 with size := (dinode sb (onDisk img) i).size + n }
    rw [← hdisk] at hip2 hfs hoth hbytes
    have hrange : ({ din1 with size := (dinode sb (onDisk img) i).size + n } : Inode).InRange :=
      hip2 ▸ dinode_inRange sb (onDisk img2) i
    have hgood : Good img2 := by
      refine ⟨hrep, hfs, ?_, fun j hj hle => ?_⟩
      · rw [hdisk]
        exact ha.exact_put h hi ht rfl rfl hrange
      · rw [hino2, hino] at hle
        have hji : j ≠ i := fun hc => ht (hc ▸ h.fresh j hj hle)
        rw [(hoth j hj hji).1]
        exact h.fresh j hj hle
    refine ⟨img2, ?_, hgood, hoth, by rw [← hip2]; exact hty, ?_, hino2.trans hino, fun x hx => ?_, ?_⟩
    · rw [iappend, hr, ok_bind, hloop, ok_bind]
      exact hw
    · rw [← hip2, content_write le_rfl hsize hbytes, List.take_of_length_le (by rw [content_length]),
        List.drop_eq_nil_of_le (by rw [content_length]; exact Nat.le_add_right _ _), List.append_nil]
    · rw [hdisk, putDinode_low hx]
      exact ha.wrote.metadata x (Nat.lt_trans hx (by decide))
    · rw [hfree2, List.length_map, List.length_range]
      exact hfree
  · obtain ⟨e, he⟩ := herr hf
    exact ⟨e, by rw [iappend, hr, ok_bind, he, error_bind]⟩

def newInode (type : Nat) :
    Inode := { type := type, major := 0, minor := 0, nlink := 1, size := 0, addrs := fun _ => 0 }

theorem newInode_inRange {type : Nat} (h : type < 2 ^ 16) : (newInode type).InRange where
  type := h
  major := Nat.two_pow_pos 16
  minor := Nat.two_pow_pos 16
  nlink := Nat.one_lt_two_pow (by decide)
  size := Nat.two_pow_pos 32
  addrs _ := Nat.two_pow_pos 32

theorem ialloc_spec (h : Good img) (hlt : img.freeinode < NINODES) {type : Nat} (hty : type < 2 ^ 16) :
    ∃ img', ialloc img type = .ok (img.freeinode, img') ∧ Good img' ∧
      Others sb (onDisk img) (onDisk img') img.freeinode ∧ dinode sb (onDisk img') img.freeinode = newInode type ∧
      img'.freeinode = img.freeinode + 1 ∧ img'.freeblock = img.freeblock ∧
      ∀ x, x < sb.inodestart → onDisk img' x = onDisk img x := by
  have hfree := h.fresh _ hlt le_rfl
  have hrep : Rep { img with freeinode := img.freeinode + 1 } := ⟨h.rep.len, h.rep.lo, h.rep.hi, h.rep.zero⟩
  obtain ⟨img', hw, hdisk, hrep', hino, hblock⟩ := winode_ok hrep hlt (newInode type)
  have hdisk : onDisk img' = putDinode sb (onDisk img) img.freeinode (newInode type) := hdisk
  obtain ⟨hfs, hoth, hself, _⟩ := putDinode_content h.fs hlt (newInode_inRange hty)
    (Or.inr ⟨fun _ => rfl, rfl, fun hc => absurd hfree hc⟩)
  rw [← hdisk] at hfs hoth hself
  refine ⟨img', ?_, ⟨hrep', hfs, fun j hj htj => ?_, fun j hj hle => ?_⟩, hoth, hself, hino, hblock,
    fun x hx => by rw [hdisk, putDinode_low hx]⟩
  · rw [ialloc]
    exact (congrArg (· >>= _) hw).trans rfl
  · by_cases hji : j = img.freeinode
    · subst hji
      rw [hself]
      constructor
      · intro bn _
        refine iff_of_false (fun hc => hc ?_) (Nat.not_lt_zero _)
        rw [blk, slotOf]
        split
        · rfl
        · exact slotBlock_entry_zero (Or.inl rfl)
      · exact iff_of_false (fun hc => hc rfl) (Nat.not_lt_zero _)
    · rw [(hoth j hj hji).1] at htj ⊢
      refine (h.exact j hj htj).congr fun s => ?_
      rw [hdisk]
      refine h.fs.owned.slotBlock_of_disk (fun x hx => putDinode_of_ne ?_ _) j s hj htj
      have h1 : IBLOCK sb img.freeinode < sb.bmapstart := IBLOCK_lt hlt
      have h2 := sb.bmapstart_lt
      omega
  · rw [hino] at hle
    have hle : img.freeinode + 1 ≤ j := hle
    rw [(hoth j hj (by omega)).1]
    exact h.fresh j hj (by omega)

end Xv6.Mkfs
