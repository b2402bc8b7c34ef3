import Xv6.Fs.Blocks

/-!
# Reading and writing files

`readi` and `writei` of `kernel/fs.c`, with the unsigned arithmetic of their
checks, on the bytes of the disk.  `content disk ip` is the file as a list of
`ip.size` bytes.  A `writei` that fails to copy from the source stops there;
what it had copied of that block stays in the buffer.

`FsOK sb disk` is what every call keeps: ownership of the blocks, no holes, and
sizes within the limit.  Between calls an inode in memory equals its copy on the
disk, so a call on inode `i` starts from `dinode sb disk i`.
-/

namespace Xv6.Fs

open Function

/-! ## `kernel/fs.c` -/

/-- `n` bytes of `src` stored from offset `o` on. -/
def copyIn (m : Block) (o : Nat) (src : Nat → UInt8) (n : Nat) : Block :=
  fun x => if o ≤ x ∧ x < o + n then src (x - o) else m x

section
variable (sb : Super)

/-- The loop of `writei`.  `src k` is byte `k` of the source; `fail tot` is how
many bytes get copied when the copy at `tot` fails. -/
def writeLoop (src : Nat → UInt8) (fail : Nat → Option Nat) (n : Nat) :
    Nat → Nat → Nat → Disk → Inode → Option (Nat × Nat × Disk × Inode)
  | 0, tot, off, disk, ip => some (tot, off, disk, ip)
  | fuel + 1, tot, off, disk, ip =>
    if tot < n then
      match bmap sb disk ip (off / BSIZE) with
      | none => none
      | some (a, disk, ip) =>
        if a = 0 then some (tot, off, disk, ip)
        else
          let m := min (n - tot) (BSIZE - off % BSIZE)
          match fail tot with
          | some c => some (tot, off, update disk a
              (copyIn (disk a) (off % BSIZE) (fun x => src (tot + x)) (min c m)), ip)
          | none => writeLoop src fail n fuel (tot + m) (off + m)
              (update disk a (copyIn (disk a) (off % BSIZE) (fun x => src (tot + x)) m)) ip
    else some (tot, off, disk, ip)

def finishWrite (i : Nat) (off : Nat) (disk : Disk) (ip : Inode) : Disk × Inode :=
  let ip' := { ip with size := if off > ip.size then off else ip.size }
  (putDinode sb disk i ip', ip')

/-- `writei` on inode `i`; `none` is a panic. -/
def writei (src : Nat → UInt8) (fail : Nat → Option Nat) (disk : Disk) (i : Nat) (ip : Inode) (off n : Nat) :
    Option (Int × Disk × Inode) :=
  if off > ip.size ∨ (off + n) % 2 ^ 32 < off then some (-1, disk, ip)
  else if (off + n) % 2 ^ 32 > MAXFILE * BSIZE then some (-1, disk, ip)
  else
    (writeLoop sb src fail n n 0 off disk ip).map fun r =>
      ((r.1 : Int), finishWrite sb i r.2.1 r.2.2.1 r.2.2.2)

/-- The loop of `readi`, collecting what it delivers; `fail tot` says whether the
copy at `tot` fails. -/
def readLoop (fail : Nat → Bool) (n : Nat) :
    Nat → Nat → Nat → Disk → Inode → List UInt8 → Option (Int × List UInt8 × Disk × Inode)
  | 0, tot, _, disk, ip, out => some (tot, out, disk, ip)
  | fuel + 1, tot, off, disk, ip, out =>
    if tot < n then
      match bmap sb disk ip (off / BSIZE) with
      | none => none
      | some (a, disk, ip) =>
        if a = 0 then some (tot, out, disk, ip)
        else
          let m := min (n - tot) (BSIZE - off % BSIZE)
          if fail tot then some (-1, out, disk, ip)
          else readLoop fail n fuel (tot + m) (off + m) disk ip
            (out ++ (List.range m).map fun x => disk a (off % BSIZE + x))
    else some (tot, out, disk, ip)

/-- `readi`: the result, the bytes delivered, and the disk and inode, which
change if `bmap` has to allocate. -/
def readi (fail : Nat → Bool) (disk : Disk) (ip : Inode) (off n : Nat) :
    Option (Int × List UInt8 × Disk × Inode) :=
  if off > ip.size ∨ (off + n) % 2 ^ 32 < off then some (0, [], disk, ip)
  else
    let n := if (off + n) % 2 ^ 32 > ip.size then ip.size - off else n
    readLoop sb fail n n 0 off disk ip []

end

/-! ## Content -/

def byteAt (disk : Disk) (ip : Inode) (k : Nat) : UInt8 := disk (blk disk ip (k / BSIZE)) (k % BSIZE)

def content (disk : Disk) (ip : Inode) : List UInt8 := (List.range ip.size).map (byteAt disk ip)

/-- Every block below the size exists. -/
def NoHoles (disk : Disk) (ip : Inode) : Prop := ∀ bn, bn * BSIZE < ip.size → blk disk ip bn ≠ 0

structure FsOK (sb : Super) (disk : Disk) : Prop where
  owned : Owned sb disk (dinode sb disk)
  holes : ∀ i, i < sb.ninodes → (dinode sb disk i).type ≠ 0 → NoHoles disk (dinode sb disk i)
  sizes : ∀ i, i < sb.ninodes → (dinode sb disk i).type ≠ 0 → (dinode sb disk i).size ≤ MAXFILE * BSIZE

theorem content_length (disk : Disk) (ip : Inode) : (content disk ip).length = ip.size := by
  simp [content]

theorem content_getElem? (disk : Disk) (ip : Inode) (k : Nat) :
    (content disk ip)[k]? = if k < ip.size then some (byteAt disk ip k) else none := by
  by_cases hk : k < ip.size
  · simp [content, hk]
  · simp [content, hk]

theorem blockIndex_lt {k bn : Nat} (h : k < bn * BSIZE) : k / BSIZE < bn := by
  unfold BSIZE at *
  omega

theorem blockIndex_mul_le (k : Nat) : k / BSIZE * BSIZE ≤ k := Nat.div_mul_le_self k BSIZE

variable {ip : Inode} {n : Nat}

theorem NoHoles.block {disk : Disk} (h : NoHoles disk ip) {k : Nat} (hk : k < ip.size) : blk disk ip (k / BSIZE) ≠ 0 :=
  h _ (Nat.lt_of_le_of_lt (blockIndex_mul_le k) hk)

/-! ## `writei` -/

section
variable {sb : Super} {disk disk' : Disk} {ino : Nat → Inode}

theorem Owned.slotBlock_write (h : Owned sb disk ino) {i bn : Nat} (hi : i < sb.ninodes) (ht : (ino i).type ≠ 0)
    (h0 : blk disk (ino i) bn ≠ 0) (m : Block) (i' : Nat) (hi' : i' < sb.ninodes) (ht' : (ino i').type ≠ 0) (s : Slot) :
    slotBlock (update disk (blk disk (ino i) bn) m) (ino i') s = slotBlock disk (ino i') s := by
  apply slotBlock_congr
  intro _
  exact update_of_ne (Ne.symm (h.blk_ne hi ht hi' ht' h0)) _ _

theorem Owned.write (h : Owned sb disk ino) {i bn : Nat} (hi : i < sb.ninodes) (ht : (ino i).type ≠ 0)
    (h0 : blk disk (ino i) bn ≠ 0) (m : Block) : Owned sb (update disk (blk disk (ino i) bn) m) ino := by
  have hslot := h.slotBlock_write hi ht h0 m
  constructor
  case range =>
    intro x s hx htx hz
    rw [hslot x hx htx] at hz ⊢
    exact h.range x s hx htx hz
  case inj =>
    intro x s x' s' hx hx' htx htx' hz he
    rw [hslot x hx htx] at hz he
    rw [hslot x' hx' htx'] at he
    exact h.inj x s x' s' hx hx' htx htx' hz he
  case bits =>
    intro b hb
    have hne : BBLOCK sb b ≠ blk disk (ino i) bn := by
      have h1 := (BBLOCK_lt hb).1
      have h2 := (h.range i (slotOf bn) hi ht h0).1
      unfold blk
      omega
    rw [inUse_congr (update_of_ne hne _ _), h.bits b hb]
    refine or_congr_right ⟨?_, ?_⟩
    · rintro ⟨x, hx, htx, s, he⟩
      exact ⟨x, hx, htx, s, (hslot x hx htx s).trans he⟩
    · rintro ⟨x, hx, htx, s, he⟩
      exact ⟨x, hx, htx, s, (hslot x hx htx s).symm.trans he⟩

/-- The loop of `writei` after `w` bytes: `disk` and `ip` against `disk0` and
`ino i`, from which it started. -/
structure Wrote (sb : Super) (disk0 : Disk) (ino : Nat → Inode) (i off : Nat) (src : Nat → UInt8) (w : Nat)
    (disk : Disk) (ip : Inode) : Prop where
  owned : Owned sb disk (update ino i ip)
  fields : ip.type = (ino i).type ∧ ip.major = (ino i).major ∧ ip.minor = (ino i).minor ∧
    ip.nlink = (ino i).nlink ∧ ip.size = (ino i).size
  slots : ∀ s, slotBlock disk0 (ino i) s ≠ 0 → slotBlock disk ip s = slotBlock disk0 (ino i) s
  others : ∀ i', i' < sb.ninodes → (ino i').type ≠ 0 → i' ≠ i →
    ∀ s, slotBlock disk (ino i') s = slotBlock disk0 (ino i') s
  data : ∀ i' bn, i' < sb.ninodes → (ino i').type ≠ 0 → i' ≠ i → blk disk0 (ino i') bn ≠ 0 →
    disk (blk disk0 (ino i') bn) = disk0 (blk disk0 (ino i') bn)
  bytes : ∀ k, blk disk ip (k / BSIZE) ≠ 0 → byteAt disk ip k =
    if off ≤ k ∧ k < off + w then src (k - off)
    else if blk disk0 (ino i) (k / BSIZE) = 0 then 0 else byteAt disk0 (ino i) k
  filled : ∀ k, off ≤ k → k < off + w → blk disk ip (k / BSIZE) ≠ 0
  metadata : ∀ x, x < sb.bmapstart → disk x = disk0 x

theorem Wrote.start (h : Owned sb disk ino) (i off : Nat) (src : Nat → UInt8) :
    Wrote sb disk ino i off src 0 disk (ino i) :=
  { owned := by rw [update_eq_self]; exact h
    fields := ⟨rfl, rfl, rfl, rfl, rfl⟩
    slots := fun _ _ => rfl
    others := fun _ _ _ _ _ => rfl
    data := fun _ _ _ _ _ _ => rfl
    bytes := fun k hk => by rw [if_neg (by omega), if_neg hk]
    filled := fun k h1 h2 => by omega
    metadata := fun _ _ => rfl }

section
variable {disk0 : Disk} {i off w : Nat} {src : Nat → UInt8} {ip ip' : Inode} (hi : i < sb.ninodes)
  (ht : (ino i).type ≠ 0)
include hi ht

/-- A block allocated in the loop changes no byte of a file: a new block is clear. -/
theorem Wrote.grow (h : Wrote sb disk0 ino i off src w disk ip)
    (hg : Grown sb disk (update ino i ip) i disk' ip') : Wrote sb disk0 ino i off src w disk' ip' := by
  have hself : update ino i ip i = ip := update_self ..
  have hslots : ∀ s, slotBlock disk ip s ≠ 0 → slotBlock disk' ip' s = slotBlock disk ip s := by
    have := hg.slots
    rwa [hself] at this
  have hty : (update ino i ip i).type ≠ 0 := by
    rw [hself, h.fields.1]
    exact ht
  constructor
  case owned =>
    have := hg.owned
    rwa [update_idem] at this
  case fields =>
    have h2 := hg.fields
    rw [hself] at h2
    obtain ⟨a1, a2, a3, a4, a5⟩ := h2
    obtain ⟨b1, b2, b3, b4, b5⟩ := h.fields
    exact ⟨a1.trans b1, a2.trans b2, a3.trans b3, a4.trans b4, a5.trans b5⟩
  case slots =>
    intro s h0
    have h1 := h.slots s h0
    rw [← h1] at h0 ⊢
    exact hslots s h0
  case others =>
    intro i' hi' ht' hne s
    have h2 := hg.others i' hi'
    rw [update_of_ne hne] at h2
    rw [h2 ht' hne s, h.others i' hi' ht' hne s]
  case data =>
    intro i' bn hi' ht' hne h0
    have hb : blk disk (ino i') bn = blk disk0 (ino i') bn := h.others i' hi' ht' hne _
    have h2 := hg.data i' bn hi'
    rw [update_of_ne hne, hb] at h2
    rw [h2 ht' h0, h.data i' bn hi' ht' hne h0]
  case bytes =>
    intro k hk
    by_cases hz : blk disk ip (k / BSIZE) = 0
    · -- a block that is new here: the byte is 0, and neither written nor there before
      have hnew : byteAt disk' ip' k = 0 := by
        have h2 := hg.fresh (k / BSIZE)
        rw [hself] at h2
        rw [byteAt, h2 hz hk, zeroBlock]
      have hnw : ¬ (off ≤ k ∧ k < off + w) := fun hk' => h.filled k hk'.1 hk'.2 hz
      have hold : blk disk0 (ino i) (k / BSIZE) = 0 := by
        by_contra hc
        exact hc ((h.slots _ hc).symm.trans hz)
      rw [hnew, if_neg hnw, if_pos hold]
    · have hb : blk disk' ip' (k / BSIZE) = blk disk ip (k / BSIZE) := hslots _ hz
      have h2 := hg.data i (k / BSIZE) hi hty
      rw [hself] at h2
      rw [byteAt, hb, h2 hz]
      exact h.bytes k hz
  case filled =>
    intro k h1 h2
    have h0 := h.filled k h1 h2
    have hb : blk disk' ip' (k / BSIZE) = blk disk ip (k / BSIZE) := hslots _ h0
    rw [hb]
    exact h0
  case metadata =>
    intro x hx
    rw [hg.metadata x hx, h.metadata x hx]

theorem Wrote.copy (h : Wrote sb disk0 ino i off src w disk ip)
    {a m : Nat} (ha : blk disk ip ((off + w) / BSIZE) = a) (h0 : a ≠ 0) (hm : m ≤ BSIZE - (off + w) % BSIZE) :
    Wrote sb disk0 ino i off src (w + m)
      (update disk a (copyIn (disk a) ((off + w) % BSIZE) (fun x => src (w + x)) m)) ip := by
  have hself : update ino i ip i = ip := update_self ..
  have hty : (update ino i ip i).type ≠ 0 := by
    rw [hself, h.fields.1]
    exact ht
  have ha' : blk disk (update ino i ip i) ((off + w) / BSIZE) = a := by
    rw [hself, ha]
  have h0' : blk disk (update ino i ip i) ((off + w) / BSIZE) ≠ 0 := by
    rw [ha']
    exact h0
  generalize hd : update disk a (copyIn (disk a) ((off + w) % BSIZE) (fun x => src (w + x)) m) = d
  have hda : d a = copyIn (disk a) ((off + w) % BSIZE) (fun x => src (w + x)) m := by
    rw [← hd]
    exact update_self ..
  have hdx : ∀ x, x ≠ a → d x = disk x := by
    intro x hx
    rw [← hd]
    exact update_of_ne hx _ _
  have hslot : ∀ x, x < sb.ninodes → (update ino i ip x).type ≠ 0 → ∀ s,
      slotBlock d (update ino i ip x) s = slotBlock disk (update ino i ip x) s := by
    have := h.owned.slotBlock_write hi hty h0'
      (copyIn (disk a) ((off + w) % BSIZE) (fun x => src (w + x)) m)
    rwa [ha', hd] at this
  have hslotI : ∀ s, slotBlock d ip s = slotBlock disk ip s := by
    have := hslot i hi hty
    rwa [hself] at this
  have hne : ∀ bn, blk disk ip bn ≠ 0 → bn ≠ (off + w) / BSIZE → blk disk ip bn ≠ a := by
    intro bn hz hbn he
    have hinj := h.owned.inj i (slotOf bn) i (slotOf ((off + w) / BSIZE)) hi hi hty hty
    rw [hself] at hinj
    exact hbn (slotOf_inj (hinj hz (he.trans ha.symm)).2)
  constructor
  case owned =>
    have := h.owned.write hi hty h0' (copyIn (disk a) ((off + w) % BSIZE) (fun x => src (w + x)) m)
    rwa [ha', hd] at this
  case fields => exact h.fields
  case slots =>
    intro s hs
    rw [hslotI, h.slots s hs]
  case others =>
    intro i' hi' ht' hii s
    have h2 := hslot i' hi'
    rw [update_of_ne hii] at h2
    rw [h2 ht', h.others i' hi' ht' hii s]
  case data =>
    intro i' bn hi' ht' hii hz
    rw [hdx, h.data i' bn hi' ht' hii hz]
    intro he
    have hinj := h.owned.inj i (slotOf ((off + w) / BSIZE)) i' (slotOf bn) hi hi' hty
    rw [hself, update_of_ne hii, h.others i' hi' ht' hii] at hinj
    exact hii (hinj ht' (by rw [← ha] at h0; exact h0) (ha.trans he.symm)).1.symm
  case bytes =>
    intro k hk
    have hbk : blk d ip (k / BSIZE) = blk disk ip (k / BSIZE) := hslotI _
    rw [hbk] at hk
    rw [byteAt, hbk]
    by_cases hkb : k / BSIZE = (off + w) / BSIZE
    · -- the block written now: its bytes at and after `off + w`
      have hold := h.bytes k hk
      rw [byteAt, hkb, ha] at hold
      rw [hkb, ha, hda, copyIn]
      have hk1 := Nat.div_add_mod k BSIZE
      have hk2 := Nat.div_add_mod (off + w) BSIZE
      rw [hkb] at hk1
      by_cases hin : (off + w) % BSIZE ≤ k % BSIZE ∧ k % BSIZE < (off + w) % BSIZE + m
      · rw [if_pos hin, if_pos ⟨by omega, by omega⟩]
        congr 1
        omega
      · rw [if_neg hin, hold]
        exact if_congr (by omega) rfl rfl
    · rw [hdx _ (hne _ hk hkb)]
      have hold := h.bytes k hk
      rw [byteAt] at hold
      rw [hold]
      -- bytes up to the end of the block written now are in that block
      have hout : ¬ (off + w ≤ k ∧ k < off + w + m) := by
        rintro ⟨h1, h2⟩
        apply hkb
        unfold BSIZE at *
        omega
      exact if_congr (by omega) rfl rfl
  case filled =>
    intro k h1 h2
    have hbk : blk d ip (k / BSIZE) = blk disk ip (k / BSIZE) := hslotI _
    rw [hbk]
    by_cases hw : k < off + w
    · exact h.filled k h1 hw
    · have hkb : k / BSIZE = (off + w) / BSIZE := by
        unfold BSIZE at *
        omega
      rw [hkb, ha]
      exact h0
  case metadata =>
    intro x hx
    have hr := (h.owned.range i (slotOf ((off + w) / BSIZE)) hi hty h0').1
    have hb := sb.bmapstart_lt
    have hxa : x ≠ a := by
      rw [← ha']
      unfold blk
      omega
    rw [hdx x hxa, h.metadata x hx]

/-- The loop runs to the end, or stops because the disk is full or a copy fails,
before the first byte or at the end of a block.  `w` counts the bytes that got
into the file's blocks. -/
theorem writeLoop_spec (fail : Nat → Option Nat)
    (hn : off + n ≤ MAXFILE * BSIZE) : ∀ (fuel tot : Nat) (disk : Disk) (ip : Inode), n - tot ≤ fuel → tot ≤ n →
    (tot = n ∨ tot = 0 ∨ (off + tot) % BSIZE = 0) → Wrote sb disk0 ino i off src tot disk ip →
    ∃ tot' w disk' ip', writeLoop sb src fail n fuel tot (off + tot) disk ip = some (tot', off + tot', disk', ip') ∧
      tot' ≤ w ∧ w ≤ n ∧ (tot' = n ∨ tot' = 0 ∨ (off + tot') % BSIZE = 0) ∧ Wrote sb disk0 ino i off src w disk' ip' ∧
      ((∀ t c, fail t = some c → c = 0) → w = tot') ∧ ((∀ t, fail t = none) → tot' = n ∨ Full sb disk') := by
  intro fuel
  induction fuel with
  | zero =>
    intro tot disk ip hf htot hend h
    exact ⟨tot, tot, disk, ip, rfl, Nat.le_refl _, htot, hend, h, fun _ => rfl, fun _ => Or.inl (by omega)⟩
  | succ fuel ih =>
    intro tot disk ip hf htot hend h
    unfold writeLoop
    by_cases hlt : tot < n
    case neg =>
      rw [if_neg hlt]
      exact ⟨tot, tot, disk, ip, rfl, Nat.le_refl _, htot, hend, h, fun _ => rfl, fun _ => Or.inl (by omega)⟩
    case pos =>
      have hself : update ino i ip i = ip := update_self ..
      have hty : (update ino i ip i).type ≠ 0 := by
        rw [hself, h.fields.1]
        exact ht
      obtain ⟨a, disk1, ip1, hb, hg, ha, hfull⟩ :=
        bmap_spec h.owned hi hty (blockIndex_lt (show off + tot < MAXFILE * BSIZE by omega))
      rw [hself] at hb
      rw [if_pos hlt, hb]
      have h1 := h.grow hi ht hg
      by_cases h0 : a = 0
      · simp only [if_pos h0]
        exact ⟨tot, tot, disk1, ip1, rfl, Nat.le_refl _, htot, hend, h1, fun _ => rfl, fun _ => Or.inr (hfull h0)⟩
      · have hmod : (off + tot) % BSIZE < BSIZE := Nat.mod_lt _ (by decide)
        simp only [if_neg h0]
        split
        · next c hc =>
          refine ⟨tot, tot + min c (min (n - tot) (BSIZE - (off + tot) % BSIZE)), _, ip1, rfl, by omega,
            by omega, hend, h1.copy hi ht (ha h0) h0 (by omega), fun hzero => ?_, fun hno => ?_⟩
          · rw [hzero _ _ hc, Nat.zero_min, Nat.add_zero]
          · rw [hno] at hc
            cases hc
        · have h2 := h1.copy hi ht (ha h0) h0 (Nat.min_le_right (n - tot) (BSIZE - (off + tot) % BSIZE))
          rw [Nat.add_assoc off]
          refine ih _ _ ip1 (by omega) (by omega) ?_ h2
          unfold BSIZE at *
          omega

end

end

theorem content_write {disk disk' : Disk} {ip' : Inode} {off r : Nat} {src : Nat → UInt8} (hoff : off ≤ ip.size)
    (hsize : ip'.size = max ip.size (off + r))
    (hb : ∀ k, k < ip'.size → byteAt disk' ip' k = if off ≤ k ∧ k < off + r then src (k - off) else byteAt disk ip k) :
    content disk' ip' = (content disk ip).take off ++ (List.range r).map src ++ (content disk ip).drop (off + r) := by
  apply List.ext_getElem?
  intro k
  have hlen : ((content disk ip).take off).length = off := by
    rw [List.length_take, content_length, Nat.min_eq_left hoff]
  have hlen2 : ((content disk ip).take off ++ (List.range r).map src).length = off + r := by
    rw [List.length_append, hlen, List.length_map, List.length_range]
  rw [content_getElem?]
  by_cases h1 : k < off
  · rw [List.getElem?_append_left (by omega), List.getElem?_append_left (by omega), List.getElem?_take_of_lt h1,
      content_getElem?, if_pos (by omega), if_pos (by omega), hb k (by omega), if_neg (by omega)]
  · by_cases h2 : k < off + r
    · rw [List.getElem?_append_left (by omega), List.getElem?_append_right (by omega), hlen, List.getElem?_map,
        List.getElem?_range (by omega), if_pos (by omega), hb k (by omega), if_pos ⟨by omega, h2⟩]
      rfl
    · rw [List.getElem?_append_right (by omega), hlen2, List.getElem?_drop, content_getElem?,
        Nat.add_sub_cancel' (Nat.le_of_not_lt h2)]
      by_cases h3 : k < ip.size
      · rw [if_pos (by omega), if_pos h3, hb k (by omega), if_neg (by omega)]
      · rw [if_neg (by omega), if_neg h3]

section
variable {sb : Super} {disk disk' : Disk} {i : Nat}

/-- Every inode but `i` is as before, and so is its content. -/
def Others (sb : Super) (disk disk' : Disk) (i : Nat) : Prop :=
  ∀ j, j < sb.ninodes → j ≠ i → dinode sb disk' j = dinode sb disk j ∧
    ((dinode sb disk j).type ≠ 0 → content disk' (dinode sb disk j) = content disk (dinode sb disk j))

theorem Others.refl (sb : Super) (disk : Disk) (i : Nat) : Others sb disk disk i :=
  fun _ _ _ => ⟨rfl, fun _ => rfl⟩

theorem Others.trans {disk1 disk2 : Disk} (h1 : Others sb disk disk1 i)
    (h2 : Others sb disk1 disk2 i) : Others sb disk disk2 i := by
  intro j hj hne
  obtain ⟨ha, hb⟩ := h1 j hj hne
  obtain ⟨hc, hd⟩ := h2 j hj hne
  rw [ha] at hc hd
  exact ⟨hc, fun ht => (hd ht).trans (hb ht)⟩

theorem content_congr (hh : NoHoles disk ip) (hs : ∀ s, slotBlock disk' ip s = slotBlock disk ip s)
    (hd : ∀ bn, blk disk ip bn ≠ 0 → disk' (blk disk ip bn) = disk (blk disk ip bn)) :
    content disk' ip = content disk ip := by
  apply List.map_congr_left
  intro k hk
  rw [byteAt, byteAt, blk, hs]
  exact congrFun (hd _ (hh.block (List.mem_range.mp hk))) _

theorem NoHoles.congr (hh : NoHoles disk ip) (hs : ∀ s, slotBlock disk' ip s = slotBlock disk ip s) :
    NoHoles disk' ip := by
  intro bn hbn
  rw [blk, hs]
  exact hh bn hbn

theorem Owned.addrs_lt {ino : Nat → Inode} (h : Owned sb disk ino) (hi : i < sb.ninodes) (ht : (ino i).type ≠ 0)
    (j : Fin 13) : (ino i).addrs j < 2 ^ 32 := by
  by_cases h0 : (ino i).addrs j = 0
  · rw [h0]
    decide
  · have h1 := (h.range i (.addr j) hi ht h0).2
    have h2 := sb.size_lt
    rw [slotBlock] at h1
    omega

theorem FsOK.change (h : FsOK sb disk) (hown : Owned sb disk' (update (dinode sb disk) i ip))
    (hself : dinode sb disk' i = ip) (hoth : ∀ j, j < sb.ninodes → j ≠ i → dinode sb disk' j = dinode sb disk j)
    (hslots : ∀ j, j < sb.ninodes → (dinode sb disk j).type ≠ 0 → j ≠ i →
      ∀ s, slotBlock disk' (dinode sb disk j) s = slotBlock disk (dinode sb disk j) s)
    (hdata : ∀ j bn, j < sb.ninodes → (dinode sb disk j).type ≠ 0 → j ≠ i → blk disk (dinode sb disk j) bn ≠ 0 →
      disk' (blk disk (dinode sb disk j) bn) = disk (blk disk (dinode sb disk j) bn))
    (hholes : ip.type ≠ 0 → NoHoles disk' ip) (hsize : ip.type ≠ 0 → ip.size ≤ MAXFILE * BSIZE) :
    FsOK sb disk' ∧ Others sb disk disk' i := by
  constructor
  · constructor
    case owned =>
      refine hown.congr fun j hj => ?_
      by_cases hji : j = i
      · rw [hji, update_self, hself]
      · rw [update_of_ne hji, hoth j hj hji]
    case holes =>
      intro j hj ht
      by_cases hji : j = i
      · rw [hji, hself] at ht ⊢
        exact hholes ht
      · rw [hoth j hj hji] at ht ⊢
        exact (h.holes j hj ht).congr (hslots j hj ht hji)
    case sizes =>
      intro j hj ht
      by_cases hji : j = i
      · rw [hji, hself] at ht ⊢
        exact hsize ht
      · rw [hoth j hj hji] at ht ⊢
        exact h.sizes j hj ht
  · intro j hj hji
    refine ⟨hoth j hj hji, fun ht => ?_⟩
    exact content_congr (h.holes j hj ht) (hslots j hj ht hji) fun bn h0 => hdata j bn hj ht hji h0

variable {off : Nat}

def Writable (ip : Inode) (off n : Nat) : Prop := off ≤ ip.size ∧ off + n ≤ MAXFILE * BSIZE

theorem writei_bad (hn : n < 2 ^ 32) (hsz : ip.size ≤ MAXFILE * BSIZE) (hw : ¬ Writable ip off n)
    (src : Nat → UInt8) (fail : Nat → Option Nat) : writei sb src fail disk i ip off n = some (-1, disk, ip) := by
  rw [writei]
  by_cases hov : off > ip.size ∨ (off + n) % 2 ^ 32 < off
  · rw [if_pos hov]
  · rw [if_neg hov, if_pos]
    unfold Writable MAXFILE NDIRECT NINDIRECT BSIZE at *
    omega

section
variable (h : FsOK sb disk) (hi : i < sb.ninodes) (ht : (dinode sb disk i).type ≠ 0)
include h hi ht

theorem finishWrite_spec {tot w : Nat} {src : Nat → UInt8} {disk1 : Disk} {ip1 : Inode}
    (hoff : off ≤ (dinode sb disk i).size)
    (hw : tot ≤ w) (hmax : off + tot ≤ MAXFILE * BSIZE) (hwr : Wrote sb disk (dinode sb disk) i off src w disk1 ip1) :
    ∃ disk2 ip2, finishWrite sb i (off + tot) disk1 ip1 = (disk2, ip2) ∧ ip2 = dinode sb disk2 i ∧
      FsOK sb disk2 ∧ Others sb disk disk2 i ∧ ip2.type = (dinode sb disk i).type ∧
      ip2.size = max (dinode sb disk i).size (off + tot) ∧ (Full sb disk1 → Full sb disk2) ∧
      ∀ k, k < ip2.size → byteAt disk2 ip2 k =
        if off ≤ k ∧ k < off + w then src (k - off) else byteAt disk (dinode sb disk i) k := by
  obtain ⟨f1, f2, f3, f4, f5⟩ := hwr.fields
  have hself : update (dinode sb disk) i ip1 i = ip1 := update_self ..
  have ht1 : (update (dinode sb disk) i ip1 i).type ≠ 0 := by rw [hself, f1]; exact ht
  generalize hip2 : ({ ip1 with size := if off + tot > ip1.size then off + tot else ip1.size } : Inode) = ip2
  have hty2 : ip2.type = ip1.type := by rw [← hip2]
  have had2 : ip2.addrs = ip1.addrs := by rw [← hip2]
  have hsz2 : ip2.size = max (dinode sb disk i).size (off + tot) := by
    rw [← hip2, f5]
    simp only
    split <;> omega
  have hsz := h.sizes i hi ht
  have hr2 : ip2.InRange := by
    have hr := dinode_inRange sb disk i
    constructor
    case type => rw [hty2, f1]; exact hr.type
    case major => rw [← hip2, f2]; exact hr.major
    case minor => rw [← hip2, f3]; exact hr.minor
    case nlink => rw [← hip2, f4]; exact hr.nlink
    case size =>
      rw [hsz2]
      unfold MAXFILE NDIRECT NINDIRECT BSIZE at *
      omega
    case addrs =>
      intro j
      rw [had2]
      have := hwr.owned.addrs_lt hi ht1 j
      rwa [hself] at this
  have hown1 : Owned sb disk1 (update (dinode sb disk) i ip2) := by
    have hset : Owned sb disk1 (update (update (dinode sb disk) i ip1) i ip2) :=
      hwr.owned.set (Or.inl ⟨by rw [hself, had2], by rw [hself, hty2]⟩)
    rwa [update_idem] at hset
  have hself2 : update (dinode sb disk) i ip2 i = ip2 := update_self ..
  have ht2 : (update (dinode sb disk) i ip2 i).type ≠ 0 := by rw [hself2, hty2, f1]; exact ht
  -- the inode block is the only one that `iupdate` changes
  have hib : IBLOCK sb i < sb.bmapstart := IBLOCK_lt hi
  have hput : ∀ x, sb.bmapstart ≤ x → putDinode sb disk1 i ip2 x = disk1 x :=
    fun x hx => putDinode_of_ne (by omega) _
  have hputm : ∀ x, sb.nmeta ≤ x → putDinode sb disk1 i ip2 x = disk1 x :=
    fun x hx => hput x (Nat.le_trans (Nat.le_of_lt sb.bmapstart_lt) hx)
  have hslot2 := hown1.slotBlock_of_disk hputm
  have hslotI : ∀ s, slotBlock (putDinode sb disk1 i ip2) ip2 s = slotBlock disk1 ip1 s := by
    intro s
    have := hslot2 i s hi ht2
    rw [hself2] at this
    rw [this]
    exact slotBlock_eq_of_addrs had2 s
  have hblkI : ∀ bn, blk (putDinode sb disk1 i ip2) ip2 bn = blk disk1 ip1 bn := fun bn => hslotI _
  have hdin : dinode sb (putDinode sb disk1 i ip2) i = ip2 := dinode_putDinode_self hr2
  have hnoholes : NoHoles disk1 ip2 := by
    intro bn hbn
    have hb : blk disk1 ip2 bn = blk disk1 ip1 bn := slotBlock_eq_of_addrs had2 _
    rw [hb]
    by_cases hlt : bn * BSIZE < (dinode sb disk i).size
    · have h0 := h.holes i hi ht bn hlt
      have he : blk disk1 ip1 bn = blk disk (dinode sb disk i) bn := hwr.slots _ h0
      rw [he]
      exact h0
    · have h0 := hwr.filled (bn * BSIZE) (by omega) (by omega)
      rwa [Nat.mul_div_cancel _ (show 0 < BSIZE by decide)] at h0
  have hall := h.change (hown1.of_disk hput) hdin
    (fun j hj hji => by
      rw [dinode_putDinode_of_ne hji]
      exact dinode_congr (hwr.metadata _ (IBLOCK_lt hj)))
    (fun j hj htj hji s => by
      have := hslot2 j s hj
      rw [update_of_ne hji] at this
      rw [this htj, hwr.others j hj htj hji s])
    (fun j bn hj htj hji h0 => by
      rw [hputm _ (h.owned.blk_range hj htj h0).1]
      exact hwr.data j bn hj htj hji h0)
    (fun _ => hnoholes.congr fun s => (hslotI s).trans (slotBlock_eq_of_addrs had2 s).symm)
    (fun _ => by omega)
  refine ⟨putDinode sb disk1 i ip2, ip2, ?_, hdin.symm, hall.1, hall.2, by rw [hty2, f1], hsz2, ?_, ?_⟩
  · rw [finishWrite, hip2]
  · intro hfull b hb
    rw [inUse_congr (hput _ (BBLOCK_lt hb).2)]
    exact hfull b hb
  · intro k hk
    have h0 : blk disk1 ip1 (k / BSIZE) ≠ 0 := by
      have hb : blk disk1 ip2 (k / BSIZE) = blk disk1 ip1 (k / BSIZE) := slotBlock_eq_of_addrs had2 _
      rw [← hb]
      exact hnoholes.block hk
    have hrange : sb.nmeta ≤ blk disk1 ip1 (k / BSIZE) := by
      rw [← hself] at h0 ⊢
      exact (hwr.owned.blk_range hi ht1 h0).1
    have hbyte := hwr.bytes k h0
    rw [byteAt] at hbyte
    rw [byteAt, hblkI, hputm _ hrange, hbyte]
    -- what was not written lies below the old size
    by_cases hin : off ≤ k ∧ k < off + w
    · rw [if_pos hin, if_pos hin]
    · rw [if_neg hin, if_neg hin, if_neg ((h.holes i hi ht).block (by omega))]

/-- `writei` with arguments that it accepts.  It reports what it wrote, unless a copy
fails after part of the bytes for its block. -/
theorem writei_core (src : Nat → UInt8) (fail : Nat → Option Nat) (hw : Writable (dinode sb disk i) off n) :
    ∃ (k : Nat) (disk' : Disk), writei sb src fail disk i (dinode sb disk i) off n = some ((k : Int), disk',
    dinode sb disk' i) ∧
      FsOK sb disk' ∧ Others sb disk disk' i ∧ (dinode sb disk' i).type = (dinode sb disk i).type ∧ k ≤ n ∧
      (k = n ∨ k = 0 ∨ (off + k) % BSIZE = 0) ∧ ((∀ t, fail t = none) → k = n ∨ Full sb disk') ∧
      ((∀ t c, fail t = some c → c = 0) →
        content disk' (dinode sb disk' i) = (content disk (dinode sb disk i)).take off ++ (List.range k).map src ++
          (content disk (dinode sb disk i)).drop (off + k)) := by
  have hsz := h.sizes i hi ht
  have hov : ¬ (off > (dinode sb disk i).size ∨ (off + n) % 2 ^ 32 < off) := by
    unfold Writable MAXFILE NDIRECT NINDIRECT BSIZE at *
    omega
  have hmax : ¬ (off + n) % 2 ^ 32 > MAXFILE * BSIZE := by
    unfold Writable MAXFILE NDIRECT NINDIRECT BSIZE at *
    omega
  obtain ⟨tot, w, disk1, ip1, hloop, htw, hwn, hend, hwr, hpart, hnofail⟩ :=
    writeLoop_spec hi ht fail hw.2 n 0 disk (dinode sb disk i) (by omega) (Nat.zero_le n) (Or.inr (Or.inl rfl))
      (Wrote.start h.owned i off src)
  have hofft : off + tot ≤ MAXFILE * BSIZE := by
    have := hw.2
    omega
  obtain ⟨disk2, ip2, hfin, hip2, hok, hoth, hty, hsize, hfull, hbytes⟩ :=
    finishWrite_spec h hi ht hw.1 htw hofft hwr
  refine ⟨tot, disk2, ?_, hok, hoth, by rw [← hip2, hty], by omega, hend, fun hno => (hnofail hno).imp_right hfull,
    fun hzero => ?_⟩
  · rw [Nat.add_zero] at hloop
    rw [writei, if_neg hov, if_neg hmax, hloop, Option.map_some, hfin, hip2]
  · obtain rfl := hpart hzero
    rw [← hip2]
    exact content_write hw.1 hsize hbytes

/-- `writei` returns, keeps `FsOK`, leaves the inode in memory equal to the one on the
disk, and changes no other inode; when no copy fails it writes what it reports. -/
theorem writei_spec (src : Nat → UInt8) (fail : Nat → Option Nat) (off : Nat) (hn : n < 2 ^ 32) :
    ∃ r disk', writei sb src fail disk i (dinode sb disk i) off n = some (r, disk', dinode sb disk' i) ∧
      FsOK sb disk' ∧ Others sb disk disk' i ∧ (dinode sb disk' i).type = (dinode sb disk i).type ∧
      (¬ Writable (dinode sb disk i) off n → r = -1 ∧ disk' = disk) ∧
      (Writable (dinode sb disk i) off n → (∀ t, fail t = none) → ∃ k : Nat, r = k ∧ k ≤ n ∧ (k = n ∨ Full sb disk') ∧
        (k = n ∨ k = 0 ∨ (off + k) % BSIZE = 0) ∧
        content disk' (dinode sb disk' i) = (content disk (dinode sb disk i)).take off ++ (List.range k).map src ++
          (content disk (dinode sb disk i)).drop (off + k)) := by
  by_cases hw : Writable (dinode sb disk i) off n
  · obtain ⟨k, disk', he, hok, hoth, hty, hkn, hend, hfull, hcont⟩ := writei_core h hi ht src fail hw
    refine ⟨k, disk', he, hok, hoth, hty, fun hc => absurd hw hc, fun _ hno => ?_⟩
    refine ⟨k, rfl, hkn, hfull hno, hend, hcont fun t c hc => ?_⟩
    rw [hno] at hc
    cases hc
  · exact ⟨-1, disk, writei_bad hn (h.sizes i hi ht) hw src fail, h, Others.refl sb disk i, rfl, fun _ => ⟨rfl, rfl⟩,
      fun hc => absurd hc hw⟩

end

/-! ## `readi` and `itrunc` -/

theorem bmap_of_blk {bn : Nat} (hbn : bn < MAXFILE) (h0 : blk disk ip bn ≠ 0) :
    bmap sb disk ip bn = some (blk disk ip bn, disk, ip) := by
  unfold bmap
  by_cases hd : bn < 12
  · have hs : blk disk ip bn = ip.addrs ⟨bn, Nat.lt_trans hd (by decide)⟩ := by
      rw [blk, slotOf, dif_pos hd, slotBlock]
    rw [hs] at h0 ⊢
    rw [dif_pos hd, loadAddr, if_neg h0]
  · have hj : bn - 12 < NINDIRECT := by
      unfold MAXFILE NDIRECT at hbn
      omega
    have hs : blk disk ip bn = slotBlock disk ip (.entry (bn - 12)) := by
      rw [blk, slotOf, dif_neg hd]
    rw [hs] at h0 ⊢
    have hz : ip.addrs indirect ≠ 0 := fun hz => h0 (slotBlock_entry_zero (Or.inl hz))
    rw [slotBlock_entry hz hj] at h0 ⊢
    rw [dif_neg hd, if_pos hj, loadAddr, if_neg hz]
    split
    · next heq => exact absurd (congrArg Prod.fst heq) hz
    · next heq =>
      simp only [Prod.mk.injEq] at heq
      obtain ⟨rfl, rfl, rfl⟩ := heq
      rw [loadEntry, if_neg h0]

/-- `n` bytes of the file from `off` on. -/
def slice (disk : Disk) (ip : Inode) (off n : Nat) : List UInt8 := (List.range n).map fun x => byteAt disk ip (off + x)

theorem slice_append (disk : Disk) (ip : Inode) (off tot m : Nat) :
    slice disk ip off (tot + m) = slice disk ip off tot ++ slice disk ip (off + tot) m := by
  unfold slice
  rw [List.range_add, List.map_append, List.map_map]
  congr 1
  apply List.map_congr_left
  intro x _
  show byteAt disk ip (off + (tot + x)) = _
  rw [Nat.add_assoc]

theorem slice_eq_content (h : off ≤ ip.size) :
    slice disk ip off (min n (ip.size - off)) = ((content disk ip).drop off).take n := by
  apply List.ext_getElem?
  intro k
  rw [List.getElem?_take, List.getElem?_drop, content_getElem?, slice, List.getElem?_map]
  by_cases hk : k < min n (ip.size - off)
  · rw [List.getElem?_range hk, if_pos (by omega), if_pos (by omega)]
    rfl
  · rw [List.getElem?_eq_none (by rw [List.length_range]; omega)]
    by_cases hn : k < n
    · rw [if_pos hn, if_neg (by omega)]
      rfl
    · rw [if_neg hn]
      rfl

theorem readLoop_spec (sb : Super) (hh : ∀ k, off ≤ k → k < off + n → blk disk ip (k / BSIZE) ≠ 0)
    (hmax : off + n ≤ MAXFILE * BSIZE) (fail : Nat → Bool) : ∀ (fuel tot : Nat), n - tot ≤ fuel → tot ≤ n →
    ∃ r out, readLoop sb fail n fuel tot (off + tot) disk ip (slice disk ip off tot) = some (r, out, disk, ip) ∧
      ((∀ t, fail t = false) → r = n ∧ out = slice disk ip off n) := by
  intro fuel
  induction fuel with
  | zero =>
    intro tot hf htot
    obtain rfl : tot = n := by omega
    exact ⟨tot, _, rfl, fun _ => ⟨rfl, rfl⟩⟩
  | succ fuel ih =>
    intro tot hf htot
    unfold readLoop
    by_cases hlt : tot < n
    case neg =>
      obtain rfl : tot = n := by omega
      rw [if_neg hlt]
      exact ⟨tot, _, rfl, fun _ => ⟨rfl, rfl⟩⟩
    case pos =>
      have h0 := hh (off + tot) (by omega) (by omega)
      have hbn : (off + tot) / BSIZE < MAXFILE := blockIndex_lt (by omega)
      have hmod : (off + tot) % BSIZE < BSIZE := Nat.mod_lt _ (by decide)
      rw [if_pos hlt, bmap_of_blk hbn h0]
      simp only [if_neg h0]
      by_cases hfail : fail tot = true
      · rw [if_pos hfail]
        refine ⟨-1, _, rfl, fun hno => ?_⟩
        rw [hno] at hfail
        cases hfail
      · rw [if_neg hfail, Nat.add_assoc off]
        generalize hm : min (n - tot) (BSIZE - (off + tot) % BSIZE) = m
        -- the bytes of one block
        have hpiece : (List.range m).map (fun x => disk (blk disk ip ((off + tot) / BSIZE)) ((off + tot) % BSIZE + x)) =
            slice disk ip (off + tot) m := by
          apply List.map_congr_left
          intro x hx
          have hxm := List.mem_range.mp hx
          have hdiv : (off + tot + x) / BSIZE = (off + tot) / BSIZE := by
            unfold BSIZE at *
            omega
          have hrem : (off + tot + x) % BSIZE = (off + tot) % BSIZE + x := by
            unfold BSIZE at *
            omega
          rw [byteAt, hdiv, hrem]
        rw [hpiece, ← slice_append]
        exact ih (tot + m) (by omega) (by omega)

theorem readLoop_length (sb : Super) (fuel : Nat) : ∀ {tot off : Nat} {disk disk' : Disk} {ip ip' : Inode}
    {out out' : List UInt8} {r : Int}, readLoop sb (fun _ => false) n fuel tot off disk ip out =
    some (r, out', disk', ip') →
    out.length = tot → r = out'.length := by
  have hend : ∀ {tot : Nat} {disk disk' : Disk} {ip ip' : Inode} {out out' : List UInt8} {r : Int},
      some ((tot : Int), out, disk, ip) = some (r, out', disk', ip') → out.length = tot → r = out'.length := by
    rintro tot disk disk' ip ip' out out' r ⟨⟩ hout
    rw [hout]
  induction fuel with
  | zero => exact hend
  | succ fuel ih =>
    intro tot off disk disk' ip ip' out out' r h hout
    unfold readLoop at h
    split at h
    · split at h
      · cases h
      · split at h
        · exact hend h hout
        · exact ih h (by simp [hout])
    · exact hend h hout

/-- Without faults `readi` returns the number of bytes that it delivers. -/
theorem readi_length {disk' : Disk} {ip' : Inode} {out : List UInt8} {r : Int}
    (h : readi sb (fun _ => false) disk ip off n = some (r, out, disk', ip')) : r = out.length := by
  unfold readi at h
  split at h
  · cases h
    rfl
  · exact readLoop_length sb _ h rfl

theorem readi_noHoles (sb : Super) (hh : NoHoles disk ip) (hsz : ip.size ≤ MAXFILE * BSIZE) (fail : Nat → Bool)
    (off : Nat) (hn : n < 2 ^ 32) : ∃ r out, readi sb fail disk ip off n = some (r, out, disk, ip) ∧
      (¬ (off ≤ ip.size ∧ off + n < 2 ^ 32) → r = 0 ∧ out = []) ∧
      (off ≤ ip.size ∧ off + n < 2 ^ 32 → (∀ t, fail t = false) →
        r = (min n (ip.size - off) : Nat) ∧ out = ((content disk ip).drop off).take n) := by
  by_cases hr : off ≤ ip.size ∧ off + n < 2 ^ 32
  · have hmod : (off + n) % 2 ^ 32 = off + n := Nat.mod_eq_of_lt hr.2
    have hn' : (if off + n > ip.size then ip.size - off else n) = min n (ip.size - off) := by
      split <;> omega
    have hle : off + min n (ip.size - off) ≤ ip.size := by omega
    obtain ⟨r, out, he, hno⟩ := readLoop_spec sb (fun k _ hk => hh.block (Nat.lt_of_lt_of_le hk hle))
      (hle.trans hsz) fail
      _ 0 (Nat.sub_le _ _) (Nat.zero_le _)
    refine ⟨r, out, ?_, fun hc => absurd hr hc, fun _ hf => ?_⟩
    · rw [readi, hmod, if_neg (by omega)]
      simp only [hn']
      exact he
    · obtain ⟨h1, h2⟩ := hno hf
      exact ⟨h1, h2.trans (slice_eq_content hr.1)⟩
  · refine ⟨0, [], ?_, fun _ => ⟨rfl, rfl⟩, fun hc => absurd hc hr⟩
    rw [readi, if_pos]
    omega

theorem readi_spec (h : FsOK sb disk) (hi : i < sb.ninodes) (ht : (dinode sb disk i).type ≠ 0) (fail : Nat → Bool)
    (off : Nat) (hn : n < 2 ^ 32) :
    ∃ r out, readi sb fail disk (dinode sb disk i) off n = some (r, out, disk, dinode sb disk i) ∧
      (¬ (off ≤ (dinode sb disk i).size ∧ off + n < 2 ^ 32) → r = 0 ∧ out = []) ∧
      (off ≤ (dinode sb disk i).size ∧ off + n < 2 ^ 32 → (∀ t, fail t = false) →
        r = (min n ((dinode sb disk i).size - off) : Nat) ∧
          out = ((content disk (dinode sb disk i)).drop off).take n) :=
  readi_noHoles sb (h.holes i hi ht) (h.sizes i hi ht) fail off hn

theorem itrunc_content (h : FsOK sb disk) (hi : i < sb.ninodes) (ht : (dinode sb disk i).type ≠ 0) :
    ∃ disk', itrunc sb disk i (dinode sb disk i) = some (disk', dinode sb disk' i) ∧ FsOK sb disk' ∧
      Others sb disk disk' i ∧ dinode sb disk' i = emptied (dinode sb disk i) := by
  obtain ⟨disk', he, hown, hd, hoth, hx⟩ := itrunc_spec h.owned hi ht (dinode_inRange sb disk i)
  have hall := h.change hown hd hoth (fun j hj htj _ s => h.owned.slotBlock_of_disk hx j s hj htj)
    (fun j bn hj htj _ h0 => hx _ (h.owned.blk_range hj htj h0).1)
    (fun _ bn hbn => absurd hbn (Nat.not_lt_zero _)) fun _ => Nat.zero_le _
  exact ⟨disk', by rw [he, hd], hall.1, hall.2, hd⟩

theorem content_of_fields {ip' : Inode} (ha : ip'.addrs = ip.addrs) (hs : ip'.size = ip.size) :
    content disk ip' = content disk ip := by
  have hb : byteAt disk ip' = byteAt disk ip := by
    funext k
    rw [byteAt, byteAt, blk, blk, slotBlock_eq_of_addrs ha]
  rw [content, content, hs, hb]

theorem putDinode_content (h : FsOK sb disk) (hi : i < sb.ninodes) (hr : ip.InRange)
    (hip : (ip.addrs = (dinode sb disk i).addrs ∧ ip.size = (dinode sb disk i).size ∧
        (ip.type ≠ 0 ↔ (dinode sb disk i).type ≠ 0)) ∨
      ((∀ j, ip.addrs j = 0) ∧ ip.size = 0 ∧ ((dinode sb disk i).type ≠ 0 → ∀ j, (dinode sb disk i).addrs j = 0))) :
    FsOK sb (putDinode sb disk i ip) ∧ Others sb disk (putDinode sb disk i ip) i ∧
      dinode sb (putDinode sb disk i ip) i = ip ∧
      (ip.addrs = (dinode sb disk i).addrs → ip.size = (dinode sb disk i).size → (dinode sb disk i).type ≠ 0 →
        content (putDinode sb disk i ip) ip = content disk (dinode sb disk i)) := by
  have hx : ∀ x, sb.bmapstart ≤ x → putDinode sb disk i ip x = disk x := by
    intro x hx
    have hlt : IBLOCK sb i < sb.bmapstart := IBLOCK_lt hi
    exact update_of_ne (by omega) _ _
  have hm : ∀ x, sb.nmeta ≤ x → putDinode sb disk i ip x = disk x :=
    fun x h' => hx x (Nat.le_trans (Nat.le_of_lt sb.bmapstart_lt) h')
  have hslots : ∀ j s, j < sb.ninodes → (dinode sb disk j).type ≠ 0 →
      slotBlock (putDinode sb disk i ip) (dinode sb disk j) s = slotBlock disk (dinode sb disk j) s :=
    fun j s hj htj => h.owned.slotBlock_of_disk hm j s hj htj
  have hown : Owned sb (putDinode sb disk i ip) (update (dinode sb disk) i ip) :=
    (h.owned.set (hip.imp (fun hl => ⟨hl.1, hl.2.2⟩) fun hz => ⟨hz.1, hz.2.2⟩)).of_disk hx
  have hall := h.change hown (dinode_putDinode_self hr) (fun j _ hj => dinode_putDinode_of_ne hj ip)
    (fun j hj htj _ s => hslots j s hj htj) (fun j bn hj htj _ h0 => hm _ (h.owned.blk_range hj htj h0).1) ?_ ?_
  · refine ⟨hall.1, hall.2, dinode_putDinode_self hr, fun ha hs ht => ?_⟩
    rw [content_of_fields ha hs]
    exact content_congr (h.holes i hi ht) (fun s => hslots i s hi ht)
      fun bn h0 => hm _ (h.owned.blk_range hi ht h0).1
  · intro ht bn hbn
    rcases hip with ⟨ha, hs, hty⟩ | ⟨_, hs, _⟩
    · rw [hs] at hbn
      rw [blk, slotBlock_eq_of_addrs ha, hslots i _ hi (hty.mp ht)]
      exact h.holes i hi (hty.mp ht) bn hbn
    · rw [hs] at hbn
      exact absurd hbn (Nat.not_lt_zero _)
  · intro ht
    rcases hip with ⟨_, hs, hty⟩ | ⟨_, hs, _⟩
    · rw [hs]
      exact h.sizes i hi (hty.mp ht)
    · rw [hs]
      exact Nat.zero_le _

end

end Xv6.Fs
