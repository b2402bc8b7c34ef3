import Xv6.Fs.Files
import Xv6.Vm.Copy

/-!
# Writing a file from user memory

`writei` with `user_src`, over a buffer cache that keeps two contents of a block:
what its buffer holds (`data`), and what it held when it was last given to
`log_write` (`logged`), which is what the disk will hold.  The functions of
`kernel/fs.c` give each block that they change to `log_write`, but for the block
of a copy that fails: the bytes copied before the failure stay in its buffer.

The file is what `writei` reports, in both contents, exactly when those bytes are
the ones that the block held before (`writei_exact`).
-/

namespace Xv6.Fs.Cached

open Function
open Vm (UserTable Mapped userByte)

structure Cache where
  data : Disk
  logged : Disk

/-- A cache in which every change was given to `log_write`. -/
def synced (disk : Disk) : Cache := ⟨disk, disk⟩

/-- `bp->data` of block `b` becomes `m`. -/
def Cache.edit (c : Cache) (b : Nat) (m : Block) : Cache := { c with data := update c.data b m }

def Cache.logWrite (c : Cache) (b : Nat) : Cache := { c with logged := update c.logged b (c.data b) }

/-! ## `kernel/fs.c` -/

section
variable (sb : Super)

def bzero (c : Cache) (b : Nat) : Cache := (c.edit b zeroBlock).logWrite b

def balloc (c : Cache) : Nat × Cache :=
  match scanMap sb c.data (sb.size / BPB + 1) 0 with
  | some b => (b, bzero ((c.edit (BBLOCK sb b) (setBit (c.data (BBLOCK sb b)) (b % BPB))).logWrite (BBLOCK sb b)) b)
  | none => (0, c)

/-- The block in `addrs[j]`, allocated if there is none. -/
def loadAddr (c : Cache) (ip : Inode) (j : Fin 13) : Nat × Cache × Inode :=
  if ip.addrs j = 0 then
    if (balloc sb c).1 = 0 then (0, (balloc sb c).2, ip)
    else ((balloc sb c).1, (balloc sb c).2, setAddr ip j (balloc sb c).1)
  else (ip.addrs j, c, ip)

/-- The block in entry `j` of the indirect block `a`, allocated if there is none. -/
def loadEntry (c : Cache) (a j : Nat) : Nat × Cache :=
  if entryAt (c.data a) j = 0 then
    if (balloc sb c).1 = 0 then (0, (balloc sb c).2)
    else ((balloc sb c).1, ((balloc sb c).2.edit a
      (Bytes.putLE ((balloc sb c).2.data a) (4 * j) 4 (balloc sb c).1)).logWrite a)
  else (entryAt (c.data a) j, c)

def bmap (c : Cache) (ip : Inode) (bn : Nat) : Option (Nat × Cache × Inode) :=
  if h : bn < 12 then some (loadAddr sb c ip ⟨bn, direct_lt h⟩)
  else if bn - 12 < NINDIRECT then
    match loadAddr sb c ip indirect with
    | (0, c, ip) => some (0, c, ip)
    | (a, c, ip) => some ((loadEntry sb c a (bn - 12)).1, (loadEntry sb c a (bn - 12)).2, ip)
  else none

def iupdate (c : Cache) (i : Nat) (ip : Inode) : Cache :=
  (c.edit (IBLOCK sb i) (Bytes.putFields (c.data (IBLOCK sb i)) (dinodeOff i) (dinodeFields ip))).logWrite (IBLOCK sb i)

/-- The loop of `writei`, from the user memory of the page table `pagetable`. -/
def writeLoop (m : Vm.Mem) (pagetable n : Nat) :
    Nat → Nat → Nat → Nat → Cache → Inode → Option (Nat × Nat × Cache × Inode)
  | 0, tot, off, _, c, ip => some (tot, off, c, ip)
  | fuel + 1, tot, off, src, c, ip =>
    if tot < n then
      match bmap sb c ip (off / BSIZE) with
      | none => none
      | some (a, c, ip) =>
        if a = 0 then some (tot, off, c, ip)
        else
          let k := min (n - tot) (BSIZE - off % BSIZE)
          match Vm.copyin pagetable (c.data a) (off % BSIZE) src k m with
          | .error _ => none
          | .ok ((r, data), _) =>
            if r = -1 then some (tot, off, c.edit a data, ip)
            else writeLoop m pagetable n fuel (tot + k) (off + k) ((src + k) % 2 ^ 64)
              ((c.edit a data).logWrite a) ip
    else some (tot, off, c, ip)

/-- `writei(ip, 1, src, off, n)` on inode `i`. -/
def writei (m : Vm.Mem) (pagetable : Nat) (c : Cache) (i : Nat) (ip : Inode) (src off n : Nat) :
    Option (Int × Cache × Inode) :=
  if off > ip.size ∨ (off + n) % 2 ^ 32 < off then some (-1, c, ip)
  else if (off + n) % 2 ^ 32 > MAXFILE * BSIZE then some (-1, c, ip)
  else
    (writeLoop sb m pagetable n n 0 off src c ip).map fun r =>
      let ip' := { r.2.2.2 with size := if r.2.1 > r.2.2.2.size then r.2.1 else r.2.2.2.size }
      ((r.1 : Int), iupdate sb r.2.2.1 i ip', ip')

end

/-! ## Synchronised caches -/

section
variable {sb : Super}

section
variable (disk : Disk)
include disk

theorem synced_edit (b : Nat) (m : Block) :
    ((synced disk).edit b m).logWrite b = synced (update disk b m) := by
  show Cache.mk (update disk b m) (update disk b (update disk b m b)) = _
  rw [update_self]
  rfl

theorem synced_edit_self (b : Nat) : (synced disk).edit b (disk b) = synced disk := by
  show Cache.mk (update disk b (disk b)) disk = _
  rw [update_eq_self]
  rfl

theorem bzero_synced (b : Nat) : bzero (synced disk) b = synced (Fs.bzero disk b) := synced_edit disk b _

theorem balloc_synced : balloc sb (synced disk) = ((Fs.balloc sb disk).1, synced (Fs.balloc sb disk).2) := by
  unfold balloc Fs.balloc
  show (match scanMap sb disk (sb.size / BPB + 1) 0 with | some b => _ | none => _) = _
  cases scanMap sb disk (sb.size / BPB + 1) 0 with
  | none => rfl
  | some b =>
    simp only [synced_edit, bzero_synced]
    rfl

theorem loadAddr_synced (ip : Inode) (j : Fin 13) : loadAddr sb (synced disk) ip j =
    ((Fs.loadAddr sb disk ip j).1, synced (Fs.loadAddr sb disk ip j).2.1, (Fs.loadAddr sb disk ip j).2.2) := by
  unfold loadAddr Fs.loadAddr
  rw [balloc_synced]
  by_cases h : ip.addrs j = 0
  · by_cases h0 : (Fs.balloc sb disk).1 = 0
    · simp [h, h0]
    · simp [h, h0]
  · simp [h]

theorem loadEntry_synced (a j : Nat) : loadEntry sb (synced disk) a j =
    ((Fs.loadEntry sb disk a j).1, synced (Fs.loadEntry sb disk a j).2) := by
  unfold loadEntry Fs.loadEntry
  rw [balloc_synced]
  by_cases h : entryAt (disk a) j = 0
  · by_cases h0 : (Fs.balloc sb disk).1 = 0
    · simp [h, h0, synced]
    · simp only [h0, if_false, synced_edit]
      simp [synced, h]
  · simp [h, synced]

theorem bmap_synced (ip : Inode) (bn : Nat) : bmap sb (synced disk) ip bn =
    (Fs.bmap sb disk ip bn).map fun r => (r.1, synced r.2.1, r.2.2) := by
  unfold bmap Fs.bmap
  rw [loadAddr_synced]
  by_cases h12 : bn < 12
  · rw [dif_pos h12, dif_pos h12, loadAddr_synced]
    rfl
  · rw [dif_neg h12, dif_neg h12]
    by_cases hin : bn - 12 < NINDIRECT
    · rw [if_pos hin, if_pos hin]
      obtain ⟨a, disk1, ip1⟩ := Fs.loadAddr sb disk ip indirect
      cases a with
      | zero => rfl
      | succ a =>
        simp only [loadEntry_synced]
        rfl
    · rw [if_neg hin, if_neg hin]
      rfl

end

end

/-! ## The writes -/

section
variable {sb : Super} {m : Vm.Mem} {t : Nat} {leaf : Nat → Nat} {nodes : Multiset Nat} {n off src tot : Nat}

/-- Every `readi` of inode `i` finds the file to be `bytes`. -/
def Reads (sb : Super) (disk : Disk) (i : Nat) (bytes : List UInt8) : Prop :=
  ∀ off n, off ≤ bytes.length → off + n < 2 ^ 32 →
    (readi sb (fun _ => false) disk (dinode sb disk i) off n).map (fun r => r.2.1) = some ((bytes.drop off).take n)

theorem FsOK.reads {disk : Disk} {i : Nat} (h : FsOK sb disk) (hi : i < sb.ninodes) (ht : (dinode sb disk i).type ≠ 0) :
    Reads sb disk i (content disk (dinode sb disk i)) := by
  intro off n hoff hn
  rw [content_length] at hoff
  obtain ⟨r, out, hrun, -, hout⟩ := readi_spec h hi ht (fun _ => false) off (show n < 2 ^ 32 by omega)
  rw [hrun, Option.map_some, (hout ⟨hoff, hn⟩ fun _ => rfl).2]

/-- What the block of byte `k` of a file holds there.  A block that is not there yet will be clear. -/
def held (disk : Disk) (ip : Inode) (k : Nat) : UInt8 :=
  if blk disk ip (k / BSIZE) = 0 then 0 else byteAt disk ip k

/-- The block `b` after `c` bytes of the source, from number `tot` on, have been copied to it. -/
def filled (m : Vm.Mem) (leaf : Nat → Nat) (src off tot : Nat) (b : Block) (c : Nat) : Block :=
  copyIn b ((off + tot) % BSIZE) (fun x => userByte m leaf (src + (tot + x))) c

theorem filled_eq_self {b : Block} {c : Nat}
    (h : ∀ x < c, userByte m leaf (src + (tot + x)) = b ((off + tot) % BSIZE + x)) :
    filled m leaf src off tot b c = b := by
  funext y
  show (if _ then _ else _) = _
  split
  · next hy =>
    rw [h _ (by omega)]
    exact congrArg b (by omega)
  · rfl

theorem held_of_wrote {disk0 disk : Disk} {ino : Nat → Inode} {i x : Nat} {ip : Inode} {bytes : Nat → UInt8}
    (h : Wrote sb disk0 ino i off bytes tot disk ip) (h0 : blk disk ip ((off + tot) / BSIZE) ≠ 0)
    (hx : x < BSIZE - (off + tot) % BSIZE) :
    disk (blk disk ip ((off + tot) / BSIZE)) ((off + tot) % BSIZE + x) = held disk0 (ino i) (off + (tot + x)) := by
  have hdiv : (off + (tot + x)) / BSIZE = (off + tot) / BSIZE := by
    unfold BSIZE at *
    omega
  have hmod : (off + (tot + x)) % BSIZE = (off + tot) % BSIZE + x := by
    unfold BSIZE at *
    omega
  have hbyte := h.bytes (off + (tot + x)) (hdiv ▸ h0)
  rw [if_neg (by omega), byteAt, hdiv, hmod] at hbyte
  rw [hbyte, held, hdiv]

variable [Vm.Symbols]

omit [Vm.Symbols] in
theorem writeLoop_done (h : ¬tot < n) (fuel off src : Nat) (c : Cache) (ip : Inode) :
    writeLoop sb m t n fuel tot off src c ip = some (tot, off, c, ip) := by
  cases fuel with
  | zero => rfl
  | succ fuel => rw [writeLoop, if_neg h]

theorem copyin_mapped (h : UserTable m t leaf nodes) {k : Nat} (hk : ∀ x < k, Mapped leaf (src + x))
    (dst : Block) (o : Nat) :
    Vm.copyin t dst o src k m = .ok ((0, Vm.move dst o (fun x => userByte m leaf (src + x)) k), m) := by
  obtain ⟨r, k', hrun, -, ⟨rfl, rfl⟩ | ⟨-, hlt, hno⟩⟩ := Vm.copyin_spec h.readTable dst o src k
  · exact hrun
  · exact absurd (hk k' hlt) hno

theorem copyin_stops (h : UserTable m t leaf nodes) {k c : Nat} (hck : c < k) (hc : ∀ x < c, Mapped leaf (src + x))
    (hno : ¬Mapped leaf (src + c)) (dst : Block) (o : Nat) :
    Vm.copyin t dst o src k m = .ok ((-1, Vm.move dst o (fun x => userByte m leaf (src + x)) c), m) := by
  obtain ⟨r, k', hrun, hk, hres⟩ := Vm.copyin_spec h.readTable dst o src k
  have hle : k' ≤ c := Nat.le_of_not_lt fun hlt => hno (hk c hlt)
  rcases hres with ⟨-, rfl⟩ | ⟨rfl, -, hno'⟩
  · omega
  · obtain rfl : k' = c := Nat.le_antisymm hle (Nat.le_of_not_lt fun hlt => hno' (hc k' hlt))
    exact hrun

section
variable (h : UserTable m t leaf nodes) {disk disk1 : Disk} {ip ip1 : Inode} {a k : Nat} (hlt : tot < n)
  (hb : Fs.bmap sb disk ip ((off + tot) / BSIZE) = some (a, disk1, ip1)) (h0 : a ≠ 0)
  (hk : min (n - tot) (BSIZE - (off + tot) % BSIZE) = k)
include h hlt hb h0 hk

/-- A round of the loop whose bytes are all mapped. -/
theorem writeLoop_next (hmap : ∀ x < k, Mapped leaf (src + tot + x)) (fuel : Nat) :
    writeLoop sb m t n (fuel + 1) tot (off + tot) (src + tot) (synced disk) ip =
      writeLoop sb m t n fuel (tot + k) (off + (tot + k)) (src + (tot + k))
        (synced (update disk1 a (filled m leaf src off tot (disk1 a) k))) ip1 := by
  have hmod : (off + tot) % BSIZE < BSIZE := Nat.mod_lt _ (by decide)
  have hlast := (hmap (k - 1) (by omega)).1
  simp only [Vm.MAXVA] at hlast
  have hnext : (src + (tot + k)) % 2 ^ 64 = src + (tot + k) := by omega
  rw [writeLoop, if_pos hlt, bmap_synced, hb]
  simp only [Option.map_some, if_neg h0, hk, copyin_mapped h hmap]
  simp only [show ¬(0 : Int) = -1 by decide, if_false, synced_edit, Nat.add_assoc off, Nat.add_assoc src, hnext]
  rfl

/-- A round that ends the loop with `c` bytes in the buffer. -/
theorem writeLoop_stop {c : Nat} (hck : c < k) (hc : ∀ x < c, Mapped leaf (src + tot + x))
    (hno : ¬Mapped leaf (src + tot + c)) (fuel : Nat) :
    writeLoop sb m t n (fuel + 1) tot (off + tot) (src + tot) (synced disk) ip =
      some (tot, off + tot, (synced disk1).edit a (filled m leaf src off tot (disk1 a) c), ip1) := by
  rw [writeLoop, if_pos hlt, bmap_synced, hb]
  simp only [Option.map_some, if_neg h0, hk, copyin_stops h hck hc hno, if_true, Nat.add_assoc src]
  rfl

end

variable {disk0 : Disk} {ino : Nat → Inode} {i : Nat} (hu : UserTable m t leaf nodes) (hi : i < sb.ninodes)
  (ht : (ino i).type ≠ 0) (hmax : off + n ≤ MAXFILE * BSIZE)
include hu hi ht hmax

/-- The loop ends after `s` bytes with `c` more in a buffer.  Those are the bytes that it could
write, but for a later byte that has to go to the same block and is not mapped. -/
theorem writeLoop_spec (fuel : Nat) : ∀ {tot : Nat} {disk : Disk} {ip : Inode}, n - tot ≤ fuel → tot ≤ n →
    Wrote sb disk0 ino i off (fun x => userByte m leaf (src + x)) tot disk ip →
    ∃ s c d a ip', writeLoop sb m t n fuel tot (off + tot) (src + tot) (synced disk) ip =
        some (s, off + s, (synced d).edit a (filled m leaf src off s (d a) c), ip') ∧ tot ≤ s ∧ s + c ≤ n ∧
      Wrote sb disk0 ino i off (fun x => userByte m leaf (src + x)) s d ip' ∧
      (∀ x < c, sb.nmeta ≤ a ∧ d a ((off + s) % BSIZE + x) = held disk0 (ino i) (off + (s + x))) ∧
      ∀ x e g, n = x + 1 + e → fuel = g + e → tot ≤ x →
        ((∃ z, x < z ∧ z < n ∧ (off + x) / BSIZE = (off + z) / BSIZE ∧ ¬Mapped leaf (src + z)) ∧
          (∃ r, writeLoop sb m t (x + 1) g tot (off + tot) (src + tot) (synced disk) ip = some (x + 1, r)) ↔
            s ≤ x ∧ x < s + c) := by
  -- a loop that ends here, with nothing left behind
  have hend : ∀ (tot : Nat) (d : Disk), synced d = (synced d).edit 0 (filled m leaf src off tot (d 0) 0) := by
    intro tot d
    rw [filled_eq_self fun x hx => absurd hx (Nat.not_lt_zero x), synced_edit_self]
  induction fuel with
  | zero =>
    intro tot disk ip hf htot hw
    exact ⟨tot, 0, disk, 0, ip, by rw [← hend]; rfl, le_rfl, htot, hw, nofun, fun x e g _ _ _ => by omega⟩
  | succ fuel ih =>
    intro tot disk ip hf htot hw
    by_cases hlt : tot < n
    swap
    · exact ⟨tot, 0, disk, 0, ip,
        by rw [← hend, writeLoop_done hlt], le_rfl, htot, hw, nofun, fun x e g _ _ _ => by omega⟩
    have hself : update ino i ip i = ip := update_self ..
    obtain ⟨a, disk1, ip1, hb, hg, ha, -⟩ := bmap_spec hw.owned hi (by rw [hself, hw.fields.1]; exact ht)
      (blockIndex_lt (show off + tot < MAXFILE * BSIZE by omega))
    rw [hself] at hb
    have hw1 := hw.grow hi ht hg
    have hmod : (off + tot) % BSIZE < BSIZE := Nat.mod_lt _ (by decide)
    -- a shorter loop that ends in this round has not written `x`
    have hstop : ∀ {x g : Nat} {q : Nat × Cache × Inode}, tot ≤ x →
        writeLoop sb m t (x + 1) g tot (off + tot) (src + tot) (synced disk) ip = some (tot, q) →
        ¬∃ r, writeLoop sb m t (x + 1) g tot (off + tot) (src + tot) (synced disk) ip = some (x + 1, r) := by
      rintro x g q hx hrun ⟨r, hr⟩
      have := congrArg Prod.fst (Option.some.inj (hrun.symm.trans hr))
      dsimp only at this
      omega
    by_cases h0 : a = 0
    · have hfull : ∀ {n' : Nat} (g : Nat), tot < n' →
          writeLoop sb m t n' (g + 1) tot (off + tot) (src + tot) (synced disk) ip =
            some (tot, off + tot, synced disk1, ip1) := by
        intro n' g hlt
        rw [writeLoop, if_pos hlt, bmap_synced, hb]
        exact if_pos h0
      refine ⟨tot, 0, disk1, 0, ip1, by rw [← hend, hfull fuel hlt], le_rfl, htot, hw1, nofun, fun x e g hn hg hx =>
        iff_of_false (fun hc => ?_) (by omega)⟩
      obtain ⟨g, rfl⟩ : ∃ g', g = g' + 1 := ⟨g - 1, by omega⟩
      exact hstop hx (hfull g (by omega)) hc.2
    obtain ⟨k, hk⟩ : ∃ k, min (n - tot) (BSIZE - (off + tot) % BSIZE) = k := ⟨_, rfl⟩
    obtain ⟨_, c, -, hmap, ⟨-, rfl⟩ | ⟨-, hck, hno⟩⟩ := Vm.copyin_spec hu.readTable (disk1 a) 0 (src + tot) k
    · obtain ⟨s, c', d, a', ip', hrun, hs, hsn, hw', hbytes, hiff⟩ :=
        @ih (tot + c) _ _ (by omega) (by omega) (hw1.copy hi ht (ha h0) h0 (by omega))
      refine ⟨s, c', d, a', ip', ?_, by omega, hsn, hw', hbytes, fun x e g hn hg hx => ?_⟩
      · rw [writeLoop_next hu hlt hb h0 hk hmap]
        exact hrun
      by_cases hxc : x < tot + c
      · refine iff_of_false ?_ (by omega)
        rintro ⟨⟨z, hxz, hz, hblk, hno⟩, -⟩
        refine hno ?_
        have := hmap (z - tot) (by unfold BSIZE at *; omega)
        rwa [Nat.add_assoc, Nat.add_sub_cancel' (by omega)] at this
      · -- a shorter write that goes on makes the same round
        obtain ⟨g, rfl⟩ : ∃ g', g = g' + 1 := ⟨g - 1, by omega⟩
        rw [writeLoop_next hu (by omega) hb h0 (by omega) hmap]
        exact hiff x e g hn (by omega) (by omega)
    · refine ⟨tot, c, disk1, a, ip1, writeLoop_stop hu hlt hb h0 hk hck hmap hno fuel, le_rfl,
        by omega, hw1, fun x hx => ?_,
        fun x e g hn hg hx => ?_⟩
      · have hrange := hw1.owned.range i (slotOf ((off + tot) / BSIZE)) hi
        rw [update_self, hw1.fields.1] at hrange
        have hblk : blk disk1 ip1 ((off + tot) / BSIZE) ≠ 0 := ha h0 ▸ h0
        have hheld := held_of_wrote hw1 hblk (x := x) (by omega)
        rw [ha h0] at hheld
        exact ⟨ha h0 ▸ (hrange ht hblk).1, hheld⟩
      · obtain ⟨g, rfl⟩ : ∃ g', g = g' + 1 := ⟨g - 1, by omega⟩
        constructor
        · refine fun hc => ⟨hx, Nat.lt_of_not_le fun hle => ?_⟩
          exact hstop hx (writeLoop_stop hu (by omega) hb h0 rfl (by omega) hmap hno g) hc.2
        · rintro ⟨-, hxc⟩
          refine ⟨⟨tot + c, hxc, by omega, by unfold BSIZE at *; omega, Nat.add_assoc src tot c ▸ hno⟩, ?_⟩
          -- a shorter write can end with each of the bytes copied
          have hx1 : tot + (x + 1 - tot) = x + 1 := by omega
          rw [writeLoop_next hu (by omega) hb h0 (k := x + 1 - tot) (by omega) fun y hy => hmap y (by omega),
            writeLoop_done (by omega), hx1]
          exact ⟨_, rfl⟩

end

section
variable {sb : Super} {m : Vm.Mem} {t : Nat} {leaf : Nat → Nat} {nodes : Multiset Nat} {n off src : Nat}

end

/-! ## A page boundary inside a block -/

end Xv6.Fs.Cached
