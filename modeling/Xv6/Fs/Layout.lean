import Mathlib.Data.Nat.Bitwise
import Mathlib.Tactic.IntervalCases
import Xv6.Param

/-!
# The disk layout

`kernel/fs.h` and the lowest part of `kernel/fs.c`, on the bytes of the disk:
inodes packed into the inode blocks, the free map, `balloc`, `bfree` and
`bzero`.  `Super` is the superblock, together with the order of the regions that
`mkfs` establishes: inode blocks, free map, data blocks.

Blocks are read and written through the log and the buffer cache; `disk` is the
store they make up (`Xv6.Log.Coherence`).
-/

namespace Xv6.Fs

open Function

def ROOTINO : Nat := 1

def NDIRECT : Nat := 12

def NINDIRECT : Nat := BSIZE / 4

def MAXFILE : Nat := NDIRECT + NINDIRECT

/-- Inodes per block. -/
def IPB : Nat := BSIZE / 64

/-- Bitmap bits per block. -/
def BPB : Nat := BSIZE * 8

structure Super where
  size : Nat
  ninodes : Nat
  inodestart : Nat
  bmapstart : Nat
  /-- The first data block: all blocks before it are metadata. -/
  nmeta : Nat
  inodes_le : inodestart + ninodes / IPB + 1 ≤ bmapstart
  bmap_le : bmapstart + size / BPB + 1 ≤ nmeta
  nmeta_pos : 0 < nmeta
  size_lt : size < 2 ^ 31
  ninodes_lt : ninodes < 2 ^ 16

theorem Super.bmapstart_lt (sb : Super) : sb.bmapstart < sb.nmeta :=
  Nat.lt_of_lt_of_le (Nat.lt_succ_of_le (Nat.le_add_right _ _)) sb.bmap_le

/-- An inode without its number, on the disk or in memory. -/
structure Inode where
  type : Nat
  major : Nat
  minor : Nat
  nlink : Nat
  size : Nat
  addrs : Fin 13 → Nat

/-- The fields fit their C types. -/
structure Inode.InRange (d : Inode) : Prop where
  type : d.type < 2 ^ 16
  major : d.major < 2 ^ 16
  minor : d.minor < 2 ^ 16
  nlink : d.nlink < 2 ^ 16
  size : d.size < 2 ^ 32
  addrs : ∀ j, d.addrs j < 2 ^ 32

/-! ## Inodes on the disk -/

section
variable (sb : Super)

/-- Block containing inode `i`. -/
def IBLOCK (i : Nat) : Nat := i / IPB + sb.inodestart

/-- Block of free map containing the bit for block `b`. -/
def BBLOCK (b : Nat) : Nat := b / BPB + sb.bmapstart

/-- Where `struct dinode` number `i` starts in its block. -/
def dinodeOff (i : Nat) : Nat := 64 * (i % IPB)

/-- `struct dinode`: offsets, widths and values. -/
def dinodeFields (d : Inode) : List (Nat × Nat × Nat) :=
  [(0, 2, d.type), (2, 2, d.major), (4, 2, d.minor), (6, 2, d.nlink), (8, 4, d.size)] ++
    (List.finRange 13).map fun j => (12 + 4 * j.val, 4, d.addrs j)

def getDinode (m : Block) (base : Nat) : Inode :=
  { type := Bytes.getLE m (base + 0) 2
    major := Bytes.getLE m (base + 2) 2
    minor := Bytes.getLE m (base + 4) 2
    nlink := Bytes.getLE m (base + 6) 2
    size := Bytes.getLE m (base + 8) 4
    addrs := fun j => Bytes.getLE m (base + (12 + 4 * j.val)) 4 }

def dinode (disk : Disk) (i : Nat) : Inode := getDinode (disk (IBLOCK sb i)) (dinodeOff i)

/-- Store `d` as inode `i`: `iupdate`, and the `memset` of `ialloc`. -/
def putDinode (disk : Disk) (i : Nat) (d : Inode) : Disk :=
  update disk (IBLOCK sb i)
    (Bytes.putFields (disk (IBLOCK sb i)) (dinodeOff i) (dinodeFields d))

end

theorem dinodeFields_within (d : Inode) : ∀ f ∈ dinodeFields d, f.1 + f.2.1 ≤ 64 := by
  intro f hf
  rw [dinodeFields, List.mem_append] at hf
  rcases hf with hf | hf
  · simp only [List.mem_cons, List.not_mem_nil, or_false] at hf
    rcases hf with rfl | rfl | rfl | rfl | rfl <;> simp
  · obtain ⟨j, _, rfl⟩ := List.mem_map.mp hf
    have := j.isLt
    simp only
    omega

theorem dinodeFields_apart (d : Inode) :
    (dinodeFields d).Pairwise fun f g => Bytes.Apart (f.1, f.2.1) (g.1, g.2.1) := by
  have h : ((dinodeFields d).map fun f => (f.1, f.2.1)).Pairwise Bytes.Apart := by
    have he : (dinodeFields d).map (fun f => (f.1, f.2.1)) =
        [(0, 2), (2, 2), (4, 2), (6, 2), (8, 4)] ++ (List.finRange 13).map fun j => (12 + 4 * j.val, 4) := by
      simp [dinodeFields]
    rw [he]
    decide
  exact List.pairwise_map.mp h

theorem getDinode_putFields (m : Block) (base : Nat) {d : Inode} (hd : d.InRange) :
    getDinode (Bytes.putFields m base (dinodeFields d)) base = d := by
  have hget : ∀ off k v, (off, k, v) ∈ dinodeFields d → v < 256 ^ k →
      Bytes.getLE (Bytes.putFields m base (dinodeFields d)) (base + off) k = v := by
    intro off k v hmem hv
    rw [Bytes.getLE_putFields m (dinodeFields_apart d) off k v hmem, Nat.mod_eq_of_lt hv]
  have h1 := hget 0 2 d.type (by simp [dinodeFields]) hd.type
  have h2 := hget 2 2 d.major (by simp [dinodeFields]) hd.major
  have h3 := hget 4 2 d.minor (by simp [dinodeFields]) hd.minor
  have h4 := hget 6 2 d.nlink (by simp [dinodeFields]) hd.nlink
  have h5 := hget 8 4 d.size (by simp [dinodeFields]) hd.size
  have h6 : ∀ j : Fin 13, Bytes.getLE (Bytes.putFields m base (dinodeFields d))
      (base + (12 + 4 * j.val)) 4 = d.addrs j := by
    intro j
    apply hget _ _ _ _ (hd.addrs j)
    rw [dinodeFields, List.mem_append]
    exact Or.inr (List.mem_map.mpr ⟨j, List.mem_finRange j, rfl⟩)
  unfold getDinode
  rw [h1, h2, h3, h4, h5]
  simp only [h6]

theorem getDinode_inRange (m : Block) (base : Nat) : (getDinode m base).InRange :=
  ⟨Bytes.getLE_lt _ _ 2, Bytes.getLE_lt _ _ 2, Bytes.getLE_lt _ _ 2, Bytes.getLE_lt _ _ 2,
    Bytes.getLE_lt _ _ 4, fun _ => Bytes.getLE_lt _ _ 4⟩

theorem dinode_inRange (sb : Super) (disk : Disk) (i : Nat) : (dinode sb disk i).InRange :=
  getDinode_inRange _ _

theorem getDinode_congr {m m' : Block} {base : Nat} (h : ∀ x, base ≤ x → x < base + 64 → m x = m' x) :
    getDinode m base = getDinode m' base := by
  have hg : ∀ off k, off + k ≤ 64 → Bytes.getLE m (base + off) k = Bytes.getLE m' (base + off) k := by
    intro off k hk
    apply Bytes.getLE_congr
    intro x h1 h2
    exact h x (by omega) (by omega)
  have ha : ∀ j : Fin 13, Bytes.getLE m (base + (12 + 4 * j.val)) 4 =
      Bytes.getLE m' (base + (12 + 4 * j.val)) 4 := by
    intro j
    have := j.isLt
    exact hg _ _ (by omega)
  unfold getDinode
  rw [hg 0 2 (by omega), hg 2 2 (by omega), hg 4 2 (by omega), hg 6 2 (by omega), hg 8 4 (by omega)]
  simp only [ha]

section
variable {sb : Super} {disk : Disk} {i j : Nat}

theorem dinode_putDinode_self {d : Inode} (hd : d.InRange) : dinode sb (putDinode sb disk i d) i = d := by
  rw [dinode, putDinode, update_self]
  exact getDinode_putFields _ _ hd

/-- Two inodes in one block occupy different 64-byte slots. -/
theorem dinode_putDinode_of_ne (hij : j ≠ i) (d : Inode) : dinode sb (putDinode sb disk i d) j = dinode sb disk j := by
  rw [dinode, dinode, putDinode]
  by_cases hb : IBLOCK sb j = IBLOCK sb i
  · rw [hb, update_self]
    apply getDinode_congr
    intro x h1 h2
    apply Bytes.putFields_of_outside
    intro f hf
    have hw := dinodeFields_within d f hf
    have hdiv : j / IPB = i / IPB := by
      unfold IBLOCK at hb
      omega
    have hmod : j % IPB ≠ i % IPB := by
      intro hm
      apply hij
      rw [← Nat.div_add_mod j IPB, ← Nat.div_add_mod i IPB, hdiv, hm]
    unfold dinodeOff at h1 h2 ⊢
    omega
  · rw [update_of_ne hb]

theorem putDinode_of_ne {b : Nat} (hb : b ≠ IBLOCK sb i) (d : Inode) : putDinode sb disk i d b = disk b :=
  update_of_ne hb _ _

theorem IBLOCK_lt (hi : i < sb.ninodes) : IBLOCK sb i < sb.bmapstart := by
  have h1 := sb.inodes_le
  have h2 : i / IPB ≤ sb.ninodes / IPB := Nat.div_le_div_right (Nat.le_of_lt hi)
  unfold IBLOCK
  omega

theorem BBLOCK_lt {b : Nat} (hb : b < sb.size) : BBLOCK sb b < sb.nmeta ∧ sb.bmapstart ≤ BBLOCK sb b := by
  have h1 := sb.bmap_le
  have h2 : b / BPB ≤ sb.size / BPB := Nat.div_le_div_right (Nat.le_of_lt hb)
  unfold BBLOCK
  exact ⟨by omega, Nat.le_add_left _ _⟩

theorem dinode_congr {disk' : Disk} (h : disk' (IBLOCK sb i) = disk (IBLOCK sb i)) :
    dinode sb disk' i = dinode sb disk i := by
  rw [dinode, dinode, h]

end

/-! ## The free map -/

/-- The bit for number `bi` in a block of the free map. -/
def bitSet (m : Block) (bi : Nat) : Bool := (m (bi / 8)).toNat.testBit (bi % 8)

/-- `bp->data[bi/8] |= m`. -/
def setBit (m : Block) (bi : Nat) : Block :=
  update m (bi / 8) (UInt8.ofNat ((m (bi / 8)).toNat ||| 1 <<< (bi % 8)))

/-- `bp->data[bi/8] &= ~m`. -/
def clearBit (m : Block) (bi : Nat) : Block :=
  update m (bi / 8) (UInt8.ofNat ((m (bi / 8)).toNat &&& (255 - 1 <<< (bi % 8))))

theorem testBit_ofNat {n j : Nat} (hj : j < 8) : (UInt8.ofNat n).toNat.testBit j = n.testBit j := by
  rw [UInt8.toNat_ofNat', Nat.testBit_mod_two_pow]
  simp [hj]

theorem bit_ne {bi bj : Nat} (h : bj ≠ bi) (hb : bj / 8 = bi / 8) : bi % 8 ≠ bj % 8 := by omega

theorem bitSet_setBit (m : Block) (bi bj : Nat) : bitSet (setBit m bi) bj = if bj = bi then true else bitSet m bj := by
  unfold bitSet setBit
  by_cases hb : bj / 8 = bi / 8
  · rw [hb, update_self, testBit_ofNat (Nat.mod_lt _ (by decide)), Nat.testBit_or,
      Nat.one_shiftLeft, Nat.testBit_two_pow]
    by_cases h : bj = bi
    · simp [h]
    · simp [h, bit_ne h hb]
  · rw [update_of_ne hb, if_neg]
    rintro rfl
    exact hb rfl

theorem eq_of_bitSet {m m' : Block} (h : ∀ bi, bitSet m bi = bitSet m' bi) : m = m' := by
  funext x
  refine UInt8.toNat_inj.1 (Nat.eq_of_testBit_eq fun j => ?_)
  by_cases hj : j < 8
  · have hb := h (8 * x + j)
    rwa [bitSet, bitSet, show (8 * x + j) / 8 = x by omega, show (8 * x + j) % 8 = j by omega] at hb
  · have hlt : ∀ c : UInt8, c.toNat < 2 ^ j := fun c =>
      Nat.lt_of_lt_of_le (UInt8.toNat_lt c) (Nat.pow_le_pow_right (by decide) (Nat.not_lt.1 hj))
    rw [Nat.testBit_lt_two_pow (hlt _), Nat.testBit_lt_two_pow (hlt _)]

theorem bitSet_clearBit (m : Block) (bi bj : Nat) :
    bitSet (clearBit m bi) bj = if bj = bi then false else bitSet m bj := by
  unfold bitSet clearBit
  by_cases hb : bj / 8 = bi / 8
  · have hlt : 2 ^ (bi % 8) < 2 ^ 8 := Nat.pow_lt_pow_right (by decide) (Nat.mod_lt _ (by decide))
    have hmask : 255 - 1 <<< (bi % 8) = 2 ^ 8 - (2 ^ (bi % 8) + 1) := by
      rw [Nat.one_shiftLeft]
      omega
    have hj : bj % 8 < 8 := Nat.mod_lt _ (by decide)
    rw [hb, update_self, testBit_ofNat hj, Nat.testBit_and, hmask,
      Nat.testBit_two_pow_sub_succ hlt, Nat.testBit_two_pow]
    by_cases h : bj = bi
    · simp [h]
    · simp [h, bit_ne h hb, hj]
  · rw [update_of_ne hb, if_neg]
    rintro rfl
    exact hb rfl

section
variable (sb : Super)

/-- Whether block `b` is marked in use. -/
def inUse (disk : Disk) (b : Nat) : Bool := bitSet (disk (BBLOCK sb b)) (b % BPB)

def Full (disk : Disk) : Prop := ∀ b, b < sb.size → inUse sb disk b = true

/-- The inner loop of `balloc` over the bits of one block of the map, from `bi` on. -/
def scanBlock (m : Block) (b : Nat) : Nat → Nat → Option Nat
  | 0, _ => none
  | fuel + 1, bi =>
    if bi < BPB ∧ b + bi < sb.size then
      if bitSet m bi = false then some bi else scanBlock m b fuel (bi + 1)
    else none

/-- The outer loop of `balloc`, from `b` on: the block it finds free. -/
def scanMap (disk : Disk) : Nat → Nat → Option Nat
  | 0, _ => none
  | fuel + 1, b =>
    if b < sb.size then
      match scanBlock sb (disk (BBLOCK sb b)) b BPB 0 with
      | some bi => some (b + bi)
      | none => scanMap disk fuel (b + BPB)
    else none

def zeroBlock : Block := fun _ => 0

def bzero (disk : Disk) (b : Nat) : Disk := update disk b zeroBlock

/-- Mark block `b` and clear it. -/
def take (disk : Disk) (b : Nat) : Disk :=
  bzero (update disk (BBLOCK sb b) (setBit (disk (BBLOCK sb b)) (b % BPB))) b

/-- `balloc`: the new block, or 0. -/
def balloc (disk : Disk) : Nat × Disk :=
  match scanMap sb disk (sb.size / BPB + 1) 0 with
  | some b => (b, take sb disk b)
  | none => (0, disk)

/-- `bfree`; `none` is the panic "freeing free block". -/
def bfree (disk : Disk) (b : Nat) : Option Disk :=
  if inUse sb disk b = false then none
  else some (update disk (BBLOCK sb b) (clearBit (disk (BBLOCK sb b)) (b % BPB)))

end

section
variable {sb : Super} {disk : Disk}

variable {b : Nat} {m : Block}

theorem scanBlock_some : ∀ {fuel bi x : Nat}, scanBlock sb m b fuel bi = some x →
    x < BPB ∧ b + x < sb.size ∧ bitSet m x = false ∧ ∀ y, bi ≤ y → y < x → bitSet m y = true := by
  intro fuel
  induction fuel with
  | zero => intro bi x h; cases h
  | succ fuel ih =>
    intro bi x h
    unfold scanBlock at h
    split at h
    · next hb =>
      split at h
      · next hbit =>
        cases h
        exact ⟨hb.1, hb.2, hbit, fun y h1 h2 => absurd h2 (Nat.not_lt.2 h1)⟩
      · next hbit =>
        obtain ⟨h1, h2, h3, h4⟩ := ih h
        refine ⟨h1, h2, h3, fun y hy hlt => ?_⟩
        rcases Nat.eq_or_lt_of_le hy with rfl | hy
        · exact Bool.eq_true_of_not_eq_false hbit
        · exact h4 y hy hlt
    · cases h

theorem inUse_within {bi : Nat} (hb : b % BPB = 0) (hbi : bi < BPB) :
    inUse sb disk (b + bi) = bitSet (disk (BBLOCK sb b)) bi := by
  have hdiv : (b + bi) / BPB = b / BPB := by
    unfold BPB BSIZE at *
    omega
  have hmod : (b + bi) % BPB = bi := by
    unfold BPB BSIZE at *
    omega
  rw [inUse, BBLOCK, hdiv, hmod, BBLOCK]

theorem scanBlock_none : ∀ {fuel bi : Nat}, scanBlock sb m b fuel bi = none →
    ∀ x, bi ≤ x → x < bi + fuel → x < BPB → b + x < sb.size → bitSet m x = true := by
  intro fuel
  induction fuel with
  | zero => intro bi _ x h1 h2; omega
  | succ fuel ih =>
    intro bi h x h1 h2 h3 h4
    unfold scanBlock at h
    rw [if_pos ⟨by omega, by omega⟩] at h
    split at h
    · cases h
    · next hbit =>
      by_cases hx : x = bi
      · rw [hx]
        exact Bool.eq_true_of_not_eq_false hbit
      · exact ih h x (by omega) (by omega) h3 h4

theorem scanMap_some : ∀ {fuel b x : Nat}, b % BPB = 0 → scanMap sb disk fuel b = some x →
    x < sb.size ∧ inUse sb disk x = false ∧ ∀ y, b ≤ y → y < x → inUse sb disk y = true := by
  intro fuel
  induction fuel with
  | zero => intro b x _ h; cases h
  | succ fuel ih =>
    intro b x hb h
    unfold scanMap at h
    split at h
    · split at h
      · next bi hbi =>
        cases h
        obtain ⟨h1, h2, h3, h4⟩ := scanBlock_some hbi
        refine ⟨h2, by rw [inUse_within hb h1, h3], fun y hy hlt => ?_⟩
        obtain ⟨j, rfl⟩ := Nat.exists_eq_add_of_le hy
        rw [inUse_within hb (by omega)]
        exact h4 j (Nat.zero_le j) (by omega)
      · next hlt hnone =>
        obtain ⟨h1, h2, h3⟩ := ih (by rw [Nat.add_mod_right, hb]) h
        refine ⟨h1, h2, fun y hy hyx => ?_⟩
        by_cases hin : y < b + BPB
        · obtain ⟨j, rfl⟩ := Nat.exists_eq_add_of_le hy
          rw [inUse_within hb (by omega)]
          exact scanBlock_none hnone j (Nat.zero_le j) (by omega) (by omega) (by omega)
        · exact h3 y (by omega) hyx
    · cases h

theorem scanMap_none : ∀ {fuel b : Nat}, b % BPB = 0 → scanMap sb disk fuel b = none →
    ∀ x, b ≤ x → x < b + fuel * BPB → x < sb.size → inUse sb disk x = true := by
  intro fuel
  induction fuel with
  | zero => intro b _ _ x h1 h2; omega
  | succ fuel ih =>
    intro b hb h x h1 h2 h3
    unfold scanMap at h
    rw [if_pos (by omega)] at h
    split at h
    · cases h
    · next hnone =>
      by_cases hx : x < b + BPB
      · obtain ⟨j, rfl⟩ := Nat.exists_eq_add_of_le h1
        rw [inUse_within hb (by omega)]
        exact scanBlock_none hnone j (Nat.zero_le j) (by omega) (by omega) h3
      · rw [Nat.succ_mul] at h2
        exact ih (by rw [Nat.add_mod_right, hb]) h x (by omega) (by omega) h3

/-- `balloc` returns 0, with the disk as it was, when every block is in use;
otherwise it marks and clears the first free block. -/
theorem balloc_cases (sb : Super) (disk : Disk) : (balloc sb disk = (0, disk) ∧ Full sb disk) ∨
    ∃ b, b < sb.size ∧ inUse sb disk b = false ∧ (∀ c, c < b → inUse sb disk c = true) ∧
      balloc sb disk = (b, take sb disk b) := by
  unfold balloc
  split
  · next b hb =>
    obtain ⟨h1, h2, h3⟩ := scanMap_some (Nat.zero_mod _) hb
    exact Or.inr ⟨b, h1, h2, fun c hc => h3 c (Nat.zero_le c) hc, rfl⟩
  · next hnone =>
    refine Or.inl ⟨rfl, fun b hb => scanMap_none (Nat.zero_mod _) hnone b (Nat.zero_le b) ?_ hb⟩
    have hlt := Nat.lt_mul_div_succ sb.size (show 0 < BPB by decide)
    rw [Nat.mul_comm BPB] at hlt
    omega

theorem inUse_update {c : Nat} {v : Bool}
    (hm : ∀ bj, bitSet m bj = if bj = b % BPB then v else bitSet (disk (BBLOCK sb b)) bj) :
    inUse sb (update disk (BBLOCK sb b) m) c = if c = b then v else inUse sb disk c := by
  unfold inUse
  by_cases hb : BBLOCK sb c = BBLOCK sb b
  · rw [hb, update_self, hm]
    have hdiv : c / BPB = b / BPB := by
      unfold BBLOCK at hb
      omega
    by_cases hc : c = b
    · rw [hc, if_pos rfl, if_pos rfl]
    · have hmod : c % BPB ≠ b % BPB := by
        intro he
        exact hc (by rw [← Nat.div_add_mod c BPB, ← Nat.div_add_mod b BPB, hdiv, he])
      rw [if_neg hc, if_neg hmod]
  · rw [update_of_ne hb, if_neg]
    rintro rfl
    exact hb rfl

theorem inUse_congr {disk' : Disk} (h : disk' (BBLOCK sb b) = disk (BBLOCK sb b)) :
    inUse sb disk' b = inUse sb disk b := by
  rw [inUse, inUse, h]

theorem inUse_take {c : Nat} (hb : sb.nmeta ≤ b) (hc : c < sb.size) :
    inUse sb (take sb disk b) c = if c = b then true else inUse sb disk c := by
  have hne : BBLOCK sb c ≠ b := by
    have := (BBLOCK_lt hc).1
    omega
  have h1 : inUse sb (take sb disk b) c =
      inUse sb (update disk (BBLOCK sb b) (setBit (disk (BBLOCK sb b)) (b % BPB))) c :=
    inUse_congr (update_of_ne hne _ _)
  rw [h1]
  exact inUse_update fun bj => bitSet_setBit _ _ bj

theorem bfree_some (hb : b < sb.size) (hu : inUse sb disk b = true) : ∃ disk', bfree sb disk b = some disk' ∧
      (∀ c, inUse sb disk' c = if c = b then false else inUse sb disk c) ∧
      ∀ x, (x < sb.bmapstart ∨ sb.nmeta ≤ x) → disk' x = disk x := by
  refine ⟨update disk (BBLOCK sb b) (clearBit (disk (BBLOCK sb b)) (b % BPB)), ?_, ?_, ?_⟩
  · rw [bfree, hu, if_neg (by decide)]
  · exact fun c => inUse_update fun bj => bitSet_clearBit _ _ bj
  · intro x hx
    obtain ⟨h1, h2⟩ := BBLOCK_lt hb
    exact update_of_ne (by omega) _ _

theorem take_self (b : Nat) : take sb disk b b = zeroBlock := update_self ..

theorem take_of_ne {x : Nat} (hb : b < sb.size) (hx : x ≠ b) (hr : x < sb.bmapstart ∨ sb.nmeta ≤ x) :
    take sb disk b x = disk x := by
  obtain ⟨h1, h2⟩ := BBLOCK_lt hb
  unfold take bzero
  rw [update_of_ne hx, update_of_ne (by omega)]

end

/-! ## The allocator on the map -/

/-- What the free map gives and takes back on this disk. -/
structure ExactMap (sb : Super) (disk : Disk) : Prop where
  /-- 0 is the answer exactly when no block is free, and then nothing changes. -/
  zero_iff : (balloc sb disk).1 = 0 ↔ Full sb disk
  full : Full sb disk → balloc sb disk = (0, disk)
  /-- Otherwise the first free block is marked and cleared. -/
  first : ¬ Full sb disk → ∃ b disk', balloc sb disk = (b, disk') ∧ b < sb.size ∧ inUse sb disk b = false ∧
    (∀ c, c < b → inUse sb disk c = true) ∧
    (∀ bj, bitSet (disk' (BBLOCK sb b)) bj = if bj = b % BPB then true else bitSet (disk (BBLOCK sb b)) bj) ∧
    disk' b = zeroBlock ∧ ∀ x, x ≠ b → x ≠ BBLOCK sb b → disk' x = disk x
  /-- The bits past the end of the disk play no part. -/
  below : ∀ disk', (∀ c, c < sb.size → inUse sb disk' c = inUse sb disk c) →
    (balloc sb disk').1 = (balloc sb disk).1
  bfree_exact : ∀ b, b < sb.size → inUse sb disk b = true → ∃ disk', bfree sb disk b = some disk' ∧
    (∀ bj, bitSet (disk' (BBLOCK sb b)) bj = if bj = b % BPB then false else bitSet (disk (BBLOCK sb b)) bj) ∧
    ∀ x, x ≠ BBLOCK sb b → disk' x = disk x
  back : ¬ Full sb disk → ∃ disk', bfree sb (balloc sb disk).2 (balloc sb disk).1 = some disk' ∧
    ∀ c, c < sb.size → disk' (BBLOCK sb c) = disk (BBLOCK sb c)

section
variable {sb : Super} {disk : Disk}

variable {b : Nat}

theorem not_full (hb : b < sb.size) (hf : inUse sb disk b = false) : ¬ Full sb disk := by
  intro hfull
  rw [hfull b hb] at hf
  cases hf

theorem balloc_full (h : Full sb disk) : balloc sb disk = (0, disk) := by
  rcases balloc_cases sb disk with ⟨he, _⟩ | ⟨b, hb, hf, _, _⟩
  · exact he
  · exact absurd h (not_full hb hf)

theorem balloc_below {disk' : Disk} (h : ∀ c, c < sb.size → inUse sb disk' c = inUse sb disk c) :
    (balloc sb disk').1 = (balloc sb disk).1 := by
  by_cases hfull : Full sb disk
  · rw [balloc_full hfull, balloc_full fun c hc => (h c hc).trans (hfull c hc)]
  rcases balloc_cases sb disk with ⟨_, hf⟩ | ⟨b, hb, hf, hlow, he⟩
  · exact absurd hf hfull
  rcases balloc_cases sb disk' with ⟨_, hf'⟩ | ⟨b', hb', hf', hlow', he'⟩
  · exact absurd (fun c hc => (h c hc).symm.trans (hf' c hc)) hfull
  rw [he, he']
  rcases Nat.lt_trichotomy b' b with hlt | heq | hlt
  · rw [h b' hb', hlow b' hlt] at hf'
    cases hf'
  · exact heq
  · rw [← h b hb, hlow' b hlt] at hf
    cases hf

theorem take_map {c : Nat} (hne : BBLOCK sb c ≠ b) : take sb disk b (BBLOCK sb c) =
      update disk (BBLOCK sb b) (setBit (disk (BBLOCK sb b)) (b % BPB)) (BBLOCK sb c) :=
  update_of_ne hne _ _

theorem bfree_take (hf : inUse sb disk b = false) (hmap : ∀ c, c < sb.size → BBLOCK sb c ≠ b)
    (hb : b < sb.size) : ∃ disk', bfree sb (take sb disk b) b = some disk' ∧
      ∀ c, c < sb.size → disk' (BBLOCK sb c) = disk (BBLOCK sb c) := by
  have hset : take sb disk b (BBLOCK sb b) = setBit (disk (BBLOCK sb b)) (b % BPB) := by
    rw [take_map (hmap b hb), update_self]
  have hu : inUse sb (take sb disk b) b = true := by
    rw [inUse, hset, bitSet_setBit, if_pos rfl]
  refine ⟨_, by rw [bfree, hu, if_neg (by decide)], fun c hc => ?_⟩
  by_cases hbc : BBLOCK sb c = BBLOCK sb b
  · rw [hbc, update_self, hset]
    refine eq_of_bitSet fun bj => ?_
    rw [bitSet_clearBit, bitSet_setBit]
    by_cases hj : bj = b % BPB
    · rw [if_pos hj, hj]
      exact hf.symm
    · rw [if_neg hj, if_neg hj]
  · rw [update_of_ne hbc, take_map (hmap c hc), update_of_ne hbc]

end

/-- Bitmap allocation is exact, on a disk whose map marks block 0 and its own blocks. -/
theorem bitmap_exact (sb : Super) (disk : Disk) (h0 : inUse sb disk 0 = true)
    (hmap : ∀ c, c < sb.size → BBLOCK sb c < sb.size → inUse sb disk (BBLOCK sb c) = true) : ExactMap sb disk := by
  have hapart : ∀ {b}, b < sb.size → inUse sb disk b = false → ∀ c, c < sb.size → BBLOCK sb c ≠ b := by
    rintro b hb hf c hc rfl
    rw [hmap c hc hb] at hf
    cases hf
  constructor
  case zero_iff =>
    refine ⟨fun h => ?_, fun h => by rw [balloc_full h]⟩
    rcases balloc_cases sb disk with ⟨_, hfull⟩ | ⟨b, _, hf, _, he⟩
    · exact hfull
    · rw [he] at h
      rw [show b = 0 from h, h0] at hf
      cases hf
  case full => exact balloc_full
  case first =>
    intro hn
    rcases balloc_cases sb disk with ⟨_, hfull⟩ | ⟨b, hb, hf, hlow, he⟩
    · exact absurd hfull hn
    refine ⟨b, _, he, hb, hf, hlow, fun bj => ?_, take_self b, fun x hx hm => ?_⟩
    · rw [take_map (hapart hb hf b hb), update_self, bitSet_setBit]
    · exact (update_of_ne hx _ _).trans (update_of_ne hm _ _)
  case below => exact fun _ h => balloc_below h
  case bfree_exact =>
    intro b _ hu
    refine ⟨_, by rw [bfree, hu, if_neg (by decide)], fun bj => ?_, fun x hx => update_of_ne hx _ _⟩
    rw [update_self, bitSet_clearBit]
  case back =>
    intro hn
    rcases balloc_cases sb disk with ⟨_, hfull⟩ | ⟨b, hb, hf, _, he⟩
    · exact absurd hfull hn
    rw [he]
    exact bfree_take hf (hapart hb hf) hb

theorem bitmap_exact_three : ExactMap ⟨8, 1, 1, 2, 3, by decide, by decide, by decide, by decide, by decide⟩
    (fun b _ => if b = 2 then 7 else 0) :=
  bitmap_exact _ _ (by decide) (by decide)

end Xv6.Fs
