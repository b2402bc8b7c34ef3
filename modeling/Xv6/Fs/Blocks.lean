import Mathlib.Data.List.FinRange
import Xv6.Fs.Layout

/-!
# The blocks of an inode

`bmap` and `itrunc` of `kernel/fs.c`.  An inode refers to blocks from its
`Slot`s: the 13 entries of `addrs` and, when `addrs[NDIRECT]` is set, the 256
entries of the indirect block.  `Owned sb disk ino` says, for the current
inodes `ino`, that every slot of an allocated inode is empty or holds a data
block, that no block stands in two slots, and that the free map marks exactly the
metadata and the blocks that stand in some slot.  `bmap` and `itrunc` keep it
(`bmap_spec`, `itrunc_spec`), and neither touches a block of another inode.
-/

namespace Xv6.Fs

open Function

inductive Slot
  | addr (j : Fin 13)
  | entry (j : Nat)
  deriving DecidableEq

def indirect : Fin 13 := 12

/-- `a[j]` of an indirect block. -/
def entryAt (m : Block) (j : Nat) : Nat := Bytes.getLE m (4 * j) 4

def slotBlock (disk : Disk) (ip : Inode) : Slot → Nat
  | .addr j => ip.addrs j
  | .entry j => if ip.addrs indirect = 0 ∨ NINDIRECT ≤ j then 0 else entryAt (disk (ip.addrs indirect)) j

theorem direct_lt {bn : Nat} (h : bn < 12) : bn < 13 := Nat.lt_trans h (by decide)

/-- The slot of the `bn`th block of an inode. -/
def slotOf (bn : Nat) : Slot :=
  if h : bn < 12 then .addr ⟨bn, Nat.lt_trans h (by decide)⟩ else .entry (bn - 12)

/-- The `bn`th block of an inode, or 0. -/
def blk (disk : Disk) (ip : Inode) (bn : Nat) : Nat := slotBlock disk ip (slotOf bn)

/-! ## `kernel/fs.c` -/

section
variable (sb : Super)

def setAddr (ip : Inode) (j : Fin 13) (a : Nat) : Inode := { ip with addrs := update ip.addrs j a }

/-- The block in `addrs[j]`, allocated if there is none: the address, 0 on failure. -/
def loadAddr (disk : Disk) (ip : Inode) (j : Fin 13) : Nat × Disk × Inode :=
  if ip.addrs j = 0 then
    if (balloc sb disk).1 = 0 then (0, (balloc sb disk).2, ip)
    else ((balloc sb disk).1, (balloc sb disk).2, setAddr ip j (balloc sb disk).1)
  else (ip.addrs j, disk, ip)

/-- The block in entry `j` of the indirect block `a`, allocated if there is none. -/
def loadEntry (disk : Disk) (a j : Nat) : Nat × Disk :=
  if entryAt (disk a) j = 0 then
    if (balloc sb disk).1 = 0 then (0, (balloc sb disk).2)
    else ((balloc sb disk).1, update (balloc sb disk).2 a
      (Bytes.putLE ((balloc sb disk).2 a) (4 * j) 4 (balloc sb disk).1))
  else (entryAt (disk a) j, disk)

/-- `bmap`; `none` is the panic "bmap: out of range". -/
def bmap (disk : Disk) (ip : Inode) (bn : Nat) : Option (Nat × Disk × Inode) :=
  if h : bn < 12 then some (loadAddr sb disk ip ⟨bn, Nat.lt_trans h (by decide)⟩)
  else if bn - 12 < NINDIRECT then
    match loadAddr sb disk ip indirect with
    | (0, disk, ip) => some (0, disk, ip)
    | (a, disk, ip) => some ((loadEntry sb disk a (bn - 12)).1, (loadEntry sb disk a (bn - 12)).2, ip)
  else none

def bfreeAll (disk : Disk) : List Nat → Option Disk
  | [] => some disk
  | b :: bs =>
    if b = 0 then bfreeAll disk bs
    else
      match bfree sb disk b with
      | some disk => bfreeAll disk bs
      | none => none

def directBlocks (ip : Inode) : List Nat := (List.finRange 12).map fun j => ip.addrs j.castSucc

def indirectBlocks (m : Block) : List Nat := (List.range NINDIRECT).map (entryAt m)

/-- The second half of `itrunc`: the blocks in the indirect block, and that block. -/
def freeIndirect (disk : Disk) (a : Nat) : Option Disk :=
  if a = 0 then some disk
  else (bfreeAll sb disk (indirectBlocks (disk a))).bind fun disk => bfree sb disk a

def emptied (ip : Inode) : Inode := { ip with addrs := fun _ => 0, size := 0 }

/-- `itrunc` of inode `i`: free the direct blocks, the blocks in the indirect
block, the indirect block, and write the inode. -/
def itrunc (disk : Disk) (i : Nat) (ip : Inode) : Option (Disk × Inode) :=
  (bfreeAll sb disk (directBlocks ip)).bind fun disk =>
    (freeIndirect sb disk (ip.addrs indirect)).bind fun disk =>
      some (putDinode sb disk i (emptied ip), emptied ip)

end

/-! ## Ownership -/

/-- Block `b` stands in a slot of an allocated inode. -/
def Referenced (sb : Super) (disk : Disk) (ino : Nat → Inode) (b : Nat) : Prop :=
  ∃ i, i < sb.ninodes ∧ (ino i).type ≠ 0 ∧ ∃ s, slotBlock disk (ino i) s = b

structure Owned (sb : Super) (disk : Disk) (ino : Nat → Inode) : Prop where
  range : ∀ i s, i < sb.ninodes → (ino i).type ≠ 0 → slotBlock disk (ino i) s ≠ 0 →
    sb.nmeta ≤ slotBlock disk (ino i) s ∧ slotBlock disk (ino i) s < sb.size
  inj : ∀ i s i' s', i < sb.ninodes → i' < sb.ninodes → (ino i).type ≠ 0 → (ino i').type ≠ 0 →
    slotBlock disk (ino i) s ≠ 0 → slotBlock disk (ino i) s = slotBlock disk (ino i') s' → i = i' ∧ s = s'
  bits : ∀ b, b < sb.size → (inUse sb disk b = true ↔ b < sb.nmeta ∨ Referenced sb disk ino b)

variable {ip : Inode} {i : Nat} {b : Nat} {ip' : Inode}

section
variable {sb : Super} {disk disk' : Disk} {ino : Nat → Inode}

theorem slotBlock_entry {j : Nat} (h : ip.addrs indirect ≠ 0) (hj : j < NINDIRECT) :
    slotBlock disk ip (.entry j) = entryAt (disk (ip.addrs indirect)) j := by
  rw [slotBlock, if_neg]
  omega

theorem slotBlock_entry_zero {j : Nat} (h : ip.addrs indirect = 0 ∨ NINDIRECT ≤ j) :
    slotBlock disk ip (.entry j) = 0 := by
  rw [slotBlock, if_pos h]

theorem slotBlock_congr (h : ip.addrs indirect ≠ 0 → disk' (ip.addrs indirect) = disk (ip.addrs indirect)) (s : Slot) :
    slotBlock disk' ip s = slotBlock disk ip s := by
  cases s with
  | addr j => rfl
  | entry j =>
    by_cases h0 : ip.addrs indirect = 0
    · rw [slotBlock_entry_zero (Or.inl h0), slotBlock_entry_zero (Or.inl h0)]
    · rw [slotBlock, slotBlock, h h0]

theorem Owned.slot_inUse (h : Owned sb disk ino) {s : Slot} (hi : i < sb.ninodes)
    (ht : (ino i).type ≠ 0) (h0 : slotBlock disk (ino i) s ≠ 0) : Fs.inUse sb disk (slotBlock disk (ino i) s) = true :=
  (h.bits _ (h.range i s hi ht h0).2).mpr (Or.inr ⟨i, hi, ht, s, rfl⟩)

section
variable (h : Owned sb disk ino) (hb : b < sb.size) (hf : Fs.inUse sb disk b = false)
include h hb hf

theorem Owned.free : sb.nmeta ≤ b ∧ ¬ Referenced sb disk ino b := by
  have hn : ¬ (b < sb.nmeta ∨ Referenced sb disk ino b) := by
    rw [← h.bits b hb, hf]
    exact Bool.false_ne_true
  exact ⟨Nat.le_of_not_lt fun hl => hn (Or.inl hl), fun hr => hn (Or.inr hr)⟩

theorem Owned.slot_ne (hi : i < sb.ninodes) (ht : (ino i).type ≠ 0) (s : Slot) : slotBlock disk (ino i) s ≠ b :=
  fun he => (h.free hb hf).2 ⟨i, hi, ht, s, he⟩

theorem Owned.slotBlock_take (hi : i < sb.ninodes) (ht : (ino i).type ≠ 0) (s : Slot) :
    slotBlock (take sb disk b) (ino i) s = slotBlock disk (ino i) s := by
  apply slotBlock_congr
  intro h0
  exact take_of_ne hb (h.slot_ne hb hf hi ht (.addr indirect)) (Or.inr (h.range i (.addr indirect) hi ht h0).1)

end

theorem Owned.put (h : Owned sb disk ino) {s0 : Slot} (hi : i < sb.ninodes)
    (ht : (ino i).type ≠ 0) (ht' : ip'.type ≠ 0) (hb : b < sb.size) (hf : Fs.inUse sb disk b = false)
    (hempty : slotBlock disk (ino i) s0 = 0) (hnew : slotBlock disk' ip' s0 = b)
    (hsame : ∀ s, s ≠ s0 → slotBlock disk' ip' s = slotBlock disk (ino i) s)
    (hother : ∀ i', i' < sb.ninodes → (ino i').type ≠ 0 → i' ≠ i →
      ∀ s, slotBlock disk' (ino i') s = slotBlock disk (ino i') s)
    (hbits : ∀ c, c < sb.size → Fs.inUse sb disk' c = if c = b then true else Fs.inUse sb disk c) :
    Owned sb disk' (update ino i ip') := by
  have hty : ∀ i', (update ino i ip' i').type ≠ 0 → (ino i').type ≠ 0 := by
    intro i' ht1
    by_cases hii : i' = i
    · rw [hii]
      exact ht
    · rwa [update_of_ne hii] at ht1
  -- every slot is the new one or has its old block
  have hcase : ∀ i' s, i' < sb.ninodes → (ino i').type ≠ 0 →
      (i' = i ∧ s = s0 ∧ slotBlock disk' (update ino i ip' i') s = b) ∨
        (¬ (i' = i ∧ s = s0) ∧
          slotBlock disk' (update ino i ip' i') s = slotBlock disk (ino i') s) := by
    intro i' s hi' ht1
    by_cases hii : i' = i
    · subst hii
      rw [update_self]
      by_cases hs : s = s0
      · exact Or.inl ⟨rfl, hs, by rw [hs, hnew]⟩
      · exact Or.inr ⟨fun hc => hs hc.2, hsame s hs⟩
    · rw [update_of_ne hii]
      exact Or.inr ⟨fun hc => hii hc.1, hother i' hi' ht1 hii s⟩
  constructor
  case range =>
    intro i' s hi' ht1 h0
    rcases hcase i' s hi' (hty i' ht1) with ⟨_, _, he⟩ | ⟨_, he⟩
    · rw [he]
      exact ⟨(h.free hb hf).1, hb⟩
    · rw [he] at h0 ⊢
      exact h.range i' s hi' (hty i' ht1) h0
  case inj =>
    intro i1 s1 i2 s2 h1 h2 t1 t2 h0 he
    rcases hcase i1 s1 h1 (hty i1 t1) with ⟨e1, e1', v1⟩ | ⟨n1, v1⟩
    · rcases hcase i2 s2 h2 (hty i2 t2) with ⟨e2, e2', v2⟩ | ⟨n2, v2⟩
      · exact ⟨e1.trans e2.symm, e1'.trans e2'.symm⟩
      · rw [v1, v2] at he
        exact absurd he.symm (h.slot_ne hb hf h2 (hty i2 t2) s2)
    · rcases hcase i2 s2 h2 (hty i2 t2) with ⟨e2, e2', v2⟩ | ⟨n2, v2⟩
      · rw [v1, v2] at he
        exact absurd he (h.slot_ne hb hf h1 (hty i1 t1) s1)
      · rw [v1, v2] at he
        rw [v1] at h0
        exact h.inj i1 s1 i2 s2 h1 h2 (hty i1 t1) (hty i2 t2) h0 he
  case bits =>
    intro c hc
    rw [hbits c hc]
    by_cases hcb : c = b
    · rw [if_pos hcb]
      refine iff_of_true rfl (Or.inr ⟨i, hi, ?_, s0, ?_⟩)
      · rw [update_self]
        exact ht'
      · rw [update_self, hnew, hcb]
    · rw [if_neg hcb, h.bits c hc]
      by_cases hcm : c < sb.nmeta
      · exact iff_of_true (Or.inl hcm) (Or.inl hcm)
      refine or_congr_right ?_
      constructor
      · rintro ⟨i', hi', ht1, s, he⟩
        refine ⟨i', hi', ?_, s, ?_⟩
        · by_cases hii : i' = i
          · rw [hii, update_self]
            exact ht'
          · rw [update_of_ne hii]
            exact ht1
        · rcases hcase i' s hi' ht1 with ⟨e1, e2, _⟩ | ⟨_, v⟩
          · -- the empty slot had no block, and `c` is not 0
            rw [e1, e2, hempty] at he
            exact absurd (he ▸ sb.nmeta_pos) hcm
          · rw [v, he]
      · rintro ⟨i', hi', ht1, s, he⟩
        rcases hcase i' s hi' (hty i' ht1) with ⟨_, _, v⟩ | ⟨_, v⟩
        · exact absurd (he.symm.trans v) hcb
        · exact ⟨i', hi', hty i' ht1, s, v.symm.trans he⟩

/-! ## `bmap` -/

theorem entryAt_zeroBlock (j : Nat) : entryAt zeroBlock j = 0 := by
  simp [entryAt, Bytes.getLE, zeroBlock]

theorem entryAt_putLE {m : Block} {j k v : Nat} (hv : v < 2 ^ 32) :
    entryAt (Bytes.putLE m (4 * j) 4 v) k = if k = j then v else entryAt m k := by
  unfold entryAt
  by_cases hk : k = j
  · rw [hk, if_pos rfl]
    exact Bytes.getLE_putLE_of_lt _ _ _ _ hv
  · rw [if_neg hk]
    exact Bytes.getLE_putLE_disjoint _ _ _ _ _ _ (by omega)

/-- What `bmap` and the writing of file content may do to the blocks of inode
`i`: slots get filled, never changed, and every block of an inode keeps its
content, except new blocks, which are cleared. -/
structure Grown (sb : Super) (disk : Disk) (ino : Nat → Inode) (i : Nat) (disk' : Disk) (ip' : Inode) :
    Prop where
  owned : Owned sb disk' (update ino i ip')
  fields : ip'.type = (ino i).type ∧ ip'.major = (ino i).major ∧ ip'.minor = (ino i).minor ∧
    ip'.nlink = (ino i).nlink ∧ ip'.size = (ino i).size
  slots : ∀ s, slotBlock disk (ino i) s ≠ 0 → slotBlock disk' ip' s = slotBlock disk (ino i) s
  others : ∀ i', i' < sb.ninodes → (ino i').type ≠ 0 → i' ≠ i →
    ∀ s, slotBlock disk' (ino i') s = slotBlock disk (ino i') s
  data : ∀ i' bn, i' < sb.ninodes → (ino i').type ≠ 0 → blk disk (ino i') bn ≠ 0 →
    disk' (blk disk (ino i') bn) = disk (blk disk (ino i') bn)
  fresh : ∀ bn, blk disk (ino i) bn = 0 → blk disk' ip' bn ≠ 0 → disk' (blk disk' ip' bn) = zeroBlock
  metadata : ∀ x, x < sb.bmapstart → disk' x = disk x

theorem Grown.refl (h : Owned sb disk ino) (i : Nat) : Grown sb disk ino i disk (ino i) :=
  { owned := by rw [update_eq_self]; exact h
    fields := ⟨rfl, rfl, rfl, rfl, rfl⟩
    slots := fun _ _ => rfl
    others := fun _ _ _ _ _ => rfl
    data := fun _ _ _ _ _ => rfl
    fresh := fun _ h0 h1 => absurd h0 h1
    metadata := fun _ _ => rfl }

theorem Grown.trans {disk2 : Disk} {ip1 ip2 : Inode} (hi : i < sb.ninodes) (ht : (ino i).type ≠ 0)
    (h1 : Grown sb disk ino i disk' ip1) (h2 : Grown sb disk' (update ino i ip1) i disk2 ip2) :
    Grown sb disk ino i disk2 ip2 := by
  have hself : update ino i ip1 i = ip1 := update_self ..
  have ht1 : ip1.type ≠ 0 := by rw [h1.fields.1]; exact ht
  constructor
  case owned =>
    have := h2.owned
    rwa [update_idem] at this
  case fields =>
    have := h2.fields
    rw [hself] at this
    obtain ⟨a1, a2, a3, a4, a5⟩ := this
    obtain ⟨b1, b2, b3, b4, b5⟩ := h1.fields
    exact ⟨a1.trans b1, a2.trans b2, a3.trans b3, a4.trans b4, a5.trans b5⟩
  case slots =>
    intro s h0
    have e1 := h1.slots s h0
    rw [← e1] at h0 ⊢
    have e2 := h2.slots s
    rw [hself] at e2
    exact e2 h0
  case others =>
    intro i' hi' ht' hne s
    have e2 := h2.others i' hi'
    rw [update_of_ne hne] at e2
    rw [e2 ht' hne s, h1.others i' hi' ht' hne s]
  case data =>
    intro i' bn hi' ht' h0
    have hblk : blk disk' (update ino i ip1 i') bn = blk disk (ino i') bn := by
      by_cases hne : i' = i
      · rw [hne, hself]
        exact h1.slots _ (hne ▸ h0)
      · rw [update_of_ne hne]
        exact h1.others i' hi' ht' hne _
    have htu : (update ino i ip1 i').type ≠ 0 := by
      by_cases hne : i' = i
      · rw [hne, hself]
        exact ht1
      · rw [update_of_ne hne]
        exact ht'
    have e2 := h2.data i' bn hi' htu (by rw [hblk]; exact h0)
    rw [hblk] at e2
    rw [e2, h1.data i' bn hi' ht' h0]
  case fresh =>
    intro bn h0 hne
    by_cases hmid : blk disk' ip1 bn = 0
    · have e2 := h2.fresh bn
      rw [hself] at e2
      exact e2 hmid hne
    · have hb : blk disk2 ip2 bn = blk disk' ip1 bn := by
        have e2 := h2.slots (slotOf bn)
        rw [hself] at e2
        exact e2 hmid
      have e2 := h2.data i bn hi (by rw [hself]; exact ht1) (by rw [hself]; exact hmid)
      rw [hself] at e2
      rw [hb, e2, h1.fresh bn h0 hmid]
  case metadata =>
    intro x hx
    rw [h2.metadata x hx, h1.metadata x hx]

theorem slotOf_ne_indirect (bn : Nat) : slotOf bn ≠ .addr indirect := by
  unfold slotOf
  split
  · intro he
    injection he with he
    have := congrArg Fin.val he
    simp only [indirect] at this
    omega
  · exact nofun

theorem slotOf_inj {bn bn' : Nat} (h : slotOf bn = slotOf bn') : bn = bn' := by
  unfold slotOf at h
  split at h
  · split at h
    · injection h with h
      exact congrArg Fin.val h
    · cases h
  · split at h
    · cases h
    · injection h with h
      omega

section
variable {i : Nat} (h : Owned sb disk ino) (hi : i < sb.ninodes) (ht : (ino i).type ≠ 0)
include h hi ht

theorem Owned.blk_range {bn : Nat} (h0 : blk disk (ino i) bn ≠ 0) :
    sb.nmeta ≤ blk disk (ino i) bn ∧ blk disk (ino i) bn < sb.size :=
  h.range i (slotOf bn) hi ht h0

theorem Owned.blk_ne {i' bn : Nat} (hi' : i' < sb.ninodes) (ht' : (ino i').type ≠ 0) (h0 : blk disk (ino i) bn ≠ 0) :
    blk disk (ino i) bn ≠ (ino i').addrs indirect := by
  intro he
  have hs := (h.inj i (slotOf bn) i' (.addr indirect) hi hi' ht ht' h0 he).2
  exact slotOf_ne_indirect bn hs

theorem Owned.grown {s0 : Slot} (hfields : ip'.type = (ino i).type ∧ ip'.major = (ino i).major ∧
      ip'.minor = (ino i).minor ∧ ip'.nlink = (ino i).nlink ∧ ip'.size = (ino i).size)
    (hb : b < sb.size) (hf : Fs.inUse sb disk b = false)
    (hnew : slotBlock disk' ip' s0 = b) (hempty : slotBlock disk (ino i) s0 = 0)
    (hsame : ∀ s, s ≠ s0 → slotBlock disk' ip' s = slotBlock disk (ino i) s)
    (hdisk : ∀ x, x ≠ (ino i).addrs indirect ∨ x = 0 → disk' x = take sb disk b x) :
    Grown sb disk ino i disk' ip' := by
  have hmeta := (h.free hb hf).1
  have hlow : ∀ x, x < sb.nmeta → disk' x = take sb disk b x := by
    intro x hx
    apply hdisk
    by_contra! hc
    obtain ⟨rfl, h0⟩ := hc
    exact absurd hx (Nat.not_lt.mpr (h.range i (.addr indirect) hi ht h0).1)
  have hother : ∀ i', i' < sb.ninodes → (ino i').type ≠ 0 → i' ≠ i →
      ∀ s, slotBlock disk' (ino i') s = slotBlock disk (ino i') s := by
    intro i' hi' ht' hne s
    rw [← h.slotBlock_take hb hf hi' ht']
    apply slotBlock_congr
    intro h0
    refine hdisk _ (Or.inl fun he => ?_)
    exact hne (h.inj i' (.addr indirect) i (.addr indirect) hi' hi ht' ht h0 he).1
  constructor
  case owned =>
    refine h.put hi ht (hfields.1 ▸ ht) hb hf hempty hnew hsame hother fun c hc => ?_
    rw [inUse_congr (hlow _ (BBLOCK_lt hc).1)]
    exact inUse_take hmeta hc
  case fields => exact hfields
  case slots =>
    intro s hs
    apply hsame
    rintro rfl
    exact hs hempty
  case others => exact hother
  case data =>
    intro i' bn hi' ht' hne
    rw [hdisk _ (Or.inl (h.blk_ne hi' ht' hi ht hne))]
    exact take_of_ne hb (h.slot_ne hb hf hi' ht' _) (Or.inr (h.range i' _ hi' ht' hne).1)
  case fresh =>
    intro bn hz hnz
    have hs : slotOf bn = s0 := by
      by_contra hs
      exact hnz ((hsame _ hs).trans hz)
    rw [blk, hs, hnew, hdisk b (Or.inl (h.slot_ne hb hf hi ht (.addr indirect)).symm), take_self]
  case metadata =>
    intro x hx
    have := sb.bmapstart_lt
    rw [hlow x (by omega)]
    exact take_of_ne hb (by omega) (Or.inl hx)

theorem loadAddr_spec {j : Fin 13} {a : Nat} (hl : loadAddr sb disk (ino i) j = (a, disk', ip')) :
    Grown sb disk ino i disk' ip' ∧ (a ≠ 0 → ip'.addrs j = a) ∧ (a = 0 → Full sb disk') := by
  unfold loadAddr at hl
  split at hl
  case isFalse h0 =>
    injection hl with h1 h2
    injection h2 with h2 h3
    subst h1 h2 h3
    exact ⟨Grown.refl h i, fun _ => rfl, fun hz => absurd hz h0⟩
  case isTrue h0 =>
    rcases balloc_cases sb disk with ⟨hb, hfull⟩ | ⟨b, hb, hf, _, he⟩
    · rw [hb, if_pos rfl] at hl
      injection hl with h1 h2
      injection h2 with h2 h3
      subst h1 h2 h3
      exact ⟨Grown.refl h i, fun hc => absurd rfl hc, fun _ => hfull⟩
    · have hb0 : b ≠ 0 := (Nat.lt_of_lt_of_le sb.nmeta_pos (h.free hb hf).1).ne'
      simp only [he, if_neg hb0, Prod.mk.injEq] at hl
      obtain ⟨rfl, rfl, rfl⟩ := hl
      have hnew : slotBlock (take sb disk b) (setAddr (ino i) j b) (.addr j) = b := update_self ..
      have hsame : ∀ s, s ≠ .addr j →
          slotBlock (take sb disk b) (setAddr (ino i) j b) s = slotBlock disk (ino i) s := by
        intro s hs
        cases s with
        | addr j' =>
          have hj : j' ≠ j := fun he => hs (by rw [he])
          exact update_of_ne hj _ _
        | entry e =>
          by_cases hji : j = indirect
          · subst hji
            rw [slotBlock_entry_zero (Or.inl h0)]
            by_cases hlt : NINDIRECT ≤ e
            · exact slotBlock_entry_zero (Or.inr hlt)
            · have ha : (setAddr (ino i) indirect b).addrs indirect = b := by simp [setAddr]
              rw [slotBlock_entry (by rw [ha]; exact hb0) (by omega), ha, take_self, entryAt_zeroBlock]
          · have ha : (setAddr (ino i) j b).addrs indirect = (ino i).addrs indirect :=
              update_of_ne (Ne.symm hji) _ _
            rw [← h.slotBlock_take hb hf hi ht, slotBlock, slotBlock, ha]
      exact ⟨h.grown hi ht ⟨rfl, rfl, rfl, rfl, rfl⟩ hb hf hnew h0 hsame fun _ _ => rfl, fun _ => update_self ..,
        fun hz => absurd hz hb0⟩

theorem loadEntry_spec (h0 : (ino i).addrs indirect ≠ 0) {j a : Nat} (hj : j < NINDIRECT)
    (hl : loadEntry sb disk ((ino i).addrs indirect) j = (a, disk')) :
    Grown sb disk ino i disk' (ino i) ∧ (a ≠ 0 → slotBlock disk' (ino i) (.entry j) = a) ∧
      (a = 0 → Full sb disk') := by
  unfold loadEntry at hl
  split at hl
  case isFalse he =>
    injection hl with h1 h2
    subst h1 h2
    exact ⟨Grown.refl h i, fun _ => slotBlock_entry h0 hj, fun hz => absurd hz he⟩
  case isTrue hz =>
    rcases balloc_cases sb disk with ⟨hb, hfull⟩ | ⟨b, hb, hf, _, he⟩
    · rw [hb, if_pos rfl] at hl
      injection hl with h1 h2
      subst h1 h2
      exact ⟨Grown.refl h i, fun hc => absurd rfl hc, fun _ => hfull⟩
    · have hb0 : b ≠ 0 := (Nat.lt_of_lt_of_le sb.nmeta_pos (h.free hb hf).1).ne'
      simp only [he, if_neg hb0, Prod.mk.injEq] at hl
      obtain ⟨rfl, h2⟩ := hl
      obtain ⟨a, ha⟩ : ∃ a, (ino i).addrs indirect = a := ⟨_, rfl⟩
      rw [ha] at h2 h0 hz
      have har := h.range i (.addr indirect) hi ht (by rw [slotBlock, ha]; exact h0)
      rw [slotBlock, ha] at har
      have hab : a ≠ b := ha ▸ h.slot_ne hb hf hi ht (.addr indirect)
      rw [take_of_ne hb hab (Or.inr har.1)] at h2
      have hd2a : disk' a = Bytes.putLE (disk a) (4 * j) 4 b := by
        rw [← h2]
        exact update_self ..
      have hd2 : ∀ x, x ≠ a → disk' x = take sb disk b x := by
        intro x hx
        rw [← h2]
        exact update_of_ne hx _ _
      have hblt : b < 2 ^ 32 := by
        have := sb.size_lt
        omega
      have hentry : ∀ k, k < NINDIRECT → slotBlock disk' (ino i) (.entry k) =
          if k = j then b else slotBlock disk (ino i) (.entry k) := by
        intro k hk
        have hne : (ino i).addrs indirect ≠ 0 := by rw [ha]; exact h0
        rw [slotBlock_entry hne hk, slotBlock_entry hne hk, ha, hd2a, entryAt_putLE hblt]
      have hsame : ∀ s, s ≠ .entry j → slotBlock disk' (ino i) s = slotBlock disk (ino i) s := by
        intro s hs
        cases s with
        | addr j' => rfl
        | entry k =>
          by_cases hk : NINDIRECT ≤ k
          · rw [slotBlock_entry_zero (Or.inr hk), slotBlock_entry_zero (Or.inr hk)]
          · rw [hentry k (by omega), if_neg fun he => hs (by rw [he])]
      have hnew : slotBlock disk' (ino i) (.entry j) = b := by rw [hentry j hj, if_pos rfl]
      have hempty : slotBlock disk (ino i) (.entry j) = 0 := by
        rw [slotBlock_entry (by rw [ha]; exact h0) hj, ha, hz]
      refine ⟨h.grown hi ht ⟨rfl, rfl, rfl, rfl, rfl⟩ hb hf hnew hempty hsame fun x hx => hd2 x ?_, fun _ => hnew,
        fun hz => absurd hz hb0⟩
      rintro rfl
      exact hx.elim (absurd ha.symm) h0

/-- `bmap` within the file size limit: it returns the block that is now the `bn`th
of the inode, or 0 when the disk is full. -/
theorem bmap_spec {bn : Nat} (hbn : bn < MAXFILE) :
    ∃ a disk' ip', bmap sb disk (ino i) bn = some (a, disk', ip') ∧ Grown sb disk ino i disk' ip' ∧
      (a ≠ 0 → blk disk' ip' bn = a) ∧ (a = 0 → Full sb disk') := by
  unfold bmap
  by_cases hd : bn < 12
  · rw [dif_pos hd]
    obtain ⟨⟨a, disk1, ip1⟩, heq⟩ : ∃ r, loadAddr sb disk (ino i) ⟨bn, Nat.lt_trans hd (by decide)⟩ = r :=
      ⟨_, rfl⟩
    obtain ⟨hg, ha, hfull⟩ := loadAddr_spec h hi ht heq
    rw [heq]
    refine ⟨a, disk1, ip1, rfl, hg, fun h0 => ?_, hfull⟩
    rw [blk, slotOf, dif_pos hd]
    exact ha h0
  · have hj : bn - 12 < NINDIRECT := by
      unfold MAXFILE NDIRECT at hbn
      omega
    rw [dif_neg hd, if_pos hj]
    split
    · next disk1 ip1 heq =>
      obtain ⟨hg, _, hfull⟩ := loadAddr_spec h hi ht heq
      exact ⟨0, disk1, ip1, rfl, hg, fun hc => absurd rfl hc, hfull⟩
    · next a disk1 ip1 hne heq =>
      obtain ⟨hg, ha, _⟩ := loadAddr_spec h hi ht heq
      have ha0 : a ≠ 0 := hne
      have haddr : ip1.addrs indirect = a := ha ha0
      have hself : update ino i ip1 i = ip1 := update_self ..
      obtain ⟨⟨e, disk2⟩, he⟩ : ∃ r, loadEntry sb disk1 a (bn - 12) = r := ⟨_, rfl⟩
      have he' : loadEntry sb disk1 ((update ino i ip1 i).addrs indirect) (bn - 12) = (e, disk2) := by
        rw [hself, haddr, he]
      have hsp := loadEntry_spec hg.owned hi (by rw [hself, hg.fields.1]; exact ht)
        (by rw [hself, haddr]; exact ha0) hj he'
      rw [hself] at hsp
      rw [he]
      refine ⟨e, disk2, ip1, rfl, hg.trans hi ht hsp.1, fun h0 => ?_, hsp.2.2⟩
      rw [blk, slotOf, dif_neg hd]
      exact hsp.2.1 h0

end

/-! ## When `bmap` fails -/

def freeBlocks (sb : Super) (disk : Disk) : List Nat := (List.range sb.size).filter fun b => !inUse sb disk b

/-- How many blocks `bmap` has to allocate: the block, and perhaps the indirect block. -/
def missing (disk : Disk) (ip : Inode) (bn : Nat) : Nat :=
  if blk disk ip bn ≠ 0 then 0 else if 12 ≤ bn ∧ ip.addrs indirect = 0 then 2 else 1

theorem balloc_fst_eq_zero (h : Owned sb disk ino) : (balloc sb disk).1 = 0 ↔ (freeBlocks sb disk).length = 0 := by
  rw [List.length_eq_zero_iff, freeBlocks, List.filter_eq_nil_iff]
  rcases balloc_cases sb disk with ⟨he, hfull⟩ | ⟨b, hb, hf, _, he⟩
  · rw [he]
    exact ⟨fun _ b hb => by simp [hfull b (List.mem_range.mp hb)], fun _ => rfl⟩
  · have hb0 : b ≠ 0 := by
      have := (h.free hb hf).1
      have := sb.nmeta_pos
      omega
    rw [he]
    exact ⟨fun hz => absurd hz hb0, fun hall => absurd hf (by simpa using hall b (List.mem_range.mpr hb))⟩

theorem length_freeBlocks_take (h : Owned sb disk ino) (hb : b < sb.size) (hf : inUse sb disk b = false) :
    (freeBlocks sb (take sb disk b)).length = (freeBlocks sb disk).length - 1 := by
  have hnodup : (freeBlocks sb disk).Nodup := List.nodup_range.filter _
  have hmem : b ∈ freeBlocks sb disk := List.mem_filter.mpr ⟨List.mem_range.mpr hb, by rw [hf]; rfl⟩
  have he : freeBlocks sb (take sb disk b) = (freeBlocks sb disk).erase b := by
    rw [hnodup.erase_eq_filter, freeBlocks, freeBlocks, List.filter_filter]
    refine List.filter_congr fun c hc => ?_
    rw [inUse_take (h.free hb hf).1 (List.mem_range.mp hc)]
    by_cases hcb : c = b <;> simp [hcb]
  rw [he, List.length_erase_of_mem hmem]

theorem loadAddr_fst_eq_zero {j : Fin 13} :
    (loadAddr sb disk ip j).1 = 0 ↔ ip.addrs j = 0 ∧ (balloc sb disk).1 = 0 := by
  unfold loadAddr
  by_cases h0 : ip.addrs j = 0
  · by_cases hb : (balloc sb disk).1 = 0 <;> simp [h0, hb]
  · simp [h0]

theorem loadEntry_fst_eq_zero {a j : Nat} :
    (loadEntry sb disk a j).1 = 0 ↔ entryAt (disk a) j = 0 ∧ (balloc sb disk).1 = 0 := by
  unfold loadEntry
  by_cases h0 : entryAt (disk a) j = 0
  · by_cases hb : (balloc sb disk).1 = 0 <;> simp [h0, hb]
  · simp [h0]

theorem bmap_eq_zero_iff (h : Owned sb disk ino) {bn a : Nat} (hi : i < sb.ninodes)
    (ht : (ino i).type ≠ 0) (hb : bmap sb disk (ino i) bn = some (a, disk', ip')) :
    a = 0 ↔ (freeBlocks sb disk).length < missing disk (ino i) bn := by
  unfold bmap at hb
  by_cases hd : bn < 12
  · rw [dif_pos hd] at hb
    have ha : a = (loadAddr sb disk (ino i) ⟨bn, Nat.lt_trans hd (by decide)⟩).1 := by rw [Option.some.inj hb]
    have hs : blk disk (ino i) bn = (ino i).addrs ⟨bn, Nat.lt_trans hd (by decide)⟩ := by
      rw [blk, slotOf, dif_pos hd, slotBlock]
    rw [ha, loadAddr_fst_eq_zero, balloc_fst_eq_zero h, missing, hs, if_neg (show ¬ (12 ≤ bn ∧ _) by omega)]
    split <;> omega
  · rw [dif_neg hd] at hb
    by_cases hj : bn - 12 < NINDIRECT
    case neg =>
      rw [if_neg hj] at hb
      cases hb
    case pos =>
    rw [if_pos hj] at hb
    have hs : blk disk (ino i) bn = slotBlock disk (ino i) (.entry (bn - 12)) := by rw [blk, slotOf, dif_neg hd]
    split at hb
    · next disk1 ip1 heq =>
      obtain ⟨h0, hz⟩ := loadAddr_fst_eq_zero.mp (show (loadAddr sb disk (ino i) indirect).1 = 0 by rw [heq])
      rw [balloc_fst_eq_zero h] at hz
      rw [missing, hs, slotBlock_entry_zero (Or.inl h0), if_neg (fun hc => hc rfl), if_pos ⟨by omega, h0⟩, hz]
      cases hb
      decide
    · next b disk1 ip1 hne heq =>
      have hb0 : b ≠ 0 := hne
      obtain ⟨hg, _, _⟩ := loadAddr_spec h hi ht heq
      have ha : a = (loadEntry sb disk1 b (bn - 12)).1 := by cases hb; rfl
      rw [ha, loadEntry_fst_eq_zero, balloc_fst_eq_zero hg.owned]
      by_cases h0 : (ino i).addrs indirect = 0
      · rcases balloc_cases sb disk with ⟨hz, _⟩ | ⟨c, hc, hf, _, he⟩
        · exact absurd (by rw [← loadAddr_fst_eq_zero.mpr ⟨h0, by rw [hz]⟩, heq]) hb0
        · have hc0 : (freeBlocks sb disk).length ≠ 0 := by
            intro hlen
            rw [← balloc_fst_eq_zero h] at hlen
            exact absurd (by rw [← loadAddr_fst_eq_zero.mpr ⟨h0, hlen⟩, heq]) hb0
          have hd1 : b = c ∧ disk1 = take sb disk c := by
            have hbc : (balloc sb disk).1 ≠ 0 := by rwa [Ne, balloc_fst_eq_zero h]
            rw [loadAddr, if_pos h0, if_neg hbc, he] at heq
            cases heq
            exact ⟨rfl, rfl⟩
          rw [hd1.2, hd1.1, take_self, entryAt_zeroBlock, length_freeBlocks_take h hc hf, missing, hs,
            slotBlock_entry_zero (Or.inl h0), if_neg (fun hc => hc rfl), if_pos ⟨by omega, h0⟩]
          omega
      · have hd1 : b = (ino i).addrs indirect ∧ disk1 = disk := by
          rw [loadAddr, if_neg h0] at heq
          cases heq
          exact ⟨rfl, rfl⟩
        rw [hd1.2, hd1.1, missing, hs, slotBlock_entry h0 hj, if_neg (show ¬ (12 ≤ bn ∧ _ = 0) from fun hc => h0 hc.2)]
        split <;> omega

/-! ## `itrunc` -/

theorem bfreeAll_spec (sb : Super) (L : List Nat) :
    ∀ (disk : Disk), (∀ b ∈ L, b ≠ 0 → b < sb.size ∧ inUse sb disk b = true) →
    L.Pairwise (fun b c => b ≠ 0 → b ≠ c) →
    ∃ disk', bfreeAll sb disk L = some disk' ∧
      (∀ c, inUse sb disk' c = true ↔ inUse sb disk c = true ∧ ¬ (c ≠ 0 ∧ c ∈ L)) ∧
      ∀ x, (x < sb.bmapstart ∨ sb.nmeta ≤ x) → disk' x = disk x := by
  induction L with
  | nil =>
    intro disk _ _
    refine ⟨disk, rfl, fun c => ?_, fun _ _ => rfl⟩
    simp
  | cons b L ih =>
    intro disk huse hp
    obtain ⟨hb, hL⟩ := List.pairwise_cons.mp hp
    by_cases h0 : b = 0
    · obtain ⟨disk', h1, h2, h3⟩ := ih disk (fun c hc => huse c (List.mem_cons_of_mem _ hc)) hL
      refine ⟨disk', by rw [bfreeAll, if_pos h0, h1], fun c => ?_, h3⟩
      rw [h2, List.mem_cons, h0]
      refine and_congr_right fun _ => not_congr ?_
      refine and_congr_right fun hc => ?_
      exact (or_iff_right hc).symm
    · obtain ⟨hlt, hu⟩ := huse b List.mem_cons_self h0
      obtain ⟨d1, e1, e2, e3⟩ := bfree_some hlt hu
      have huse1 : ∀ c ∈ L, c ≠ 0 → c < sb.size ∧ inUse sb d1 c = true := by
        intro c hc hc0
        refine ⟨(huse c (List.mem_cons_of_mem _ hc) hc0).1, ?_⟩
        rw [e2, if_neg (Ne.symm (hb c hc h0))]
        exact (huse c (List.mem_cons_of_mem _ hc) hc0).2
      obtain ⟨disk', h1, h2, h3⟩ := ih d1 huse1 hL
      refine ⟨disk', by rw [bfreeAll, if_neg h0, e1]; exact h1, fun c => ?_, fun x hx => ?_⟩
      · rw [h2, e2, List.mem_cons]
        by_cases hcb : c = b
        · rw [if_pos hcb]
          refine iff_of_false (fun hc => Bool.false_ne_true hc.1) fun hc => hc.2 ⟨?_, Or.inl hcb⟩
          rw [hcb]
          exact h0
        · rw [if_neg hcb, or_iff_right hcb]
      · rw [h3 x hx, e3 x hx]

theorem mem_directBlocks : b ∈ directBlocks ip ↔ ∃ j : Fin 12, ip.addrs j.castSucc = b := by
  simp [directBlocks]

theorem mem_indirectBlocks {m : Block} : b ∈ indirectBlocks m ↔ ∃ j, j < NINDIRECT ∧ entryAt m j = b := by
  simp [indirectBlocks]

theorem castSucc_ne_indirect (j : Fin 12) : (j.castSucc : Fin 13) ≠ indirect := by
  intro he
  have hv : j.val = 12 := congrArg Fin.val he
  have hj := j.isLt
  omega

theorem slot_cases (s : Slot) (h0 : slotBlock disk ip s ≠ 0) :
    (∃ j : Fin 12, s = .addr j.castSucc) ∨ s = .addr indirect ∨
      ∃ j, s = .entry j ∧ j < NINDIRECT ∧ ip.addrs indirect ≠ 0 := by
  cases s with
  | addr j =>
    by_cases hj : j.val < 12
    · exact Or.inl ⟨⟨j.val, hj⟩, rfl⟩
    · refine Or.inr (Or.inl ?_)
      congr 1
      apply Fin.ext
      have := j.isLt
      simp only [indirect]
      omega
  | entry j =>
    refine Or.inr (Or.inr ⟨j, rfl, ?_, ?_⟩)
    · by_contra hj
      exact h0 (slotBlock_entry_zero (Or.inr (by omega)))
    · intro hz
      exact h0 (slotBlock_entry_zero (Or.inl hz))

theorem Owned.freeBlocks (h : Owned sb disk ino) (hi : i < sb.ninodes) (ht : (ino i).type ≠ 0) :
    ∃ d1 d2, bfreeAll sb disk (directBlocks (ino i)) = some d1 ∧
      freeIndirect sb d1 ((ino i).addrs indirect) = some d2 ∧
      (∀ c, inUse sb d2 c = true ↔ inUse sb disk c = true ∧
        ¬ (c ≠ 0 ∧ ∃ s, slotBlock disk (ino i) s = c)) ∧
      ∀ x, (x < sb.bmapstart ∨ sb.nmeta ≤ x) → d2 x = disk x := by
  have huse : ∀ s, slotBlock disk (ino i) s ≠ 0 →
      slotBlock disk (ino i) s < sb.size ∧ inUse sb disk (slotBlock disk (ino i) s) = true :=
    fun s h0 => ⟨(h.range i s hi ht h0).2, h.slot_inUse hi ht h0⟩
  have hinj : ∀ s s', slotBlock disk (ino i) s ≠ 0 → s ≠ s' →
      slotBlock disk (ino i) s ≠ slotBlock disk (ino i) s' :=
    fun s s' h0 hne he => hne (h.inj i s i s' hi hi ht ht h0 he).2
  have hd : ∀ j : Fin 12, (ino i).addrs j.castSucc = slotBlock disk (ino i) (.addr j.castSucc) := fun _ => rfl
  obtain ⟨d1, e1, u1, f1⟩ := bfreeAll_spec sb (directBlocks (ino i)) disk
    (fun b hb h0 => by
      obtain ⟨j, rfl⟩ := mem_directBlocks.mp hb
      rw [hd] at h0 ⊢
      exact huse _ h0)
    (by
      refine List.pairwise_map.mpr ((List.nodup_finRange 12).imp ?_)
      intro j j' hj h0
      refine hinj (.addr j.castSucc) (.addr j'.castSucc) h0 fun he => hj ?_
      injection he with he
      exact Fin.castSucc_injective _ he)
  by_cases hz : (ino i).addrs indirect = 0
  · refine ⟨d1, d1, e1, by rw [freeIndirect, if_pos hz], fun c => ?_, f1⟩
    rw [u1]
    refine and_congr_right fun _ => not_congr (and_congr_right fun hc => ?_)
    constructor
    · intro hm
      obtain ⟨j, hj⟩ := mem_directBlocks.mp hm
      exact ⟨.addr j.castSucc, hj⟩
    · rintro ⟨s, rfl⟩
      rcases slot_cases s hc with ⟨j, rfl⟩ | rfl | ⟨j, _, _, hne⟩
      · exact mem_directBlocks.mpr ⟨j, rfl⟩
      · exact absurd hz hc
      · exact absurd hz hne
  · obtain ⟨a, ha⟩ : ∃ a, (ino i).addrs indirect = a := ⟨_, rfl⟩
    have hsa : slotBlock disk (ino i) (.addr indirect) = a := ha
    have har := h.range i (.addr indirect) hi ht (by rw [hsa, ← ha]; exact hz)
    rw [hsa] at har
    have hd1a : d1 a = disk a := f1 a (Or.inr har.1)
    have hent : ∀ j, j < NINDIRECT → entryAt (disk a) j = slotBlock disk (ino i) (.entry j) := by
      intro j hj
      rw [slotBlock_entry hz hj, ha]
    rw [ha] at hz ⊢
    obtain ⟨d2, e2, u2, f2⟩ := bfreeAll_spec sb (indirectBlocks (disk a)) d1
      (fun b hb h0 => by
        obtain ⟨j, hj, rfl⟩ := mem_indirectBlocks.mp hb
        rw [hent j hj] at h0 ⊢
        refine ⟨(huse _ h0).1, (u1 _).mpr ⟨(huse _ h0).2, fun hc => ?_⟩⟩
        obtain ⟨j', hj'⟩ := mem_directBlocks.mp hc.2
        exact hinj (.entry j) (.addr j'.castSucc) h0 nofun hj'.symm)
      (by
        refine List.pairwise_map.mpr (List.nodup_range.imp_of_mem ?_)
        intro j j' hm hm' hj h0
        rw [hent j (List.mem_range.mp hm)] at h0 ⊢
        rw [hent j' (List.mem_range.mp hm')]
        exact hinj (.entry j) (.entry j') h0 fun he => hj (by injection he))
    have hua : inUse sb d2 a = true := by
      refine (u2 a).mpr ⟨(u1 a).mpr ⟨?_, fun hc => ?_⟩, fun hc => ?_⟩
      · rw [← hsa]
        exact (huse (.addr indirect) (by rw [hsa]; exact hz)).2
      · obtain ⟨j, hj⟩ := mem_directBlocks.mp hc.2
        refine hinj (.addr indirect) (.addr j.castSucc) (by rw [hsa]; exact hz) ?_ (hsa.trans hj.symm)
        intro he
        injection he with he
        exact castSucc_ne_indirect j he.symm
      · obtain ⟨j, hj, he⟩ := mem_indirectBlocks.mp hc.2
        rw [hent j hj] at he
        exact hinj (.addr indirect) (.entry j) (by rw [hsa]; exact hz) nofun (hsa.trans he.symm)
    obtain ⟨d3, e3, u3, f3⟩ := bfree_some har.2 hua
    refine ⟨d1, d3, e1, ?_, fun c => ?_, fun x hx => by rw [f3 x hx, f2 x hx, f1 x hx]⟩
    · rw [freeIndirect, if_neg hz, hd1a, e2]
      exact e3
    · rw [u3]
      by_cases hca : c = a
      · rw [if_pos hca]
        refine iff_of_false Bool.false_ne_true fun hc => hc.2 ⟨?_, .addr indirect, ?_⟩
        · rw [hca]
          exact hz
        · rw [hsa, hca]
      · rw [if_neg hca, u2, u1, and_assoc]
        refine and_congr_right fun _ => ?_
        constructor
        · rintro ⟨n1, n2⟩ ⟨hc, s, rfl⟩
          rcases slot_cases s hc with ⟨j, rfl⟩ | rfl | ⟨j, rfl, hj, _⟩
          · exact n1 ⟨hc, mem_directBlocks.mpr ⟨j, rfl⟩⟩
          · exact hca hsa
          · exact n2 ⟨hc, mem_indirectBlocks.mpr ⟨j, hj, hent j hj⟩⟩
        · intro hn
          refine ⟨fun hc => hn ⟨hc.1, ?_⟩, fun hc => hn ⟨hc.1, ?_⟩⟩
          · obtain ⟨j, hj⟩ := mem_directBlocks.mp hc.2
            exact ⟨.addr j.castSucc, hj⟩
          · obtain ⟨j, hj, he⟩ := mem_indirectBlocks.mp hc.2
            exact ⟨.entry j, by rw [← hent j hj, he]⟩

theorem slotBlock_of_addrs_zero (h : ∀ j, ip.addrs j = 0) (s : Slot) : slotBlock disk ip s = 0 := by
  cases s with
  | addr j => exact h j
  | entry j => exact slotBlock_entry_zero (Or.inl (h indirect))

theorem slotBlock_eq_of_addrs (h : ip'.addrs = ip.addrs) (s : Slot) : slotBlock disk ip' s = slotBlock disk ip s := by
  cases s with
  | addr j => rw [slotBlock, slotBlock, h]
  | entry j => rw [slotBlock, slotBlock, h]

section
variable (h : Owned sb disk ino)
include h

theorem Owned.slotBlock_of_disk (hx : ∀ x, sb.nmeta ≤ x → disk' x = disk x)
    (i : Nat) (s : Slot) (hi : i < sb.ninodes) (ht : (ino i).type ≠ 0) :
    slotBlock disk' (ino i) s = slotBlock disk (ino i) s := by
  apply slotBlock_congr
  intro h0
  exact hx _ (h.range i (.addr indirect) hi ht h0).1

theorem Owned.of_slots {ino' : Nat → Inode}
    (hslot : ∀ x s, x < sb.ninodes → (ino' x).type ≠ 0 → slotBlock disk' (ino' x) s ≠ 0 →
      (ino x).type ≠ 0 ∧ slotBlock disk' (ino' x) s = slotBlock disk (ino x) s)
    (hbits : ∀ b, b < sb.size → (Fs.inUse sb disk' b = true ↔ b < sb.nmeta ∨ Referenced sb disk' ino' b)) :
    Owned sb disk' ino' := by
  constructor
  case range =>
    intro x s hx ht h0
    obtain ⟨h1, h2⟩ := hslot x s hx ht h0
    rw [h2] at h0 ⊢
    exact h.range x s hx h1 h0
  case inj =>
    intro x s x' s' hx hx' ht ht' h0 he
    obtain ⟨h1, h2⟩ := hslot x s hx ht h0
    obtain ⟨h1', h2'⟩ := hslot x' s' hx' ht' (he ▸ h0)
    rw [h2] at h0 he
    rw [h2'] at he
    exact h.inj x s x' s' hx hx' h1 h1' h0 he
  case bits => exact hbits

theorem Owned.congr {ino' : Nat → Inode} (he : ∀ i, i < sb.ninodes → ino' i = ino i) :
    Owned sb disk ino' := by
  apply h.of_slots
  · intro i s hi ht _
    rw [he i hi] at ht ⊢
    exact ⟨ht, rfl⟩
  · intro b hb
    rw [h.bits b hb]
    refine or_congr_right (exists_congr fun i => and_congr_right fun hi => ?_)
    rw [he i hi]

theorem Owned.of_disk (hx : ∀ x, sb.bmapstart ≤ x → disk' x = disk x) : Owned sb disk' ino := by
  have hslot := h.slotBlock_of_disk fun x hm => hx x (Nat.le_trans (Nat.le_of_lt sb.bmapstart_lt) hm)
  apply h.of_slots
  · exact fun i s hi ht _ => ⟨ht, hslot i s hi ht⟩
  · intro b hb
    rw [inUse_congr (hx _ (BBLOCK_lt hb).2), h.bits b hb]
    refine or_congr_right ?_
    constructor
    · rintro ⟨i, hi, ht, s, he⟩
      exact ⟨i, hi, ht, s, (hslot i s hi ht).trans he⟩
    · rintro ⟨i, hi, ht, s, he⟩
      exact ⟨i, hi, ht, s, (hslot i s hi ht).symm.trans he⟩

theorem Owned.set (hip : (ip'.addrs = (ino i).addrs ∧ (ip'.type ≠ 0 ↔ (ino i).type ≠ 0)) ∨
      ((∀ j, ip'.addrs j = 0) ∧ ((ino i).type ≠ 0 → ∀ j, (ino i).addrs j = 0))) : Owned sb disk (update ino i ip') := by
  -- a slot with a block is the same slot before
  have hslot : ∀ x s, x < sb.ninodes → (update ino i ip' x).type ≠ 0 → slotBlock disk (update ino i ip' x) s ≠ 0 →
      (ino x).type ≠ 0 ∧ slotBlock disk (update ino i ip' x) s = slotBlock disk (ino x) s := by
    intro x s _ ht h0
    by_cases hx : x = i
    · rw [hx, update_self] at ht h0 ⊢
      rcases hip with ⟨ha, hty⟩ | ⟨ha, _⟩
      · exact ⟨hty.mp ht, slotBlock_eq_of_addrs ha s⟩
      · exact absurd (slotBlock_of_addrs_zero ha s) h0
    · rw [update_of_ne hx] at ht ⊢
      exact ⟨ht, rfl⟩
  refine h.of_slots hslot fun b hb => ?_
  rw [h.bits b hb]
  by_cases hm : b < sb.nmeta
  · exact iff_of_true (Or.inl hm) (Or.inl hm)
  · have hb0 : b ≠ 0 := by
      have := sb.nmeta_pos
      omega
    refine or_congr_right ⟨?_, ?_⟩
    · rintro ⟨x, hx, ht, s, rfl⟩
      by_cases hxi : x = i
      · subst hxi
        rcases hip with ⟨ha, hty⟩ | ⟨_, hz⟩
        · refine ⟨x, hx, ?_, s, ?_⟩
          · rw [update_self]
            exact hty.mpr ht
          · rw [update_self]
            exact slotBlock_eq_of_addrs ha s
        · exact absurd (slotBlock_of_addrs_zero (hz ht) s) hb0
      · exact ⟨x, hx, by rw [update_of_ne hxi]; exact ht, s, by rw [update_of_ne hxi]⟩
    · rintro ⟨x, hx, ht, s, he⟩
      obtain ⟨h1, h2⟩ := hslot x s hx ht (by rw [he]; exact hb0)
      exact ⟨x, hx, h1, s, h2.symm.trans he⟩

end

theorem emptied_inRange (h : ip.InRange) : (emptied ip).InRange :=
  ⟨h.type, h.major, h.minor, h.nlink, by simp [emptied], fun _ => by simp [emptied]⟩

/-- `itrunc` never panics; the inode has no block afterwards, and no other inode
and no data block changes. -/
theorem itrunc_spec (h : Owned sb disk ino) (hi : i < sb.ninodes) (ht : (ino i).type ≠ 0) (hr : (ino i).InRange) :
    ∃ disk', itrunc sb disk i (ino i) = some (disk', emptied (ino i)) ∧
      Owned sb disk' (update ino i (emptied (ino i))) ∧
      dinode sb disk' i = emptied (ino i) ∧ (∀ j, j < sb.ninodes → j ≠ i → dinode sb disk' j = dinode sb disk j) ∧
      ∀ x, sb.nmeta ≤ x → disk' x = disk x := by
  obtain ⟨d1, d2, e1, e2, hbits, hf⟩ := h.freeBlocks hi ht
  have hib : IBLOCK sb i < sb.bmapstart := IBLOCK_lt hi
  have hlt := sb.bmapstart_lt
  refine ⟨putDinode sb d2 i (emptied (ino i)), ?_, ?_, ?_, ?_, ?_⟩
  · rw [itrunc, e1, Option.bind_some, e2, Option.bind_some]
  · have hown : Owned sb d2 (update ino i (emptied (ino i))) := by
      have hz : ∀ s, slotBlock d2 (emptied (ino i)) s = 0 :=
        fun s => slotBlock_of_addrs_zero (fun _ => rfl) s
      have hslot := h.slotBlock_of_disk fun x hx => hf x (Or.inr hx)
      have hcase : ∀ x s, x < sb.ninodes → (update ino i (emptied (ino i)) x).type ≠ 0 →
          slotBlock d2 (update ino i (emptied (ino i)) x) s ≠ 0 →
          x ≠ i ∧ (ino x).type ≠ 0 ∧
            slotBlock d2 (update ino i (emptied (ino i)) x) s = slotBlock disk (ino x) s := by
        intro x s hx htx h0
        by_cases hxi : x = i
        · rw [hxi, update_self] at h0
          exact absurd (hz s) h0
        · rw [update_of_ne hxi] at htx h0 ⊢
          exact ⟨hxi, htx, hslot x s hx htx⟩
      refine h.of_slots (fun x s hx htx h0 => (hcase x s hx htx h0).2) fun b hb => ?_
      rw [hbits, h.bits b hb]
      by_cases hm : b < sb.nmeta
      · refine iff_of_true ⟨Or.inl hm, ?_⟩ (Or.inl hm)
        rintro ⟨hb0, s, rfl⟩
        have := (h.range i s hi ht hb0).1
        omega
      · have hb0 : b ≠ 0 := by
          have := sb.nmeta_pos
          omega
        constructor
        · rintro ⟨hor, hn⟩
          rcases hor with hlt' | ⟨x, hx, htx, s, rfl⟩
          · exact absurd hlt' hm
          · have hxi : x ≠ i := by
              rintro rfl
              exact hn ⟨hb0, s, rfl⟩
            refine Or.inr ⟨x, hx, ?_, s, ?_⟩
            · rw [update_of_ne hxi]
              exact htx
            · rw [update_of_ne hxi]
              exact hslot x s hx htx
        · rintro (hlt' | ⟨x, hx, htx, s, he⟩)
          · exact absurd hlt' hm
          · obtain ⟨hxi, h1, h2⟩ := hcase x s hx htx (by rw [he]; exact hb0)
            rw [he] at h2
            refine ⟨Or.inr ⟨x, hx, h1, s, h2.symm⟩, ?_⟩
            rintro ⟨_, s', he'⟩
            exact hxi (h.inj x s i s' hx hi h1 ht (by rw [← h2]; exact hb0) (h2.symm.trans he'.symm)).1
    exact hown.of_disk fun x hx => putDinode_of_ne (by omega) _
  · exact dinode_putDinode_self (emptied_inRange hr)
  · intro j hj hne
    rw [dinode_putDinode_of_ne hne]
    exact dinode_congr (hf _ (Or.inl (IBLOCK_lt hj)))
  · intro x hx
    rw [putDinode_of_ne (by omega)]
    exact hf x (Or.inr hx)

end

end Xv6.Fs
