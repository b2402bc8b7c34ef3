import Xv6.Fs.Content

/-!
# Files as byte lists

Sequences of `writei`, `readi` and `itrunc` calls on any inodes.  `Files` is the
disk together with the inodes in memory, which the calls work on.  `FileStep`
says what a call does to files seen as byte lists; `Files.call` refines it
(`call_refines`), and so does every sequence of calls (`file_content_refines`).
-/

namespace Xv6.Fs

open Function

structure Files where
  disk : Disk
  /-- `struct inode`: the copies in memory. -/
  mem : Nat → Inode

inductive Call
  | writei (i : Nat) (src : Nat → UInt8) (off n : Nat)
  | readi (i off n : Nat)
  | itrunc (i : Nat)

def Call.inode : Call → Nat
  | .writei i _ _ _ => i
  | .readi i _ _ => i
  | .itrunc i => i

def Call.count : Call → Nat
  | .writei _ _ _ n => n
  | .readi _ _ n => n
  | .itrunc _ => 0

abbrev Reply := Int × List UInt8

section
variable (sb : Super)

/-- A call with no failing copy; `none` is a panic. -/
def Files.call (s : Files) : Call → Option (Reply × Files)
  | .writei i src off n =>
    (writei sb src (fun _ => none) s.disk i (s.mem i) off n).map fun r =>
      ((r.1, []), { disk := r.2.1, mem := update s.mem i r.2.2 })
  | .readi i off n =>
    (readi sb (fun _ => false) s.disk (s.mem i) off n).map fun r =>
      ((r.1, r.2.1), { disk := r.2.2.1, mem := update s.mem i r.2.2.2 })
  | .itrunc i =>
    (itrunc sb s.disk i (s.mem i)).map fun r =>
      ((0, []), { disk := r.1, mem := update s.mem i r.2 })

/-- The inodes in memory are those on the disk, and the disk is in order. -/
structure Files.OK (s : Files) : Prop where
  fs : FsOK sb s.disk
  sync : ∀ i, i < sb.ninodes → s.mem i = dinode sb s.disk i

def Files.allocated (s : Files) (i : Nat) : Prop := i < sb.ninodes ∧ (s.mem i).type ≠ 0

instance (s : Files) (i : Nat) : Decidable (s.allocated sb i) := by
  unfold Files.allocated
  infer_instance

def Files.content (s : Files) (i : Nat) : List UInt8 :=
  if s.allocated sb i then Fs.content s.disk (s.mem i) else []

end

/-- What a call does to the files `A`, and what it replies.  `full` allows a
write to stop early. -/
inductive FileStep (full : Prop) : Call → (Nat → List UInt8) → Reply → (Nat → List UInt8) → Prop
  | write {A i src off n} (k : Nat) : off ≤ (A i).length → off + n ≤ MAXFILE * BSIZE → k ≤ n → (k = n ∨ full) →
      FileStep full (.writei i src off n) A (k, [])
        (update A i ((A i).take off ++ (List.range k).map src ++ (A i).drop (off + k)))
  | writeBad {A i src off n} : ¬ (off ≤ (A i).length ∧ off + n ≤ MAXFILE * BSIZE) →
      FileStep full (.writei i src off n) A (-1, []) A
  | read {A i off n} : off ≤ (A i).length → off + n < 2 ^ 32 →
      FileStep full (.readi i off n) A ((min n ((A i).length - off) : Nat), ((A i).drop off).take n) A
  | readBad {A i off n} : ¬ (off ≤ (A i).length ∧ off + n < 2 ^ 32) → FileStep full (.readi i off n) A (0, []) A
  | trunc {A i} : FileStep full (.itrunc i) A (0, []) (update A i [])

section
variable {sb : Super} {s : Files}

theorem Files.OK.mem_eq (h : s.OK sb) {i : Nat} (ha : s.allocated sb i) : s.mem i = dinode sb s.disk i :=
  h.sync i ha.1

theorem Files.OK.step (h : s.OK sb) {i : Nat} (ha : s.allocated sb i) {disk' : Disk} (hok : FsOK sb disk')
    (hoth : Others sb s.disk disk' i) (hty : (dinode sb disk' i).type = (dinode sb s.disk i).type) :
    Files.OK sb { disk := disk', mem := update s.mem i (dinode sb disk' i) } ∧
      (∀ j, s.allocated sb j → Files.allocated sb { disk := disk', mem := update s.mem i (dinode sb disk' i) } j) ∧
      Files.content sb { disk := disk', mem := update s.mem i (dinode sb disk' i) } =
        update (s.content sb) i (Fs.content disk' (dinode sb disk' i)) := by
  have htype : ∀ j, j < sb.ninodes → (update s.mem i (dinode sb disk' i) j).type = (s.mem j).type := by
    intro j _
    by_cases hji : j = i
    · rw [hji, update_self, hty, h.mem_eq ha]
    · rw [update_of_ne hji]
  have halloc : ∀ j, Files.allocated sb { disk := disk', mem := update s.mem i (dinode sb disk' i) } j ↔
      s.allocated sb j :=
    fun j => and_congr_right fun hj => by rw [htype j hj]
  refine ⟨⟨hok, fun j hj => ?_⟩, fun j => (halloc j).mpr, funext fun j => ?_⟩
  · show update s.mem i _ j = _
    by_cases hji : j = i
    · rw [hji, update_self]
    · rw [update_of_ne hji, h.sync j hj, (hoth j hj hji).1]
  · rw [Files.content]
    simp only [halloc]
    by_cases hji : j = i
    · subst hji
      rw [if_pos ha, update_self, update_self]
    · rw [update_of_ne hji, update_of_ne hji, Files.content]
      by_cases hal : s.allocated sb j
      · have ht := hal.2
        rw [h.mem_eq hal] at ht
        rw [if_pos hal, if_pos hal, h.mem_eq hal, (hoth j hal.1 hji).2 ht]
      · rw [if_neg hal, if_neg hal]

theorem Files.content_eq (h : s.OK sb) {i : Nat} (ha : s.allocated sb i) :
    s.content sb i = Fs.content s.disk (dinode sb s.disk i) := by
  rw [Files.content, if_pos ha, h.mem_eq ha]

theorem call_refines (h : s.OK sb) {c : Call} (ha : s.allocated sb c.inode) (hn : c.count < 2 ^ 32) :
    ∃ reply s', s.call sb c = some (reply, s') ∧ FileStep (Full sb s'.disk) c (s.content sb) reply (s'.content sb) ∧
      s'.OK sb ∧ ∀ j, s.allocated sb j → s'.allocated sb j := by
  obtain ⟨i, hi⟩ : ∃ i, c.inode = i := ⟨_, rfl⟩
  rw [hi] at ha
  have ht : (dinode sb s.disk i).type ≠ 0 := by
    rw [← h.mem_eq ha]
    exact ha.2
  have hlen : (s.content sb i).length = (dinode sb s.disk i).size := by
    rw [Files.content_eq h ha, content_length]
  cases c with
  | writei i' src off n =>
    obtain rfl : i' = i := hi
    have hlt : n < 2 ^ 32 := hn
    obtain ⟨r, disk', he, hok, hoth, hty, hbad, hgood⟩ :=
      writei_spec h.fs ha.1 ht src (fun _ => none) off hlt
    obtain ⟨h1, h2, h3⟩ := h.step ha hok hoth hty
    refine ⟨(r, []), _, ?_, ?_, h1, h2⟩
    · rw [Files.call, h.mem_eq ha, he]
      rfl
    · rw [h3]
      by_cases hw : Writable (dinode sb s.disk i') off n
      · obtain ⟨k, rfl, hk, hfull, _, hcont⟩ := hgood hw fun _ => rfl
        rw [hcont, ← Files.content_eq h ha]
        exact FileStep.write k (by rw [hlen]; exact hw.1) hw.2 hk hfull
      · obtain ⟨rfl, rfl⟩ := hbad hw
        rw [← Files.content_eq h ha, update_eq_self]
        exact FileStep.writeBad (by rw [hlen]; exact hw)
  | readi i' off n =>
    obtain rfl : i' = i := hi
    have hlt : n < 2 ^ 32 := hn
    obtain ⟨r, out, he, hbad, hgood⟩ := readi_spec h.fs ha.1 ht (fun _ => false) off hlt
    have hsame : update s.mem i' (dinode sb s.disk i') = s.mem := by
      rw [← h.mem_eq ha, update_eq_self]
    refine ⟨(r, out), s, ?_, ?_, h, fun _ hj => hj⟩
    · rw [Files.call, h.mem_eq ha, he, Option.map_some, hsame]
    · by_cases hr : off ≤ (dinode sb s.disk i').size ∧ off + n < 2 ^ 32
      · obtain ⟨rfl, rfl⟩ := hgood hr fun _ => rfl
        rw [← Files.content_eq h ha, ← hlen]
        exact FileStep.read (by rw [hlen]; exact hr.1) hr.2
      · obtain ⟨rfl, rfl⟩ := hbad hr
        exact FileStep.readBad (by rw [hlen]; exact hr)
  | itrunc i' =>
    obtain rfl : i' = i := hi
    obtain ⟨disk', he, hok, hoth, hd⟩ := itrunc_content h.fs ha.1 ht
    obtain ⟨h1, h2, h3⟩ := h.step ha hok hoth (by rw [hd]; rfl)
    refine ⟨(0, []), _, ?_, ?_, h1, h2⟩
    · rw [Files.call, h.mem_eq ha, he]
      rfl
    · have hempty : Fs.content disk' (dinode sb disk' i') = [] := by
        rw [hd]
        rfl
      rw [h3, hempty]
      exact FileStep.trunc

end

/-- Every call of the list returns and refines `FileStep`. -/
def Refines (sb : Super) : Files → List Call → Prop
  | _, [] => True
  | s, c :: cs => ∃ reply s', s.call sb c = some (reply, s') ∧
      FileStep (Full sb s'.disk) c (s.content sb) reply (s'.content sb) ∧ Refines sb s' cs

/-- Sequences of `writei`, `readi` and `itrunc` on allocated inodes act on byte lists. -/
theorem file_content_refines (sb : Super) (s : Files) (h : s.OK sb) (cs : List Call)
    (hcs : ∀ c ∈ cs, s.allocated sb c.inode ∧ c.count < 2 ^ 32) : Refines sb s cs := by
  induction cs generalizing s with
  | nil => trivial
  | cons c cs ih =>
    obtain ⟨ha, hn⟩ := hcs c List.mem_cons_self
    obtain ⟨reply, s', he, hstep, hok, halloc⟩ := call_refines h ha hn
    refine ⟨reply, s', he, hstep, ih s' hok fun c' hc' => ?_⟩
    obtain ⟨ha', hn'⟩ := hcs c' (List.mem_cons_of_mem _ hc')
    exact ⟨halloc _ ha', hn'⟩

/-! ## A small image -/

/-- 100 blocks: inodes in block 2, the free map in block 3, data from block 4 on. -/
def tiny : Super :=
  { size := 100, ninodes := 8, inodestart := 2, bmapstart := 3, nmeta := 4
    inodes_le := by decide
    bmap_le := by decide
    nmeta_pos := by decide
    size_lt := by decide
    ninodes_lt := by decide }

/-- Two empty files, inodes 1 and 2. -/
def tinyDisk : Disk := fun b x =>
  if b = 2 then (if x = 64 ∨ x = 128 then 2 else if x = 70 ∨ x = 134 then 1 else 0)
  else if b = 3 then (if x = 0 then 15 else 0) else 0

def tinyFiles : Files := { disk := tinyDisk, mem := dinode tiny tinyDisk }

theorem FsOK.of_empty {sb : Super} {disk : Disk} (hbits : ∀ b, b < sb.size → (inUse sb disk b = true ↔ b < sb.nmeta))
    (hz : ∀ i, i < sb.ninodes → (∀ j, (dinode sb disk i).addrs j = 0) ∧ (dinode sb disk i).size = 0) :
    FsOK sb disk := by
  have hslot : ∀ i s, i < sb.ninodes → slotBlock disk (dinode sb disk i) s = 0 :=
    fun i s hi => slotBlock_of_addrs_zero (hz i hi).1 s
  constructor
  case owned =>
    constructor
    case range => exact fun i s hi _ h0 => absurd (hslot i s hi) h0
    case inj => exact fun i s _ _ hi _ _ _ h0 _ => absurd (hslot i s hi) h0
    case bits =>
      intro b hb
      rw [hbits b hb]
      refine (or_iff_left_of_imp ?_).symm
      rintro ⟨i, hi, _, s, he⟩
      rw [hslot i s hi] at he
      rw [← he]
      exact sb.nmeta_pos
  case holes =>
    intro i hi _ bn hbn
    rw [(hz i hi).2] at hbn
    exact absurd hbn (Nat.not_lt_zero _)
  case sizes =>
    intro i hi _
    rw [(hz i hi).2]
    exact Nat.zero_le _

theorem tinyFiles_ok : tinyFiles.OK tiny := by
  refine ⟨FsOK.of_empty ?_ ?_, fun _ _ => rfl⟩
  · decide +kernel
  · decide +kernel

theorem file_content_refines_tiny :
    Refines tiny tinyFiles [.writei 1 (fun x => UInt8.ofNat x) 0 3, .readi 1 1 5, .writei 2 (fun _ => 7) 0 1,
    .itrunc 1] :=
  file_content_refines tiny tinyFiles tinyFiles_ok _ (by decide +kernel)

theorem FileStep.read_wraps {full : Prop} {A A' : Nat → List UInt8} {i off n : Nat} {reply : Reply}
    (h : FileStep full (.readi i off n) A reply A') (hw : 2 ^ 32 ≤ off + n) : reply = (0, []) := by
  cases h with
  | read _ hlt => exact absurd hlt (by omega)
  | readBad _ => rfl

/-- A read whose end wraps around 32 bits delivers nothing, although the file has a byte at the offset. -/
theorem readi_wraps : ∃ s : Files, s.OK tiny ∧ s.allocated tiny 1 ∧ (s.content tiny 1).length = 2 ∧
    ∃ s', s.call tiny (.readi 1 1 (2 ^ 32 - 1)) = some ((0, []), s') := by
  have h1 : tinyFiles.allocated tiny 1 := by decide +kernel
  have hview : (tinyFiles.call tiny (.writei 1 (fun _ => 7) 0 2)).map (fun r => (r.2.mem 1).size) = some 2 := by
    decide +kernel
  obtain ⟨reply, s, he, _, hok, halloc⟩ := call_refines (c := .writei 1 (fun _ => 7) 0 2) tinyFiles_ok h1 (by decide)
  rw [he, Option.map_some, Option.some.injEq] at hview
  have hlen : (s.content tiny 1).length = 2 := by
    rw [Files.content_eq hok (halloc 1 h1), content_length, ← hok.mem_eq (halloc 1 h1), hview]
  obtain ⟨reply', s', he', hstep, _⟩ :=
    call_refines (c := .readi 1 1 (2 ^ 32 - 1)) hok (halloc 1 h1) (by decide)
  refine ⟨s, hok, halloc 1 h1, hlen, s', ?_⟩
  rw [he', hstep.read_wraps (by decide)]

end Xv6.Fs
