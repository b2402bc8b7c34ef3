import Xv6.Mkfs.Append

/-!
# The image that `mkfs` writes

`Added done img` is what holds after the files `done` have been copied: the image
is consistent, the root directory names them in order, and each has an inode of
its own with its bytes.  `addFile` keeps it whenever it returns, and returns when
there is room (`addFile_spec`).

The last step of `main` is different: it rounds the size of the root directory up
to a block *above* it.  Where the size already is a whole number of blocks, the
last block of the root does not exist (`root_hole_62`); otherwise the image is
consistent, if there are inodes for all files (`consistent_iff`).  In both cases
the kernel finds every file (`kernel_reads_image`).
-/

namespace Xv6.Mkfs

open Fs Path DirMap

def HostFile.bytes (f : HostFile) : List UInt8 := (f.reads.getD []).flatMap Chunk.bytes

def entry (name : List UInt8) (inum : Nat) : List UInt8 := (List.range 16).map (dirent name inum)

theorem entry_length (name : List UInt8) (inum : Nat) : (entry name inum).length = 16 := by simp [entry]

theorem range_map_cstr (l : List UInt8) : (List.range l.length).map (cstr l) = l := by
  apply List.ext_getElem
  · simp
  · intro k h1 h2
    simp [cstr, List.getD_eq_getElem?_getD, List.getElem?_eq_getElem h2]

/-! ## Appending several times -/

variable {img : Img} {i : Nat} {f : HostFile} {files : List HostFile} {done : List HostFile}

variable {img' : Img} {n : Nat} {disk : Disk} {ip : Inode}

theorem Appended.size {bytes : List UInt8} (h : Appended img i bytes img') :
    (dinode sb (onDisk img') i).size = (dinode sb (onDisk img) i).size + bytes.length := by
  rw [← content_length (onDisk img'), h.content, List.length_append, content_length]

theorem Appended.refl (h : Good img) (i : Nat) : Appended img i [] img where
  good := h
  others := Others.refl sb _ i
  type := rfl
  content := (List.append_nil _).symm
  inodes := rfl
  low _ _ := rfl
  blocks := rfl

theorem Appended.trans {img1 img2 : Img} {b1 b2 : List UInt8} (h1 : Appended img i b1 img1)
    (h2 : Appended img1 i b2 img2) : Appended img i (b1 ++ b2) img2 where
  good := h2.good
  others := h1.others.trans h2.others
  type := h2.type.trans h1.type
  content := by rw [h2.content, h1.content, List.append_assoc]
  inodes := h2.inodes.trans h1.inodes
  low x hx := (h2.low x hx).trans (h1.low x hx)
  blocks := by
    have hb1 := h1.blocks
    have hb2 := h2.blocks
    rw [h1.size, Nat.add_assoc] at hb2
    rw [List.length_append]
    omega

section
variable {free free1 off a b : Nat} (h : Fits free off (a + b))
include h

theorem Fits.left : Fits free off a := by
  obtain ⟨hmax, hblocks⟩ := h
  have hmono : used (off + a) ≤ used (off + (a + b)) := used_mono (by omega)
  exact ⟨by omega, by omega⟩

theorem Fits.right (hfree : free1 + used off = free + used (off + a)) : Fits free1 (off + a) b := by
  obtain ⟨hmax, hblocks⟩ := h
  refine ⟨by omega, ?_⟩
  rw [Nat.add_assoc]
  omega

end

variable {p : Nat → UInt8} {image : Option Bool}

theorem iappend_list (h : Good img) (hi : i < NINODES) (ht : (dinode sb (onDisk img) i).type ≠ 0)
    {bytes : List UInt8} (hb : (List.range n).map p = bytes) :
    (Fits img.freeblock (dinode sb (onDisk img) i).size bytes.length → ∃ img', iappend img i p n = .ok img') ∧
    ∀ img', iappend img i p n = .ok img' → Appended img i bytes img' := by
  have hn : bytes.length = n := by rw [← hb, List.length_map, List.length_range]
  obtain ⟨hok, herr⟩ := iappend_spec h hi ht p n
  rw [hn]
  refine ⟨fun hf => (hok hf).imp fun _ h => h.1, fun img' he => ?_⟩
  by_cases hf : Fits img.freeblock (dinode sb (onDisk img) i).size n
  · obtain ⟨img1, he1, ha⟩ := hok hf
    cases he.symm.trans he1
    exact hb ▸ ha
  · obtain ⟨e, he1⟩ := herr hf
    cases he.symm.trans he1

theorem appendChunks_spec (hi : i < NINODES) : ∀ (cs : List Chunk) (img : Img), Good img →
    (dinode sb (onDisk img) i).type ≠ 0 →
    (Fits img.freeblock (dinode sb (onDisk img) i).size (cs.flatMap Chunk.bytes).length →
      ∃ img', appendChunks i cs img = .ok img') ∧
    ∀ img', appendChunks i cs img = .ok img' → Appended img i (cs.flatMap Chunk.bytes) img'
  | [], img, h, _ => ⟨fun _ => ⟨img, rfl⟩, fun img' he => by cases he; exact Appended.refl h i⟩
  | c :: cs, img, h, ht => by
    obtain ⟨hok, hall⟩ := iappend_list h hi ht (range_map_cstr c.bytes)
    rw [List.flatMap_cons, List.length_append]
    constructor
    · intro hf
      obtain ⟨img1, he⟩ := hok hf.left
      have ha := hall img1 he
      have hf1 := hf.right ha.blocks
      rw [← ha.size] at hf1
      obtain ⟨img2, he2⟩ := (appendChunks_spec hi cs img1 ha.good (by rw [ha.type]; exact ht)).1 hf1
      exact ⟨img2, by rw [appendChunks, he, ok_bind, he2]⟩
    · intro img' he
      obtain ⟨img1, he1, he2⟩ := bind_eq_ok he
      have ha := hall img1 he1
      exact ha.trans ((appendChunks_spec hi cs img1 ha.good (by rw [ha.type]; exact ht)).2 img' he2)

/-! ## The files -/

/-- The blocks of an image with these files: what comes before them, the root
directory, and the files. -/
def blocks (files : List HostFile) : Nat :=
  nmeta + used (16 * (files.length + 2)) + (files.map fun f => used f.bytes.length).sum

/-- Entry `m` of a directory with the bytes `c`. -/
def HasEntry (c : List UInt8) (m : Nat) (name : List UInt8) (inum : Nat) :
    Prop := (c.drop (16 * m)).take 16 = entry name inum

theorem HasEntry.append {c d : List UInt8} {m : Nat} {name : List UInt8} {inum : Nat} (h : HasEntry c m name inum)
    (hm : 16 * m + 16 ≤ c.length) : HasEntry (c ++ d) m name inum := by
  rw [HasEntry, List.drop_append_of_le_length (by omega), List.take_append_of_le_length
    (by rw [List.length_drop]; omega)]
  exact h

theorem HasEntry.last {c : List UInt8} {m : Nat} (hc : c.length = 16 * m) (name : List UInt8) (inum : Nat) :
    HasEntry (c ++ entry name inum) m name inum := by
  rw [HasEntry, ← hc, List.drop_left, List.take_of_length_le (by rw [entry_length])]

/-- The image after `done`. -/
structure Added (done : List HostFile) (img : Img) : Prop where
  good : Good img
  inodes : img.freeinode = done.length + 2
  dir : (dinode sb (onDisk img) ROOTINO).type = T_DIR
  rootSize : (dinode sb (onDisk img) ROOTINO).size = 16 * (done.length + 2)
  dot : HasEntry (content (onDisk img) (dinode sb (onDisk img) ROOTINO)) 0 Fs.dot ROOTINO
  dotdot : HasEntry (content (onDisk img) (dinode sb (onDisk img) ROOTINO)) 1 Fs.dotdot ROOTINO
  entries : ∀ k f, done[k]? = some f →
    HasEntry (content (onDisk img) (dinode sb (onDisk img) ROOTINO)) (k + 2) (shortname f.path) (k + 2)
  files : ∀ k f, done[k]? = some f → (dinode sb (onDisk img) (k + 2)).type = T_FILE ∧
    content (onDisk img) (dinode sb (onDisk img) (k + 2)) = f.bytes
  super : ∀ x, x < sb.inodestart → onDisk img x = blank.disk x
  count : img.freeblock = blocks done

theorem blocks_snoc (done : List HostFile) (f : HostFile) :
    blocks (done ++ [f]) = nmeta + used (16 * (done.length + 2) + 16) + (done.map fun f => used f.bytes.length).sum +
      used f.bytes.length := by
  have he : 16 * (done.length + 1 + 2) = 16 * (done.length + 2) + 16 := by omega
  simp only [blocks, List.length_append, List.length_singleton, List.map_append, List.map_singleton, List.sum_append,
    List.sum_singleton, he]
  omega

theorem blocks_mono (done rest : List HostFile) : blocks done ≤ blocks (done ++ rest) := by
  have hroot : used (16 * (done.length + 2)) ≤ used (16 * (done.length + rest.length + 2)) := used_mono (by omega)
  rw [blocks, blocks, List.length_append, List.map_append, List.sum_append]
  omega

theorem keep_of_others {disk' : Disk} {j : Nat} (h : Others sb disk disk' i) (hj : j < NINODES) (hne : j ≠ i)
    (ht : (dinode sb disk j).type ≠ 0) :
    dinode sb disk' j = dinode sb disk j ∧ content disk' (dinode sb disk' j) = content disk (dinode sb disk j) := by
  obtain ⟨hd, hc⟩ := h j hj hne
  exact ⟨hd, by rw [hd, hc ht]⟩

theorem T_FILE_ne : T_FILE ≠ 0 := by decide

theorem T_DIR_ne : T_DIR ≠ 0 := by decide

theorem getElem?_snoc {f g : HostFile} {k : Nat} (h : (done ++ [f])[k]? = some g) :
    (k < done.length ∧ done[k]? = some g) ∨ (k = done.length ∧ g = f) := by
  rw [List.getElem?_append] at h
  split at h
  · exact .inl ⟨‹_›, h⟩
  · obtain ⟨hlt, he⟩ := List.getElem?_eq_some_iff.mp h
    rw [List.length_singleton] at hlt
    exact .inr ⟨by omega, by rw [← he, List.getElem_singleton]⟩

theorem Added.next {img1 img2 img3 : Img} (h : Added done img)
    (hlt : done.length + 2 < NINODES) (ho : Others sb (onDisk img) (onDisk img1) (done.length + 2))
    (hnew : dinode sb (onDisk img1) (done.length + 2) = newInode T_FILE) (hino : img1.freeinode = done.length + 3)
    (hblocks : img1.freeblock = img.freeblock) (hlow : ∀ x, x < sb.inodestart → onDisk img1 x = onDisk img x)
    (hroot : Appended img1 ROOTINO (entry (shortname f.path) (done.length + 2)) img2)
    (hfile : Appended img2 (done.length + 2) f.bytes img3) : Added (done ++ [f]) img3 := by
  have hne : ROOTINO ≠ done.length + 2 := by unfold ROOTINO; omega
  have hr : ROOTINO < NINODES := by decide
  obtain ⟨hd1, hc1⟩ := keep_of_others ho hr hne (by rw [h.dir]; exact T_DIR_ne)
  have ht2 : (dinode sb (onDisk img2) ROOTINO).type = T_DIR := by rw [hroot.type, hd1, h.dir]
  obtain ⟨hd3, hc3⟩ := keep_of_others hfile.others hr hne (by rw [ht2]; exact T_DIR_ne)
  have hcontent : content (onDisk img3) (dinode sb (onDisk img3) ROOTINO) =
      content (onDisk img) (dinode sb (onDisk img) ROOTINO) ++ entry (shortname f.path) (done.length + 2) := by
    rw [hc3, hroot.content, hc1]
  have hlen : (content (onDisk img) (dinode sb (onDisk img) ROOTINO)).length = 16 * (done.length + 2) := by
    rw [content_length, h.rootSize]
  -- the new file is empty until its bytes are appended
  obtain ⟨hd2, hc2⟩ := keep_of_others hroot.others hlt hne.symm (by rw [hnew]; exact T_FILE_ne)
  have hempty : content (onDisk img1) (newInode T_FILE) = [] := rfl
  have hsize2 : (dinode sb (onDisk img2) (done.length + 2)).size = 0 := by rw [hd2, hnew]; rfl
  refine ⟨hfile.good, ?_, by rw [hd3, ht2], ?_, ?_, ?_, fun k g hk => ?_, fun k g hk => ?_, fun x hx => ?_, ?_⟩
  · rw [hfile.inodes, hroot.inodes, hino, List.length_append, List.length_singleton]
  · rw [hd3, hroot.size, hd1, h.rootSize, entry_length, List.length_append, List.length_singleton]
    omega
  · rw [hcontent]
    exact h.dot.append (by omega)
  · rw [hcontent]
    exact h.dotdot.append (by omega)
  · rw [hcontent]
    rcases getElem?_snoc hk with ⟨hlt', hk⟩ | ⟨rfl, rfl⟩
    · exact (h.entries k g hk).append (by omega)
    · exact HasEntry.last hlen _ _
  · rcases getElem?_snoc hk with ⟨hlt', hk⟩ | ⟨rfl, rfl⟩
    · -- a file that was there is left alone three times
      obtain ⟨ht, hc⟩ := h.files k g hk
      have hkr : k + 2 ≠ ROOTINO := by unfold ROOTINO; omega
      have hk0 : (dinode sb (onDisk img) (k + 2)).type ≠ 0 := by rw [ht]; exact T_FILE_ne
      obtain ⟨e1, c1⟩ := keep_of_others ho (by omega) (by omega) hk0
      obtain ⟨e2, c2⟩ := keep_of_others hroot.others (by omega) hkr (e1 ▸ hk0)
      obtain ⟨e3, c3⟩ := keep_of_others hfile.others (by omega) (by omega) (e2 ▸ e1 ▸ hk0)
      exact ⟨by rw [e3, e2, e1, ht], by rw [c3, c2, c1, hc]⟩
    · refine ⟨by rw [hfile.type, hd2, hnew]; rfl, ?_⟩
      rw [hfile.content, hc2, hnew, hempty, List.nil_append]
  · rw [hfile.low x hx, hroot.low x hx, hlow x hx, h.super x hx]
  · have hb1 := hroot.blocks
    have hb2 := hfile.blocks
    have hcount := h.count
    rw [hd1, h.rootSize, entry_length, hblocks] at hb1
    rw [hsize2, Nat.zero_add] at hb2
    rw [blocks_snoc]
    rw [blocks] at hcount
    have h0 : used 0 = 0 := rfl
    omega

/-- What `mkfs` asks of an argument: no `/` in the name, and that it can be opened. -/
def Valid (f : HostFile) : Prop := 47 ∉ withoutUser f.path ∧ f.reads.isSome

theorem addFile_of_valid (hv : Valid f) (rootino : Nat) (img : Img) :
    addFile rootino img f = (ialloc img T_FILE >>= fun r =>
      iappend r.2 rootino (dirent (shortname f.path) r.1) 16 >>= appendChunks r.1 (f.reads.getD [])) := by
  obtain ⟨hs, hr⟩ := hv
  obtain ⟨chunks, hc⟩ := Option.isSome_iff_exists.mp hr
  rw [addFile, if_neg hs, hc]
  rfl

theorem addFile_invalid (hv : ¬ Valid f) (rootino : Nat) (img : Img) : ∃ e, addFile rootino img f = .error e := by
  rw [addFile]
  by_cases hs : 47 ∈ withoutUser f.path
  · rw [if_pos hs]
    exact ⟨_, rfl⟩
  · cases hr : f.reads with
    | none =>
      rw [if_neg hs]
      exact ⟨_, rfl⟩
    | some chunks => exact absurd ⟨hs, by rw [hr]; rfl⟩ hv

theorem addFile_spec (h : Added done img) (hlt : done.length + 2 < NINODES) (f : HostFile) :
    (Valid f → f.bytes.length ≤ MAXFILE * BSIZE → blocks (done ++ [f]) ≤ FSSIZE → ∃ img',
    addFile ROOTINO img f = .ok img') ∧
    ∀ img', addFile ROOTINO img f = .ok img' → Added (done ++ [f]) img' := by
  by_cases hv : Valid f
  case neg =>
    obtain ⟨e, he⟩ := addFile_invalid hv ROOTINO img
    exact ⟨fun hc => absurd hc hv, fun img' hc => by cases he.symm.trans hc⟩
  rw [addFile_of_valid hv]
  obtain ⟨img1, h1, hg1, ho, hnew, hino, hblocks, hlow⟩ :=
    ialloc_spec h.good (by rw [h.inodes]; exact hlt) (show T_FILE < 2 ^ 16 by decide)
  rw [h.inodes] at h1 ho hnew hino
  rw [h1, ok_bind]
  have hr : ROOTINO < NINODES := by decide
  have hne : ROOTINO ≠ done.length + 2 := by unfold ROOTINO; omega
  obtain ⟨hd1, -⟩ := keep_of_others ho hr hne (by rw [h.dir]; exact T_DIR_ne)
  have ht1 : (dinode sb (onDisk img1) ROOTINO).type ≠ 0 := by rw [hd1, h.dir]; exact T_DIR_ne
  have hsize1 : (dinode sb (onDisk img1) ROOTINO).size = 16 * (done.length + 2) := by rw [hd1, h.rootSize]
  obtain ⟨hok1, hall1⟩ := iappend_list hg1 hr ht1 (rfl : _ = entry (shortname f.path) (done.length + 2))
  have hchunks : ∀ img2, Appended img1 ROOTINO (entry (shortname f.path) (done.length + 2)) img2 →
      (Fits img2.freeblock 0 f.bytes.length → ∃ img', appendChunks (done.length + 2)
      (f.reads.getD []) img2 = .ok img') ∧
      ∀ img', appendChunks (done.length + 2) (f.reads.getD []) img2 = .ok img' → Appended img2
        (done.length + 2) f.bytes img' := by
    intro img2 ha
    obtain ⟨hd2, -⟩ := keep_of_others ha.others hlt hne.symm (by rw [hnew]; exact T_FILE_ne)
    have hs2 : (dinode sb (onDisk img2) (done.length + 2)).size = 0 := by rw [hd2, hnew]; rfl
    have := appendChunks_spec hlt (f.reads.getD []) img2 ha.good (by rw [hd2, hnew]; exact T_FILE_ne)
    rwa [hs2] at this
  constructor
  · intro _ hmax hroom
    have hfit : Fits img1.freeblock (dinode sb (onDisk img1) ROOTINO).size (entry (shortname f.path)
      (done.length + 2)).length := by
      rw [hsize1, entry_length, hblocks, h.count, blocks]
      rw [blocks_snoc] at hroom
      unfold NINODES at hlt
      refine ⟨?_, by omega⟩
      unfold MAXFILE NDIRECT NINDIRECT BSIZE
      omega
    obtain ⟨img2, he⟩ := hok1 hfit
    have ha := hall1 img2 he
    obtain ⟨hokc, -⟩ := hchunks img2 ha
    have hb := ha.blocks
    rw [hsize1, entry_length, hblocks, h.count, blocks] at hb
    rw [blocks_snoc] at hroom
    obtain ⟨img3, he3⟩ := hokc ⟨by omega, by rw [Nat.zero_add]; omega⟩
    exact ⟨img3, by rw [he, ok_bind, he3]⟩
  · intro img' he
    obtain ⟨img2, he1, he2⟩ := bind_eq_ok he
    have ha := hall1 img2 he1
    exact h.next hlt ho hnew hino hblocks hlow ha ((hchunks img2 ha).2 img' he2)

theorem addFiles_spec : ∀ (rest done : List HostFile) (img : Img), Added done img →
    done.length + rest.length + 2 ≤ NINODES →
    ((∀ f ∈ rest, Valid f ∧ f.bytes.length ≤ MAXFILE * BSIZE) → blocks (done ++ rest) ≤ FSSIZE →
      ∃ img', addFiles ROOTINO rest img = .ok img') ∧
    ∀ img', addFiles ROOTINO rest img = .ok img' → Added (done ++ rest) img'
  | [], done, img, h, _ => by
    rw [List.append_nil]
    exact ⟨fun _ _ => ⟨img, rfl⟩, fun img' he => by cases he; exact h⟩
  | f :: rest, done, img, h, hlen => by
    rw [List.length_cons] at hlen
    obtain ⟨hok, hall⟩ := addFile_spec h (by omega) f
    rw [List.append_cons]
    have hrec := fun img1 ha => addFiles_spec rest (done ++ [f]) img1 ha
      (by rw [List.length_append, List.length_singleton]; omega)
    constructor
    · intro hv hroom
      obtain ⟨hf, hmax⟩ := hv f List.mem_cons_self
      obtain ⟨img1, he⟩ := hok hf hmax (Nat.le_trans (blocks_mono _ rest) hroom)
      obtain ⟨img2, he2⟩ := (hrec img1 (hall img1 he)).1 (fun g hg => hv g (List.mem_cons_of_mem _ hg)) hroom
      exact ⟨img2, by rw [addFiles, he, ok_bind, he2]⟩
    · intro img' he
      obtain ⟨img1, he1, he2⟩ := bind_eq_ok he
      exact (hrec img1 (hall img1 he1)).2 img' he2

/-! ## The root directory -/

theorem blank_disk {x : Nat} (h : x ≠ 1) : blank.disk x = zeroBlock := by
  simp [blank, h]

theorem dinode_blank {j : Nat} (hj : j < NINODES) : (dinode sb (onDisk blank) j).type = 0 := by
  have h1 : IBLOCK sb j ≠ 1 := by
    have : sb.inodestart ≤ IBLOCK sb j := Nat.le_add_left _ _
    have : sb.inodestart = 32 := rfl
    omega
  have hz : onDisk blank (IBLOCK sb j) = zeroBlock := by
    rw [onDisk_of_ne (IBLOCK_ne hj), blank_disk h1]
  rw [dinode, hz]
  rfl

theorem good_blank : Good blank := by
  have hno : ∀ j, j < NINODES → ¬ (dinode sb (onDisk blank) j).type ≠ 0 := fun j hj hc => hc (dinode_blank hj)
  refine ⟨⟨rfl, le_rfl, by decide, fun b hb => ?_⟩, ⟨⟨?_, ?_, ?_⟩, ?_, ?_⟩, ?_, ?_⟩
  · have hb : 46 ≤ b := hb
    exact blank_disk (by omega)
  · exact fun j s hj ht => absurd ht (hno j hj)
  · exact fun j s j' s' hj _ ht => absurd ht (hno j hj)
  · intro b hb
    rw [inUse_onDisk blank hb, decide_eq_true_eq]
    refine (or_iff_left ?_).symm
    rintro ⟨j, hj, ht, _⟩
    exact hno j hj ht
  · exact fun j hj ht => absurd ht (hno j hj)
  · exact fun j hj ht => absurd ht (hno j hj)
  · exact fun j hj ht => absurd ht (hno j hj)
  · exact fun j hj _ => dinode_blank hj

theorem rootImage_spec : ∃ img, rootImage = .ok (ROOTINO, img) ∧ Added [] img := by
  obtain ⟨img1, h1, hg1, _, hnew, hino, hblocks, hlow⟩ :=
    ialloc_spec good_blank (show blank.freeinode < NINODES by decide) (show T_DIR < 2 ^ 16 by decide)
  have hr : ROOTINO < NINODES := by decide
  have hnew : dinode sb (onDisk img1) ROOTINO = newInode T_DIR := hnew
  obtain ⟨hok1, hall1⟩ := iappend_list hg1 hr (by rw [hnew]; exact T_DIR_ne) (rfl : _ = entry Fs.dot ROOTINO)
  rw [hblocks, hnew, entry_length] at hok1
  obtain ⟨img2, he2⟩ := hok1 ⟨by decide, by decide⟩
  have ha2 := hall1 img2 he2
  have ht2 : (dinode sb (onDisk img2) ROOTINO).type = T_DIR := by rw [ha2.type, hnew]; rfl
  have hs2 : (dinode sb (onDisk img2) ROOTINO).size = 16 := by rw [ha2.size, hnew]; rfl
  have hb2 := ha2.blocks
  rw [hblocks, hnew, entry_length] at hb2
  have hfree2 : img2.freeblock = nmeta + 1 := hb2
  obtain ⟨hok2, hall2⟩ := iappend_list ha2.good hr (by rw [ht2]; exact T_DIR_ne) (rfl : _ = entry Fs.dotdot ROOTINO)
  rw [hfree2, hs2, entry_length] at hok2
  obtain ⟨img3, he3⟩ := hok2 ⟨by decide, by decide⟩
  have ha3 := hall2 img3 he3
  have hb3 := ha3.blocks
  rw [hfree2, hs2, entry_length] at hb3
  have hc : content (onDisk img3) (dinode sb (onDisk img3) ROOTINO) =
    entry Fs.dot ROOTINO ++ entry Fs.dotdot ROOTINO := by
    rw [ha3.content, ha2.content, hnew]
    rfl
  refine ⟨img3, ?_, ha3.good, ?_, by rw [ha3.type, ht2], by rw [ha3.size, hs2]; rfl, ?_, ?_, ?_, ?_, fun x hx => ?_, ?_⟩
  · have hroot : ¬ blank.freeinode ≠ ROOTINO := by decide
    have he2 : iappend img1 blank.freeinode (dirent Fs.dot blank.freeinode) 16 = .ok img2 := he2
    have he3 : iappend img2 blank.freeinode (dirent Fs.dotdot blank.freeinode) 16 = .ok img3 := he3
    simp only [rootImage, h1, ok_bind, if_neg hroot, he2, he3]
    rfl
  · rw [ha3.inodes, ha2.inodes, hino]
    rfl
  · rw [hc]
    exact (HasEntry.last (c := []) rfl Fs.dot ROOTINO).append (by simp [entry_length])
  · rw [hc]
    exact HasEntry.last (entry_length _ _) _ _
  · exact fun k f hk => by simp at hk
  · exact fun k f hk => by simp at hk
  · rw [ha3.low x hx, ha2.low x hx, hlow x hx, onDisk_of_ne]
    exact Nat.ne_of_lt (Nat.lt_trans hx (by decide))
  · have h16 : used 16 = 1 := by decide
    have h32 : used (16 + 16) = 1 := by decide
    have h47 : blocks [] = nmeta + 1 := by decide
    omega

/-! ## The end of `main` -/

def rounded (ip : Inode) : Inode := { ip with size := (ip.size / BSIZE + 1) * BSIZE }

theorem rounded_size (ip : Inode) : (rounded ip).size = (ip.size / BSIZE + 1) * BSIZE := rfl

theorem rounded_inRange (h : Added done img) (hlen : done.length + 2 ≤ NINODES) :
    (rounded (dinode sb (onDisk img) ROOTINO)).InRange := by
  have hr := dinode_inRange sb (onDisk img) ROOTINO
  refine ⟨hr.type, hr.major, hr.minor, hr.nlink, ?_, hr.addrs⟩
  rw [rounded_size, h.rootSize]
  unfold NINODES at hlen
  unfold BSIZE
  omega

/-- The image of a run: what the files made of it, with another size of the root
directory. -/
structure Finished (files : List HostFile) (img fin : Img) : Prop where
  added : Added files img
  disk : fin.disk = putDinode sb (onDisk img) ROOTINO (rounded (dinode sb (onDisk img) ROOTINO))
  root : dinode sb fin.disk ROOTINO = rounded (dinode sb (onDisk img) ROOTINO)
  other : ∀ j, j ≠ ROOTINO → dinode sb fin.disk j = dinode sb (onDisk img) j
  data : ∀ x, sb.bmapstart ≤ x → fin.disk x = onDisk img x
  inodes : fin.freeinode = img.freeinode
  blocks : fin.freeblock = img.freeblock

theorem finish_spec (h : Added files img) (hlen : files.length + 2 ≤ NINODES) :
    ∃ fin, finish ROOTINO img = .ok fin ∧ Finished files img fin := by
  have hr : ROOTINO < NINODES := by decide
  obtain ⟨img1, hw, hdisk, hrep, hino, hblock⟩ :=
    winode_ok h.good.rep hr (rounded (dinode sb (onDisk img) ROOTINO))
  have hlt : img1.freeblock < BSIZE * 8 := Nat.lt_of_le_of_lt hrep.hi (by decide)
  have hfin : (wsect img1 sb.bmapstart (bitmap img1.freeblock)).disk =
      putDinode sb (onDisk img) ROOTINO (rounded (dinode sb (onDisk img) ROOTINO)) := hdisk
  refine ⟨wsect img1 sb.bmapstart (bitmap img1.freeblock), ?_, h, hfin, ?_, fun j hj => ?_, fun x hx => ?_,
    hino, hblock⟩
  · have hw' : winode img ROOTINO { dinode sb (onDisk img) ROOTINO with
        size := ((dinode sb (onDisk img) ROOTINO).size / BSIZE + 1) * BSIZE } = .ok img1 := hw
    rw [finish, rinode_ok h.good.rep hr, ok_bind, hw', ok_bind, balloc, if_pos hlt]
  · rw [hfin, dinode_putDinode_self (rounded_inRange h hlen)]
  · rw [hfin, dinode_putDinode_of_ne hj]
  · rw [hfin, putDinode_of_ne]
    have : IBLOCK sb ROOTINO < sb.bmapstart := by decide
    omega

theorem main_spec (hlen : files.length + 2 ≤ NINODES) :
    ((∀ f ∈ files, Valid f ∧ f.bytes.length ≤ MAXFILE * BSIZE) → blocks files ≤ FSSIZE → ∃ fin,
    main (some true) files = .ok fin) ∧
    ∀ image fin, main image files = .ok fin → ∃ img, Finished files img fin := by
  obtain ⟨img0, h0, hadd⟩ := rootImage_spec
  obtain ⟨hok, hall⟩ := addFiles_spec files [] img0 hadd (by rw [List.length_nil]; omega)
  rw [List.nil_append] at hok hall
  constructor
  · intro hv hroom
    obtain ⟨img, he⟩ := hok hv hroom
    obtain ⟨fin, hf, _⟩ := finish_spec (hall img he) hlen
    refine ⟨fin, ?_⟩
    simp only [main, h0, ok_bind, he, hf]
  · intro image fin hm
    match image with
    | none => cases hm
    | some false => cases hm
    | some true =>
      simp only [main, h0, ok_bind] at hm
      obtain ⟨img, he, hm⟩ := bind_eq_ok hm
      obtain ⟨fin', hf, hfin⟩ := finish_spec (hall img he) hlen
      cases hm.symm.trans hf
      exact ⟨img, hfin⟩

section
variable {files : List HostFile} {img fin : Img} (h : Finished files img fin)
include h

theorem Finished.type (j : Nat) : (dinode sb fin.disk j).type = (dinode sb (onDisk img) j).type := by
  by_cases hj : j = ROOTINO
  · subst hj
    rw [h.root]
    rfl
  · rw [h.other j hj]

theorem Finished.slot {j : Nat} (hj : j < NINODES) (ht : (dinode sb (onDisk img) j).type ≠ 0) (s : Slot) :
    slotBlock fin.disk (dinode sb fin.disk j) s = slotBlock (onDisk img) (dinode sb (onDisk img) j) s := by
  have hdata : ∀ x, sb.nmeta ≤ x → fin.disk x = onDisk img x :=
    fun x hx => h.data x (Nat.le_trans (Nat.le_of_lt sb.bmapstart_lt) hx)
  rw [← h.added.good.fs.owned.slotBlock_of_disk hdata j s hj ht]
  by_cases hr : j = ROOTINO
  · subst hr
    rw [h.root]
    exact slotBlock_eq_of_addrs rfl s
  · rw [h.other j hr]

theorem Finished.allocated {j : Nat} (h0 : 0 < j) (hj : j < fin.freeinode) : (dinode sb (onDisk img) j).type ≠ 0 := by
  rw [h.inodes, h.added.inodes] at hj
  rcases Nat.eq_or_lt_of_le h0 with rfl | h1
  · exact fun hc => T_DIR_ne (h.added.dir.symm.trans hc)
  · obtain ⟨k, rfl⟩ : ∃ k, j = k + 2 := ⟨j - 2, by omega⟩
    have hk : files[k]? = some files[k] := List.getElem?_eq_getElem (by omega)
    rw [(h.added.files k _ hk).1]
    exact T_FILE_ne

end

/-- A consistent image. -/
structure Consistent (img : Img) : Prop where
  inodes : ∀ i, 0 < i → i < img.freeinode → i < NINODES
  range : ∀ i s, 0 < i → i < img.freeinode → slotBlock img.disk (dinode sb img.disk i) s ≠ 0 →
    nmeta ≤ slotBlock img.disk (dinode sb img.disk i) s ∧ slotBlock img.disk (dinode sb img.disk i) s < FSSIZE
  distinct : ∀ i s j t, 0 < i → i < img.freeinode → 0 < j → j < img.freeinode →
    slotBlock img.disk (dinode sb img.disk i) s ≠ 0 →
    slotBlock img.disk (dinode sb img.disk i) s = slotBlock img.disk (dinode sb img.disk j) t → i = j ∧ s = t
  bits : ∀ b, b < BPB → bitSet (img.disk sb.bmapstart) b = decide (b < img.freeblock)
  holes : ∀ i bn, 0 < i → i < img.freeinode → bn < ((dinode sb img.disk i).size + BSIZE - 1) / BSIZE →
    blk img.disk (dinode sb img.disk i) bn ≠ 0

/-- The image is consistent when there are inodes for the files and the root directory
does not fill its last block. -/
theorem Finished.consistent {img0 : Img} (hf : Finished files img0 img)
    (hlen : files.length + 2 ≤ NINODES) (hblock : 16 * (files.length + 2) % BSIZE ≠ 0) : Consistent img := by
  have hgood := hf.added.good
  have hino : ∀ i, i < img.freeinode → i < NINODES := by
    intro i hi
    rw [hf.inodes, hf.added.inodes] at hi
    omega
  constructor
  case inodes => exact fun i _ hi => hino i hi
  case range =>
    intro i s h0 hi
    have ht := hf.allocated h0 hi
    rw [hf.slot (hino i hi) ht]
    exact hgood.fs.owned.range i s (hino i hi) ht
  case distinct =>
    intro i s j t h0 hi h0' hj
    have ht := hf.allocated h0 hi
    have ht' := hf.allocated h0' hj
    rw [hf.slot (hino i hi) ht, hf.slot (hino j hj) ht']
    exact hgood.fs.owned.inj i s j t (hino i hi) (hino j hj) ht ht'
  case bits =>
    intro b _
    rw [hf.data _ le_rfl, onDisk, Function.update_self, bitSet_bitmap, hf.blocks]
  case holes =>
    intro i bn h0 hi hbn
    have ht := hf.allocated h0 hi
    rw [blk, hf.slot (hino i hi) ht]
    refine hgood.fs.holes i (hino i hi) ht bn ?_
    by_cases hr : i = ROOTINO
    · -- the last block of the root directory has entries in it
      subst hr
      rw [hf.root, rounded_size, hf.added.rootSize] at hbn
      rw [hf.added.rootSize]
      unfold BSIZE at *
      omega
    · rw [hf.other i hr] at hbn
      unfold BSIZE at *
      omega

/-- Where the root directory fills its last block, the block after it is below the
new size and does not exist. -/
theorem Finished.hole {img0 : Img} (hf : Finished files img0 img)
    (hlen : files.length + 2 ≤ NINODES) (hblock : 16 * (files.length + 2) % BSIZE = 0) :
    16 * (files.length + 2) / BSIZE < ((dinode sb img.disk ROOTINO).size + BSIZE - 1) / BSIZE ∧
      blk img.disk (dinode sb img.disk ROOTINO) (16 * (files.length + 2) / BSIZE) = 0 := by
  have hr : ROOTINO < NINODES := by decide
  have ht : (dinode sb (onDisk img0) ROOTINO).type ≠ 0 := by rw [hf.added.dir]; exact T_DIR_ne
  have hex := (hf.added.good.exact ROOTINO hr ht).blocks (16 * (files.length + 2) / BSIZE)
  rw [hf.added.rootSize] at hex
  unfold NINODES at hlen
  constructor
  · rw [hf.root, rounded_size, hf.added.rootSize]
    unfold BSIZE
    omega
  · rw [blk, hf.slot hr ht]
    by_contra hne
    unfold MAXFILE NDIRECT NINDIRECT BSIZE at *
    have := (hex (by omega)).mp hne
    omega

/-! ## Too many files

`ialloc` does not look at `NINODES`. -/

theorem fileBlock_freeinode {din din' : Inode} {fbn x : Nat}
    (h : fileBlock img din fbn = .ok (x, img', din')) : img'.freeinode = img.freeinode := by
  rw [fileBlock] at h
  split at h
  · dsimp only at h
    split at h <;> cases h <;> rfl
  · by_cases hz : din.addrs indirect = 0
    · rw [if_pos hz] at h
      obtain ⟨m, _, h⟩ := bind_eq_ok h
      split at h <;> cases h <;> rfl
    · rw [if_neg hz] at h
      obtain ⟨m, _, h⟩ := bind_eq_ok h
      split at h <;> cases h <;> rfl

theorem iappendLoop_freeinode (p : Nat → UInt8) : ∀ (fuel n off k : Nat) (img : Img) (din : Inode)
    (r : Nat × Img × Inode),
    iappendLoop p fuel n off k img din = .ok r → r.2.1.freeinode = img.freeinode := by
  intro fuel
  induction fuel with
  | zero =>
    intro n off k img din r h
    cases h
    rfl
  | succ fuel ih =>
    intro n off k img din r h
    rw [iappendLoop] at h
    split at h
    · dsimp only at h
      split at h
      · cases h
      · obtain ⟨⟨x, img1, din1⟩, h1, h⟩ := bind_eq_ok h
        obtain ⟨m, _, h⟩ := bind_eq_ok h
        have hkeep := fileBlock_freeinode h1
        exact (ih _ _ _ _ _ _ h).trans hkeep
    · cases h
      rfl

theorem winode_freeinode (h : winode img i ip = .ok img') : img'.freeinode = img.freeinode := by
  obtain ⟨m, _, h⟩ := bind_eq_ok h
  cases h
  rfl

theorem iappend_freeinode (h : iappend img i p n = .ok img') : img'.freeinode = img.freeinode := by
  obtain ⟨din, _, h⟩ := bind_eq_ok h
  obtain ⟨r, h1, h⟩ := bind_eq_ok h
  exact (winode_freeinode h).trans (iappendLoop_freeinode p _ _ _ _ _ _ _ h1)

theorem appendChunks_freeinode : ∀ (cs : List Chunk) (img img' : Img), appendChunks i cs img = .ok img' →
    img'.freeinode = img.freeinode
  | [], img, img', h => by cases h; rfl
  | c :: cs, img, img', h => by
    obtain ⟨img1, h1, h⟩ := bind_eq_ok h
    exact (appendChunks_freeinode cs img1 img' h).trans (iappend_freeinode h1)

theorem addFile_freeinode {rootino : Nat} (h : addFile rootino img f = .ok img') :
    img'.freeinode = img.freeinode + 1 := by
  by_cases hv : Valid f
  case neg =>
    obtain ⟨e, he⟩ := addFile_invalid hv rootino img
    cases he.symm.trans h
  rw [addFile_of_valid hv] at h
  obtain ⟨⟨inum, img1⟩, h1, h⟩ := bind_eq_ok h
  obtain ⟨img2, h2, h⟩ := bind_eq_ok h
  obtain ⟨img3, h3, h4⟩ := bind_eq_ok h1
  cases h4
  rw [appendChunks_freeinode _ _ _ h, iappend_freeinode h2, winode_freeinode h3]

theorem addFiles_freeinode {rootino : Nat} : ∀ (files : List HostFile) (img img' : Img),
    addFiles rootino files img = .ok img' →
    img'.freeinode = img.freeinode + files.length
  | [], img, img', h => by cases h; rfl
  | f :: fs, img, img', h => by
    obtain ⟨img1, h1, h⟩ := bind_eq_ok h
    rw [addFiles_freeinode fs img1 img' h, addFile_freeinode h1, List.length_cons]
    omega

theorem main_freeinode (h : main image files = .ok img) : img.freeinode = files.length + 2 := by
  obtain ⟨img0, h0, hadd⟩ := rootImage_spec
  match image with
  | none => cases h
  | some false => cases h
  | some true =>
    simp only [main, h0, ok_bind] at h
    obtain ⟨img1, h1, h⟩ := bind_eq_ok h
    obtain ⟨din, _, h⟩ := bind_eq_ok h
    obtain ⟨img2, h2, h⟩ := bind_eq_ok h
    rw [balloc] at h
    split at h
    · cases h
      have hroot : img0.freeinode = 2 := hadd.inodes
      show img2.freeinode = _
      rw [winode_freeinode h2, addFiles_freeinode _ _ _ h1, hroot, Nat.add_comm]
    · cases h

/-- Exactly these argument lists give a consistent image. -/
theorem consistent_iff (h : main image files = .ok img) :
    Consistent img ↔ files.length + 2 ≤ NINODES ∧ 16 * (files.length + 2) % BSIZE ≠ 0 := by
  constructor
  · intro hc
    have hino := main_freeinode h
    have hlen : files.length + 2 ≤ NINODES := by
      have := hc.inodes (files.length + 1) (Nat.succ_pos _) (by omega)
      omega
    obtain ⟨img0, hf⟩ := (main_spec hlen).2 image img h
    refine ⟨hlen, fun hblock => ?_⟩
    obtain ⟨hlt, hzero⟩ := hf.hole hlen hblock
    refine hc.holes ROOTINO _ (by decide) ?_ hlt hzero
    unfold ROOTINO
    omega
  · rintro ⟨hlen, hblock⟩
    obtain ⟨img0, hf⟩ := (main_spec hlen).2 image img h
    exact hf.consistent hlen hblock

/-- A file `_a` with two bytes. -/
def fileA : HostFile := ⟨[95, 97], some [⟨[104, 105], by decide, by decide⟩]⟩

/-- A file `_b` of 13 blocks, the last one behind the indirect block. -/
def fileB : HostFile :=
  ⟨[95, 98], some (List.replicate 13 ⟨List.replicate BSIZE 120, by rw [List.length_replicate]; decide, by simp⟩)⟩

theorem fileB_length : fileB.bytes.length = 13 * BSIZE := by
  simp only [fileB, HostFile.bytes, Option.getD_some, List.length_flatMap, List.map_replicate, List.length_replicate,
    List.sum_replicate]
  rfl

theorem consistent_iff_two : ∃ img, main (some true) [fileA, fileB] = .ok img ∧ Consistent img := by
  have hvalid : ∀ f ∈ [fileA, fileB], Valid f ∧ f.bytes.length ≤ MAXFILE * BSIZE := by
    simp only [List.forall_mem_cons, fileB_length]
    exact ⟨⟨⟨by decide, rfl⟩, by decide⟩, ⟨⟨by decide, rfl⟩, by decide⟩, nofun⟩
  have hroom : blocks [fileA, fileB] ≤ FSSIZE := by
    rw [blocks, List.map_cons, List.map_cons, fileB_length]
    decide
  obtain ⟨img, h⟩ := (main_spec (by decide)).1 hvalid hroom
  exact ⟨img, h, (consistent_iff h).mpr ⟨by decide, by decide⟩⟩

/-- `n` empty files with the name `a`. -/
def emptyFiles (n : Nat) : List HostFile := List.replicate n ⟨[97], some []⟩

theorem emptyFiles_ok (hn : n + 2 ≤ NINODES) : ∃ img, main (some true) (emptyFiles n) = .ok img := by
  have hlen : (emptyFiles n).length = n := List.length_replicate
  refine (main_spec (by rw [hlen]; exact hn)).1 (fun f hf => ?_) ?_
  · rw [List.eq_of_mem_replicate hf]
    exact ⟨⟨by decide, rfl⟩, by decide⟩
  · have hroot : used (16 * (n + 2)) ≤ used (16 * NINODES) := used_mono (by omega)
    have h200 : used (16 * NINODES) = 4 := by decide
    have hzero : used (HostFile.bytes ⟨[97], some []⟩).length = 0 := by decide
    have hsum : ((emptyFiles n).map fun f => used f.bytes.length).sum = 0 := by
      rw [emptyFiles, List.map_replicate, hzero]
      simp
    rw [blocks, hlen, hsum]
    have hmeta : nmeta = 46 := rfl
    unfold FSSIZE
    omega

/-- With 62 files the root directory has 64 entries, which fill one block; its size becomes
two blocks. -/
theorem root_hole_62 : ∃ img, main (some true) (emptyFiles 62) = .ok img ∧
    1 < ((dinode sb img.disk ROOTINO).size + BSIZE - 1) / BSIZE ∧ blk img.disk (dinode sb img.disk ROOTINO) 1 = 0 := by
  have hlen : (emptyFiles 62).length + 2 ≤ NINODES := by decide
  obtain ⟨img, h⟩ := emptyFiles_ok (n := 62) (by decide)
  obtain ⟨img0, hf⟩ := (main_spec hlen).2 _ img h
  exact ⟨img, h, hf.hole hlen (by decide)⟩

/-! ## The kernel reads the image -/

theorem readi_within {off : Nat} (hh : ∀ k, off ≤ k → k < off + n → blk disk ip (k / BSIZE) ≠ 0)
    (hmax : off + n ≤ MAXFILE * BSIZE) (hsize : off + n ≤ ip.size) :
    readi sb (fun _ => false) disk ip off n = some ((n : Int), slice disk ip off n, disk, ip) := by
  have hmod : (off + n) % 2 ^ 32 = off + n := by
    unfold MAXFILE NDIRECT NINDIRECT BSIZE at *
    exact Nat.mod_eq_of_lt (by omega)
  obtain ⟨r, out, he, hno⟩ := readLoop_spec sb hh hmax (fun _ => false) n 0 (Nat.sub_le _ _) (Nat.zero_le _)
  obtain ⟨rfl, rfl⟩ := hno fun _ => rfl
  rw [readi, hmod, if_neg (by omega)]
  simp only [if_neg (show ¬ off + n > ip.size by omega)]
  exact he

theorem dirlookupLoop_first (name : Nat → UInt8) (E : Nat → List UInt8) (m : Nat)
    (hread : ∀ k, k ≤ m → 16 * k < ip.size ∧ (E k).length = 16 ∧
      readi sb (fun _ => false) disk ip (16 * k) 16 = some (16, E k, disk, ip))
    (hbefore : ∀ k, k < m → (getDirent (E k)).name ≠ nameOf name) (hname : (getDirent (E m)).name = nameOf name)
    (hinum : (getDirent (E m)).inum ≠ 0) : ∀ (fuel n : Nat), n ≤ m → m < n + fuel →
    dirlookupLoop sb name fuel (16 * n) disk ip = .ok (some ((getDirent (E m)).inum, 16 * m), disk, ip) := by
  intro fuel
  induction fuel with
  | zero => exact fun n h1 h2 => absurd h2 (by omega)
  | succ fuel ih =>
    intro n h1 h2
    obtain ⟨hlt, hlen, hr⟩ := hread n h1
    unfold dirlookupLoop
    rw [if_pos hlt, hr]
    simp only [ne_eq, not_true_eq_false, if_false]
    have hcmp := namecmp_eq_zero name hlen
    rcases Nat.eq_or_lt_of_le h1 with rfl | h1
    · rw [if_neg (show ¬ inumField (E n) = 0 from hinum), if_pos (hcmp.mpr hname)]
      rfl
    · rw [if_neg fun hc => hbefore n h1 (hcmp.mp hc), ite_self]
      exact ih (n + 1) h1 (by omega)

/-- The name of a file in the image: the first `DIRSIZ` bytes of its stripped path. -/
def HostFile.name (f : HostFile) : Name := nameOf (cstr (shortname f.path))

theorem getDirent_entry (name : List UInt8) {inum : Nat} (h : inum < 2 ^ 16) :
    getDirent (entry name inum) = ⟨inum, nameOf (cstr name)⟩ := getDirent_newDirent _ _ h

section
variable {files : List HostFile} {img fin : Img} (h : Finished files img fin)
include h

theorem Finished.block {j bn : Nat} (hj : j < NINODES) (ht : (dinode sb (onDisk img) j).type ≠ 0)
    (h0 : blk (onDisk img) (dinode sb (onDisk img) j) bn ≠ 0) :
    blk fin.disk (dinode sb fin.disk j) bn = blk (onDisk img) (dinode sb (onDisk img) j) bn ∧
      fin.disk (blk (onDisk img) (dinode sb (onDisk img) j) bn) = onDisk img
        (blk (onDisk img) (dinode sb (onDisk img) j) bn) := by
  refine ⟨h.slot hj ht _, h.data _ ?_⟩
  have h1 := (h.added.good.fs.owned.blk_range hj ht h0).1
  have h2 := sb.bmapstart_lt
  omega

theorem Finished.file {k : Nat} (hk : files[k]? = some f) (hlt : k + 2 < NINODES) :
    (dinode sb fin.disk (k + 2)).type = T_FILE ∧ content fin.disk (dinode sb fin.disk (k + 2)) = f.bytes ∧
      NoHoles fin.disk (dinode sb fin.disk (k + 2)) ∧ (dinode sb fin.disk (k + 2)).size ≤ MAXFILE * BSIZE := by
  obtain ⟨ht, hc⟩ := h.added.files k f hk
  have hne : k + 2 ≠ ROOTINO := by unfold ROOTINO; omega
  have h0 : (dinode sb (onDisk img) (k + 2)).type ≠ 0 := by rw [ht]; exact T_FILE_ne
  have hholes := h.added.good.fs.holes (k + 2) hlt h0
  have hslot : ∀ s, slotBlock fin.disk (dinode sb (onDisk img) (k + 2)) s =
      slotBlock (onDisk img) (dinode sb (onDisk img) (k + 2)) s := by
    intro s
    have := h.slot hlt h0 s
    rwa [h.other _ hne] at this
  rw [h.other _ hne]
  refine ⟨ht, ?_, hholes.congr hslot, h.added.good.fs.sizes (k + 2) hlt h0⟩
  rw [content_congr hholes hslot fun bn hbn => (h.block hlt h0 hbn).2, hc]

theorem Finished.readi_root (hlen : files.length + 2 ≤ NINODES) {m : Nat} (hm : m < files.length + 2) :
    readi sb (fun _ => false) fin.disk (dinode sb fin.disk ROOTINO) (16 * m) 16 =
      some (16, slice (onDisk img) (dinode sb (onDisk img) ROOTINO) (16 * m) 16, fin.disk,
        dinode sb fin.disk ROOTINO) := by
  have hr : ROOTINO < NINODES := by decide
  have ht : (dinode sb (onDisk img) ROOTINO).type ≠ 0 := by rw [h.added.dir]; exact T_DIR_ne
  have hsize := h.added.rootSize
  have hblk : ∀ k, k < 16 * m + 16 → blk (onDisk img) (dinode sb (onDisk img) ROOTINO) (k / BSIZE) ≠ 0 :=
    fun k hk => (h.added.good.fs.holes ROOTINO hr ht).block (by omega)
  rw [readi_within (fun k _ hk => by rw [(h.block hr ht (hblk k hk)).1]; exact hblk k hk)]
  · have hslice : slice fin.disk (dinode sb fin.disk ROOTINO) (16 * m) 16 =
        slice (onDisk img) (dinode sb (onDisk img) ROOTINO) (16 * m) 16 := by
      apply List.map_congr_left
      intro x hx
      have hx := List.mem_range.mp hx
      obtain ⟨h1, h2⟩ := h.block hr ht (hblk (16 * m + x) (by omega))
      rw [byteAt, byteAt, h1, h2]
    rw [hslice]
    rfl
  · unfold NINODES MAXFILE NDIRECT NINDIRECT BSIZE at *
    omega
  · rw [h.root, rounded_size, hsize]
    unfold BSIZE
    omega

theorem Finished.entry {m inum : Nat} {name : List UInt8} (hm : m < files.length + 2) (hinum : inum < 2 ^ 16)
    (he : HasEntry (content (onDisk img) (dinode sb (onDisk img) ROOTINO)) m name inum) :
    getDirent (slice (onDisk img) (dinode sb (onDisk img) ROOTINO) (16 * m) 16) = ⟨inum, nameOf (cstr name)⟩ := by
  have hsize := h.added.rootSize
  have hmin : min 16 ((dinode sb (onDisk img) ROOTINO).size - 16 * m) = 16 := by omega
  have hs : slice (onDisk img) (dinode sb (onDisk img) ROOTINO) (16 * m)
    (min 16 ((dinode sb (onDisk img) ROOTINO).size - 16 * m)) =
      Mkfs.entry name inum := (slice_eq_content (by omega)).trans he
  rw [hmin] at hs
  rw [hs, getDirent_entry _ hinum]

theorem Finished.dirlookup (hlen : files.length + 2 ≤ NINODES) (hdistinct : (files.map HostFile.name).Nodup)
    (hdots : ∀ f ∈ files, f.name ≠ Fs.dot ∧ f.name ≠ Fs.dotdot) {k : Nat} (hk : files[k]? = some f)
    {name : Nat → UInt8} (hname : nameOf name = f.name) :
    DirMap.dirlookup sb fin.disk (dinode sb fin.disk ROOTINO) name =
      .ok (some (k + 2, 16 * (k + 2)), fin.disk, dinode sb fin.disk ROOTINO) := by
  obtain ⟨hlt, hkf⟩ := List.getElem?_eq_some_iff.mp hk
  have hsize := h.added.rootSize
  have hfsize : (dinode sb fin.disk ROOTINO).size = (16 * (files.length + 2) / BSIZE + 1) * BSIZE := by
    rw [h.root, rounded_size, hsize]
  have hmem : f ∈ files := List.mem_of_getElem? hk
  unfold NINODES at hlen
  -- what the entries say
  have he : ∀ j g, files[j]? = some g →
      getDirent (slice (onDisk img) (dinode sb (onDisk img) ROOTINO) (16 * (j + 2)) 16) = ⟨j + 2, g.name⟩ := by
    intro j g hj
    have hjlt := (List.getElem?_eq_some_iff.mp hj).1
    exact h.entry (by omega) (by omega) (h.added.entries j g hj)
  have hself := he k f hk
  have hfirst := dirlookupLoop_first name (fun m => slice (onDisk img) (dinode sb (onDisk img) ROOTINO)
    (16 * m) 16) (k + 2)
    (fun m hm => ⟨by rw [hfsize]; unfold BSIZE; omega, by simp [slice], h.readi_root hlen (by omega)⟩)
    (fun m hm => ?_) (by simp only [hself, hname]) (by simp [hself])
    ((dinode sb fin.disk ROOTINO).size / 16 + 1) 0 (Nat.zero_le _) (by rw [hfsize]; unfold BSIZE; omega)
  · simp only [hself] at hfirst
    rw [DirMap.dirlookup, if_neg (fun hc => hc (by rw [h.type, h.added.dir]))]
    exact hfirst
  · rw [hname]
    rcases Nat.lt_or_ge m 2 with hm2 | hm2
    · obtain rfl | rfl : m = 0 ∨ m = 1 := by omega
      · rw [h.entry (by omega) (by decide) h.added.dot]
        exact (hdots f hmem).1.symm
      · rw [h.entry (by omega) (by decide) h.added.dotdot]
        exact (hdots f hmem).2.symm
    · obtain ⟨j, rfl⟩ : ∃ j, m = j + 2 := ⟨m - 2, by omega⟩
      have hj : files[j]? = some (files[j]) := List.getElem?_eq_getElem (by omega)
      rw [he j _ hj]
      intro hc
      refine List.nodup_iff_getElem?_ne_getElem?.mp hdistinct j k (by omega) (by rw [List.length_map]; exact hlt) ?_
      rw [List.getElem?_map, List.getElem?_map, hj, hk]
      exact congrArg some hc

end

/-- What the superblock says, as the kernel's `readsb` reads it. -/
def readsb (disk : Disk) : List Nat := superFields.map fun f => Bytes.getLE (disk 1) f.1 f.2.1

theorem readsb_blank : readsb blank.disk = superFields.map fun f => f.2.2 := by
  apply List.map_congr_left
  intro f hf
  have hapart : superFields.Pairwise fun f g => Bytes.Apart (f.1, f.2.1) (g.1, g.2.1) := by decide
  have hsmall : ∀ f ∈ superFields, f.2.2 < 256 ^ f.2.1 := by decide
  have hget : Bytes.getLE (Bytes.putFields zeroBlock 0 superFields) (0 + f.1) f.2.1 = f.2.2 % 256 ^ f.2.1 :=
    Bytes.getLE_putFields zeroBlock hapart f.1 f.2.1 f.2.2 hf
  have hblock : blank.disk 1 = Bytes.putFields zeroBlock 0 superFields := by simp [blank]
  rw [hblock, ← Nat.zero_add f.1, hget, Nat.mod_eq_of_lt (hsmall f hf)]

/-- In the image of files with distinct names the kernel finds each, with its size and
its bytes. -/
theorem kernel_reads_image (files : List HostFile) (hvalid : ∀ f ∈ files, Valid f)
    (hdots : ∀ f ∈ files, f.name ≠ Fs.dot ∧ f.name ≠ Fs.dotdot) (hdistinct : (files.map HostFile.name).Nodup)
    (hsizes : ∀ f ∈ files, f.bytes.length ≤ MAXFILE * BSIZE) (hnumber : files.length < NINODES - 1)
    (hroom : blocks files ≤ FSSIZE) :
    ∃ img, main (some true) files = .ok img ∧ readsb img.disk = superFields.map (fun f => f.2.2) ∧
      ∀ k f, files[k]? = some f →
        (∀ name, nameOf name = f.name → DirMap.dirlookup sb img.disk (dinode sb img.disk ROOTINO) name =
          .ok (some (k + 2, 16 * (k + 2)), img.disk, dinode sb img.disk ROOTINO)) ∧
        (dinode sb img.disk (k + 2)).type = T_FILE ∧ (dinode sb img.disk (k + 2)).size = f.bytes.length ∧
        ∀ off n, off + n < 2 ^ 32 → readi sb (fun _ => false) img.disk (dinode sb img.disk (k + 2)) off n =
          some (((f.bytes.drop off).take n).length, (f.bytes.drop off).take n, img.disk, dinode sb img.disk
            (k + 2)) := by
  have hlen : files.length + 2 ≤ NINODES := by unfold NINODES at *; omega
  obtain ⟨hok, hall⟩ := main_spec hlen
  obtain ⟨fin, hm⟩ := hok (fun f hf => ⟨hvalid f hf, hsizes f hf⟩) hroom
  obtain ⟨img, hf⟩ := hall _ fin hm
  refine ⟨fin, hm, ?_, fun k f hk => ?_⟩
  · have h1 : fin.disk 1 = blank.disk 1 := by
      rw [hf.disk, putDinode_low (by decide), hf.added.super 1 (by decide)]
    rw [← readsb_blank, readsb, readsb, h1]
  · have hlt := (List.getElem?_eq_some_iff.mp hk).1
    obtain ⟨ht, hc, hholes, hmax⟩ := hf.file hk (by omega)
    have hsize : (dinode sb fin.disk (k + 2)).size = f.bytes.length := by rw [← hc, content_length]
    refine ⟨fun name hname => hf.dirlookup hlen hdistinct hdots hk hname, ht, hsize, fun off n hn => ?_⟩
    obtain ⟨r, out, he, hpast, hgood⟩ := readi_noHoles sb hholes hmax (fun _ => false) off (show n < 2 ^ 32 by omega)
    rw [he, List.length_take, List.length_drop]
    by_cases hoff : off ≤ (dinode sb fin.disk (k + 2)).size
    · obtain ⟨hr, hout⟩ := hgood ⟨hoff, hn⟩ fun _ => rfl
      rw [hr, hout, hc, hsize]
    · obtain ⟨hr, hout⟩ := hpast fun hc => hoff hc.1
      rw [hsize] at hoff
      rw [hr, hout, List.drop_eq_nil_of_le (by omega), List.take_nil, Nat.sub_eq_zero_of_le (by omega), Nat.min_zero]
      rfl

theorem kernel_reads_fileA : ∃ img, main (some true) [fileA] = .ok img ∧
    readi sb (fun _ => false) img.disk (dinode sb img.disk 2) 0 2 = some (2, [104, 105], img.disk,
    dinode sb img.disk 2) := by
  obtain ⟨img, hm, _, hall⟩ := kernel_reads_image [fileA]
    (by simp only [List.forall_mem_singleton]; exact ⟨by decide, rfl⟩)
    (by decide) (by decide) (by decide) (by decide) (by decide)
  exact ⟨img, hm, (hall 0 fileA rfl).2.2.2 0 2 (by decide)⟩

/-- `off + n` wraps around in `readi`: the byte at 1 is not delivered. -/
theorem readi_wraps_fileA : ∃ img, main (some true) [fileA] = .ok img ∧
    readi sb (fun _ => false) img.disk (dinode sb img.disk 2) 1 (2 ^ 32 - 1) = some (0, [], img.disk,
    dinode sb img.disk 2) ∧
    (fileA.bytes.drop 1).take (2 ^ 32 - 1) = [105] := by
  have hlen : [fileA].length + 2 ≤ NINODES := by decide
  obtain ⟨img, hm⟩ := (main_spec hlen).1
    (by simp only [List.forall_mem_singleton]; exact ⟨⟨by decide, rfl⟩, by decide⟩) (by decide)
  refine ⟨img, hm, ?_, ?_⟩
  · rw [readi, if_pos (Or.inr (by decide))]
  · exact List.take_of_length_le (by decide)

end Xv6.Mkfs
