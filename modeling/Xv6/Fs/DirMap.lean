import Xv6.Fs.Ownership
import Xv6.Fs.Path

/-!
# Directories as maps

A name is `DIRSIZ` bytes, up to a 0 (`nameOf`).  `namecmp` compares names in this
sense and `strncpy` stores them, so the loops of `dirlookup` and `dirlink` over the
bytes of a directory read and change a finite map from names to inode numbers
(`bindings`): `dirlookup` is the lookup, `dirlink` adds a binding that was not there,
or changes nothing when it returns -1, and `sys_unlink` removes the binding that
`dirlookup` found.
-/

namespace Xv6.Fs.DirMap

open Function
open Sys (Panic)
open Xv6.Fs.Path (nameOf)

/-! ## `kernel/string.c` -/

/-- `strncmp(p + x, q + x, n)`. -/
def strncmp (p q : Nat → UInt8) : Nat → Nat → Int
  | 0, _ => 0
  | n + 1, x => if p x ≠ 0 ∧ p x = q x then strncmp p q n (x + 1) else (p x).toNat - (q x).toNat

def fillZero (s : Nat → UInt8) : Nat → Nat → (Nat → UInt8)
  | 0, _ => s
  | n + 1, x => fillZero (update s x 0) n (x + 1)

/-- `strncpy(s + x, t + x, n)`. -/
def strncpy (s t : Nat → UInt8) : Nat → Nat → (Nat → UInt8)
  | 0, _ => s
  | n + 1, x =>
    if t x ≠ 0 then strncpy (update s x (t x)) t n (x + 1)
    else fillZero (update s x (t x)) n (x + 1)

def namecmp (s t : Nat → UInt8) : Int := strncmp s t DIRSIZ 0

/-- The bytes of a string from `x` on, `n` at most. -/
def chars (s : Nat → UInt8) (n x : Nat) : List UInt8 := ((List.range' x n).map s).takeWhile (· ≠ 0)

theorem chars_zero (s : Nat → UInt8) (x : Nat) : chars s 0 x = [] := rfl

theorem chars_succ (s : Nat → UInt8) (n x : Nat) :
    chars s (n + 1) x = if s x = 0 then [] else s x :: chars s n (x + 1) := by
  unfold chars
  rw [List.range'_succ, List.map_cons, List.takeWhile_cons]
  by_cases h : s x = 0 <;> simp [h]

theorem nameOf_eq_chars (s : Nat → UInt8) : nameOf s = chars s DIRSIZ 0 := by
  rw [nameOf, chars, List.range_eq_range']

theorem strncmp_eq_zero (p q : Nat → UInt8) : ∀ n x, strncmp p q n x = 0 ↔ chars p n x = chars q n x := by
  intro n
  induction n with
  | zero =>
    intro x
    simp [strncmp, chars_zero]
  | succ n ih =>
    intro x
    rw [strncmp, chars_succ, chars_succ]
    by_cases hpq : p x = q x
    · by_cases h0 : q x = 0 <;> simp [hpq, h0, ih]
    · have hne : ((p x).toNat : Int) - (q x).toNat ≠ 0 := by
        intro he
        exact hpq (UInt8.toNat_inj.mp (by omega))
      rw [if_neg fun hc => hpq hc.2]
      refine ⟨fun he => absurd he hne, fun he => ?_⟩
      split at he
      · next hp =>
        split at he
        · next hq => exact absurd (hp.trans hq.symm) hpq
        · cases he
      · split at he
        · cases he
        · exact absurd (List.cons.inj he).1 hpq

theorem fillZero_apply : ∀ (n x : Nat) (s : Nat → UInt8) (y : Nat),
    fillZero s n x y = if x ≤ y ∧ y < x + n then 0 else s y := by
  intro n
  induction n with
  | zero =>
    intro x s y
    rw [fillZero, if_neg (by omega)]
  | succ n ih =>
    intro x s y
    rw [fillZero, ih]
    by_cases hy : y = x
    · subst hy
      rw [if_neg (by omega), if_pos (by omega), update_self]
    · rw [update_of_ne hy]
      exact if_congr (by omega) rfl rfl

theorem strncpy_apply (t : Nat → UInt8) : ∀ (n x : Nat) (s : Nat → UInt8) (y : Nat),
    strncpy s t n x y = if x ≤ y ∧ y < x + n then (chars t n x).getD (y - x) 0 else s y := by
  intro n
  induction n with
  | zero =>
    intro x s y
    rw [strncpy, if_neg (by omega)]
  | succ n ih =>
    intro x s y
    rw [strncpy, chars_succ]
    by_cases h0 : t x = 0
    · rw [if_neg (fun hc => hc h0), if_pos h0, fillZero_apply, h0]
      by_cases hy : y = x
      · subst hy
        rw [if_neg (by omega), if_pos (by omega), update_self]
        rfl
      · rw [update_of_ne hy]
        exact if_congr (by omega) rfl rfl
    · rw [if_pos h0, if_neg h0, ih]
      by_cases hy : y = x
      · subst hy
        rw [if_neg (by omega), if_pos (by omega), update_self, Nat.sub_self]
        rfl
      · rw [update_of_ne hy]
        by_cases hin : x + 1 ≤ y ∧ y < x + 1 + n
        · rw [if_pos hin, if_pos (by omega), show y - x = y - (x + 1) + 1 by omega]
          rfl
        · rw [if_neg hin, if_neg (by omega)]

/-! ## `kernel/fs.c`, `kernel/sysfile.c` -/

/-- `de.inum` and `de.name` of the 16 bytes that `readi` delivered. -/
def inumField (bytes : List UInt8) : Nat := (bytes.getD 0 0).toNat + 256 * (bytes.getD 1 0).toNat

def nameField (bytes : List UInt8) (x : Nat) : UInt8 := bytes.getD (2 + x) 0

/-- The bytes of `de` after `strncpy(de.name, name, DIRSIZ)` and `de.inum = inum`;
`stack` is what was in the variable before. -/
def newDirent (stack : Nat → UInt8) (name : Nat → UInt8) (inum : Nat) (x : Nat) : UInt8 :=
  if x = 0 then UInt8.ofNat inum else if x = 1 then UInt8.ofNat (inum / 256)
  else strncpy (fun y => stack (2 + y)) name DIRSIZ 0 (x - 2)

section
variable (sb : Super)

def dirlookupLoop (name : Nat → UInt8) : Nat → Nat → Disk → Inode → Except Panic (Option (Nat × Nat) × Disk × Inode)
  | 0, _, disk, ip => .ok (none, disk, ip)
  | fuel + 1, off, disk, ip =>
    if off < ip.size then
      match readi sb (fun _ => false) disk ip off 16 with
      | none => .error .bmapOutOfRange
      | some (r, bytes, disk, ip) =>
        if r ≠ 16 then .error .dirRead
        else if inumField bytes = 0 then dirlookupLoop name fuel (off + 16) disk ip
        else if namecmp name (nameField bytes) = 0 then .ok (some (inumField bytes, off), disk, ip)
        else dirlookupLoop name fuel (off + 16) disk ip
    else .ok (none, disk, ip)

/-- `dirlookup`: the inode number and the offset of the entry. -/
def dirlookup (disk : Disk) (ip : Inode) (name : Nat → UInt8) : Except Panic (Option (Nat × Nat) × Disk × Inode) :=
  if ip.type ≠ T_DIR then .error .dirlookupNotDir else dirlookupLoop sb name (ip.size / 16 + 1) 0 disk ip

/-- `dirlink` into the directory `i`, without the `iput` of an entry it finds. -/
def dirlink (stack : Nat → UInt8) (disk : Disk) (i : Nat) (ip : Inode) (name : Nat → UInt8) (inum : Nat) :
    Except Panic (Int × Disk × Inode) :=
  match dirlookup sb disk ip name with
  | .error m => .error m
  | .ok (some _, disk, ip) => .ok (-1, disk, ip)
  | .ok (none, disk, ip) =>
    match emptySlot sb disk ip with
    | .error m => .error m
    | .ok (off, disk, ip) =>
      match writei sb (newDirent stack name inum) (fun _ => none) disk i ip off 16 with
      | none => .error .bmapOutOfRange
      | some (r, disk, ip) => .ok (if r ≠ 16 then -1 else 0, disk, ip)

/-- `sys_unlink` clears the entry at `off`. -/
def clearEntry (disk : Disk) (i : Nat) (ip : Inode) (off : Nat) : Except Panic (Disk × Inode) :=
  match writei sb (fun _ => 0) (fun _ => none) disk i ip off 16 with
  | none => .error .bmapOutOfRange
  | some (r, disk, ip) => if r ≠ 16 then .error .unlinkWritei else .ok (disk, ip)

end

/-! ## The map -/

/-- Entry `n` is live and has this name. -/
def Names (disk : Disk) (ip : Inode) (name : Name) (n : Nat) : Prop :=
  (direntAt disk ip n).inum ≠ 0 ∧ (direntAt disk ip n).name = name

instance (disk : Disk) (ip : Inode) (name : Name) (n : Nat) : Decidable (Names disk ip name n) :=
  inferInstanceAs (Decidable (_ ∧ _))

/-- What a directory says about names. -/
def bindings (disk : Disk) (ip : Inode) (name : Name) : Option Nat :=
  ((List.range (ip.size / 16)).find? fun n => Names disk ip name n).map fun n => (direntAt disk ip n).inum

/-- No two live entries have equal names. -/
def Distinct (disk : Disk) (ip : Inode) : Prop :=
  ∀ m n, 16 * m < ip.size → 16 * n < ip.size → ∀ name, Names disk ip name m → Names disk ip name n → m = n

/-- Inode `i` is a directory that is a map. -/
structure IsDir (sb : Super) (disk : Disk) (i : Nat) : Prop where
  fs : FsOK sb disk
  type : (dinode sb disk i).type = T_DIR
  whole : (dinode sb disk i).size % 16 = 0
  distinct : Distinct disk (dinode sb disk i)

variable {name : Name} {n : Nat} {inum : Nat} {m : Nat}

section
variable {sb : Super} {disk disk' : Disk} {i : Nat} {ip ip' : Inode}

theorem bindings_eq_some (hw : ip.size % 16 = 0) (hd : Distinct disk ip) : bindings disk ip name = some inum ↔
      ∃ n, 16 * n < ip.size ∧ Names disk ip name n ∧ (direntAt disk ip n).inum = inum := by
  rw [bindings, Option.map_eq_some_iff]
  constructor
  · rintro ⟨n, hf, he⟩
    have hlt := List.mem_range.mp (List.mem_of_find?_eq_some hf)
    exact ⟨n, by omega, by simpa using List.find?_some hf, he⟩
  · rintro ⟨n, hn, hnm, he⟩
    cases hf : (List.range (ip.size / 16)).find? fun n => Names disk ip name n with
    | none => exact absurd (List.find?_eq_none.mp hf n (List.mem_range.mpr (by omega))) (by simpa using hnm)
    | some m =>
      have hlt := List.mem_range.mp (List.mem_of_find?_eq_some hf)
      have hm : Names disk ip name m := by simpa using List.find?_some hf
      exact ⟨m, rfl, by rw [hd m n (by omega) hn name hm hnm, he]⟩

theorem bindings_eq_none (hw : ip.size % 16 = 0) (hd : Distinct disk ip) :
    bindings disk ip name = none ↔ ∀ n, 16 * n < ip.size → ¬ Names disk ip name n := by
  rw [Option.eq_none_iff_forall_ne_some]
  constructor
  · exact fun h n hn hnm => h _ ((bindings_eq_some hw hd).mpr ⟨n, hn, hnm, rfl⟩)
  · intro h inum he
    obtain ⟨n, hn, hnm, _⟩ := (bindings_eq_some hw hd).mp he
    exact h n hn hnm

/-! ## Names in entries -/

theorem nameOf_length_le (name : Nat → UInt8) : (nameOf name).length ≤ DIRSIZ := by
  have h := (List.takeWhile_sublist (· ≠ 0) (l := (List.range DIRSIZ).map name)).length_le
  rwa [List.length_map, List.length_range] at h

theorem nameOf_ne_zero (name : Nat → UInt8) : ∀ b ∈ nameOf name, b ≠ 0 := by
  intro b hb
  simpa using List.mem_takeWhile_imp hb

theorem getDirent_name {bytes : List UInt8} (hlen : bytes.length = 16) :
    (getDirent bytes).name = nameOf (nameField bytes) := by
  have he : bytes.drop 2 = (List.range DIRSIZ).map (nameField bytes) := by
    apply List.ext_getElem
    · rw [List.length_drop, hlen, List.length_map, List.length_range]
      rfl
    · intro x h1 h2
      rw [List.length_drop] at h1
      rw [List.getElem_drop, List.getElem_map, List.getElem_range, nameField, List.getD_eq_getElem?_getD,
        List.getElem?_eq_getElem (by omega)]
      rfl
  show (bytes.drop 2).takeWhile (· ≠ 0) = _
  rw [he, nameOf]

theorem namecmp_eq_zero (name : Nat → UInt8) {bytes : List UInt8} (hlen : bytes.length = 16) :
    namecmp name (nameField bytes) = 0 ↔ (getDirent bytes).name = nameOf name := by
  rw [namecmp, strncmp_eq_zero, ← nameOf_eq_chars, ← nameOf_eq_chars, getDirent_name hlen]
  exact eq_comm

/-- The bytes that `dirlink` stores are those of the entry. -/
theorem newDirent_eq (stack name : Nat → UInt8) {x : Nat} (hx : x < 16) :
    newDirent stack name inum x = direntBytes ⟨inum, nameOf name⟩ x := by
  unfold newDirent direntBytes
  split
  · rfl
  · split
    · rfl
    · rw [strncpy_apply, if_pos (by unfold DIRSIZ; omega), nameOf_eq_chars, Nat.sub_zero]

theorem getDirent_newDirent (stack name : Nat → UInt8) (hinum : inum < 2 ^ 16) :
    getDirent ((List.range 16).map (newDirent stack name inum)) = ⟨inum, nameOf name⟩ := by
  have hget : ∀ x, x < 16 → ((List.range 16).map (newDirent stack name inum)).getD x 0 = direntBytes
    ⟨inum, nameOf name⟩ x := by
    intro x hx
    rw [List.getD_eq_getElem?_getD, List.getElem?_map, List.getElem?_range hx]
    exact newDirent_eq stack name hx
  have hfield : ∀ x, x < DIRSIZ →
      nameField ((List.range 16).map (newDirent stack name inum)) x = (nameOf name).getD x 0 := by
    intro x hx
    unfold DIRSIZ at hx
    rw [nameField, hget _ (by omega), direntBytes, if_neg (by omega), if_neg (by omega), Nat.add_sub_cancel_left]
  have hname : (getDirent ((List.range 16).map (newDirent stack name inum))).name = nameOf name := by
    rw [getDirent_name (by simp), Path.nameOf_word (nameOf_ne_zero name) (fun x hx _ => hfield x hx),
      List.take_of_length_le (nameOf_length_le name)]
    intro hlt
    rw [hfield _ hlt, List.getD_eq_getElem?_getD, List.getElem?_eq_none (Nat.le_refl _)]
    rfl
  have hnum : (getDirent ((List.range 16).map (newDirent stack name inum))).inum = inum := by
    have h0 : (direntBytes ⟨inum, nameOf name⟩ 0).toNat = inum % 256 := UInt8.toNat_ofNat'
    have h1 : (direntBytes ⟨inum, nameOf name⟩ 1).toNat = inum / 256 % 256 := UInt8.toNat_ofNat'
    show (List.getD _ 0 (0 : UInt8)).toNat + 256 * (List.getD _ 1 (0 : UInt8)).toNat = inum
    rw [hget 0 (by decide), hget 1 (by decide), h0, h1]
    omega
  generalize getDirent ((List.range 16).map (newDirent stack name inum)) = de at hnum hname ⊢
  cases de
  cases hnum
  cases hname
  rfl

/-! ## The loops -/

/-- The loop is a scan for the name that the bytes of `name` spell. -/
theorem dirlookupLoop_eq (name : Nat → UInt8) : ∀ (fuel off : Nat) (disk : Disk) (ip : Inode),
    dirlookupLoop sb name fuel off disk ip =
      (scanDir sb (fun de => de.inum ≠ 0 ∧ de.name = nameOf name) fuel off disk ip).map fun r =>
        (r.1.map fun x => (x.1.inum, x.2), r.2) := by
  intro fuel
  induction fuel with
  | zero => exact fun _ _ _ => rfl
  | succ fuel ih =>
    intro off disk ip
    unfold dirlookupLoop scanDir readDirent
    by_cases hlt : off < ip.size
    swap
    · rw [if_neg hlt, if_neg hlt]
      rfl
    rw [if_pos hlt, if_pos hlt]
    cases hr : readi sb (fun _ => false) disk ip off 16 with
    | none => rfl
    | some x =>
      obtain ⟨r, bytes, disk1, ip1⟩ := x
      have hlen := readi_length hr
      by_cases h16 : r = 16
      swap
      · simp [h16]
        rfl
      have hcmp := namecmp_eq_zero name (show bytes.length = 16 by omega)
      by_cases h0 : (getDirent bytes).inum = 0
      · have h0' : inumField bytes = 0 := h0
        simp [h16, h0, h0', ih]
      · have h0' : inumField bytes ≠ 0 := h0
        by_cases hnm : (getDirent bytes).name = nameOf name
        · simp [h16, h0, h0', hnm, hcmp.mpr hnm]
          rfl
        · simp [h16, h0, h0', hnm, mt hcmp.mp hnm, ih]

theorem dirlookup_eq (name : Nat → UInt8) : dirlookup sb disk ip name = Fs.dirlookup sb disk ip (nameOf name) := by
  unfold dirlookup Fs.dirlookup
  rw [dirlookupLoop_eq]
  split
  · rfl
  · cases scanDir sb _ (ip.size / 16 + 1) 0 disk ip <;> rfl

theorem dirlookup_spec (h : IsDir sb disk i) (hi : i < sb.ninodes) (name : Nat → UInt8) :
    (dirlookup sb disk (dinode sb disk i) name = .ok (none, disk, dinode sb disk i) ∧
      ∀ m, 16 * m < (dinode sb disk i).size → ¬ Names disk (dinode sb disk i) (nameOf name) m) ∨
    ∃ m, 16 * m < (dinode sb disk i).size ∧ Names disk (dinode sb disk i) (nameOf name) m ∧
      dirlookup sb disk (dinode sb disk i) name =
        .ok (some ((direntAt disk (dinode sb disk i) m).inum, 16 * m), disk, dinode sb disk i) := by
  obtain ⟨r, he, hsome, hnone⟩ := scanDir_first h.fs hi (by rw [h.type]; decide) h.whole
    (fun de => de.inum ≠ 0 ∧ de.name = nameOf name) ((dinode sb disk i).size / 16 + 1) 0
  rw [Nat.mul_zero] at he
  rw [dirlookup_eq, Fs.dirlookup, if_neg (fun hc => hc h.type), he]
  cases r with
  | none => exact .inl ⟨rfl, fun m hm => of_decide_eq_false (hnone rfl (by omega) m (Nat.zero_le m) hm)⟩
  | some x =>
    obtain ⟨m, hoff, hm, hde, hp⟩ := hsome x.1 x.2 rfl
    refine .inr ⟨m, hm, ?_, ?_⟩
    · rw [Names, ← hde]
      exact of_decide_eq_true hp
    · rw [← hde, ← hoff]
      rfl

theorem emptySlot_first (h : IsDir sb disk i) (hi : i < sb.ninodes) :
    ∃ n, emptySlot sb disk (dinode sb disk i) = .ok (16 * n, disk, dinode sb disk i) ∧
      ((16 * n < (dinode sb disk i).size ∧ (direntAt disk (dinode sb disk i) n).inum = 0) ∨
        (16 * n = (dinode sb disk i).size ∧
          ∀ m, 16 * m < (dinode sb disk i).size → (direntAt disk (dinode sb disk i) m).inum ≠ 0)) := by
  have hw := h.whole
  obtain ⟨r, he, hsome, hnone⟩ := scanDir_first h.fs hi (by rw [h.type]; decide) hw (fun de => de.inum = 0)
    ((dinode sb disk i).size / 16 + 1) 0
  rw [emptySlot, he]
  cases r with
  | none =>
    refine ⟨((dinode sb disk i).size + 15) / 16, ?_, .inr ⟨by omega, fun m hm => ?_⟩⟩
    · rw [Nat.mul_comm 16]
    · simpa using hnone rfl (by omega) m (Nat.zero_le m) hm
  | some x =>
    obtain ⟨m, h1, h2, h3, h4⟩ := hsome x.1 x.2 rfl
    refine ⟨m, by rw [← h1], .inl ⟨h2, ?_⟩⟩
    rw [← h3]
    simpa using h4

/-! ## Writing an entry -/

theorem direntAt_written {src : Nat → UInt8} (hw : Written disk disk' ip ip' (16 * n) src)
    (h16 : ip.size % 16 = 0) (hn : 16 * n ≤ ip.size) (hm : 16 * m < ip'.size) :
    direntAt disk' ip' m = if m = n then getDirent ((List.range 16).map src) else direntAt disk ip m := by
  have hsize := hw.size
  unfold direntAt slice
  by_cases he : m = n
  · subst he
    rw [if_pos rfl]
    congr 1
    exact List.map_congr_left fun x hx => hw.new x (List.mem_range.mp hx)
  · rw [if_neg he]
    congr 1
    refine List.map_congr_left fun x hx => ?_
    have hlt := List.mem_range.mp hx
    exact hw.old _ (by omega) (by omega)

theorem direntAt_of_content (h16 : ip.size % 16 = 0) (hc : content disk' ip' = content disk ip)
    (hm : 16 * m < ip.size) : direntAt disk' ip' m = direntAt disk ip m := by
  have hsize : ip'.size = ip.size := by rw [← content_length disk' ip', hc, content_length]
  unfold direntAt slice
  congr 1
  refine List.map_congr_left fun x hx => ?_
  have hlt := List.mem_range.mp hx
  refine byteAt_of_content (by omega) ?_
  rw [hc, content_getElem?, if_pos (by omega)]

theorem bindings_of_content (h16 : ip.size % 16 = 0) (hd : Distinct disk ip)
    (hc : content disk' ip' = content disk ip) :
    ip'.size % 16 = 0 ∧ Distinct disk' ip' ∧ bindings disk' ip' = bindings disk ip := by
  have hsize : ip'.size = ip.size := by rw [← content_length disk' ip', hc, content_length]
  have hde : ∀ m, 16 * m < ip.size → direntAt disk' ip' m = direntAt disk ip m :=
    fun m hm => direntAt_of_content h16 hc hm
  have hnames : ∀ m x, 16 * m < ip.size → (Names disk' ip' x m ↔ Names disk ip x m) := by
    intro m x hm
    rw [Names, Names, hde m hm]
  have h16' : ip'.size % 16 = 0 := by rw [hsize, h16]
  have hd' : Distinct disk' ip' := by
    intro m k hm hk x h1 h2
    rw [hsize] at hm hk
    exact hd m k hm hk x ((hnames m x hm).mp h1) ((hnames k x hk).mp h2)
  refine ⟨h16', hd', funext fun x => Option.ext fun v => ?_⟩
  rw [bindings_eq_some h16' hd', bindings_eq_some h16 hd, hsize]
  refine exists_congr fun m => and_congr_right fun hm => ?_
  rw [hnames m x hm, hde m hm]

/-- To write the entry of a name binds this name, or unbinds it, and no other. -/
theorem bindings_written {src : Nat → UInt8} {de : Dirent} (h16 : ip.size % 16 = 0) (hd : Distinct disk ip)
    (hw : Written disk disk' ip ip' (16 * n) src) (hn : 16 * n ≤ ip.size)
    (hsrc : getDirent ((List.range 16).map src) = de) (hnew : de.inum ≠ 0 → de.name = name)
    (hold : ∀ m x, 16 * m < ip.size → Names disk ip x m → (m = n ↔ x = name)) :
    ip'.size % 16 = 0 ∧ Distinct disk' ip' ∧
      bindings disk' ip' = update (bindings disk ip) name (if de.inum = 0 then none else some de.inum) := by
  have hsize := hw.size
  have hde : ∀ m, 16 * m < ip'.size → direntAt disk' ip' m = if m = n then de else direntAt disk ip m :=
    fun m hm => hsrc ▸ direntAt_written hw h16 hn hm
  -- a live entry is the new one, or an old one of another name
  have hnames : ∀ m x, 16 * m < ip'.size → (Names disk' ip' x m ↔
      (m = n ∧ de.inum ≠ 0 ∧ x = name) ∨ (x ≠ name ∧ 16 * m < ip.size ∧ Names disk ip x m)) := by
    intro m x hm
    rw [Names, hde m hm]
    by_cases hmn : m = n
    · rw [if_pos hmn]
      constructor
      · rintro ⟨h0, rfl⟩
        exact .inl ⟨hmn, h0, hnew h0⟩
      · rintro (⟨_, h0, rfl⟩ | ⟨hx, hlt, hnm⟩)
        · exact ⟨h0, hnew h0⟩
        · exact absurd ((hold m x hlt hnm).mp hmn) hx
    · rw [if_neg hmn]
      constructor
      · intro hnm
        have hlt : 16 * m < ip.size := by omega
        exact .inr ⟨fun hx => hmn ((hold m x hlt hnm).mpr hx), hlt, hnm⟩
      · rintro (⟨rfl, _⟩ | ⟨_, _, hnm⟩)
        · exact absurd rfl hmn
        · exact hnm
  have h16' : ip'.size % 16 = 0 := by omega
  have hd' : Distinct disk' ip' := by
    intro m k hm hk x h1 h2
    rcases (hnames m x hm).mp h1 with ⟨rfl, _, rfl⟩ | ⟨hx, hlt, h1⟩
    · exact ((hnames k x hk).mp h2).elim (fun hc => hc.1.symm) fun hc => absurd rfl hc.1
    · obtain ⟨_, hlt', h2⟩ := ((hnames k x hk).mp h2).resolve_left fun hc => hx hc.2.2
      exact hd m k hlt hlt' x h1 h2
  refine ⟨h16', hd', funext fun x => Option.ext fun v => ?_⟩
  rw [bindings_eq_some h16' hd']
  by_cases hx : x = name
  · subst hx
    rw [update_self]
    constructor
    · rintro ⟨m, hm, hnm, hv⟩
      obtain ⟨rfl, h0, _⟩ := ((hnames m x hm).mp hnm).resolve_right fun hc => hc.1 rfl
      rw [hde m hm, if_pos rfl] at hv
      rw [if_neg h0, hv]
    · intro hv
      split at hv
      · cases hv
      · next h0 =>
        have hlt : 16 * n < ip'.size := by omega
        refine ⟨n, hlt, (hnames n x hlt).mpr (.inl ⟨rfl, h0, rfl⟩), ?_⟩
        rw [hde n hlt, if_pos rfl]
        exact Option.some.inj hv
  · rw [update_of_ne hx, bindings_eq_some h16 hd]
    constructor
    · rintro ⟨m, hm, hnm, hv⟩
      obtain ⟨_, hlt, hnm⟩ := ((hnames m x hm).mp hnm).resolve_left fun hc => hx hc.2.2
      rw [hde m hm, if_neg (mt (hold m x hlt hnm).mp hx)] at hv
      exact ⟨m, hlt, hnm, hv⟩
    · rintro ⟨m, hm, hnm, hv⟩
      have hm' : 16 * m < ip'.size := by omega
      refine ⟨m, hm', (hnames m x hm').mpr (.inr ⟨hx, hm, hnm⟩), ?_⟩
      rw [hde m hm', if_neg (mt (hold m x hm hnm).mp hx), hv]

theorem writei_entry_eq (h : FsOK sb disk) (hi : i < sb.ninodes) (ht : (dinode sb disk i).type ≠ 0)
    (hn : 16 * n ≤ (dinode sb disk i).size) (src : Nat → UInt8) {r : Int}
    (he : writei sb src (fun _ => none) disk i (dinode sb disk i) (16 * n) 16 = some (r, disk', ip')) :
    r = 16 ↔ 16 * n + 16 ≤ MAXFILE * BSIZE ∧
      missing disk (dinode sb disk i) (16 * n / BSIZE) ≤ (freeBlocks sb disk).length := by
  have hsz := h.sizes i hi ht
  have hov : ¬ (16 * n > (dinode sb disk i).size ∨ (16 * n + 16) % 2 ^ 32 < 16 * n) := by
    unfold MAXFILE NDIRECT NINDIRECT BSIZE at hsz
    omega
  rw [writei, if_neg hov] at he
  by_cases hmax : 16 * n + 16 ≤ MAXFILE * BSIZE
  case neg =>
    rw [if_pos (by unfold MAXFILE NDIRECT NINDIRECT BSIZE at *; omega)] at he
    cases he
    refine ⟨fun hr => ?_, fun hc => absurd hc.1 hmax⟩
    cases hr
  case pos =>
    rw [if_neg (by unfold MAXFILE NDIRECT NINDIRECT BSIZE at *; omega)] at he
    obtain ⟨a, disk1, ip1, hb, _⟩ := bmap_spec h.owned hi ht (blockIndex_lt (show 16 * n < MAXFILE * BSIZE by omega))
    have hiff := bmap_eq_zero_iff h.owned hi ht hb
    rw [writeLoop, if_pos (by decide), hb] at he
    by_cases h0 : a = 0
    · simp only [if_pos h0, Option.map_some, Option.some.injEq, Prod.mk.injEq] at he
      have hlt := hiff.mp h0
      constructor
      · intro hr
        rw [← he.1] at hr
        cases hr
      · rintro ⟨_, hc⟩
        omega
    · -- an entry does not cross a block
      have hm : min (16 - 0) (BSIZE - 16 * n % BSIZE) = 16 := by
        unfold BSIZE
        omega
      simp only [if_neg h0, hm] at he
      rw [writeLoop, if_neg (by decide)] at he
      simp only [Option.map_some, Option.some.injEq, Prod.mk.injEq] at he
      have hlt : ¬ (freeBlocks sb disk).length < missing disk (dinode sb disk i) (16 * n / BSIZE) :=
        fun hc => h0 (hiff.mpr hc)
      exact ⟨fun _ => ⟨hmax, by omega⟩, fun _ => he.1.symm⟩

section
variable (h : IsDir sb disk i)
include h

/-- The `writei` of an entry: the whole of it, or nothing. -/
theorem writei_entry (hi : i < sb.ninodes) (hn : 16 * n ≤ (dinode sb disk i).size) (src : Nat → UInt8) :
    ∃ r disk', writei sb src (fun _ => none) disk i (dinode sb disk i) (16 * n) 16 =
    some (r, disk', dinode sb disk' i) ∧
      FsOK sb disk' ∧ (dinode sb disk' i).type = T_DIR ∧
      (r = 16 → Written disk disk' (dinode sb disk i) (dinode sb disk' i) (16 * n) src) ∧
      (r ≠ 16 → content disk' (dinode sb disk' i) = content disk (dinode sb disk i)) ∧
      (r = 16 ↔ 16 * n + 16 ≤ MAXFILE * BSIZE ∧
        missing disk (dinode sb disk i) (16 * n / BSIZE) ≤ (freeBlocks sb disk).length) := by
  have ht : (dinode sb disk i).type ≠ 0 := by
    rw [h.type]
    decide
  obtain ⟨r, disk', he, hok, _, hty, hbad, hgood⟩ :=
    writei_spec h.fs hi ht src (fun _ => none) (16 * n) (show 16 < 2 ^ 32 by decide)
  refine ⟨r, disk', he, hok, by rw [hty, h.type], ?_, ?_, writei_entry_eq h.fs hi ht hn src he⟩
  · intro hr
    have hw : Writable (dinode sb disk i) (16 * n) 16 := ⟨hn, ((writei_entry_eq h.fs hi ht hn src he).mp hr).1⟩
    obtain ⟨k, hk, _, _, _, hcont⟩ := hgood hw fun _ => rfl
    have hk16 : k = 16 := by omega
    rw [hk16] at hcont
    exact Written.of_content hn hcont
  · intro hr
    by_cases hw : Writable (dinode sb disk i) (16 * n) 16
    · obtain ⟨k, hk, hle, _, hend, hcont⟩ := hgood hw fun _ => rfl
      have hk0 : k = 0 := by
        unfold BSIZE at hend
        omega
      rw [hcont, hk0, List.range_zero, List.map_nil, List.append_nil, Nat.add_zero, List.take_append_drop]
    · rw [(hbad hw).2]

theorem room_of_lt (hi : i < sb.ninodes) (hn : 16 * n < (dinode sb disk i).size) :
    16 * n + 16 ≤ MAXFILE * BSIZE ∧ missing disk (dinode sb disk i) (16 * n / BSIZE) ≤ (freeBlocks sb disk).length := by
  have ht : (dinode sb disk i).type ≠ 0 := by
    rw [h.type]
    decide
  have hsz := h.fs.sizes i hi ht
  have hw := h.whole
  refine ⟨by omega, ?_⟩
  rw [missing, if_pos ((h.fs.holes i hi ht).block hn)]
  exact Nat.zero_le _

/-! ## The operations on the map -/

theorem IsDir.of_content (hok : FsOK sb disk') (ht : (dinode sb disk' i).type = T_DIR)
    (hc : content disk' (dinode sb disk' i) = content disk (dinode sb disk i)) :
    IsDir sb disk' i ∧ bindings disk' (dinode sb disk' i) = bindings disk (dinode sb disk i) := by
  obtain ⟨h16, hd, hb⟩ := bindings_of_content h.whole h.distinct hc
  exact ⟨⟨hok, ht, h16, hd⟩, hb⟩

theorem IsDir.bindings_eq_some (hm : 16 * m < (dinode sb disk i).size) (hn : Names disk (dinode sb disk i) name m) :
    bindings disk (dinode sb disk i) name = some (direntAt disk (dinode sb disk i) m).inum :=
  (DirMap.bindings_eq_some h.whole h.distinct).mpr ⟨m, hm, hn, rfl⟩

theorem dirlookup_bindings (hi : i < sb.ninodes) (name : Nat → UInt8) :
    ∃ r, dirlookup sb disk (dinode sb disk i) name = .ok (r, disk, dinode sb disk i) ∧
      r.map Prod.fst = bindings disk (dinode sb disk i) (nameOf name) ∧
      ∀ inum off, r = some (inum, off) → ∃ m, off = 16 * m ∧ off < (dinode sb disk i).size ∧
        Names disk (dinode sb disk i) (nameOf name) m ∧ (direntAt disk (dinode sb disk i) m).inum = inum := by
  rcases dirlookup_spec h hi name with ⟨he, hno⟩ | ⟨m, hm, hn, he⟩
  · exact ⟨none, he, ((bindings_eq_none h.whole h.distinct).mpr hno).symm, nofun⟩
  · refine ⟨_, he, (h.bindings_eq_some hm hn).symm, fun inum off hr => ?_⟩
    cases hr
    exact ⟨m, rfl, hm, hn, rfl⟩

end

/-- No place for another entry: none is empty, and the directory is as large as a file
can be or the disk is full. -/
def NoSlot (sb : Super) (disk : Disk) (ip : Inode) : Prop :=
  (∀ n, 16 * n < ip.size → (direntAt disk ip n).inum ≠ 0) ∧
    (MAXFILE * BSIZE < ip.size + 16 ∨ (freeBlocks sb disk).length < missing disk ip (ip.size / BSIZE))

theorem dirlink_bindings (h : IsDir sb disk i) (hi : i < sb.ninodes) (stack name : Nat → UInt8)
    (h0 : inum ≠ 0) (hlt : inum < 2 ^ 16) :
    ∃ r disk', dirlink sb stack disk i (dinode sb disk i) name inum = .ok (r, disk', dinode sb disk' i) ∧
      IsDir sb disk' i ∧
      ((r = 0 ∧ bindings disk' (dinode sb disk' i) =
          update (bindings disk (dinode sb disk i)) (nameOf name) (some inum)) ∨
        (r = -1 ∧ bindings disk' (dinode sb disk' i) = bindings disk (dinode sb disk i))) ∧
      (r = -1 ↔ bindings disk (dinode sb disk i) (nameOf name) ≠ none ∨ NoSlot sb disk (dinode sb disk i)) := by
  unfold dirlink
  rcases dirlookup_spec h hi name with ⟨he, hno⟩ | ⟨m, hm, hn, he⟩
  case inr =>
    rw [he]
    refine ⟨-1, disk, rfl, h, .inr ⟨rfl, rfl⟩, fun _ => .inl ?_, fun _ => rfl⟩
    rw [h.bindings_eq_some hm hn]
    nofun
  case inl =>
    have hnone := (bindings_eq_none h.whole h.distinct).mpr hno
    obtain ⟨n, hslot, hcase⟩ := emptySlot_first h hi
    have hn : 16 * n ≤ (dinode sb disk i).size := by
      rcases hcase with ⟨hlt, _⟩ | ⟨heq, _⟩ <;> omega
    obtain ⟨r, disk', hwr, hok, hty, hgood, hbad, hiff⟩ := writei_entry h hi hn (newDirent stack name inum)
    have hroom : r ≠ 16 ↔ NoSlot sb disk (dinode sb disk i) := by
      rcases hcase with ⟨hlt, hz⟩ | ⟨heq, hfull⟩
      · exact ⟨fun hr => absurd (hiff.mpr (room_of_lt h hi hlt)) hr, fun hc => absurd hz (hc.1 n hlt)⟩
      · rw [Ne, hiff, heq]
        constructor
        · intro hc
          refine ⟨hfull, ?_⟩
          by_contra hcc
          exact hc (by omega)
        · rintro ⟨_, hc⟩ hcc
          omega
    rw [he]
    simp only [hslot, hwr]
    refine ⟨_, disk', rfl, ?_⟩
    by_cases hr : r = 16
    · have hold : ∀ m x, 16 * m < (dinode sb disk i).size → Names disk (dinode sb disk i) x m →
          (m = n ↔ x = nameOf name) := by
        refine fun m x hm hnm => ⟨?_, ?_⟩ <;> rintro rfl
        · exact absurd (hcase.resolve_right fun hc => Nat.ne_of_lt hm hc.1).2 hnm.1
        · exact absurd hnm (hno m hm)
      obtain ⟨h16, hd, hb⟩ := bindings_written h.whole h.distinct (hgood hr) hn (getDirent_newDirent stack name hlt)
        (fun _ => rfl) hold
      rw [if_neg h0] at hb
      rw [if_neg (fun hc => hc hr)]
      refine ⟨⟨hok, hty, h16, hd⟩, .inl ⟨rfl, hb⟩, nofun, ?_⟩
      rintro (hc | hc)
      · exact absurd hnone hc
      · exact absurd hr (hroom.mpr hc)
    · obtain ⟨hdir, hb⟩ := h.of_content hok hty (hbad hr)
      rw [if_pos hr]
      exact ⟨hdir, .inr ⟨rfl, hb⟩, fun _ => .inr (hroom.mp hr), fun _ => rfl⟩

theorem clearEntry_bindings (h : IsDir sb disk i) (hi : i < sb.ninodes)
    (hm : 16 * m < (dinode sb disk i).size) (hn : Names disk (dinode sb disk i) name m) :
    ∃ disk', clearEntry sb disk i (dinode sb disk i) (16 * m) = .ok (disk', dinode sb disk' i) ∧ IsDir sb disk' i ∧
      bindings disk' (dinode sb disk' i) = update (bindings disk (dinode sb disk i)) name none := by
  obtain ⟨r, disk', hwr, hok, hty, hgood, _, hiff⟩ := writei_entry h hi (Nat.le_of_lt hm) fun _ => 0
  have hr : r = 16 := hiff.mpr (room_of_lt h hi hm)
  have hold : ∀ k x, 16 * k < (dinode sb disk i).size → Names disk (dinode sb disk i) x k → (k = m ↔ x = name) := by
    refine fun k x hk hnk => ⟨?_, ?_⟩ <;> rintro rfl
    · exact hnk.2.symm.trans hn.2
    · exact h.distinct k m hk hm x hnk hn
  obtain ⟨h16, hd, hb⟩ := bindings_written h.whole h.distinct (hgood hr) (Nat.le_of_lt hm) rfl
    (fun hc => absurd (by decide) hc) hold
  refine ⟨disk', ?_, ⟨hok, hty, h16, hd⟩, hb⟩
  rw [clearEntry, hwr]
  simp only
  rw [if_neg (fun hc => hc hr)]

/-! ## Runs -/

/-- What happens to the directory `i`: a `dirlink`, the clearing of an entry that
`dirlookup` found, or anything that does not touch it. -/
inductive Step (sb : Super) (i : Nat) : Disk → Disk → Prop
  | dirlink {disk disk' : Disk} {ip : Inode} {r : Int} (stack name : Nat → UInt8) (inum : Nat) (h0 : inum ≠ 0)
      (hlt : inum < 2 ^ 16) (h : dirlink sb stack disk i (dinode sb disk i) name inum = .ok (r, disk', ip)) :
      Step sb i disk disk'
  | unlink {disk disk1 disk' : Disk} {ip1 ip : Inode} (name : Nat → UInt8) (inum off : Nat)
      (h1 : dirlookup sb disk (dinode sb disk i) name = .ok (some (inum, off), disk1, ip1))
      (h2 : clearEntry sb disk1 i ip1 off = .ok (disk', ip)) : Step sb i disk disk'
  | other {disk disk' : Disk} (hok : FsOK sb disk') (ht : (dinode sb disk' i).type = (dinode sb disk i).type)
      (hc : content disk' (dinode sb disk' i) = content disk (dinode sb disk i)) : Step sb i disk disk'

theorem IsDir.step (h : IsDir sb disk i) (hi : i < sb.ninodes) (hs : Step sb i disk disk') : IsDir sb disk' i := by
  cases hs with
  | dirlink stack name inum h0 hlt he =>
    obtain ⟨_, _, he', hdir, _⟩ := dirlink_bindings h hi stack name h0 hlt
    rw [he] at he'
    cases he'
    exact hdir
  | unlink name inum off h1 h2 =>
    obtain ⟨_, he, _, hfound⟩ := dirlookup_bindings h hi name
    rw [h1] at he
    cases he
    obtain ⟨m, rfl, hm, hn, _⟩ := hfound inum off rfl
    obtain ⟨_, hc, hdir, _⟩ := clearEntry_bindings h hi hm hn
    rw [h2] at hc
    cases hc
    exact hdir
  | other hok ht hc => exact (h.of_content hok (ht.trans h.type) hc).1

theorem IsDir.run (h : IsDir sb disk i) (hi : i < sb.ninodes) (hr : Relation.ReflTransGen (Step sb i) disk disk') :
    IsDir sb disk' i := by
  induction hr with
  | refl => exact h
  | tail _ hs ih => exact ih.step hi hs

theorem IsDir.of_empty (hfs : FsOK sb disk) (ht : (dinode sb disk i).type = T_DIR) (hz : (dinode sb disk i).size = 0) :
    IsDir sb disk i ∧ bindings disk (dinode sb disk i) = fun _ => none := by
  refine ⟨⟨hfs, ht, by rw [hz], fun m _ hm => absurd (hz ▸ hm) (Nat.not_lt_zero _)⟩, funext fun name => ?_⟩
  rw [bindings, hz]
  rfl

end

/-- In every run of `dirlink`s and cleared entries a directory is a finite map from
names to inode numbers: no two live entries have equal names, `dirlookup` is the
lookup, `dirlink` adds its binding, or changes nothing and returns -1 exactly when the
name is bound or there is no place for an entry, and clearing the entry at the offset
that `dirlookup` reported removes its binding. -/
theorem directory_map (sb : Super) (i : Nat) (hi : i < sb.ninodes) (disk0 disk : Disk) (h : IsDir sb disk0 i)
    (hr : Relation.ReflTransGen (Step sb i) disk0 disk) : Distinct disk (dinode sb disk i) ∧
    (∀ name, ∃ r, dirlookup sb disk (dinode sb disk i) name = .ok (r, disk, dinode sb disk i) ∧
      r.map Prod.fst = bindings disk (dinode sb disk i) (nameOf name)) ∧
    (∀ stack name inum, inum ≠ 0 → inum < 2 ^ 16 →
      ∃ r disk', dirlink sb stack disk i (dinode sb disk i) name inum = .ok (r, disk', dinode sb disk' i) ∧
        ((r = 0 ∧ bindings disk' (dinode sb disk' i) =
            update (bindings disk (dinode sb disk i)) (nameOf name) (some inum)) ∨
          (r = -1 ∧ bindings disk' (dinode sb disk' i) = bindings disk (dinode sb disk i))) ∧
        (r = -1 ↔ bindings disk (dinode sb disk i) (nameOf name) ≠ none ∨ NoSlot sb disk (dinode sb disk i))) ∧
    (∀ name inum off disk1 ip1, dirlookup sb disk (dinode sb disk i) name = .ok (some (inum, off), disk1, ip1) →
      ∃ disk', clearEntry sb disk1 i ip1 off = .ok (disk', dinode sb disk' i) ∧
        bindings disk' (dinode sb disk' i) = update (bindings disk (dinode sb disk i)) (nameOf name) none) := by
  have hdir := h.run hi hr
  refine ⟨hdir.distinct, fun name => ?_, fun stack name inum h0 hlt => ?_, fun name inum off disk1 ip1 he => ?_⟩
  · obtain ⟨r, he, hb, _⟩ := dirlookup_bindings hdir hi name
    exact ⟨r, he, hb⟩
  · obtain ⟨r, disk', he, _, hb⟩ := dirlink_bindings hdir hi stack name h0 hlt
    exact ⟨r, disk', he, hb⟩
  · obtain ⟨_, he', _, hfound⟩ := dirlookup_bindings hdir hi name
    rw [he] at he'
    cases he'
    obtain ⟨m, rfl, hm, hn, _⟩ := hfound inum off rfl
    obtain ⟨disk', hc, _, hb⟩ := clearEntry_bindings hdir hi hm hn
    exact ⟨disk', hc, hb⟩

def nameA (x : Nat) : UInt8 := if x = 0 then 97 else 0

theorem directory_map_rootDisk : ∃ disk, Relation.ReflTransGen (Step tiny ROOTINO) BlockSys.rootDisk disk ∧
    Distinct disk (dinode tiny disk ROOTINO) ∧ bindings disk (dinode tiny disk ROOTINO) [97] = some 2 := by
  have hroot : IsDir tiny BlockSys.rootDisk ROOTINO :=
    (IsDir.of_empty BlockSys.rootDisk_image.fs (by decide +kernel) (by decide +kernel)).1
  obtain ⟨r, disk, he, hor, _⟩ :=
    (directory_map tiny ROOTINO (by decide) _ _ hroot .refl).2.2.1 (fun _ => 0) nameA 2 (by decide) (by decide)
  have hview : (match dirlink tiny (fun _ => 0) BlockSys.rootDisk ROOTINO
    (dinode tiny BlockSys.rootDisk ROOTINO) nameA 2 with
      | .ok (r, _, _) => some r
      | .error _ => none) = some 0 := by decide +kernel
  rw [he] at hview
  have hr : r = 0 := Option.some.inj hview
  have hstep : Relation.ReflTransGen (Step tiny ROOTINO) BlockSys.rootDisk disk :=
    .single (.dirlink (fun _ => 0) nameA 2 (by decide) (by decide) he)
  refine ⟨disk, hstep, (directory_map tiny ROOTINO (by decide) _ _ hroot hstep).1, ?_⟩
  rcases hor with ⟨_, hb⟩ | ⟨hc, _⟩
  · rw [hb, show nameOf nameA = [97] by decide, update_self]
  · rw [hr] at hc
    cases hc

end Xv6.Fs.DirMap
