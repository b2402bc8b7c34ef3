import Mathlib.Data.Finset.Sum
import Xv6.Fs.RefLogic
import Xv6.Fs.Slots
import Xv6.Lib.Counts

/-!
# Who holds references

The counts of the inode table, of the file table and of the ends of pipes are the
sums of what the tables and the calls in progress hold (`Inv`).  A process holds
its `ofile` and `cwd` and what its call has in its hands; an open file holds an
inode or the end of a pipe.

Here the operations on the inode table keep the invariant.
-/

namespace Xv6.Fs.Refs

open Sys Threads Counts Function
open Slots (inoExec)

section

/-! ## Who holds what -/

/-- The number of descriptors of a process for file `f`. -/
def fdCount (x : Proc) (f : Nat) : Nat := ((Finset.range NOFILE).filter fun fd => x.ofile fd = some f).card

def cwdCount (x : Proc) (i : Nat) : Int := if x.cwd = some i then 1 else 0

/-- The inode of an open file. -/
def inoCount (x : File) (i : Nat) : Int := if 0 < x.ref ∧ (x.type = .inode ∨ x.type = .device) ∧ x.ip = i then 1 else 0

/-- The end of a pipe that an open file is. -/
def endCount (x : File) (e : Nat × Bool) : Int := if 0 < x.ref ∧ x.type = .pipe ∧ (x.pipe, x.writable) = e then 1 else 0

def Pipe.isOpen (x : Pipe) (w : Bool) : Bool := if w then x.writeopen else x.readopen

/-- Whether an end of a pipe is open. -/
def openCount (t : Tables) (e : Nat × Bool) : Int := (t.pipe e.1).elim 0 fun x => if Pipe.isOpen x e.2 then 1 else 0

def holders : Finset (Nat ⊕ Nat) := (Finset.range NPROC).disjSum (Finset.range NFILE)

variable (s : Slots.St) (Λ : Nat → Know)

def fileShare (p f : Nat) : Int := fdCount (s.tab.proc p) f + (Λ p).files f

def inoShare : Nat ⊕ Nat → Nat → Int
  | .inl p, i => cwdCount (s.tab.proc p) i + (Λ p).ino i
  | .inr f, i => inoCount (s.tab.file f) i

def endShare : Nat ⊕ Nat → Nat × Bool → Int
  | .inl p, e => (Λ p).ends e
  | .inr f, e => endCount (s.tab.file f) e

/-- What a call knows is so. -/
structure Agree (s : Slots.St) (p : Nat) (l : Know) : Prop where
  idle : l.busy = false → l = Know.idle
  run : l.busy = true → p < NPROC ∧ (s.tab.proc p).state = .running
  cwd : ∀ x, l.cwd = some x → (s.tab.proc p).cwd = x
  fd : ∀ fd x, l.fd fd = some x → (s.tab.proc p).ofile fd = x
  /-- Nobody else has a new file. -/
  new : ∀ f, l.new f → (s.tab.file f).type = .none ∧ 0 < (s.tab.file f).ref ∧
    (s.tab.file f).ref ≤ fdCount (s.tab.proc p) f + l.files f
  kid : ∀ np, l.kid = some np → np < NPROC ∧ (s.tab.proc np).state = .used ∧
    (∀ fd, fd < NOFILE → ¬ l.kidFd fd → (s.tab.proc np).ofile fd = none) ∧ (¬ l.kidCwd → (s.tab.proc np).cwd = none)

structure Inv : Prop where
  files : Counted (Finset.range NPROC) (fun f => (s.tab.file f).ref) (fileShare s Λ)
  inodes : Counted holders (fun i => (s.slot i).ref) (inoShare s Λ)
  ends : Counted holders (openCount s.tab) (endShare s Λ)
  fileRange : ∀ f, (s.tab.file f).ref ≠ 0 → f < NFILE
  closed : ∀ f, (s.tab.file f).ref = 0 → (s.tab.file f).type = .none
  pipes : ∀ pi x, s.tab.pipe pi = some x → x.readopen = true ∨ x.writeopen = true
  slotRange : ∀ i, (s.slot i).ref ≠ 0 → i < NINODE
  uniq : ∀ i j, 0 < (s.slot i).ref → 0 < (s.slot j).ref → (s.slot i).dev = (s.slot j).dev →
    (s.slot i).inum = (s.slot j).inum → i = j
  /-- Processes that are gone hold nothing. -/
  away : ∀ p, (s.tab.proc p).state = .unused ∨ (s.tab.proc p).state = .zombie →
    (∀ fd, fd < NOFILE → (s.tab.proc p).ofile fd = none) ∧ (s.tab.proc p).cwd = none
  procRange : ∀ p, (s.tab.proc p).state ≠ .unused → p < NPROC
  agree : ∀ p, Agree s p (Λ p)
  kids : ∀ p q np, (Λ p).kid = some np → (Λ q).kid = some np → p = q

end

variable {m : Panic} {f : Nat} {disk : Disk} {ip : Inode}

section
variable {s s' : Slots.St} {Λ : Nat → Know} {p : Nat}

/-! ## What the invariant says -/

theorem inl_mem (h : p < NPROC) : (Sum.inl p : Nat ⊕ Nat) ∈ holders :=
  Finset.inl_mem_disjSum.mpr (Finset.mem_range.mpr h)

theorem inr_mem (h : f < NFILE) : (Sum.inr f : Nat ⊕ Nat) ∈ holders :=
  Finset.inr_mem_disjSum.mpr (Finset.mem_range.mpr h)

section
variable (h : Inv s Λ)
include h

theorem Inv.hasFile (hf : (Λ p).hasFile f) : 0 < fileShare s Λ p f := by
  have hsub : (Λ p).fds f ⊆ (Finset.range NOFILE).filter fun fd => (s.tab.proc p).ofile fd = some f := by
    intro fd hfd
    obtain ⟨h1, h2⟩ := Finset.mem_filter.mp hfd
    exact Finset.mem_filter.mpr ⟨h1, (h.agree p).fd fd _ h2⟩
  have hcard := Finset.card_le_card hsub
  unfold Know.hasFile at hf
  unfold fileShare fdCount
  omega

theorem Inv.hasIno {i : Nat} (hi : (Λ p).hasIno i) : 0 < inoShare s Λ (.inl p) i := by
  have hle : (Λ p).atCwd i ≤ cwdCount (s.tab.proc p) i := by
    unfold Know.atCwd cwdCount
    split
    · next hc => rw [if_pos ((h.agree p).cwd _ hc)]
    · split <;> decide
  unfold Know.hasIno at hi
  show 0 < cwdCount _ i + (Λ p).ino i
  omega

variable (hb : (Λ p).busy = true)
include hb

theorem Inv.lt : p < NPROC := ((h.agree p).run hb).1

theorem Inv.running : (s.tab.proc p).state = .running := ((h.agree p).run hb).2

theorem Inv.file_pos (hf : (Λ p).hasFile f) : 0 < (s.tab.file f).ref :=
  Int.lt_of_lt_of_le (h.hasFile hf) (h.files.le (Finset.mem_range.mpr (h.lt hb)))

theorem Inv.slot_pos {i : Nat} (hi : (Λ p).hasIno i) : 0 < (s.slot i).ref :=
  Int.lt_of_lt_of_le (h.hasIno hi) (h.inodes.le (inl_mem (h.lt hb)))

theorem Inv.not_new (hf : 0 < fileShare s Λ p f) {q : Nat} (hq : q ≠ p) : ¬ (Λ q).new f := by
  intro hn
  have hbq : (Λ q).busy = true := by
    by_contra hc
    rw [(h.agree q).idle (by simpa using hc)] at hn
    exact hn
  have h0 := h.files.alone (Finset.mem_range.mpr (h.lt hbq)) (Finset.mem_range.mpr (h.lt hb)) (Ne.symm hq)
    ((h.agree q).new f hn).2.2
  omega

theorem Inv.kid_ne {q np : Nat} (hk : (Λ q).kid = some np) : np ≠ p := by
  rintro rfl
  have h1 := ((h.agree q).kid np hk).2.1
  rw [h.running hb] at h1
  cases h1

end

/-! ## Changes elsewhere -/

theorem Agree.frame {l : Know} (h : Agree s p l) (hp : s'.tab.proc p = s.tab.proc p)
    (hk : ∀ np, l.kid = some np → s'.tab.proc np = s.tab.proc np) (hn : ∀ f, l.new f → s'.tab.file f = s.tab.file f) :
    Agree s' p l where
  idle := h.idle
  run := by rw [hp]; exact h.run
  cwd := by rw [hp]; exact h.cwd
  fd := by rw [hp]; exact h.fd
  new f hf := by rw [hp, hn f hf]; exact h.new f hf
  kid np hnp := by rw [hk np hnp]; exact h.kid np hnp

theorem Agree.of_idle : Agree s p Know.idle where
  idle _ := rfl
  run hb := by cases hb
  cwd x hx := by cases hx
  fd fd x hx := by cases hx
  new f hf := hf.elim
  kid np hk := by cases hk

/-- A step that changes neither the tables nor what the entries of the inode table count
and stand for. -/
theorem Inv.congr (h : Inv s Λ) (ht : s'.tab = s.tab) (hslot : ∀ i, (s'.slot i).ref = (s.slot i).ref ∧
    (s'.slot i).dev = (s.slot i).dev ∧ (s'.slot i).inum = (s.slot i).inum) : Inv s' Λ where
  files := h.files.congr (fun f => by rw [ht]) fun p f => by rw [fileShare, fileShare, ht]
  inodes := h.inodes.congr (fun i => (hslot i).1) fun q i => by cases q <;> simp only [inoShare, ht]
  ends := h.ends.congr (fun e => by rw [ht]) fun q e => by cases q <;> simp only [endShare, ht]
  fileRange f := by rw [ht]; exact h.fileRange f
  closed f := by rw [ht]; exact h.closed f
  pipes pi x := by rw [ht]; exact h.pipes pi x
  slotRange i := by rw [(hslot i).1]; exact h.slotRange i
  uniq i j := by
    rw [(hslot i).1, (hslot j).1, (hslot i).2.1, (hslot j).2.1, (hslot i).2.2, (hslot j).2.2]
    exact h.uniq i j
  away p := by rw [ht]; exact h.away p
  procRange p := by rw [ht]; exact h.procRange p
  agree p := (h.agree p).frame (by rw [ht]) (fun _ _ => by rw [ht]) fun _ _ => by rw [ht]
  kids := h.kids

/-! ## One process -/

/-- A halt in a call of process `p`.  It is not for a wrong reference count, and only
for want of inodes when every entry is in use. -/
structure Halted (t : Tables) (Λ : Nat → Know) (p : Nat) (s : Slots.St) : Prop where
  inv : Inv s Λ
  tab : s.tab = t
  panic : ∃ m, s.panic = some m ∧ ¬ Miscount m
  full : s.panic = some .igetNoInodes → (Λ p).Few 2 ∧ ∀ i, i < NINODE → (s.slot i).ref ≠ 0

theorem Inv.stop (h : Inv s Λ) (hm : Other m) : Halted s.tab Λ p { s with panic := some m } where
  inv := h.congr rfl fun _ => ⟨rfl, rfl, rfl⟩
  tab := rfl
  panic := ⟨m, rfl, hm.1⟩
  full he := absurd (Option.some.inj he) hm.2

variable {l : Know}

theorem fileShare_update (q f : Nat) : fileShare s (update Λ p l) q f =
    if q = p then fdCount (s.tab.proc p) f + l.files f else fileShare s Λ q f := by
  unfold fileShare
  split
  · next hq =>
    subst hq
    rw [update_self]
  · next hq => rw [update_of_ne hq]

theorem inoShare_update (x : Nat ⊕ Nat) (i : Nat) : inoShare s (update Λ p l) x i =
    if x = .inl p then cwdCount (s.tab.proc p) i + l.ino i else inoShare s Λ x i := by
  cases x with
  | inr f => rw [if_neg (by simp)]; rfl
  | inl q =>
    by_cases hq : q = p
    · subst hq
      rw [if_pos rfl, inoShare, update_self]
    · rw [if_neg (by simpa using hq), inoShare, inoShare, update_of_ne hq]

theorem endShare_update (x : Nat ⊕ Nat) (e : Nat × Bool) : endShare s (update Λ p l) x e =
    if x = .inl p then l.ends e else endShare s Λ x e := by
  cases x with
  | inr f => rw [if_neg (by simp)]; rfl
  | inl q =>
    by_cases hq : q = p
    · subst hq
      rw [if_pos rfl, endShare, update_self]
    · rw [if_neg (by simpa using hq), endShare, endShare, update_of_ne hq]

theorem Inv.kids_update (h : Inv s Λ) (hk : ∀ np, l.kid = some np → ∀ q, q ≠ p → (Λ q).kid ≠ some np) (a b np : Nat)
    (ha : (update Λ p l a).kid = some np) (hb : (update Λ p l b).kid = some np) : a = b := by
  by_cases hap : a = p <;> by_cases hbp : b = p
  · rw [hap, hbp]
  · subst hap
    rw [update_self] at ha
    rw [update_of_ne hbp] at hb
    exact absurd hb (hk np ha b hbp)
  · subst hbp
    rw [update_self] at hb
    rw [update_of_ne hap] at ha
    exact absurd ha (hk np hb a hap)
  · rw [update_of_ne hap] at ha
    rw [update_of_ne hbp] at hb
    exact h.kids a b np ha hb

theorem Inv.kid_only (h : Inv s Λ) (hk : l.kid = (Λ p).kid) (np : Nat) (hnp : l.kid = some np) (q : Nat) (hq : q ≠ p) :
    (Λ q).kid ≠ some np := fun hc => hq (h.kids q p np hc (hk ▸ hnp))

theorem Inv.learn (h : Inv s Λ) (hi : l.ino = (Λ p).ino) (hf : l.files = (Λ p).files) (he : l.ends = (Λ p).ends)
    (hk : l.kid = (Λ p).kid) (ha : Agree s p l) : Inv s (update Λ p l) := { h with
  files := h.files.congr (fun _ => rfl) fun q f => by
    rw [fileShare_update]
    split
    · next hq => rw [hf, hq, fileShare]
    · rfl
  inodes := h.inodes.congr (fun _ => rfl) fun x i => by
    rw [inoShare_update]
    split
    · next hx => rw [hi, hx, inoShare]
    · rfl
  ends := h.ends.congr (fun _ => rfl) fun x e => by
    rw [endShare_update]
    split
    · next hx => rw [he, hx, endShare]
    · rfl
  agree := (forall_update_iff Λ (Agree s)).mpr ⟨ha, fun q _ => h.agree q⟩
  kids := h.kids_update (h.kid_only hk) }

theorem Inv.inodeStep (h : Inv s Λ) (hb : (Λ p).busy = true) (d : Nat → Int) (ht : s'.tab = s.tab)
    (hn : ∀ i, (s'.slot i).ref = (s.slot i).ref + d i) (hpos : ∀ i, 0 ≤ inoShare s Λ (.inl p) i + d i)
    (hrange : ∀ i, (s'.slot i).ref ≠ 0 → i < NINODE)
    (huniq : ∀ i j, 0 < (s'.slot i).ref → 0 < (s'.slot j).ref → (s'.slot i).dev = (s'.slot j).dev →
      (s'.slot i).inum = (s'.slot j).inum → i = j) : Inv s' (update Λ p { Λ p with ino := (Λ p).ino + d }) where
  files := h.files.congr (fun f => by rw [ht]) fun q f => by
    rw [fileShare_update, ht]
    split
    · next hq => rw [hq, fileShare]
    · rw [fileShare, fileShare, ht]
  inodes := by
    refine h.inodes.change (inl_mem (h.lt hb)) (fun i => ?_) (fun x hx i => ?_) hpos fun i => ?_
    · rw [inoShare_update, if_pos rfl, ht]
      exact (Int.add_assoc ..).symm
    · rw [inoShare_update, if_neg hx]
      cases x <;> simp only [inoShare, ht]
    · rw [hn]
      omega
  ends := h.ends.congr (fun e => by rw [ht]) fun x e => by
    rw [endShare_update]
    split
    · next hx => rw [hx, endShare]
    · cases x <;> simp only [endShare, ht]
  fileRange f := by rw [ht]; exact h.fileRange f
  closed f := by rw [ht]; exact h.closed f
  pipes pi x := by rw [ht]; exact h.pipes pi x
  slotRange := hrange
  uniq := huniq
  away q := by rw [ht]; exact h.away q
  procRange q := by rw [ht]; exact h.procRange q
  agree := by
    have hframe : ∀ q, Agree s' q (Λ q) := fun q => (h.agree q).frame (by rw [ht])
      (fun _ _ => by rw [ht]) fun _ _ => by rw [ht]
    refine (forall_update_iff Λ (Agree _)).mpr ⟨?_, fun q _ => hframe q⟩
    exact { hframe p with idle := fun hc => by rw [hb] at hc; cases hc }
  kids := h.kids_update (h.kid_only rfl)

/-! ## The inode table -/

variable {sb : Super} {i : Nat}

theorem Inv.same (h : Inv s Λ) : Inv s (update Λ p (Λ p)) := by
  rw [update_eq_self]
  exact h

theorem ref_set {x : Slots.Slot} {d : Int} (hx : x.ref = (s.slot i).ref + d) (j : Nat) :
    ((s.set i x).slot j).ref = (s.slot j).ref + if j = i then d else 0 := by
  by_cases hj : j = i
  · subst hj
    simp [Slots.St.set, hx]
  · simp [Slots.St.set, hj]

theorem setRef_key {n : Int} (j : Nat) : ((s.setRef i n).slot j).dev = (s.slot j).dev ∧
    ((s.setRef i n).slot j).inum = (s.slot j).inum := by
  unfold Slots.St.setRef Slots.St.set
  by_cases hj : j = i
  · subst hj
    simp
  · simp [hj]

section
variable (h : Inv s Λ) (hb : (Λ p).busy = true)
include h hb

theorem Inv.gainStep (hpos : 0 < (s.slot i).ref) :
    Inv (s.setRef i ((s.slot i).ref + 1)) (update Λ p ((Λ p).gain i)) := by
  have hset := setRef_key (s := s) (i := i) (n := (s.slot i).ref + 1)
  have href := ref_set (s := s) (i := i) (x := { s.slot i with ref := (s.slot i).ref + 1 }) (d := 1) rfl
  have hback : ∀ j, 0 < ((s.setRef i ((s.slot i).ref + 1)).slot j).ref → 0 < (s.slot j).ref := by
    intro j hj
    have := href j
    unfold Slots.St.setRef at hj
    rw [this] at hj
    split at hj
    · next hji => rwa [hji]
    · omega
  refine h.inodeStep hb (one i) rfl (fun j => href j) (fun j => ?_) (fun j hj => ?_) fun a c ha hc hd hn => ?_
  · exact Int.add_nonneg (h.inodes.nonneg _ j) (one_nonneg i j)
  · by_cases hji : j = i
    · subst hji
      exact h.slotRange j (Int.ne_of_gt hpos)
    · refine h.slotRange j fun hc => hj ?_
      refine (href j).trans ?_
      rw [if_neg hji, hc, Int.add_zero]
  · rw [(hset a).1, (hset c).1] at hd
    rw [(hset a).2, (hset c).2] at hn
    exact h.uniq a c (hback a ha) (hback c hc) hd hn

theorem Inv.loseStep (hi : (Λ p).hasIno i) : Inv (s.setRef i ((s.slot i).ref - 1)) (update Λ p ((Λ p).lose i)) := by
  have hset := setRef_key (s := s) (i := i) (n := (s.slot i).ref - 1)
  have href := ref_set (s := s) (i := i) (x := { s.slot i with ref := (s.slot i).ref - 1 }) (d := -1) rfl
  have hback : ∀ j, 0 < ((s.setRef i ((s.slot i).ref - 1)).slot j).ref → 0 < (s.slot j).ref := by
    intro j hj
    have := href j
    unfold Slots.St.setRef at hj
    rw [this] at hj
    split at hj <;> omega
  have hd : (Λ p).lose i = { Λ p with ino := (Λ p).ino + fun j => -one i j } := by
    ext <;> rfl
  rw [hd]
  refine h.inodeStep hb (fun j => -one i j) rfl (fun j => ?_) (fun j => ?_) (fun j hj => ?_) fun a c ha hc hd hn => ?_
  · refine (href j).trans ?_
    unfold one
    split <;> rfl
  · have hnn := h.inodes.nonneg (.inl p) j
    have hpos := h.hasIno hi
    unfold one
    split
    · next hji =>
      rw [hji]
      omega
    · omega
  · have hpos := h.slot_pos hb hi
    refine h.slotRange j fun hc => ?_
    by_cases hji : j = i
    · rw [hji] at hc
      omega
    · refine hj ((href j).trans ?_)
      rw [if_neg hji, hc, Int.add_zero]
  · rw [(hset a).1, (hset c).1] at hd
    rw [(hset a).2, (hset c).2] at hn
    exact h.uniq a c (hback a ha) (hback c hc) hd hn

theorem Inv.recycle {dev inum : Nat} (hi : i < NINODE) (h0 : (s.slot i).ref = 0)
    (hno : ∀ j, 0 < (s.slot j).ref → (s.slot j).dev = dev → (s.slot j).inum ≠ inum) :
    Inv (s.set i { s.slot i with dev := dev, inum := inum, ref := 1, valid := false })
      (update Λ p ((Λ p).gain i)) := by
  have href := ref_set (s := s) (i := i)
    (x := { s.slot i with dev := dev, inum := inum, ref := 1, valid := false }) (d := 1)
    (by rw [h0]; rfl)
  have hold : ∀ j, j ≠ i → (s.set i
    { s.slot i with dev := dev, inum := inum, ref := 1, valid := false }).slot j = s.slot j :=
    fun j hj => update_of_ne hj _ _
  have hnew : (s.set i { s.slot i with dev := dev, inum := inum, ref := 1, valid := false }).slot i =
      { s.slot i with dev := dev, inum := inum, ref := 1, valid := false } := update_self ..
  refine h.inodeStep hb (one i) rfl (fun j => href j) (fun j => ?_) (fun j hj => ?_) fun a c ha hc hd hn => ?_
  · exact Int.add_nonneg (h.inodes.nonneg _ j) (one_nonneg i j)
  · by_cases hji : j = i
    · rwa [hji]
    · rw [hold j hji] at hj
      exact h.slotRange j hj
  · by_cases hai : a = i <;> by_cases hci : c = i
    · rw [hai, hci]
    · subst hai
      rw [hold c hci] at hc hd hn
      rw [hnew] at hd hn
      exact absurd hn.symm (hno c hc hd.symm)
    · subst hci
      rw [hold a hai] at ha hd hn
      rw [hnew] at hd hn
      exact absurd hn (hno a ha hd)
    · rw [hold a hai] at ha hd hn
      rw [hold c hci] at hc hd hn
      exact h.uniq a c ha hc hd hn

theorem Inv.iget {β : Type} {dev inum : Nat} {k : Nat → β} {Q : β → Slots.St → Prop}
    (h2 : (Λ p).Few 2) (hQ : ∀ i s', Inv s' (update Λ p ((Λ p).gain i)) → Q (k i) s') :
    (s.iget dev inum k).Sat Q (Halted s.tab Λ p) := by
  unfold Slots.St.iget
  split
  · next i hf =>
    have hpos := List.find?_some hf
    simp only [decide_eq_true_eq] at hpos
    exact hQ i _ (h.gainStep hb hpos.1)
  · next hf =>
    split
    · next i he =>
      have h0 := List.find?_some he
      have hmem := List.mem_of_find?_eq_some he
      simp only [decide_eq_true_eq] at h0
      refine hQ i _ (h.recycle hb (List.mem_range.mp hmem) h0 fun j hj hd hn => ?_)
      have := List.find?_eq_none.mp hf j (List.mem_range.mpr (h.slotRange j (Int.ne_of_gt hj)))
      exact this (by simpa using ⟨hj, hd, hn⟩)
    · next he =>
      refine ⟨h.congr rfl fun _ => ⟨rfl, rfl, rfl⟩, rfl, ⟨_, rfl, by decide⟩, fun _ => ⟨h2, fun i hi => ?_⟩⟩
      simpa using List.find?_eq_none.mp he i (List.mem_range.mpr hi)

end

theorem Inv.refill (h : Inv s Λ) {j : Nat} {x : Slots.Slot} (ht : s'.tab = s.tab) (hs : s'.slot = update s.slot j x)
    (hx : x.ref = (s.slot j).ref ∧ x.dev = (s.slot j).dev ∧ x.inum = (s.slot j).inum) : Inv s' Λ := by
  refine h.congr ht fun i => ?_
  rw [hs]
  by_cases hi : i = j
  · subst hi
    simpa using hx
  · simp [hi]

theorem Inv.store (h : Inv s Λ) {j : Nat} : Inv (s.store j disk ip) Λ :=
  h.refill rfl rfl ⟨rfl, rfl, rfl⟩

/-- The panics of reading a directory. -/
def Unreadable (m : Panic) : Prop := m = .bmapOutOfRange ∨ m = .dirRead ∨ m = .dirlookupNotDir

theorem Unreadable.other (h : Unreadable m) : Other m := by
  rcases h with rfl | rfl | rfl <;> decide

theorem scanDir_error {f : Dirent → Bool} (fuel : Nat) : ∀ {off : Nat} {disk : Disk} {ip : Inode},
    scanDir sb f fuel off disk ip = .error m → Unreadable m := by
  induction fuel with
  | zero =>
    intro off disk ip hs
    cases hs
  | succ fuel ih =>
    intro off disk ip hs
    unfold scanDir at hs
    split at hs
    · split at hs
      · next m' hr =>
        cases hs
        unfold readDirent at hr
        split at hr
        · cases hr
          exact Or.inl rfl
        · split at hr <;> cases hr
          exact Or.inr (Or.inl rfl)
      · split at hs
        · cases hs
        · exact ih hs
    · cases hs

theorem dirlookup_error {name : Name} (hs : dirlookup sb disk ip name = .error m) : Unreadable m := by
  unfold dirlookup at hs
  split at hs
  · cases hs
    exact Or.inr (Or.inr rfl)
  · split at hs <;> cases hs
    next hd => exact scanDir_error _ hd

theorem emptySlot_error (hs : emptySlot sb disk ip = .error m) : Unreadable m := by
  unfold emptySlot at hs
  split at hs <;> cases hs
  next hd => exact scanDir_error _ hd

theorem isdirempty_error (hs : isdirempty sb disk ip = .error m) : Unreadable m := by
  unfold isdirempty at hs
  split at hs <;> cases hs
  next hd => exact scanDir_error _ hd

theorem ino_keeps {β : Type} {o : InoOp β} (h : Inv s Λ) (hb : (Λ p).busy = true) (hpre : inoPre o (Λ p)) :
    (inoExec sb o p s).Sat (fun b s' => ∃ l', inoPost o (Λ p) b l' ∧ Inv s' (update Λ p l'))
      (Halted s.tab Λ p) := by
  cases o with
  | root | ialloced x => exact h.iget hb hpre fun i s' hI => ⟨_, rfl, hI⟩
  | idup i => exact ⟨_, ⟨rfl, rfl⟩, h.gainStep hb (h.slot_pos hb hpre.1)⟩
  | iput i =>
    simp only [inoExec]
    split
    · split
      · exact ⟨_, rfl, .same (h.refill rfl rfl ⟨rfl, rfl, rfl⟩)⟩
      · exact h.stop (by decide)
    · exact ⟨_, rfl, h.loseStep hb hpre⟩
  | iputLast i => exact ⟨_, rfl, h.loseStep hb hpre⟩
  | ilock i =>
    simp only [inoExec, Slots.St.ilocked]
    split_ifs
    · exact h.stop (by decide)
    · exact ⟨_, rfl, .same (h.refill rfl rfl ⟨rfl, rfl, rfl⟩)⟩
    · exact h.stop (by decide)
    · exact ⟨_, rfl, .same (h.refill rfl rfl ⟨rfl, rfl, rfl⟩)⟩
    · trivial
  | iunlock i =>
    simp only [inoExec]
    split
    · exact h.stop (by decide)
    · exact ⟨_, rfl, .same (h.refill rfl rfl ⟨rfl, rfl, rfl⟩)⟩
  | iputFree i =>
    simp only [inoExec]
    split
    · exact h.stop (by decide)
    · exact ⟨_, rfl, .same (h.refill rfl rfl ⟨rfl, rfl, rfl⟩)⟩
  | ialloc type =>
    simp only [inoExec]
    split
    · exact ⟨_, rfl, h.same⟩
    · exact ⟨_, rfl, .same (h.congr rfl fun _ => ⟨rfl, rfl, rfl⟩)⟩
  | stat i => exact ⟨_, rfl, h.same⟩
  | dirlookup i name =>
    simp only [inoExec]
    split
    · next hd => exact h.stop (dirlookup_error hd).other
    · exact ⟨_, rfl, h.store.same⟩
    · exact h.store.iget hb hpre fun j s' hI => ⟨_, rfl, hI⟩
  | setInode i major minor nlink | setLink i nlink => exact ⟨_, rfl, h.store.same⟩
  | emptySlot i =>
    simp only [inoExec]
    split
    · next hd => exact h.stop (emptySlot_error hd).other
    · exact ⟨_, rfl, h.store.same⟩
  | isdirempty i =>
    simp only [inoExec]
    split
    · next hd => exact h.stop (isdirempty_error hd).other
    · exact ⟨_, rfl, h.store.same⟩
  | link i off name target | clear i off | itrunc i | readi i off n fail | writei i src off n fail =>
    simp only [inoExec]
    split
    · exact h.stop (by decide)
    · exact ⟨_, rfl, h.store.same⟩

end

end Xv6.Fs.Refs
