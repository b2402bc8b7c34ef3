import Mathlib.Algebra.BigOperators.Ring.Finset
import Xv6.Fs.Files
import Xv6.Fs.RefCounts

/-!
# Reference counts are exact

The operations on the file table, the process table and the pipes keep the
invariant of `Xv6.Fs.RefCounts`, so that it holds under any interleaving of
system calls.  When no call is in progress, only the tables hold references.
-/

namespace Xv6.Fs.Refs

open Sys Threads Counts Function
open Slots (inoExec Reachable sys)

variable {t : Tables} {pi : Nat} {x : Proc} {y : Option Pipe} {w : Bool}

section
variable {s s' : Slots.St} {Λ : Nat → Know} {p q r : Nat} {l : Know}

/-! ## Processes -/

theorem proc_self : (t.setProc q x).proc q = x := update_self ..

theorem proc_ne (h : r ≠ q) : (t.setProc q x).proc r = t.proc r := update_of_ne h ..

variable {fd : Nat} {β : Type} {z : Pipe} {parent : Bool} {e : Nat × Bool} {v : Option Nat}

theorem setFd_self : (x.setFd fd v).ofile fd = v := update_self ..

theorem setFd_ne {i : Nat} (h : i ≠ fd) : (x.setFd fd v).ofile i = x.ofile i :=
  update_of_ne h ..

theorem fdCount_setFd (hfd : fd < NOFILE) (v : Option Nat) (f : Nat) : (fdCount (x.setFd fd v) f : Int) =
      fdCount x f + (if v = some f then 1 else 0) - if x.ofile fd = some f then 1 else 0 := by
  have hsum : ∀ y : Proc, (fdCount y f : Int) = (if y.ofile fd = some f then 1 else 0) +
      ∑ i ∈ (Finset.range NOFILE).erase fd, if y.ofile i = some f then (1 : Int) else 0 := by
    intro y
    unfold fdCount
    rw [Finset.natCast_card_filter, ← Finset.add_sum_erase _ _ (Finset.mem_range.mpr hfd)]
  have hother : ∑ i ∈ (Finset.range NOFILE).erase fd, (if (x.setFd fd v).ofile i = some f then (1 : Int) else 0) =
      ∑ i ∈ (Finset.range NOFILE).erase fd, if x.ofile i = some f then (1 : Int) else 0 := by
    refine Finset.sum_congr rfl fun i hi => ?_
    rw [setFd_ne (Finset.ne_of_mem_erase hi)]
  rw [hsum, hsum x, hother, setFd_self]
  omega

theorem cwdCount_nonneg (x : Proc) (i : Nat) : 0 ≤ cwdCount x i := by
  unfold cwdCount
  split <;> decide

/-- Process `p` changes process `q`, which is itself or one that does not run: what
both hold together stays the same. -/
theorem Inv.setProc (h : Inv s Λ) (hb : (Λ p).busy = true) (hlt : q < NPROC) (hidle : q ≠ p → Λ q = Know.idle)
    (hfiles : ∀ f, fdCount x f + l.files f = fdCount (s.tab.proc q) f + (Λ p).files f)
    (hino : ∀ i, cwdCount x i + l.ino i = cwdCount (s.tab.proc q) i + (Λ p).ino i) (hends : l.ends = (Λ p).ends)
    (hfpos : q ≠ p → ∀ f, 0 ≤ fdCount (s.tab.proc p) f + l.files f)
    (hipos : q ≠ p → ∀ i, 0 ≤ cwdCount (s.tab.proc p) i + l.ino i)
    (haway : x.state = .unused ∨ x.state = .zombie → (∀ fd, fd < NOFILE → x.ofile fd = none) ∧ x.cwd = none)
    (hown : Agree { s with tab := s.tab.setProc q x } p l)
    (hkid : ∀ np, l.kid = some np → ∀ r, r ≠ p → (Λ r).kid ≠ some np) (hno : ∀ r, r ≠ p → (Λ r).kid ≠ some q) :
    Inv { s with tab := s.tab.setProc q x } (update Λ p l) := { h with
  files := by
    by_cases hqp : q = p
    · subst hqp
      refine h.files.congr (fun _ => rfl) fun r f => ?_
      rw [fileShare_update]
      split
      · next hr => rw [hr, proc_self, hfiles, fileShare]
      · next hr => rw [fileShare, fileShare, proc_ne hr]
    · refine h.files.move (Finset.mem_range.mpr (h.lt hb)) (Finset.mem_range.mpr hlt) hqp (fun f => ?_) (fun f => ?_)
        (fun r hr hrq f => ?_) (hfpos hqp) (fun f => Int.natCast_nonneg (fdCount x f)) fun f => ?_
      · rw [fileShare_update, if_pos rfl, proc_ne (Ne.symm hqp)]
      · rw [fileShare_update, if_neg hqp, fileShare, proc_self, hidle hqp]
        exact Int.add_zero _
      · rw [fileShare_update, if_neg hr, fileShare, fileShare, proc_ne hrq]
      · rw [fileShare, fileShare, hidle hqp]
        have := hfiles f
        show (s.tab.file f).ref = _ + _ + ((fdCount x f : Int) - (fdCount (s.tab.proc q) f + 0))
        omega
  inodes := by
    by_cases hqp : q = p
    · subst hqp
      refine h.inodes.congr (fun _ => rfl) fun y i => ?_
      rw [inoShare_update]
      split
      · next hy => rw [hy, proc_self, hino, inoShare]
      · next hy =>
        cases y with
        | inr f => rfl
        | inl r => rw [inoShare, inoShare, proc_ne fun hc => hy (congrArg _ hc)]
    · refine h.inodes.move (inl_mem (h.lt hb)) (inl_mem hlt) (by simpa using hqp) (fun i => ?_) (fun i => ?_)
        (fun y hy hyq i => ?_) (hipos hqp) (cwdCount_nonneg x) fun i => ?_
      · rw [inoShare_update, if_pos rfl, proc_ne (Ne.symm hqp)]
      · rw [inoShare_update, if_neg (by simpa using hqp), inoShare, proc_self, hidle hqp]
        exact Int.add_zero _
      · rw [inoShare_update, if_neg hy]
        cases y with
        | inr f => rfl
        | inl r => rw [inoShare, inoShare, proc_ne fun hc => hyq (congrArg _ hc)]
      · rw [inoShare, inoShare, hidle hqp]
        have := hino i
        show (s.slot i).ref = _ + _ + (cwdCount x i - (cwdCount (s.tab.proc q) i + 0))
        omega
  ends := h.ends.congr (fun _ => rfl) fun y e => by
    rw [endShare_update]
    split
    · next hy => rw [hy, endShare, hends]
    · rfl
  away r := by
    by_cases hr : r = q
    · rw [hr, proc_self]
      exact haway
    · rw [proc_ne hr]
      exact h.away r
  procRange r := by
    by_cases hr : r = q
    · exact fun _ => hr ▸ hlt
    · rw [proc_ne hr]
      exact h.procRange r
  agree := by
    refine (forall_update_iff Λ (Agree _)).mpr ⟨hown, fun r hr => ?_⟩
    by_cases hrq : r = q
    · rw [hrq, hidle fun hc => hr (hrq.trans hc)]
      exact .of_idle
    · refine (h.agree r).frame (proc_ne hrq) (fun np hnp => proc_ne ?_) fun _ _ => rfl
      rintro rfl
      exact hno r hr hnp
  kids := h.kids_update hkid }

/-! ## Files -/

variable {f : Nat} {x : File}

theorem file_self : (t.setFile f x).file f = x := update_self ..

theorem file_ne {g : Nat} (h : g ≠ f) : (t.setFile f x).file g = t.file g := update_of_ne h ..

/-- Process `p` changes file `f`: what the two hold together changes by as much as
the counts. -/
theorem Inv.setFile (h : Inv s Λ) (hb : (Λ p).busy = true) (hlt : f < NFILE) {d : Int}
    (hl : l = { Λ p with ino := l.ino, files := l.files, ends := l.ends, new := l.new })
    (href : x.ref = (s.tab.file f).ref + d) (hfiles : ∀ g, l.files g = (Λ p).files g + if g = f then d else 0)
    (hfpos : 0 ≤ fileShare s Λ p f + d) (hino : ∀ i, l.ino i + inoCount x i = (Λ p).ino i + inoCount (s.tab.file f) i)
    (hipos : ∀ i, 0 ≤ cwdCount (s.tab.proc p) i + l.ino i)
    (hends : ∀ e, l.ends e + endCount x e = (Λ p).ends e + endCount (s.tab.file f) e) (hepos : ∀ e, 0 ≤ l.ends e)
    (hclosed : x.ref = 0 → x.type = .none) (hnew : ∀ g, g ≠ f → l.new g → (Λ p).new g)
    (hself : l.new f → x.type = .none ∧ 0 < x.ref ∧ x.ref ≤ fdCount (s.tab.proc p) f + l.files f)
    (hno : ∀ r, r ≠ p → ¬ (Λ r).new f) : Inv { s with tab := s.tab.setFile f x } (update Λ p l) := { h with
  files := by
    refine h.files.change (a := fun g => fileShare s Λ p g + if g = f then d else 0) (Finset.mem_range.mpr (h.lt hb))
      (fun g => ?_) (fun r hr g => ?_) (fun g => ?_) fun g => ?_
    · rw [fileShare_update, if_pos rfl, hfiles, fileShare, Int.add_assoc]
      rfl
    · rw [fileShare_update, if_neg hr]
      rfl
    · split
      · next hg => exact hg ▸ hfpos
      · rw [Int.add_zero]
        exact h.files.nonneg p g
    · by_cases hg : g = f
      · subst hg
        rw [file_self, if_pos rfl, href]
        omega
      · rw [file_ne hg, if_neg hg]
        omega
  inodes := by
    refine h.inodes.move (b := inoCount x) (inl_mem (h.lt hb)) (inr_mem hlt) (by simp) (fun i => ?_) (fun i => ?_)
      (fun y hy hyf i => ?_) hipos (fun i => ?_) fun i => ?_
    · rw [inoShare_update, if_pos rfl]
      rfl
    · rw [inoShare, file_self]
    · rw [inoShare_update, if_neg hy]
      cases y with
      | inl r => rfl
      | inr g => rw [inoShare, inoShare, file_ne fun hc => hyf (congrArg _ hc)]
    · unfold inoCount
      split <;> decide
    · rw [inoShare, inoShare]
      have := hino i
      show (s.slot i).ref = _
      omega
  ends := by
    refine h.ends.move (b := endCount x) (inl_mem (h.lt hb)) (inr_mem hlt) (by simp) (fun e => ?_) (fun e => ?_)
      (fun y hy hyf e => ?_) hepos (fun e => ?_) fun e => ?_
    · rw [endShare_update, if_pos rfl]
    · rw [endShare, file_self]
    · rw [endShare_update, if_neg hy]
      cases y with
      | inl r => rfl
      | inr g => rw [endShare, endShare, file_ne fun hc => hyf (congrArg _ hc)]
    · unfold endCount
      split <;> decide
    · rw [endShare, endShare]
      have := hends e
      show openCount s.tab e = _
      omega
  fileRange g := by
    by_cases hg : g = f
    · exact fun _ => hg ▸ hlt
    · rw [file_ne hg]
      exact h.fileRange g
  closed g := by
    by_cases hg : g = f
    · rw [hg, file_self]
      exact hclosed
    · rw [file_ne hg]
      exact h.closed g
  agree := by
    have hp := h.agree p
    refine (forall_update_iff Λ (Agree _)).mpr ⟨?_, fun r hr => ?_⟩
    · refine ⟨fun hc => ?_, ?_, ?_, ?_, fun g hg => ?_, ?_⟩
      · rw [hl] at hc
        rw [hb] at hc
        cases hc
      · rw [hl]
        exact hp.run
      · rw [hl]
        exact hp.cwd
      · rw [hl]
        exact hp.fd
      · by_cases hgf : g = f
        · subst hgf
          rw [file_self]
          exact hself hg
        · rw [file_ne hgf, hfiles, if_neg hgf, Int.add_zero]
          exact hp.new g (hnew g hgf hg)
      · rw [hl]
        exact hp.kid
    · refine (h.agree r).frame rfl (fun _ _ => rfl) fun g hg => file_ne ?_
      rintro rfl
      exact hno r hr hg
  kids := h.kids_update (h.kid_only (by rw [hl])) }

theorem Inv.setOff (h : Inv s Λ) (off : Nat) :
    Inv { s with tab := s.tab.setFile f { s.tab.file f with off := off } } Λ := by
  have hf : ∀ g, ∃ o, (s.tab.setFile f { s.tab.file f with off := off }).file g = { s.tab.file g with off := o } := by
    intro g
    by_cases hg : g = f
    · exact ⟨off, by rw [hg, file_self]⟩
    · exact ⟨(s.tab.file g).off, by rw [file_ne hg]⟩
  exact
    { files := h.files.congr (fun g => by obtain ⟨o, ho⟩ := hf g; rw [ho]) fun _ _ => rfl
      inodes := h.inodes.congr (fun _ => rfl) fun y i => by
        cases y with
        | inl r => rfl
        | inr g => obtain ⟨o, ho⟩ := hf g; rw [inoShare, inoShare, ho]; rfl
      ends := h.ends.congr (fun _ => rfl) fun y e => by
        cases y with
        | inl r => rfl
        | inr g => obtain ⟨o, ho⟩ := hf g; rw [endShare, endShare, ho]; rfl
      fileRange := fun g => by obtain ⟨o, ho⟩ := hf g; rw [ho]; exact h.fileRange g
      closed := fun g => by obtain ⟨o, ho⟩ := hf g; rw [ho]; exact h.closed g
      pipes := h.pipes
      slotRange := h.slotRange
      uniq := h.uniq
      away := h.away
      procRange := h.procRange
      agree := fun r =>
        { h.agree r with
          new := fun g hg => by obtain ⟨o, ho⟩ := hf g; rw [ho]; exact (h.agree r).new g hg }
      kids := h.kids }

/-! ## Pipes -/

theorem pipe_self : (t.setPipe pi y).pipe pi = y := update_self ..

theorem pipe_ne {pi' : Nat} (h : pi' ≠ pi) : (t.setPipe pi y).pipe pi' = t.pipe pi' :=
  update_of_ne h ..

theorem Inv.setPipe (h : Inv s Λ) (hb : (Λ p).busy = true) {E : Nat × Bool → Int}
    (hopen : ∀ e, openCount (s.tab.setPipe pi y) e = openCount s.tab e + (E e - (Λ p).ends e)) (hpos : ∀ e, 0 ≤ E e)
    (hsome : ∀ z, y = some z → z.readopen = true ∨ z.writeopen = true) :
    Inv { s with tab := s.tab.setPipe pi y } (update Λ p { Λ p with ends := E }) := { h with
  files := h.files.congr (fun _ => rfl) fun r f => by
    rw [fileShare_update]
    split
    · next hr => rw [hr, fileShare]; rfl
    · rfl
  inodes := h.inodes.congr (fun _ => rfl) fun y i => by
    rw [inoShare_update]
    split
    · next hy => rw [hy, inoShare]; rfl
    · cases y <;> rfl
  ends := by
    refine h.ends.change (inl_mem (h.lt hb)) (fun e => ?_) (fun y hy e => ?_) hpos hopen
    · rw [endShare_update, if_pos rfl]
    · rw [endShare_update, if_neg hy]
      cases y <;> rfl
  pipes pi' z hz := by
    by_cases hpi : pi' = pi
    · subst hpi
      exact hsome z (pipe_self.symm.trans hz)
    · exact h.pipes pi' z ((pipe_ne hpi).symm.trans hz)
  agree := by
    have hframe : ∀ r, Agree { s with tab := s.tab.setPipe pi y } r (Λ r) :=
      fun r => (h.agree r).frame rfl (fun _ _ => rfl) fun _ _ => rfl
    refine (forall_update_iff Λ (Agree _)).mpr ⟨?_, fun r _ => hframe r⟩
    exact { hframe p with idle := fun hc => by rw [hb] at hc; cases hc }
  kids := h.kids_update (h.kid_only rfl) }

/-! ## The operations on files -/

theorem inoCount_ref {n : Int} (h : 0 < x.ref) (hn : 0 < n) (i : Nat) :
    inoCount { x with ref := n } i = inoCount x i := by
  simp only [inoCount, h, hn]

theorem endCount_ref {n : Int} (h : 0 < x.ref) (hn : 0 < n) (e : Nat × Bool) :
    endCount { x with ref := n } e = endCount x e := by
  simp only [endCount, h, hn]

theorem inoCount_inode (h : 0 < x.ref) (ht : x.type = .inode ∨ x.type = .device) : inoCount x = one x.ip := by
  funext i
  unfold inoCount one
  by_cases hi : i = x.ip
  · rw [if_pos hi, if_pos ⟨h, ht, hi.symm⟩]
  · rw [if_neg hi, if_neg fun hc => hi hc.2.2.symm]

theorem endCount_pipe (h : 0 < x.ref) (ht : x.type = .pipe) : endCount x = one (x.pipe, x.writable) := by
  funext e
  unfold endCount one
  by_cases he : e = (x.pipe, x.writable)
  · rw [if_pos he, if_pos ⟨h, ht, he.symm⟩]
  · rw [if_neg he, if_neg fun hc => he hc.2.2.symm]

theorem inoCount_other (ht : ¬ (x.type = .inode ∨ x.type = .device)) :
    inoCount x = 0 := funext fun _ => if_neg fun hc => ht hc.2.1

theorem endCount_other (ht : x.type ≠ .pipe) : endCount x = 0 := funext fun _ => if_neg fun hc => ht hc.2.1

theorem inherit_some (h : 0 < x.ref) : l.inherit (some x) =
    { l with ino := l.ino + inoCount x, ends := l.ends + endCount x } := by
  unfold Know.inherit
  dsimp only
  split
  · next hp =>
    rw [inoCount_other (by rw [hp]; simp), endCount_pipe h hp, add_zero]
  · next hp =>
    rw [endCount_other hp, add_zero]
    split
    · next ht =>
      rw [inoCount_inode h ht]
      rfl
    · next ht => rw [inoCount_other ht, add_zero]

theorem inoCount_none (h : x.type = .none) : inoCount x = 0 := inoCount_other (by rw [h]; simp)

theorem endCount_none (h : x.type = .none) : endCount x = 0 := endCount_other (by rw [h]; simp)

theorem Inv.fileLt (h : Inv s Λ) (hpos : 0 < (s.tab.file f).ref) : f < NFILE := h.fileRange f (Int.ne_of_gt hpos)

theorem openCount_setPipe (e : Nat × Bool) : openCount (t.setPipe pi y) e =
      if e.1 = pi then y.elim 0 fun z => if Pipe.isOpen z e.2 then 1 else 0 else openCount t e := by
  unfold openCount
  split
  · next he => rw [he, pipe_self]
  · next he => rw [pipe_ne he]

theorem close_some {y : Pipe} (h : z.close w = some y) : y.readopen = true ∨ y.writeopen = true := by
  unfold Pipe.close at h
  generalize (if w = true then ({ z with writeopen := false } : Pipe) else { z with readopen := false }) = v at h
  dsimp only at h
  split at h
  · next hv =>
    cases h
    exact hv
  · cases h

theorem openCount_pos (h : 0 < openCount t e) : ∃ z, t.pipe e.1 = some z ∧ Pipe.isOpen z e.2 = true := by
  unfold openCount at h
  cases hz : t.pipe e.1 with
  | none => rw [hz] at h; exact absurd h (by simp)
  | some z =>
    rw [hz] at h
    refine ⟨z, rfl, ?_⟩
    by_contra hc
    rw [Option.elim_some, if_neg hc] at h
    omega

theorem cwdCount_some {y : Proc} {i : Nat} (h : y.cwd = some i) : cwdCount y = one i := by
  funext j
  unfold cwdCount one
  rw [h]
  simp only [Option.some.injEq, eq_comm]

theorem cwdCount_none {y : Proc} (h : y.cwd = none) : cwdCount y = 0 :=
    funext fun _ => if_neg fun hc => by rw [h] at hc; cases hc

theorem fdCount_none {y : Proc} (h : ∀ fd, fd < NOFILE → y.ofile fd = none) (f : Nat) : fdCount y f = 0 := by
  refine Finset.card_eq_zero.mpr (Finset.filter_eq_empty_iff.mpr fun fd hfd => ?_)
  rw [h fd (Finset.mem_range.mp hfd)]
  simp

theorem Inv.idle_of (h : Inv s Λ) (hq : (s.tab.proc q).state ≠ .running) : Λ q = Know.idle := by
  refine (h.agree q).idle ?_
  by_contra hc
  exact hq (h.running (by simpa using hc))

theorem agree_fd {l0 : Nat → Option (Option Nat)}
    (h0 : ∀ i c, l0 i = some c → (s.tab.proc p).ofile i = c) (i : Nat) (c : Option Nat)
    (hc : update l0 fd (some v) i = some c) : ((s.tab.proc p).setFd fd v).ofile i = c := by
  by_cases hi : i = fd
  · subst hi
    rw [update_self] at hc
    rw [setFd_self]
    exact Option.some.inj hc
  · rw [update_of_ne hi] at hc
    rw [setFd_ne hi]
    exact h0 i c hc

theorem one_some (f g : Nat) : (if some f = some g then (1 : Int) else 0) = one f g := by
  simp only [one, Option.some.injEq, eq_comm]

theorem none_some (g : Nat) : (if none = some g then (1 : Int) else 0) = 0 := if_neg (Option.some_ne_none g).symm

theorem sub_one_nonneg {X : Type} [DecidableEq X] {a b : X} {n : Int} (hn : 0 ≤ n) (hb : b = a → 0 < n) :
    0 ≤ n - one a b := by
  unfold one
  split
  · next hab => exact Int.sub_nonneg_of_le (hb hab)
  · exact (Int.sub_zero n).symm ▸ hn

section
variable (h : Inv s Λ) (hb : (Λ p).busy = true)
include h hb

theorem Inv.filealloc (hlt : f < NFILE) (h0 : (s.tab.file f).ref = 0) :
    ¬ (Λ p).new f ∧ Inv { s with tab := s.tab.setFile f { s.tab.file f with ref := 1 } }
      (update Λ p { Λ p with files := (Λ p).files + one f, new := fun g => (Λ p).new g ∨ g = f }) := by
  have hno : ∀ r, ¬ (Λ r).new f := by
    intro r hr
    have := ((h.agree r).new f hr).2.1
    omega
  have htype : ({ s.tab.file f with ref := 1 } : File).type = .none := h.closed f h0
  have hnn : 0 ≤ fileShare s Λ p f := h.files.nonneg p f
  refine ⟨hno p, h.setFile hb hlt (d := 1) rfl (by rw [h0]; rfl) (fun g => rfl) (by omega) (fun i => ?_)
    (h.inodes.nonneg (.inl p)) (fun e => ?_) (h.ends.nonneg (.inl p)) (fun hc => by cases hc)
    (fun g hg hn => hn.resolve_right hg)
    (fun _ => ⟨htype, Int.one_pos, ?_⟩) fun r _ => hno r⟩
  · rw [inoCount_none htype, inoCount_none (h.closed f h0)]
  · rw [endCount_none htype, endCount_none (h.closed f h0)]
  · show 1 ≤ (fdCount (s.tab.proc p) f : Int) + ((Λ p).files f + one f f)
    rw [fileShare] at hnn
    rw [one_self]
    omega

theorem Inv.fileRef (hf : (Λ p).hasFile f) {d : Int} {F : Nat → Int} {N : Nat → Prop}
    (hfiles : ∀ g, F g = (Λ p).files g + if g = f then d else 0) (hpos : 0 < (s.tab.file f).ref + d)
    (hshare : 0 ≤ fileShare s Λ p f + d) (hnew : ∀ g, N g → (Λ p).new g) :
    Inv { s with tab := s.tab.setFile f { s.tab.file f with ref := (s.tab.file f).ref + d } }
      (update Λ p { Λ p with files := F, new := N }) := by
  have hp := h.file_pos hb hf
  refine h.setFile hb (h.fileLt hp) (d := d) rfl rfl hfiles hshare (fun i => ?_) (h.inodes.nonneg (.inl p))
    (fun e => ?_)
    (h.ends.nonneg (.inl p)) (fun hc => absurd hc (Int.ne_of_gt hpos)) (fun g _ => hnew g) (fun hn => ?_)
    fun r hr => h.not_new hb (h.hasFile hf) hr
  · rw [inoCount_ref hp hpos]
  · rw [endCount_ref hp hpos]
  · obtain ⟨h1, -, h3⟩ := (h.agree p).new f (hnew f hn)
    refine ⟨h1, hpos, ?_⟩
    show (s.tab.file f).ref + d ≤ _ + F f
    rw [hfiles, if_pos rfl]
    omega

theorem Inv.lastRef (hf : (Λ p).hasFile f) (h1 : (s.tab.file f).ref = 1) :
    Inv { s with tab := s.tab.setFile f { s.tab.file f with ref := 0, type := .none } } (update Λ p
      (Know.inherit { Λ p with files := (Λ p).files - one f, new := (Λ p).notNew f } (some (s.tab.file f)))) := by
  have hp := h.file_pos hb hf
  have hi : inoCount { s.tab.file f with ref := 0, type := .none } = 0 := inoCount_none rfl
  have he : endCount { s.tab.file f with ref := 0, type := .none } = 0 := endCount_none rfl
  rw [inherit_some hp]
  refine h.setFile hb (h.fileLt hp) (d := -1) rfl (by rw [h1]; rfl) (fun g => ?_) ?_ (fun i => ?_) (fun i => ?_)
    (fun e => ?_) (fun e => ?_) (fun _ => rfl) (fun g _ hn => hn.1) (fun hn => absurd rfl hn.2)
    fun r hr => h.not_new hb (h.hasFile hf) hr
  · show (Λ p).files g - one f g = _
    unfold one
    split <;> rfl
  · have := h.hasFile hf
    omega
  · rw [hi]
    exact Int.add_zero _
  · have h2 := h.inodes.nonneg (.inl p) i
    have h3 := h.inodes.nonneg (.inr f) i
    show 0 ≤ cwdCount _ i + ((Λ p).ino i + inoCount _ i)
    simp only [inoShare] at h2 h3
    omega
  · rw [he]
    exact Int.add_zero _
  · exact Int.add_nonneg (h.ends.nonneg (.inl p) e) (h.ends.nonneg (.inr f) e)

theorem Inv.new_only (hn : (Λ p).new f) (r : Nat) (hr : r ≠ p) : ¬ (Λ r).new f := by
  obtain ⟨-, hpos, hle⟩ := (h.agree p).new f hn
  exact h.not_new hb (Int.lt_of_lt_of_le hpos hle) hr

theorem Inv.openFile (hn : (Λ p).new f) (href : x.ref = (s.tab.file f).ref)
    (hty : x.type = .inode ∨ x.type = .device) (hi : 0 < (Λ p).ino x.ip) :
    Inv { s with tab := s.tab.setFile f x } (update Λ p { (Λ p).lose x.ip with new := (Λ p).notNew f }) := by
  obtain ⟨htype, hpos, -⟩ := (h.agree p).new f hn
  refine h.setFile hb (h.fileLt hpos) (d := 0) rfl (by rw [href, Int.add_zero])
    (fun g => by rw [ite_self, Int.add_zero]; rfl)
    (by rw [Int.add_zero]; exact h.files.nonneg p f) (fun i => ?_) (fun i => ?_) (fun e => ?_) (h.ends.nonneg (.inl p))
    (fun hc => ?_) (fun g _ hg => hg.1) (fun hc => absurd rfl hc.2) (h.new_only hb hn)
  · rw [inoCount_inode (href ▸ hpos) hty, inoCount_none htype]
    show (Λ p).ino i - one x.ip i + one x.ip i = (Λ p).ino i + 0
    omega
  · show 0 ≤ cwdCount _ i + ((Λ p).ino i - one x.ip i)
    rw [← Int.add_sub_assoc]
    exact sub_one_nonneg (h.inodes.nonneg (.inl p) i) fun hix => Int.add_pos_of_nonneg_of_pos
      (cwdCount_nonneg _ i) (hix ▸ hi)
  · rw [endCount_other (by rcases hty with hty | hty <;> rw [hty] <;> simp), endCount_none htype]
    rfl
  · rw [href] at hc
    omega

theorem Inv.pipeFile (hn : (Λ p).new f) (href : x.ref = (s.tab.file f).ref)
    (hty : x.type = .pipe) (he : 0 < (Λ p).ends (x.pipe, x.writable)) :
    Inv { s with tab := s.tab.setFile f x } (update Λ p
      { Λ p with ends := (Λ p).ends - one (x.pipe, x.writable), new := (Λ p).notNew f }) := by
  obtain ⟨htype, hpos, -⟩ := (h.agree p).new f hn
  refine h.setFile hb (h.fileLt hpos) (d := 0) rfl (by rw [href, Int.add_zero])
    (fun g => by rw [ite_self, Int.add_zero])
    (by rw [Int.add_zero]; exact h.files.nonneg p f) (fun i => ?_) (h.inodes.nonneg (.inl p)) (fun e => ?_)
    (fun e => ?_)
    (fun hc => ?_) (fun g _ hg => hg.1) (fun hc => absurd rfl hc.2) (h.new_only hb hn)
  · rw [inoCount_other (by rw [hty]; simp), inoCount_none htype]
  · rw [endCount_pipe (href ▸ hpos) hty, endCount_none htype]
    show (Λ p).ends e - one _ e + one _ e = (Λ p).ends e + 0
    omega
  · exact sub_one_nonneg (h.ends.nonneg (.inl p) e) fun hex => hex ▸ he
  · rw [href] at hc
    omega

/-! ## The operations on pipes -/

theorem Inv.newPipe (hpi : s.tab.pipe pi = none) : Inv { s with tab := s.tab.setPipe pi (some ⟨true, true⟩) }
      (update Λ p { Λ p with ends := (Λ p).ends + one (pi, false) + one (pi, true) }) := by
  refine h.setPipe hb (fun e => ?_) (fun e => ?_) fun z hz => ?_
  · obtain ⟨pi', w⟩ := e
    rw [openCount_setPipe]
    show _ = _ + ((Λ p).ends (pi', w) + one (pi, false) (pi', w) + one (pi, true) (pi', w) - (Λ p).ends (pi', w))
    by_cases he : pi' = pi
    · subst he
      rw [if_pos rfl]
      have h0 : openCount s.tab (pi', w) = 0 := by rw [openCount, hpi]; rfl
      rw [h0]
      cases w <;> simp [one, Pipe.isOpen]
    · rw [if_neg he]
      simp [one, he]
  · exact Int.add_nonneg (Int.add_nonneg (h.ends.nonneg (.inl p) e) (one_nonneg _ e)) (one_nonneg _ e)
  · cases hz
    exact Or.inl rfl

theorem Inv.pipeOpen (he : 0 < (Λ p).ends e) : ∃ z, s.tab.pipe e.1 = some z ∧ Pipe.isOpen z e.2 = true :=
  openCount_pos (Int.lt_of_lt_of_le he (h.ends.le (inl_mem (h.lt hb))))

theorem Inv.pipeclose (he : 0 < (Λ p).ends (pi, w))
    (hz : s.tab.pipe pi = some z) : Inv { s with tab := s.tab.setPipe pi (z.close w) }
      (update Λ p { Λ p with ends := (Λ p).ends - one (pi, w) }) := by
  obtain ⟨z', hz', hopen⟩ := h.pipeOpen hb he
  obtain rfl : z = z' := Option.some.inj (hz.symm.trans hz')
  refine h.setPipe hb (fun e => ?_) (fun e => ?_) fun y hy => ?_
  · obtain ⟨pi', w'⟩ := e
    rw [openCount_setPipe]
    show _ = _ + ((Λ p).ends (pi', w') - one (pi, w) (pi', w') - (Λ p).ends (pi', w'))
    by_cases hpi : pi' = pi
    · subst hpi
      rw [if_pos rfl, openCount, hz]
      obtain ⟨ro, wo⟩ := z
      cases w <;> cases w' <;> cases ro <;> cases wo <;> simp_all [one, Pipe.isOpen, Pipe.close]
    · rw [if_neg hpi]
      simp [one, hpi]
  · exact sub_one_nonneg (h.ends.nonneg (.inl p) e) fun hex => hex ▸ he
  · exact close_some hy

/-! ## The operations on processes -/

variable {y : Proc}

theorem Inv.ownProc (hrun : y.state = .running)
    (hl : l = { Λ p with ino := l.ino, files := l.files, cwd := l.cwd, fd := l.fd })
    (hfiles : ∀ f, fdCount y f + l.files f = fdCount (s.tab.proc p) f + (Λ p).files f)
    (hino : ∀ i, cwdCount y i + l.ino i = cwdCount (s.tab.proc p) i + (Λ p).ino i)
    (hcwd : ∀ c, l.cwd = some c → y.cwd = c)
    (hfd : ∀ fd c, l.fd fd = some c → y.ofile fd = c) : Inv { s with tab := s.tab.setProc p y } (update Λ p l) := by
  have hp := h.agree p
  refine h.setProc hb (h.lt hb) (fun hc => absurd rfl hc) hfiles hino (by rw [hl]) (fun hc => absurd rfl hc)
    (fun hc => absurd rfl hc) (fun hc => by rw [hrun] at hc; simp at hc) ⟨fun hc => ?_, fun _ => ⟨h.lt hb, ?_⟩, ?_, ?_,
    fun f hf => ?_, fun np hnp => ?_⟩ (h.kid_only (by rw [hl])) fun r _ hk => h.kid_ne hb hk rfl
  · rw [hl] at hc
    rw [hb] at hc
    cases hc
  · rw [proc_self]
    exact hrun
  · rw [proc_self]
    exact hcwd
  · rw [proc_self]
    exact hfd
  · rw [proc_self, hfiles]
    rw [hl] at hf
    exact hp.new f hf
  · rw [hl] at hnp ⊢
    rw [proc_ne (h.kid_ne hb hnp)]
    exact hp.kid np hnp

theorem Inv.kidIdle (hk : (Λ p).kid = some q) :
    q ≠ p ∧ q < NPROC ∧ Λ q = Know.idle ∧ ∀ r, r ≠ p → (Λ r).kid ≠ some q := by
  obtain ⟨hlt, hused, -⟩ := (h.agree p).kid q hk
  refine ⟨h.kid_ne hb hk, hlt, (h.agree q).idle ?_, fun r hr hc => hr (h.kids r p q hc hk)⟩
  by_contra hc
  rw [h.running (by simpa using hc)] at hused
  cases hused

theorem Inv.otherProc (hq : q ≠ p ∧ q < NPROC ∧ Λ q = Know.idle ∧ ∀ r, r ≠ p → (Λ r).kid ≠ some q)
    (hl : l = { Λ p with ino := l.ino, files := l.files, kid := l.kid, kidFd := l.kidFd, kidCwd := l.kidCwd })
    (hfiles : ∀ f, fdCount y f + l.files f = fdCount (s.tab.proc q) f + (Λ p).files f)
    (hino : ∀ i, cwdCount y i + l.ino i = cwdCount (s.tab.proc q) i + (Λ p).ino i)
    (hfpos : ∀ f, 0 ≤ fdCount (s.tab.proc p) f + l.files f) (hipos : ∀ i, 0 ≤ cwdCount (s.tab.proc p) i + l.ino i)
    (hnew : ∀ f, (Λ p).new f → l.files f = (Λ p).files f)
    (haway : y.state = .unused ∨ y.state = .zombie → (∀ fd, fd < NOFILE → y.ofile fd = none) ∧ y.cwd = none)
    (hkid : ∀ np, l.kid = some np → (np = q ∧ y.state = .used ∧ (∀ fd, fd < NOFILE → ¬ l.kidFd fd → y.ofile fd = none) ∧
      (¬ l.kidCwd → y.cwd = none)) ∨
      (np ≠ q ∧ (Λ p).kid = some np ∧ l.kidFd = (Λ p).kidFd ∧ l.kidCwd = (Λ p).kidCwd)) :
    Inv { s with tab := s.tab.setProc q y } (update Λ p l) := by
  obtain ⟨hqp, hlt, hidle, honly⟩ := hq
  have hp := h.agree p
  refine h.setProc hb hlt (fun _ => hidle) hfiles hino (by rw [hl]) (fun _ => hfpos) (fun _ => hipos) haway
    ⟨fun hc => ?_, ?_, ?_, ?_, fun f hf => ?_, fun np hnp => ?_⟩ (fun np hnp => ?_) honly
  · rw [hl] at hc
    rw [hb] at hc
    cases hc
  · rw [hl, proc_ne (Ne.symm hqp)]
    exact hp.run
  · rw [hl, proc_ne (Ne.symm hqp)]
    exact hp.cwd
  · rw [hl, proc_ne (Ne.symm hqp)]
    exact hp.fd
  · have hf' : (Λ p).new f := by
      rw [hl] at hf
      exact hf
    rw [proc_ne (Ne.symm hqp), hnew f hf']
    exact hp.new f hf'
  · rcases hkid np hnp with ⟨rfl, h1⟩ | ⟨hne, hk, h2, h3⟩
    · rw [proc_self]
      exact ⟨hlt, h1⟩
    · rw [proc_ne hne, h2, h3]
      exact hp.kid np hk
  · rcases hkid np hnp with ⟨rfl, -⟩ | ⟨-, hk, -⟩
    · exact honly
    · exact fun r hr hc => hr (h.kids r p np hc hk)

theorem Inv.setState (hq : (s.tab.proc q).state = .unused ∨ (s.tab.proc q).state = .zombie)
    (hlt : q < NPROC) (st : ProcState) (hl : l = { Λ p with kid := l.kid, kidFd := l.kidFd, kidCwd := l.kidCwd })
    (hkid : l.kid = (Λ p).kid ∧ l.kidFd = (Λ p).kidFd ∧ l.kidCwd = (Λ p).kidCwd ∨ l.kid = some q ∧ st = .used) :
    Inv { s with tab := s.tab.setProc q { s.tab.proc q with state := st } } (update Λ p l) := by
  have haway := h.away q hq
  have hrun : (s.tab.proc q).state ≠ .running := by rcases hq with hq | hq <;> rw [hq] <;> simp
  have hqp : q ≠ p := by
    rintro rfl
    exact hrun (h.running hb)
  have honly : ∀ r, (Λ r).kid ≠ some q := by
    intro r hc
    have := ((h.agree r).kid q hc).2.1
    rcases hq with hq | hq <;> rw [hq] at this <;> cases this
  have hino : l.ino = (Λ p).ino := by rw [hl]
  have hfiles : l.files = (Λ p).files := by rw [hl]
  refine h.otherProc hb ⟨hqp, hlt, h.idle_of hrun, fun r _ => honly r⟩ (by rw [hino, hfiles]; exact hl)
    (fun f => by rw [hfiles]; rfl) (fun i => by rw [hino]; rfl) (by rw [hfiles]; exact h.files.nonneg p)
    (by rw [hino]; exact h.inodes.nonneg (.inl p)) (fun f _ => by rw [hfiles]) (fun _ => haway) fun np hnp => ?_
  rcases hkid with ⟨h1, h2, h3⟩ | ⟨h1, h2⟩
  · rw [h1] at hnp
    exact .inr ⟨fun hc => honly p (hc ▸ hnp), hnp, h2, h3⟩
  · obtain rfl : q = np := Option.some.inj (h1.symm.trans hnp)
    exact .inl ⟨rfl, h2, fun fd hfd _ => haway.1 fd hfd, fun _ => haway.2⟩

theorem Inv.zombie (hset : (Λ p).Settled) (hcwd : (Λ p).cwd = some none)
    (hfd : ∀ fd, fd < NOFILE → (Λ p).fd fd = some none) :
    Inv { s with tab := s.tab.setProc p { s.tab.proc p with state := .zombie } } (update Λ p Know.idle) := by
  have hp := h.agree p
  refine h.setProc hb (h.lt hb) (fun hc => absurd rfl hc) (fun f => by rw [hset.files]; rfl)
    (fun i => by rw [hset.ino]; rfl)
    (by rw [hset.ends]; rfl) (fun hc => absurd rfl hc) (fun hc => absurd rfl hc)
    (fun _ => ⟨fun fd hlt => hp.fd fd _ (hfd fd hlt), hp.cwd _ hcwd⟩) .of_idle (fun np hnp => by cases hnp)
    fun r _ hk => h.kid_ne hb hk rfl

/-! ## Every operation keeps the invariant -/

theorem tab_done {o : TabOp β} {b : β} {c : Nat} (hpre : tabPre o (Λ p)) (hs : o.exec p c s.tab = .ok (b, t)) :
    ∃ l', tabPost o (Λ p) b l' ∧ Inv { s with tab := t } (update Λ p l') := by
  have hp := h.agree p
  have hbusy : ∀ l : Know, l.busy = true → l.busy = false → l = Know.idle := by
    intro l h1 h2
    rw [h1] at h2
    cases h2
  cases o with
  | cwd =>
    simp only [TabOp.exec] at hs
    split at hs <;> cases hs
    next hc =>
    exact ⟨_, rfl, h.learn rfl rfl rfl rfl { hp with idle := hbusy _ hb, cwd := fun x hx => by cases hx; exact hc }⟩
  | setCwd i =>
    obtain ⟨⟨old, hold⟩, -⟩ := hpre
    cases hs
    refine ⟨_, ⟨old, hold, rfl⟩, h.ownProc hb (h.running hb) rfl (fun _ => rfl) (fun j => ?_)
      (fun x hx => by cases hx; rfl) hp.fd⟩
    rw [cwdCount_some (hp.cwd _ hold), cwdCount_some (i := i) rfl]
    show one i j + ((Λ p).ino j + one old j - one i j) = _
    omega
  | clearCwd =>
    obtain ⟨⟨old, hold⟩, -⟩ := hpre
    cases hs
    refine ⟨_, ⟨old, hold, rfl⟩, h.ownProc hb (h.running hb) rfl (fun _ => rfl) (fun j => ?_)
      (fun x hx => by cases hx; rfl) hp.fd⟩
    rw [cwdCount_some (hp.cwd _ hold), cwdCount_none rfl]
    show 0 + ((Λ p).ino j + one old j) = _
    omega
  | argfd fd =>
    simp only [TabOp.exec] at hs
    simp only [tabPost]
    split at hs
    · next hr =>
      cases hs
      simp only [if_pos hr, true_and]
      exact ⟨_, rfl, h.same⟩
    · next hr =>
      cases hs
      simp only [if_neg hr]
      refine ⟨_, rfl, h.learn rfl rfl rfl rfl { hp with idle := hbusy _ hb, fd := fun i x hx => ?_ }⟩
      change update (Λ p).fd fd.toNat _ i = some x at hx
      by_cases hi : i = fd.toNat
      · subst hi
        rw [update_self] at hx
        exact Option.some.inj hx
      · rw [update_of_ne hi] at hx
        exact hp.fd i x hx
  | clearFd fd =>
    obtain ⟨hlt, f, hf⟩ := hpre
    cases hs
    refine ⟨_, ⟨f, hf, rfl⟩, h.ownProc hb (h.running hb) rfl (fun g => ?_) (fun _ => rfl) hp.cwd (agree_fd hp.fd)⟩
    rw [fdCount_setFd hlt, hp.fd fd _ hf, one_some, none_some]
    show _ + ((Λ p).files g + one f g) = _
    omega
  | fdalloc f =>
    simp only [TabOp.exec] at hs
    split at hs <;> cases hs
    · next fd hfind =>
      have hnone := List.find?_some hfind
      have hlt := List.mem_range.mp (List.mem_of_find?_eq_some hfind)
      rw [Option.isNone_iff_eq_none] at hnone
      refine ⟨_, ⟨hlt, fun g hg => ?_, rfl⟩, h.ownProc hb (h.running hb) rfl (fun g => ?_) (fun _ => rfl) hp.cwd
        (agree_fd hp.fd)⟩
      · have := hp.fd fd _ hg
        rw [hnone] at this
        cases this
      · rw [fdCount_setFd hlt, hnone, one_some, none_some]
        show _ + ((Λ p).files g - one f g) = _
        omega
    · exact ⟨_, rfl, h.same⟩
  | filealloc =>
    simp only [TabOp.exec] at hs
    split at hs <;> cases hs
    · next f hfind =>
      have h0 := List.find?_some hfind
      simp only [decide_eq_true_eq] at h0
      obtain ⟨hn, hI⟩ := h.filealloc hb (List.mem_range.mp (List.mem_of_find?_eq_some hfind)) h0
      exact ⟨_, ⟨hn, rfl⟩, hI⟩
    · exact ⟨_, rfl, h.same⟩
  | file f =>
    cases hs
    exact ⟨_, rfl, h.same⟩
  | setOff f off =>
    cases hs
    exact ⟨_, rfl, .same (h.setOff off)⟩
  | setFile f type r w ip off major =>
    cases hs
    exact ⟨_, rfl, h.openFile hb hpre.1 rfl hpre.2.1 hpre.2.2⟩
  | setPipe f pi w =>
    cases hs
    exact ⟨_, rfl, h.pipeFile hb hpre.1 rfl rfl hpre.2⟩
  | filedup f =>
    simp only [TabOp.exec] at hs
    split at hs <;> cases hs
    have hf := h.hasFile hpre
    exact ⟨_, rfl, h.fileRef hb hpre (fun g => rfl) (by omega) (by omega) fun g hg => hg⟩
  | closeRef f =>
    simp only [TabOp.exec] at hs
    have hf := h.hasFile hpre.1
    split at hs
    · cases hs
    · split at hs <;> cases hs
      · next hlast =>
        refine ⟨_, rfl, h.fileRef (d := -1) hb hpre.1 (fun g => ?_) hlast (by omega) fun g hg => hg.1⟩
        show (Λ p).files g - one f g = _
        unfold one
        split <;> rfl
      · exact ⟨_, rfl, h.lastRef hb hpre.1 (by omega)⟩
  | newPipe =>
    simp only [TabOp.exec] at hs
    split at hs <;> cases hs
    · exact ⟨_, rfl, h.same⟩
    · next hc =>
      refine ⟨_, rfl, h.newPipe hb ?_⟩
      simpa using (not_or.mp hc).2
  | pipeclose pi w =>
    simp only [TabOp.exec] at hs
    split at hs <;> cases hs
    next z hz => exact ⟨_, rfl, h.pipeclose hb hpre hz⟩
  | allocproc =>
    simp only [TabOp.exec] at hs
    split at hs <;> cases hs
    · next q hfind =>
      have h0 := List.find?_some hfind
      simp only [decide_eq_true_eq] at h0
      exact ⟨_, rfl, h.setState hb (Or.inl h0) (List.mem_range.mp (List.mem_of_find?_eq_some hfind)) .used rfl
        (Or.inr ⟨rfl, rfl⟩)⟩
    · exact ⟨_, rfl, h.same⟩
  | freeproc q =>
    obtain ⟨hk, hfd, hcwd⟩ := hpre
    cases hs
    have hkid := (hp.kid q hk).2.2
    exact ⟨_, rfl, h.otherProc hb (h.kidIdle hb hk) rfl (fun _ => rfl) (fun _ => rfl) (h.files.nonneg p)
      (h.inodes.nonneg (.inl p)) (fun _ _ => rfl)
      (fun _ => ⟨fun fd hlt => hkid.1 fd hlt (hfd fd), hkid.2 hcwd⟩) fun np hnp => by cases hnp⟩
  | runnable q =>
    cases hs
    exact ⟨_, rfl, h.otherProc hb (h.kidIdle hb hpre) rfl (fun _ => rfl) (fun _ => rfl) (h.files.nonneg p)
      (h.inodes.nonneg (.inl p)) (fun _ _ => rfl)
      (fun hc => by simp at hc) fun np hnp => by cases hnp⟩
  | copyFd q fd f =>
    obtain ⟨hk, hkf, hlt, hf, hnew⟩ := hpre
    obtain ⟨-, hused, hofile, hcwd⟩ := hp.kid q hk
    cases hs
    refine ⟨_, rfl, h.otherProc hb (h.kidIdle hb hk) rfl (fun g => ?_) (fun _ => rfl) (fun g => ?_)
      (h.inodes.nonneg (.inl p)) (fun g hg => ?_)
      (fun hc => ?_) fun np hnp => .inl ⟨Option.some.inj (hnp.symm.trans hk), hused, fun i hi hn => ?_, hcwd⟩⟩
    · rw [fdCount_setFd hlt, hofile fd hlt hkf, one_some, none_some]
      show _ + ((Λ p).files g - one f g) = _
      omega
    · show 0 ≤ (_ : Int) + ((Λ p).files g - one f g)
      rw [← Int.add_sub_assoc]
      exact sub_one_nonneg (h.files.nonneg p g) fun hg => Int.add_pos_of_nonneg_of_pos (Int.natCast_nonneg _) (hg ▸ hf)
    · show (Λ p).files g - one f g = _
      rw [one_ne fun (hgf : g = f) => hnew (hgf ▸ hg), Int.sub_zero]
    · rw [show ((s.tab.proc q).setFd fd (some f)).state = .used from hused] at hc
      simp at hc
    · rw [setFd_ne fun hc => hn (Or.inr hc)]
      exact hofile i hi fun hc => hn (Or.inl hc)
  | copyCwd q i =>
    obtain ⟨hk, hkc, hi⟩ := hpre
    obtain ⟨-, hused, hofile, hcwd⟩ := hp.kid q hk
    cases hs
    refine ⟨_, rfl, h.otherProc hb (h.kidIdle hb hk) rfl (fun _ => rfl) (fun j => ?_) (h.files.nonneg p)
      (fun j => ?_) (fun _ _ => rfl)
      (fun hc => ?_) fun np hnp =>
        .inl ⟨Option.some.inj (hnp.symm.trans hk), hused, hofile, fun hn => absurd trivial hn⟩⟩
    · rw [cwdCount_some (i := i) rfl, cwdCount_none (hcwd hkc)]
      show one i j + ((Λ p).ino j - one i j) = 0 + (Λ p).ino j
      omega
    · show 0 ≤ cwdCount _ j + ((Λ p).ino j - one i j)
      rw [← Int.add_sub_assoc]
      exact sub_one_nonneg (h.inodes.nonneg (.inl p) j) fun hj => Int.add_pos_of_nonneg_of_pos
        (cwdCount_nonneg _ j) (hj ▸ hi)
    · rw [hused] at hc
      simp at hc
  | exiting =>
    simp only [TabOp.exec] at hs
    split at hs <;> cases hs
    exact ⟨_, rfl, h.same⟩
  | zombie =>
    cases hs
    exact ⟨_, rfl, h.zombie hb hpre.1 hpre.2.1 hpre.2.2⟩
  | reap =>
    simp only [TabOp.exec] at hs
    split at hs <;> cases hs
    · next hz =>
      refine ⟨_, rfl, h.setState hb (Or.inr hz) (h.procRange c ?_) .unused rfl (Or.inl ⟨rfl, rfl, rfl⟩)⟩
      rw [hz]
      simp
    · exact ⟨_, rfl, h.same⟩

theorem tab_halt {o : TabOp β} {m : Panic} {c : Nat} (hpre : tabPre o (Λ p))
    (hs : o.exec p c s.tab = .error m) : Other m := by
  cases o with
  | filedup f =>
    have hpos := h.file_pos hb hpre
    simp only [TabOp.exec] at hs
    split at hs
    · omega
    · cases hs
  | closeRef f =>
    have hpos := h.file_pos hb hpre.1
    simp only [TabOp.exec] at hs
    split at hs
    · omega
    · split at hs <;> cases hs
  | pipeclose pi w =>
    obtain ⟨z, hz, -⟩ := h.pipeOpen hb hpre
    simp only [TabOp.exec, hz] at hs
    cases hs
  | cwd | exiting =>
    simp only [TabOp.exec] at hs
    split at hs <;> cases hs
    decide
  | argfd fd | fdalloc f | filealloc | newPipe | allocproc | reap =>
    simp only [TabOp.exec] at hs
    split at hs <;> cases hs
  | setCwd i | clearCwd | clearFd fd | file f | setFile f type r w ip off major | setOff f off | setPipe f pi w
  | freeproc q | copyFd q fd f | copyCwd q i | runnable q | zombie => cases hs

end

variable {sb : Super}

theorem Inv.leave (h : Inv s Λ) (hset : (Λ p).Settled) : Inv s (update Λ p Know.idle) :=
  h.learn hset.ino.symm hset.files.symm hset.ends.symm hset.kid.symm .of_idle

theorem exec_keeps {o : Op β} {c : Nat} (h : Inv s Λ) (hpre : logic.pre o (Λ p)) : (Slots.exec sb o p c s).Sat
    (fun b s' => ∃ l', logic.post o (Λ p) b l' ∧ Inv s' (update Λ p l')) (Halted s.tab Λ p) := by
  obtain ⟨hb, hpre⟩ := hpre
  cases o with
  | ino o => exact ino_keeps h hb hpre
  | tab o =>
    simp only [Slots.exec]
    split
    · next ht => exact tab_done h hb hpre ht
    · next ht => exact h.stop (tab_halt h hb hpre ht)
  | log o => cases o <;> exact ⟨_, rfl, h.same⟩
  | panic m => exact h.stop hpre

/-- The invariant holds under any interleaving of system calls. -/
theorem sound : Sound (sys sb) logic (fun _ _ _ => True) Inv (fun s => ∃ t Λ p, Halted t Λ p s) Know.Settled
    Know.idle Know.start where
  exec o p c s Λ h hpre _ := (exec_keeps h hpre).mono (fun _ _ => id) fun _ hh => ⟨_, _, _, hh⟩
  enter s Λ p h hr hl := by
    have hrun : (s.tab.proc p).state = .running := by simpa [sys] using hr
    refine h.learn ?_ ?_ ?_ ?_ ⟨fun hc => ?_, fun _ => ⟨h.procRange p ?_, hrun⟩, fun x hx => ?_,
      fun fd x hx => ?_, fun f hf => hf.elim,
      fun np hk => ?_⟩
    · rw [hl]; rfl
    · rw [hl]; rfl
    · rw [hl]; rfl
    · rw [hl]; rfl
    · cases hc
    · rw [hrun]
      simp
    · cases hx
    · cases hx
    · cases hk
  code c := wp_code c
  leave s Λ p h hf := h.leave hf

/-! ## The account of `namex` -/

def refs (s : Slots.St) : Nat → Int := fun i => (s.slot i).ref

/-- The operations of `namex`. -/
inductive Lookup : {β : Type} → Op β → Prop
  | ino {β : Type} (o : InoOp β) : Lookup (.ino o)
  | cwd : Lookup (.tab .cwd)

theorem only_iput (ip : Nat) : wp (Only Lookup) (iput ip) (fun _ _ => True) () := by
  refine wp_op (.ino _) fun b _ _ => ?_
  cases b with
  | false => trivial
  | true => exact wp_op (.ino _) fun _ _ _ => wp_op (.ino _) fun _ _ _ => trivial

theorem only_iunlockput (ip : Nat) : wp (Only Lookup) (iunlockput ip) (fun _ _ => True) () :=
  wp_op (.ino _) fun _ _ _ => only_iput ip

theorem only_namexLoop (fuel : Nat) : ∀ (ip : Nat) (path : Path) (name : Name),
    wp (Only Lookup) (namexLoop parent fuel ip path name) (fun _ _ => True) () := by
  induction fuel with
  | zero => exact fun _ _ _ => trivial
  | succ fuel ih =>
    intro ip path name
    unfold namexLoop
    split
    · split
      · exact wp_call (only_iput ip) fun _ _ _ => trivial
      · trivial
    · refine wp_op (.ino _) fun _ _ _ => wp_op (.ino _) fun st _ _ => ?_
      split
      · exact wp_call (only_iunlockput ip) fun _ _ _ => trivial
      · split
        · exact wp_op (.ino _) fun _ _ _ => trivial
        · refine wp_op (.ino _) fun r _ _ => ?_
          cases r with
          | none => exact wp_call (only_iunlockput ip) fun _ _ _ => trivial
          | some x => exact wp_call (only_iunlockput ip) fun _ _ _ => ih x.1 _ _

theorem only_namex {path : Path} : wp (Only Lookup) (namex path parent) (fun _ _ => True) () := by
  unfold namex
  split
  · exact wp_op (.ino _) fun ip _ _ => only_namexLoop _ ip path []
  · exact wp_op .cwd fun _ _ _ => wp_op (.ino _) fun ip _ _ => only_namexLoop _ ip path []

theorem iget_refs {dev inum : Nat} {k : Nat → β} {b : β} (hs : s.iget dev inum k = .done b s') :
    ∃ i, b = k i ∧ refs s' = refs s + one i := by
  unfold Slots.St.iget at hs
  split at hs
  · next i _ =>
    cases hs
    exact ⟨i, rfl, funext (ref_set rfl)⟩
  · split at hs <;> cases hs
    next i he =>
    have h0 := List.find?_some he
    simp only [decide_eq_true_eq] at h0
    exact ⟨i, rfl, funext (ref_set (by rw [h0]; rfl))⟩

theorem ino_account {o : InoOp β} {b : β} (l : Know) (hs : inoExec sb o p s = .done b s') :
    ∃ l', inoPost o l b l' ∧ l'.ino = l.ino + (refs s' - refs s) := by
  have hgain : ∀ {i : Nat} {s' : Slots.St}, refs s' = refs s + one i → (l.gain i).ino = l.ino + (refs s' - refs s) := by
    intro i s' h
    rw [h, add_sub_cancel_left]
    rfl
  have hlose : ∀ i, (l.lose i).ino = l.ino + (refs (s.setRef i ((s.slot i).ref - 1)) - refs s) := by
    intro i
    have href : refs (s.setRef i ((s.slot i).ref - 1)) = refs s - one i := by
      funext j
      refine (ref_set (d := -1) rfl j).trans ?_
      show (s.slot j).ref + _ = (s.slot j).ref - one i j
      unfold one
      split <;> rfl
    rw [href, sub_sub_cancel_left]
    exact sub_eq_add_neg _ _
  have hsame : ∀ {s' : Slots.St}, (∀ j, (s'.slot j).ref = (s.slot j).ref) → l.ino = l.ino + (refs s' - refs s) := by
    intro s' h
    rw [show refs s' = refs s from funext h, sub_self, add_zero]
  have hset : ∀ {j : Nat} {x : Slots.Slot} {s' : Slots.St}, s'.slot = update s.slot j x → x.ref = (s.slot j).ref →
      l.ino = l.ino + (refs s' - refs s) := by
    intro j x s' h1 h2
    refine hsame fun i => ?_
    rw [h1]
    by_cases hi : i = j
    · subst hi
      rw [update_self, h2]
    · rw [update_of_ne hi]
  cases o with
  | root | ialloced x =>
    obtain ⟨i, rfl, h⟩ := iget_refs hs
    exact ⟨_, rfl, hgain h⟩
  | idup i =>
    cases hs
    exact ⟨_, ⟨rfl, rfl⟩, hgain (funext (ref_set rfl))⟩
  | iput i =>
    simp only [inoExec] at hs
    split at hs
    · split at hs <;> cases hs
      exact ⟨_, rfl, hset rfl rfl⟩
    · cases hs
      exact ⟨_, rfl, hlose i⟩
  | iputLast i =>
    cases hs
    exact ⟨_, rfl, hlose i⟩
  | ilock i =>
    simp only [inoExec, Slots.St.ilocked] at hs
    split_ifs at hs <;> cases hs <;> exact ⟨_, rfl, hset rfl rfl⟩
  | iunlock i =>
    simp only [inoExec] at hs
    split_ifs at hs <;> cases hs
    exact ⟨_, rfl, hset rfl rfl⟩
  | ialloc type =>
    simp only [inoExec] at hs
    split at hs <;> cases hs <;> exact ⟨_, rfl, hsame fun _ => rfl⟩
  | stat i =>
    cases hs
    exact ⟨_, rfl, hsame fun _ => rfl⟩
  | dirlookup i name =>
    simp only [inoExec] at hs
    split at hs
    · cases hs
    · cases hs
      exact ⟨_, rfl, hset rfl rfl⟩
    · next disk ip _ =>
      obtain ⟨j, rfl, h⟩ := iget_refs hs
      have hstore : refs (s.store i disk ip) = refs s := sub_eq_zero.mp (left_eq_add.mp (hset rfl rfl))
      rw [hstore] at h
      exact ⟨_, rfl, hgain h⟩
  | setInode i major minor nlink | setLink i nlink =>
    cases hs
    exact ⟨_, rfl, hset rfl rfl⟩
  | iputFree i | emptySlot i | link i off name target | clear i off | isdirempty i | itrunc i | readi i off n fail
  | writei i src off n fail =>
    simp only [inoExec] at hs
    split at hs <;> cases hs
    exact ⟨_, rfl, hset rfl rfl⟩

def Does (sb : Super) (p : Nat) {β : Type} (o : Op β) (s : Slots.St) (b : β) (s' : Slots.St) : Prop :=
  ∃ c, Slots.exec sb o p c s = .done b s'

theorem lookup_account {o : Op β} {b : β} (l : Know) (ho : Lookup o) (hs : Does sb p o s b s') :
    ∃ l', logic.post o l b l' ∧ l'.ino = l.ino + (refs s' - refs s) := by
  obtain ⟨c, hs⟩ := hs
  cases ho with
  | ino o => exact ino_account l hs
  | cwd =>
    simp only [Slots.exec] at hs
    split at hs <;> cases hs
    refine ⟨_, rfl, ?_⟩
    show l.ino = l.ino + (refs s - refs s)
    rw [sub_self, add_zero]

theorem namex_refs {path : Path} {ts : List (Slots.St × Slots.St)} {r : Option (Nat × Name)}
    (h : Trace (Does sb p) (namex path parent) ts r) (i : Nat) :
    change refs ts i = if r.map Prod.fst = some i then 1 else 0 := by
  obtain ⟨l', ⟨l1, hl, rfl⟩, hc⟩ := h.account Know.ino refs (fun _ _ _ _ l ho hs => lookup_account l ho hs) only_namex
    Know.start (wp_namex rfl start_settled.pos start_settled.few)
  have h0 : Know.start.ino = l1.ino := by
    obtain ⟨c, rfl⟩ := hl
    rfl
  have hc := congrFun hc i
  rw [h0] at hc
  cases r with
  | none =>
    change l1.ino i = l1.ino i + change refs ts i at hc
    rw [if_neg (by simp)]
    omega
  | some x =>
    change l1.ino i + one x.1 i = l1.ino i + change refs ts i at hc
    rw [← Int.add_left_cancel hc]
    unfold one
    simp only [Option.map_some, Option.some.injEq, eq_comm]

/-! ## When no call is in progress -/

/-- The open files whose inode is entry `i`. -/
def openFiles (t : Tables) (i : Nat) : Finset Nat :=
  (Finset.range NFILE).filter fun f =>
    0 < (t.file f).ref ∧ ((t.file f).type = .inode ∨ (t.file f).type = .device) ∧ (t.file f).ip = i

/-- The processes in the directory of entry `i`. -/
def atDir (t : Tables) (i : Nat) : Finset Nat := (Finset.range NPROC).filter fun p => (t.proc p).cwd = some i

/-- The descriptors of file `f`: processes, and indices of `ofile`. -/
def descriptors (t : Tables) (f : Nat) : Finset (Nat × Nat) :=
  (Finset.range NPROC ×ˢ Finset.range NOFILE).filter fun x => (t.proc x.1).ofile x.2 = some f

/-- An open file is an end of the pipe on page `pi`. -/
def IsEnd (t : Tables) (f pi : Nat) (writable : Bool) : Prop :=
  0 < (t.file f).ref ∧ (t.file f).type = .pipe ∧ (t.file f).pipe = pi ∧ (t.file f).writable = writable

theorem Inv.quiet_inodes (h : Inv s Λ) (hΛ : ∀ p, Λ p = Know.idle) (i : Nat) :
    (s.slot i).ref = (openFiles s.tab i).card + (atDir s.tab i).card := by
  rw [h.inodes.sum i, holders, Finset.sum_disjSum, openFiles, atDir, Finset.natCast_card_filter,
    Finset.natCast_card_filter,
    add_comm]
  refine congrArg _ (Finset.sum_congr rfl fun p _ => ?_)
  rw [inoShare, hΛ p]
  exact Int.add_zero _

theorem Inv.quiet_files (h : Inv s Λ) (hΛ : ∀ p, Λ p = Know.idle) (f : Nat) :
    (s.tab.file f).ref = (descriptors s.tab f).card := by
  rw [h.files.sum f, descriptors, Finset.natCast_card_filter, Finset.sum_product]
  refine Finset.sum_congr rfl fun p _ => ?_
  rw [fileShare, hΛ p, fdCount, Finset.natCast_card_filter]
  exact Int.add_zero _

theorem endCount_ne (h : endCount x e ≠ 0) : 0 < x.ref ∧ x.type = .pipe ∧ x.pipe = e.1 ∧ x.writable = e.2 := by
  unfold endCount at h
  split at h
  · next hc => exact ⟨hc.1, hc.2.1, congrArg Prod.fst hc.2.2, congrArg Prod.snd hc.2.2⟩
  · exact absurd rfl h

theorem Inv.end_open (h : Inv s Λ) (hf : IsEnd s.tab f pi w) :
    ∃ z, s.tab.pipe pi = some z ∧ Pipe.isOpen z w = true := by
  obtain ⟨hpos, hty, rfl, rfl⟩ := hf
  have h1 : endShare s Λ (.inr f) ((s.tab.file f).pipe, (s.tab.file f).writable) = 1 := by
    rw [endShare, endCount_pipe hpos hty, one_self]
  refine openCount_pos (e := (_, _)) (Int.lt_of_lt_of_le ?_ (h.ends.le (inr_mem (h.fileLt hpos))))
  rw [h1]
  decide

theorem Inv.quiet_end (h : Inv s Λ) (hΛ : ∀ p, Λ p = Know.idle) (hz : s.tab.pipe pi = some z)
    (ho : Pipe.isOpen z w = true) : ∃ f, IsEnd s.tab f pi w := by
  have h1 : openCount s.tab (pi, w) ≠ 0 := by
    rw [openCount, hz, Option.elim_some, if_pos ho]
    decide
  obtain ⟨x, -, hx⟩ := h.ends.holder h1
  cases x with
  | inl p =>
    rw [endShare, hΛ p] at hx
    exact absurd rfl hx
  | inr f => exact ⟨f, endCount_ne hx⟩

variable {st : Threads.St Op Slots.St Int}

theorem initial_inv (h : Slots.Initial st) : Inv st.shared fun _ => Know.idle := by
  have hfd : ∀ p fd, (st.shared.tab.proc p).ofile fd = none := by
    intro p fd
    by_cases hp : p = 0
    · rw [hp, h.init]
    · rw [h.procs p hp]
  have hcwd : ∀ p i, cwdCount (st.shared.tab.proc p) i = if p = 0 ∧ i = 0 then 1 else 0 := by
    intro p i
    by_cases hp : p = 0
    · rw [hp, h.init, cwdCount_some rfl]
      simp [one]
    · rw [h.procs p hp, cwdCount_none rfl, if_neg fun hc => hp hc.1]
      rfl
  have hino : ∀ x i, inoShare st.shared (fun _ => Know.idle) x i = if x = .inl 0 ∧ i = 0 then 1 else 0 := by
    intro x i
    cases x with
    | inl p =>
      rw [inoShare, hcwd]
      simp [Know.idle]
    | inr f =>
      rw [inoShare, inoCount_none (h.files f).2]
      simp
  have hend : ∀ x e, endShare st.shared (fun _ => Know.idle) x e = 0 := by
    intro x e
    cases x with
    | inl p => rfl
    | inr f =>
      rw [endShare, endCount_none (h.files f).2]
      rfl
  refine ⟨⟨fun f => ?_, fun p f => ?_⟩, ⟨fun i => ?_, fun x i => ?_⟩, ⟨fun e => ?_, fun x e => ?_⟩, fun f hf => ?_,
    fun f _ => (h.files f).2, fun pi x hx => ?_, fun i hi => ?_, fun i j hi hj _ _ => ?_,
      fun p hp => ⟨fun fd _ => hfd p fd, ?_⟩,
    fun p hp => ?_, fun p => .of_idle, fun p q np hp => by cases hp⟩
  · rw [(h.files f).1]
    refine (Finset.sum_eq_zero fun p _ => ?_).symm
    rw [fileShare, fdCount_none fun fd _ => hfd p fd]
    rfl
  · exact Int.add_nonneg (Int.natCast_nonneg _) (le_refl _)
  · rw [h.slots, Finset.sum_eq_single_of_mem (.inl 0) (inl_mem (by decide)) fun x _ hx => ?_]
    · rw [hino]
      simp
    · rw [hino, if_neg fun hc => hx hc.1]
  · rw [hino]
    split <;> decide
  · rw [openCount, h.pipes]
    exact (Finset.sum_eq_zero fun x _ => hend x e).symm
  · rw [hend]
  · exact absurd (h.files f).1 hf
  · rw [h.pipes] at hx
    cases hx
  · rw [h.slots] at hi
    split at hi
    · next h0 => rw [h0]; decide
    · exact absurd rfl hi
  · rw [h.slots] at hi hj
    split at hi
    · next h0 =>
      split at hj
      · next h1 => rw [h0, h1]
      · omega
    · omega
  · by_cases h0 : p = 0
    · rw [h0, h.init] at hp
      simp at hp
    · rw [h.procs p h0]
  · by_cases h0 : p = 0
    · rw [h0]
      decide
    · rw [h.procs p h0] at hp
      exact absurd rfl hp

theorem reachable_good (hr : Reachable sb st) :
    Good logic Inv (fun s => ∃ t Λ p, Halted t Λ p s) Know.Settled Know.idle st := by
  refine sound.reach (fun s a _ => stepOk_of_all (fun _ _ _ => trivial) s a) (fun s hs => ?_) hr
  refine ⟨fun _ => ⟨fun _ => Know.idle, initial_inv hs, fun p => ?_⟩,
    fun hc => absurd (hs.running.1.symm.trans hc) Bool.false_ne_true⟩
  rw [hs.idle p]

theorem reachable_inv (hr : Reachable sb st) : ∃ Λ, Inv st.shared Λ := by
  have hg := reachable_good hr
  cases hh : st.halted with
  | true =>
    obtain ⟨_, Λ, _, h⟩ := hg.2 hh
    exact ⟨Λ, h.inv⟩
  | false =>
    obtain ⟨Λ, hI, -⟩ := hg.1 hh
    exact ⟨Λ, hI⟩

theorem reachable_quiet (hr : Reachable sb st) (hq : ∀ p, st.prog p = none) :
    Inv st.shared fun _ => Know.idle := by
  have hh : st.halted = false := by
    by_contra hc
    obtain ⟨p, hp⟩ := halted_prog (fun s hs => hs.running.1) hr (by simpa using hc)
    exact hp (hq p)
  obtain ⟨Λ, hI, hΛ⟩ := (reachable_good hr).1 hh
  have : Λ = fun _ => Know.idle := by
    funext p
    have := hΛ p
    rwa [hq p] at this
  rwa [this] at hI

/-- `initproc` in the root directory, which is empty, with nothing open. -/
def booted : Threads.St Op Slots.St Int where
  shared :=
    { disk := fun b x => if b = 2 ∧ x = 64 then 1 else 0
      slot := fun i => ⟨Slots.ROOTDEV, if i = 0 then ROOTINO else 0, if i = 0 then 1 else 0, false, none,
        ⟨0, 0, 0, 0, 0, fun _ => 0⟩⟩
      tab :=
        { file := fun _ => ⟨0, .none, false, false, 0, 0, 0, 0⟩
          proc := fun p => if p = 0 then ⟨.running, fun _ => none, some 0⟩ else ⟨.unused, fun _ => none, none⟩
          pipe := fun _ => none }
      panic := none }
  prog _ := none
  halted := false

theorem booted_initial : Slots.Initial booted where
  slots _ := rfl
  root := ⟨rfl, rfl⟩
  files _ := ⟨rfl, rfl⟩
  init := rfl
  procs _ hp := if_neg hp
  pipes _ := rfl
  idle _ := rfl
  running := ⟨rfl, rfl⟩

/-- `initproc` makes a system call, and takes `n` steps. -/
def initCall (c : Sys.Call) (n : Nat) : List (Act Sys.Call Nat) := .start 0 c :: List.replicate n (.step 0 5)

theorem initCall_reachable {c : Sys.Call} {n : Nat}
    (h : Run.run (Threads.step (sys tiny)) booted (initCall c n) = some st)
    (h0 : (st.prog 0).isNone = true) : Reachable tiny st ∧ ∀ p, st.prog p = none := by
  refine ⟨Run.Reach.of_run (fun _ _ => trivial) _ (.start booted_initial) h, fun p => ?_⟩
  by_cases hp : p = 0
  · rw [hp]
    exact Option.isNone_iff_eq_none.mp h0
  · refine run_prog _ h fun a ha => ?_
    rcases List.mem_cons.mp ha with rfl | ha
    · exact hp
    · rw [List.eq_of_mem_replicate ha]
      exact hp

/-- The counts of the inode table. -/
theorem inode_references_exact (hr : Reachable sb st) :
    (∀ i j, 0 < (st.shared.slot i).ref → 0 < (st.shared.slot j).ref → (st.shared.slot i).dev = (st.shared.slot j).dev →
      (st.shared.slot i).inum = (st.shared.slot j).inum → i = j) ∧
    ((∀ p, st.prog p = none) → ∀ i, (st.shared.slot i).ref =
      (openFiles st.shared.tab i).card + (atDir st.shared.tab i).card) ∧
    ∀ p path parent,
      (∀ ts r, Trace (Does sb p) (namex path parent) ts r → ∀ i,
        change refs ts i = if r.map Prod.fst = some i then 1 else 0) ∧
      ∀ c s r s', eval (fun o => Slots.exec sb o p c) (namex path parent) s = .done r s' → ∀ i,
        (s'.slot i).ref = (s.slot i).ref + if r.map Prod.fst = some i then 1 else 0 := by
  refine ⟨?_, fun hq => (reachable_quiet hr hq).quiet_inodes fun _ => rfl, fun p path parent =>
    ⟨fun ts r ht => namex_refs ht,
    fun c s r s' he i => ?_⟩⟩
  · obtain ⟨Λ, hI⟩ := reachable_inv hr
    exact hI.uniq
  · obtain ⟨ts, ht, hc⟩ := Trace.of_eval refs (fun o => Slots.exec sb o p c)
      (fun o s b s' h => (⟨c, h⟩ : Does sb p o s b s')) _ s he
    have h1 := namex_refs ht i
    have h2 := congrFun hc i
    change change refs ts i = (s'.slot i).ref - (s.slot i).ref at h2
    omega

/-- `open("/", O_RDONLY)`: the entry of the root has two references. -/
theorem inode_references_exact_open : ∃ st, Reachable tiny st ∧ (st.shared.slot 0).ref = 2 ∧
    ((openFiles st.shared.tab 0).card + (atDir st.shared.tab 0).card : Int) = 2 := by
  have hrun : ((Run.run (Threads.step (sys tiny)) booted (initCall (.openFile (some [47]) O_RDONLY) 11)).map
      fun s => ((s.prog 0).isNone, (s.shared.slot 0).ref)) = some (true, 2) := by decide
  obtain ⟨st, hs, hv⟩ := Option.map_eq_some_iff.mp hrun
  obtain ⟨hr, hq⟩ := initCall_reachable hs (congrArg Prod.fst hv)
  have href : (st.shared.slot 0).ref = 2 := congrArg Prod.snd hv
  exact ⟨st, hr, href, by rw [← (inode_references_exact hr).2.1 hq 0, href]⟩

/-- The counts of the file table, and the pipes. -/
theorem file_references_exact (hr : Reachable sb st) : ((∀ p, st.prog p = none) →
      (∀ f, (st.shared.tab.file f).ref = (descriptors st.shared.tab f).card) ∧
      (∀ f, (st.shared.tab.file f).ref = 0 → (st.shared.tab.file f).type = .none) ∧
      (∀ pi z, st.shared.tab.pipe pi = some z → (z.readopen = true ↔ ∃ f, IsEnd st.shared.tab f pi false) ∧
        (z.writeopen = true ↔ ∃ f, IsEnd st.shared.tab f pi true)) ∧
      ∀ pi, st.shared.tab.pipe pi = none ↔ ∀ f w, ¬ IsEnd st.shared.tab f pi w) ∧
    (∀ f pi w, IsEnd st.shared.tab f pi w → st.shared.tab.pipe pi ≠ none) ∧
    (st.halted = true → st.shared.panic ≠ some .filedup ∧ st.shared.panic ≠ some .fileclose ∧
      st.shared.panic ≠ some .freedPipe) := by
  obtain ⟨Λ, hI⟩ := reachable_inv hr
  have hopen : ∀ f pi w, IsEnd st.shared.tab f pi w → st.shared.tab.pipe pi ≠ none := by
    intro f pi w hf hc
    obtain ⟨z, hz, -⟩ := hI.end_open hf
    rw [hz] at hc
    cases hc
  refine ⟨fun hq => ?_, hopen, fun hh => ?_⟩
  · have h := reachable_quiet hr hq
    have hend : ∀ pi z w, st.shared.tab.pipe pi = some z → (Pipe.isOpen z w = true ↔
      ∃ f, IsEnd st.shared.tab f pi w) := by
      intro pi z w hz
      refine ⟨h.quiet_end (fun _ => rfl) hz, fun ⟨f, hf⟩ => ?_⟩
      obtain ⟨z', hz', ho⟩ := h.end_open hf
      rwa [Option.some.inj (hz.symm.trans hz')]
    refine ⟨h.quiet_files fun _ => rfl, h.closed, fun pi z hz => ⟨hend pi z false hz, hend pi z true hz⟩,
      fun pi => ⟨fun hn f w hf => hopen f pi w hf hn, fun hn => ?_⟩⟩
    cases hz : st.shared.tab.pipe pi with
    | none => rfl
    | some z =>
      rcases h.pipes pi z hz with ho | ho
      · obtain ⟨f, hf⟩ := (hend pi z false hz).mp ho
        exact absurd hf (hn f false)
      · obtain ⟨f, hf⟩ := (hend pi z true hz).mp ho
        exact absurd hf (hn f true)
  · obtain ⟨_, _, _, h⟩ := (reachable_good hr).2 hh
    obtain ⟨m, hm, hno⟩ := h.panic
    rw [hm]
    simp only [Miscount, not_or] at hno
    simpa using hno

/-- `pipe(fd)`: both ends are open. -/
theorem file_references_exact_pipe : ∃ st, Reachable tiny st ∧ (∃ f, IsEnd st.shared.tab f 5 false) ∧
    ∃ f, IsEnd st.shared.tab f 5 true := by
  have hrun : ((Run.run (Threads.step (sys tiny)) booted (initCall (.pipe true) 8)).map
      fun s => ((s.prog 0).isNone, (s.shared.tab.pipe 5).map fun z => (z.readopen, z.writeopen))) =
        some (true, some (true, true)) := by decide
  obtain ⟨st, hs, hv⟩ := Option.map_eq_some_iff.mp hrun
  obtain ⟨hr, hq⟩ := initCall_reachable hs (congrArg Prod.fst hv)
  obtain ⟨z, hz, ho⟩ := Option.map_eq_some_iff.mp (congrArg Prod.snd hv)
  have hends := ((file_references_exact hr).1 hq).2.2.1 5 z hz
  exact ⟨st, hr, hends.1.mp (congrArg Prod.fst ho), hends.2.mp (congrArg Prod.snd ho)⟩

end

end Xv6.Fs.Refs
