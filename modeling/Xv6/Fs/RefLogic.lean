import Mathlib.Algebra.Group.Pi.Basic
import Mathlib.Data.Finset.Card
import Mathlib.Data.Multiset.Count
import Mathlib.Tactic.Abel
import Xv6.Fs.Syscalls

/-!
# What system calls hold

The local state of a system call, for the reference counts: the references to
inodes, files and pipe ends that it has taken and not yet given back or stored in
a table.  Such a number is negative when a table still holds a reference that
the call has already given back: `sys_dup` fills the descriptor before it calls
`filedup`, and `exit` and `sys_chdir` drop the old reference before they clear
the pointer.  The call also knows what it has read or written of its own process
and of a child that `fork` sets up.

Every system call ends with nothing in its hands (`wp_code`), and `namex` with a
reference to the inode that it returns (`wp_namex`).  No call ever has more than
three references to inodes (`Few`): `namex` holds the directory and the inode it has
found there, `sys_link` and `create` two inodes while `dirlink` looks up a name.
-/

namespace Xv6.Fs.Refs

open Sys Threads Function

def one {X : Type} [DecidableEq X] (x : X) : X → Int := fun y => if y = x then 1 else 0

variable {X : Type}

@[simp]
theorem one_self [DecidableEq X] (x : X) : one x x = 1 := if_pos rfl

theorem one_ne [DecidableEq X] {x y : X} (h : y ≠ x) : one x y = 0 := if_neg h

theorem one_nonneg [DecidableEq X] (x y : X) : 0 ≤ one x y := by
  unfold one
  split <;> decide

@[ext]
structure Know where
  /-- The process is in a system call. -/
  busy : Bool
  ino : Nat → Int
  files : Nat → Int
  /-- Ends of pipes; `true` is the write end. -/
  ends : Nat × Bool → Int
  /-- What is known of `p->cwd` and `p->ofile`. -/
  cwd : Option (Option Nat)
  fd : Nat → Option (Option Nat)
  /-- Files that the call has allocated and whose type it has not set yet. -/
  new : Nat → Prop
  /-- The child of `fork`, and what it has got. -/
  kid : Option Nat
  kidFd : Nat → Prop
  kidCwd : Prop

namespace Know

def idle : Know :=
  { busy := false, ino := 0, files := 0, ends := 0, cwd := none, fd := fun _ => none, new := fun _ => False
    kid := none, kidFd := fun _ => False, kidCwd := False }

def start : Know := { idle with busy := true }

def gain (l : Know) (i : Nat) : Know := { l with ino := l.ino + one i }

def lose (l : Know) (i : Nat) : Know := { l with ino := l.ino - one i }

/-- Whether `p->cwd` is known to be inode `i`. -/
def atCwd (l : Know) (i : Nat) : Int := if l.cwd = some (some i) then 1 else 0

/-- A reference to the inode, in the hands of the call or in `p->cwd`. -/
def hasIno (l : Know) (i : Nat) : Prop := 0 < l.ino i + l.atCwd i

/-- The descriptors that are known to be of file `f`. -/
def fds (l : Know) (f : Nat) : Finset Nat := (Finset.range NOFILE).filter fun fd => l.fd fd = some (some f)

/-- A reference to the file, in the hands of the call or in `p->ofile`. -/
def hasFile (l : Know) (f : Nat) : Prop := 0 < l.files f + (l.fds f).card

def notNew (l : Know) (f : Nat) : Nat → Prop := fun g => l.new g ∧ g ≠ f

/-- After the last reference to `ff` was dropped: what it referred to. -/
def inherit (l : Know) : Option File → Know
  | none => l
  | some ff =>
    if ff.type = .pipe then { l with ends := l.ends + one (ff.pipe, ff.writable) }
    else if ff.type = .inode ∨ ff.type = .device then l.gain ff.ip
    else l

/-- At most `n` references to inodes in the hands of the call. -/
def Few (l : Know) (n : Nat) : Prop := ∃ m : Multiset Nat, m.card ≤ n ∧ ∀ i, l.ino i ≤ m.count i

/-- Nothing in the hands of the call. -/
structure Settled (l : Know) : Prop where
  ino : l.ino = 0
  files : l.files = 0
  ends : l.ends = 0
  new : ∀ f, ¬ l.new f
  kid : l.kid = none

end Know

def inoPre {β : Type} (o : InoOp β) (l : Know) : Prop :=
  match o with
  | .root | .ialloced _ | .dirlookup _ _ => l.Few 2
  | .idup h => l.hasIno h ∧ l.Few 2
  | .iput h | .iputLast h => l.hasIno h
  | _ => True

def inoPost {β : Type} (o : InoOp β) (l : Know) (b : β) (l' : Know) : Prop :=
  match o with
  | .root | .ialloced _ => l' = l.gain b
  | .idup h => b = h ∧ l' = l.gain h
  | .iput h => l' = if b then l else l.lose h
  | .iputLast h => l' = l.lose h
  | .dirlookup _ _ => l' = b.elim l fun r => l.gain r.1
  | _ => l' = l

def tabPre {β : Type} (o : TabOp β) (l : Know) : Prop :=
  match o with
  | .setCwd _ | .clearCwd => (∃ old, l.cwd = some (some old)) ∧ l.Few 2
  | .clearFd fd => fd < NOFILE ∧ ∃ f, l.fd fd = some (some f)
  | .filedup f => l.hasFile f
  | .closeRef f => l.hasFile f ∧ l.Few 2
  | .setFile f type _ _ ip _ _ => l.new f ∧ (type = .inode ∨ type = .device) ∧ 0 < l.ino ip
  | .setPipe f pi w => l.new f ∧ 0 < l.ends (pi, w)
  | .pipeclose pi w => 0 < l.ends (pi, w)
  | .allocproc => l.kid = none
  | .freeproc np => l.kid = some np ∧ (∀ fd, ¬ l.kidFd fd) ∧ ¬ l.kidCwd
  | .copyFd np fd f => l.kid = some np ∧ ¬ l.kidFd fd ∧ fd < NOFILE ∧ 0 < l.files f ∧ ¬ l.new f
  | .copyCwd np h => l.kid = some np ∧ ¬ l.kidCwd ∧ 0 < l.ino h
  | .runnable np => l.kid = some np
  | .zombie => l.Settled ∧ l.cwd = some none ∧ ∀ fd, fd < NOFILE → l.fd fd = some none
  | _ => True

def tabPost {β : Type} (o : TabOp β) (l : Know) (b : β) (l' : Know) : Prop :=
  match o with
  | .cwd => l' = { l with cwd := some (some b) }
  | .setCwd h => ∃ old, l.cwd = some (some old) ∧ l' = { (l.gain old).lose h with cwd := some (some h) }
  | .clearCwd => ∃ old, l.cwd = some (some old) ∧ l' = { l.gain old with cwd := some none }
  | .argfd fd =>
    if fd < 0 ∨ (NOFILE : Int) ≤ fd then b = none ∧ l' = l
    else l' = { l with fd := update l.fd fd.toNat (some b) }
  | .clearFd fd => ∃ f, l.fd fd = some (some f) ∧
      l' = { l with files := l.files + one f, fd := update l.fd fd (some none) }
  | .fdalloc f =>
    match b with
    | none => l' = l
    | some fd => fd < NOFILE ∧ (∀ g, l.fd fd ≠ some (some g)) ∧
        l' = { l with files := l.files - one f, fd := update l.fd fd (some (some f)) }
  | .filealloc =>
    match b with
    | none => l' = l
    | some f => ¬ l.new f ∧ l' = { l with files := l.files + one f, new := fun g => l.new g ∨ g = f }
  | .filedup f => l' = { l with files := l.files + one f }
  | .closeRef f => l' = Know.inherit { l with files := l.files - one f, new := l.notNew f } b
  | .newPipe => l' = b.elim l fun pi => { l with ends := l.ends + one (pi, false) + one (pi, true) }
  | .setPipe f pi w => l' = { l with ends := l.ends - one (pi, w), new := l.notNew f }
  | .pipeclose pi w => l' = { l with ends := l.ends - one (pi, w) }
  | .setFile f _ _ _ ip _ _ => l' = { l.lose ip with new := l.notNew f }
  | .allocproc => l' = b.elim l fun np => { l with kid := some np, kidFd := fun _ => False, kidCwd := False }
  | .freeproc _ | .runnable _ => l' = { l with kid := none }
  | .copyFd _ fd f => l' = { l with files := l.files - one f, kidFd := fun x => l.kidFd x ∨ x = fd }
  | .copyCwd _ h => l' = { l.lose h with kidCwd := True }
  | .zombie => l' = Know.idle
  | .file _ | .setOff _ _ | .exiting | .reap => l' = l

/-- The panics that a wrong reference count leads to. -/
def Miscount (m : Panic) : Prop := m = .filedup ∨ m = .fileclose ∨ m = .freedPipe

instance (m : Panic) : Decidable (Miscount m) := by
  unfold Miscount
  infer_instance

/-- The panics that no count is behind. -/
def Other (m : Panic) : Prop := ¬ Miscount m ∧ m ≠ .igetNoInodes

instance (m : Panic) : Decidable (Other m) := by
  unfold Other
  infer_instance

/-- A call takes a reference to an inode only when it has at most two, and does not
itself panic for want of inodes. -/
def logic : Logic Op Know where
  pre o l := l.busy = true ∧
    match o with
    | .ino o => inoPre o l
    | .tab o => tabPre o l
    | .log _ => True
    | .panic m => Other m
  post o l b l' :=
    match o with
    | .ino o => inoPost o l b l'
    | .tab o => tabPost o l b l'
    | .log _ => l' = l
    | .panic _ => False

/-! ## Accounts -/

/-- No account is overdrawn. -/
structure Know.Pos (l : Know) : Prop where
  ino : ∀ i, 0 ≤ l.ino i
  ends : ∀ e, 0 ≤ l.ends e

/-- The call may have learned what `p->cwd` is. -/
def Looked (l l' : Know) : Prop := ∃ c, l' = { l with cwd := c }

variable {ip : Nat} {f : Nat} {path : Option Path}

section
variable {l l' : Know} {i j : Nat} {α : Type}

@[simp]
theorem gain_lose : (l.gain i).lose i = l := by
  ext <;> simp [Know.gain, Know.lose]

theorem gain_comm : (l.gain i).gain j = (l.gain j).gain i := by
  ext <;> simp only [Know.gain]
  rw [add_right_comm]

theorem gain_gain_lose : ((l.gain i).gain j).lose i = l.gain j := by
  ext <;> simp only [Know.gain, Know.lose]
  rw [add_right_comm, add_sub_cancel_right]

theorem atCwd_nonneg (l : Know) (i : Nat) : 0 ≤ l.atCwd i := by
  unfold Know.atCwd
  split <;> decide

theorem Know.Pos.gain (h : l.Pos) (i : Nat) : (l.gain i).Pos :=
  ⟨fun j => Int.add_nonneg (h.ino j) (one_nonneg i j), h.ends⟩

theorem Know.Pos.hasIno (h : l.Pos) (i : Nat) : (l.gain i).hasIno i := by
  have h1 := h.ino i
  have h2 : 0 ≤ (l.gain i).atCwd i := atCwd_nonneg _ i
  show 0 < l.ino i + one i i + (l.gain i).atCwd i
  rw [one_self]
  omega

theorem Know.Settled.pos (h : l.Settled) : l.Pos :=
  ⟨fun i => by rw [h.ino]; exact le_refl _, fun e => by rw [h.ends]; exact le_refl _⟩

theorem Know.Few.gain {n : Nat} (h : l.Few n) (i : Nat) : (l.gain i).Few (n + 1) := by
  obtain ⟨m, hm, hc⟩ := h
  refine ⟨i ::ₘ m, by rw [Multiset.card_cons]; omega, fun j => ?_⟩
  have := hc j
  show l.ino j + one i j ≤ _
  rw [Multiset.count_cons, one]
  split <;> omega

theorem Know.Few.lose {n : Nat} (h : l.Few n) (i : Nat) : (l.lose i).Few n :=
  let ⟨m, hm, hc⟩ := h
  ⟨m, hm, fun j => Int.le_trans (Int.sub_le_self _ (one_nonneg i j)) (hc j)⟩

theorem Know.Few.succ {n : Nat} (h : l.Few n) : l.Few (n + 1) :=
  let ⟨m, hm, hc⟩ := h
  ⟨m, Nat.le_succ_of_le hm, hc⟩

theorem Know.Settled.few (h : l.Settled) {n : Nat} : l.Few n :=
  ⟨0, Nat.zero_le _, fun i => by rw [h.ino]; exact Int.natCast_nonneg _⟩

theorem start_settled : Know.start.Settled := ⟨rfl, rfl, rfl, fun _ h => h, rfl⟩

theorem Looked.refl (l : Know) : Looked l l := ⟨l.cwd, rfl⟩

theorem Looked.busy (h : Looked l l') (hb : l.busy = true) : l'.busy = true := by
  obtain ⟨c, rfl⟩ := h
  exact hb

theorem Looked.pos (h : Looked l l') (hp : l.Pos) : l'.Pos := by
  obtain ⟨c, rfl⟩ := h
  exact ⟨hp.ino, hp.ends⟩

theorem Looked.few {n : Nat} (h : Looked l l') (hf : l.Few n) : l'.Few n := by
  obtain ⟨c, rfl⟩ := h
  exact hf

theorem Looked.settled (h : Looked l l') (hs : l.Settled) : l'.Settled := by
  obtain ⟨c, rfl⟩ := h
  exact ⟨hs.ino, hs.files, hs.ends, hs.new, hs.kid⟩

theorem Looked.of_gain (h : Looked (l.gain i) l') : ∃ l1, Looked l l1 ∧ l' = l1.gain i := by
  obtain ⟨c, rfl⟩ := h
  exact ⟨{ l with cwd := c }, ⟨c, rfl⟩, rfl⟩

/-! ## `kernel/log.c` -/

variable {Q : α → Know → Prop} {g : Unit → Sys.Prog α}

theorem wp_beginOp (hb : l.busy = true) (h : wp logic (g ()) Q l) :
    wp logic (beginOp >>= g) Q l :=
  wp_op ⟨hb, trivial⟩ fun _ _ h1 => h1 ▸ h

theorem wp_endOp (hb : l.busy = true) (h : wp logic (g ()) Q l) : wp logic (endOp >>= g) Q l :=
  wp_op ⟨hb, trivial⟩ fun _ _ h1 => h1 ▸ h

theorem wp_endWith {r : α} (hb : l.busy = true) (h : Q r l) : wp logic (endWith r) Q l :=
  wp_endOp hb h

theorem wp_panic {m : Panic} (hb : l.busy = true) (hm : Other m) :
    wp logic (panic m >>= g) Q l :=
  wp_op ⟨hb, hm⟩ fun _ _ hc => hc.elim

theorem wp_keep {β : Type} {o : Sys.Op β} {f : β → Sys.Prog α} (hb : l.busy = true)
    (ho : (logic.pre o l, logic.post o l) = (l.busy = true ∧ True, fun _ l' => l' = l)) (hf : ∀ b, wp logic (f b) Q l) :
    wp logic (Threads.perform o >>= f) Q l := by
  obtain ⟨hpre, hpost⟩ := Prod.mk.inj ho
  refine wp_op (by rw [hpre]; exact ⟨hb, trivial⟩) fun b l' h => ?_
  rw [hpost] at h
  subst h
  exact hf b

/-! ## `kernel/fs.c` -/

theorem wp_iput (hb : l.busy = true) (h : l.hasIno ip) : wp logic (iput ip) (fun _ l' => l' = l.lose ip) l := by
  refine wp_op ⟨hb, h⟩ fun b l1 h1 => ?_
  subst h1
  cases b with
  | false => rfl
  | true =>
    refine wp_keep hb rfl fun _ => ?_
    exact wp_op ⟨hb, h⟩ fun _ l3 h3 => h3

theorem wp_iunlockput (hb : l.busy = true) (h : l.hasIno ip) :
    wp logic (iunlockput ip) (fun _ l' => l' = l.lose ip) l := by
  refine wp_keep hb rfl fun _ => ?_
  exact wp_iput hb h

theorem wp_release {m : Sys.Prog Unit}
    (hm : m = iput ip ∨ m = iunlockput ip) (hb : l.busy = true) (hp : l.Pos) (h : wp logic (g ()) Q l) :
    wp logic (m >>= g) Q (l.gain ip) := by
  have hend : ∀ (u : Unit) l', l' = (l.gain ip).lose ip → wp logic (g u) Q l' := by
    intro _ l' he
    rw [he, gain_lose]
    exact h
  rcases hm with rfl | rfl
  · exact wp_call (wp_iput hb (hp.hasIno ip)) hend
  · exact wp_call (wp_iunlockput hb (hp.hasIno ip)) hend

variable {dp omode type : Nat} {major minor : Int} {name : Name} {ok : Bool}

theorem wp_dirlink {target : Nat} (hb : l.busy = true) (hp : l.Pos) (hf : l.Few 2) :
    wp logic (dirlink dp name target) (fun _ l' => l' = l) l := by
  refine wp_op ⟨hb, hf⟩ fun r l1 h1 => ?_
  subst h1
  cases r with
  | some x => exact wp_release (Or.inl rfl) hb hp rfl
  | none =>
    refine wp_keep hb rfl fun off => ?_
    exact wp_op ⟨hb, trivial⟩ fun _ _ h3 => h3

def Know.named (l : Know) (r : Option (Nat × Name)) : Know := r.elim l fun x => l.gain x.1

theorem wp_namexLoop {parent : Bool} (hb : l.busy = true) (hp : l.Pos) (hf : l.Few 1) (fuel : Nat) :
    ∀ (ip : Nat) (path : Path) (name : Name), wp logic (namexLoop parent fuel ip path name)
    (fun r l' => l' = l.named r) (l.gain ip) := by
  induction fuel with
  | zero => exact fun ip path name => rfl
  | succ fuel ih =>
    intro ip path name
    unfold namexLoop
    split
    · split
      · exact wp_release (Or.inl rfl) hb hp rfl
      · rfl
    · refine wp_keep hb rfl fun _ => ?_
      refine wp_keep hb rfl fun st => ?_
      split
      · exact wp_release (Or.inr rfl) hb hp rfl
      · split
        · refine wp_keep hb rfl fun _ => ?_
          rfl
        · refine wp_op ⟨hb, hf.gain ip⟩ fun r l3 h3 => ?_
          subst h3
          cases r with
          | none => exact wp_release (Or.inr rfl) hb hp rfl
          | some x =>
            refine wp_call (wp_iunlockput hb ?_) fun _ l4 h4 => ?_
            · have := (hp.gain x.1).hasIno ip
              rwa [gain_comm] at this
            · rw [Option.elim_some, gain_gain_lose] at h4
              subst h4
              exact ih x.1 _ _

theorem wp_namex {path : Path} {parent : Bool} (hb : l.busy = true) (hp : l.Pos) (hf : l.Few 1) :
    wp logic (namex path parent) (fun r l' => ∃ l1, Looked l l1 ∧ l' = l1.named r) l := by
  unfold namex
  split
  · refine wp_op ⟨hb, hf.succ⟩ fun ip l1 h1 => ?_
    subst h1
    exact wp_mono (fun _ _ h => ⟨l, .refl l, h⟩) _ _ (wp_namexLoop hb hp hf _ ip path [])
  · refine wp_op ⟨hb, trivial⟩ fun cwd l1 h1 => ?_
    have hl : Looked l l1 := ⟨_, h1⟩
    have hcwd : l1.hasIno cwd := by
      have := hp.ino cwd
      subst h1
      show 0 < l.ino cwd + (if some (some cwd) = some (some cwd) then 1 else 0)
      rw [if_pos rfl]
      omega
    refine wp_op ⟨hl.busy hb, hcwd, (hl.few hf).succ⟩ fun ip l2 h2 => ?_
    obtain ⟨rfl, rfl⟩ := h2
    exact wp_mono (fun _ _ h => ⟨l1, hl, h⟩) _ _ (wp_namexLoop (hl.busy hb) (hl.pos hp) (hl.few hf) _ ip path [])

theorem wp_namei {path : Path} (hb : l.busy = true) (hp : l.Pos) (hf : l.Few 1) :
    wp logic (namei path) (fun r l' => ∃ l1, Looked l l1 ∧ l' = r.elim l1 l1.gain) l := by
  refine wp_call (wp_namex hb hp hf) fun r l1 h1 => ?_
  cases r <;> exact h1

/-! ## `kernel/file.c` -/

def Know.closed (l : Know) (f : Nat) : Know := { l with files := l.files - one f, new := l.notNew f }

theorem wp_fileclose (hb : l.busy = true) (hp : l.Pos) (hf : l.Few 2) (h : l.hasFile f) :
    wp logic (fileclose f) (fun _ l' => l' = l.closed f) l := by
  refine wp_op ⟨hb, h, hf⟩ fun r l1 h1 => ?_
  have hb' : (l.closed f).busy = true := hb
  have hp' : (l.closed f).Pos := ⟨hp.ino, hp.ends⟩
  change l1 = (l.closed f).inherit r at h1
  generalize l.closed f = l2 at *
  subst h1
  cases r with
  | none => rfl
  | some ff =>
    simp only [Know.inherit]
    split
    · refine wp_op ⟨hb', ?_⟩ fun _ l3 h3 => ?_
      · have := hp'.ends (ff.pipe, ff.writable)
        show 0 < l2.ends _ + one _ _
        rw [one_self]
        omega
      · subst h3
        ext <;> simp
    · split
      · exact wp_beginOp hb' (wp_release (Or.inl rfl) hb' hp' (wp_endOp hb' rfl))
      · rfl

theorem wp_filestat (hb : l.busy = true) : wp logic (filestat f ok) (fun _ l' => l' = l) l := by
  refine wp_keep hb rfl fun x => ?_
  split
  · refine wp_keep hb rfl fun _ => ?_
    exact wp_op ⟨hb, trivial⟩ fun _ _ h3 => h3
  · rfl

theorem wp_advance {off : Nat} {r : Int} (hb : l.busy = true) : wp logic (advance f off r) (fun _ l' => l' = l) l := by
  unfold advance
  split
  · exact wp_op ⟨hb, trivial⟩ fun _ _ h => h
  · rfl

theorem wp_fileread {n : Int} {fail : Nat → Bool} {dev : Int} (hb : l.busy = true) :
    wp logic (fileread f n fail dev) (fun _ l' => l' = l) l := by
  refine wp_keep hb rfl fun x => ?_
  split
  · rfl
  · split
    · rfl
    · split
      · refine wp_keep hb rfl fun _ => ?_
        refine wp_keep hb rfl fun y => ?_
        refine wp_keep hb rfl fun r => ?_
        refine wp_call (wp_advance hb) fun _ l5 h5 => ?_
        subst h5
        exact wp_op ⟨hb, trivial⟩ fun _ _ h6 => h6
      · exact wp_panic hb (by decide)

variable {src : Nat → UInt8} {fail : Nat → Nat → Option Nat}

theorem wp_filewriteLoop {n : Nat} (hb : l.busy = true)
    (fuel : Nat) : ∀ i, wp logic (filewriteLoop f ip src fail n fuel i) (fun _ l' => l' = l) l := by
  induction fuel with
  | zero => exact fun i => rfl
  | succ fuel ih =>
    intro i
    unfold filewriteLoop
    split
    · refine wp_beginOp hb (wp_keep hb rfl fun _ => ?_)
      refine wp_keep hb rfl fun y => ?_
      refine wp_keep hb rfl fun r => ?_
      refine wp_call (wp_advance hb) fun _ l5 h5 => ?_
      subst h5
      refine wp_keep hb rfl fun _ => ?_
      refine wp_endOp hb ?_
      split
      · exact ih _
      · rfl
    · rfl

theorem wp_filewrite {n : Int} {dev : Int} (hb : l.busy = true) :
    wp logic (filewrite f src n fail dev) (fun _ l' => l' = l) l := by
  refine wp_keep hb rfl fun x => ?_
  split
  · rfl
  · split
    · rfl
    · split
      · exact wp_call (wp_filewriteLoop hb _ 0) fun _ _ h => h
      · exact wp_panic hb (by decide)

/-! ## `kernel/sysfile.c` -/

/-- How a system call ends. -/
abbrev Ended (_ : Int) (l : Know) : Prop := l.Settled

theorem Know.Settled.fd (h : l.Settled) {x : Nat → Option (Option Nat)} : Know.Settled { l with fd := x } :=
  ⟨h.ino, h.files, h.ends, h.new, h.kid⟩

theorem hasFile_of_files (h : 0 < l.files f) : l.hasFile f :=
  Int.lt_of_lt_of_le h (Int.le_add_of_nonneg_right (Int.natCast_nonneg _))

theorem hasFile_of_fd {fd : Nat} (h : 0 ≤ l.files f) (hfd : fd < NOFILE) (hf : l.fd fd = some (some f)) :
    l.hasFile f := by
  have hmem : fd ∈ l.fds f := Finset.mem_filter.mpr ⟨Finset.mem_range.mpr hfd, hf⟩
  have hpos : 0 < (l.fds f).card := Finset.card_pos.mpr ⟨fd, hmem⟩
  unfold Know.hasFile
  omega

theorem hasFile_of_two {fd fd' : Nat} (h : l.files f = -1) (hne : fd ≠ fd') (hlt : fd < NOFILE) (hlt' : fd' < NOFILE)
    (hf : l.fd fd = some (some f)) (hf' : l.fd fd' = some (some f)) : l.hasFile f := by
  have hsub : ({fd, fd'} : Finset Nat) ⊆ l.fds f := by
    intro x hx
    rcases Finset.mem_insert.mp hx with rfl | hx
    · exact Finset.mem_filter.mpr ⟨Finset.mem_range.mpr hlt, hf⟩
    · rw [Finset.mem_singleton.mp hx]
      exact Finset.mem_filter.mpr ⟨Finset.mem_range.mpr hlt', hf'⟩
  have hcard := Finset.card_le_card hsub
  rw [Finset.card_pair hne] at hcard
  unfold Know.hasFile
  omega

theorem wp_argfd {fd : Int} {f : Option Nat → Sys.Prog α} (hb : l.busy = true)
    (hnone : ∀ x, wp logic (f none) Q { l with fd := x })
    (hsome : ∀ g, fd.toNat < NOFILE → wp logic (f (some g)) Q { l with fd := update l.fd fd.toNat (some (some g)) }) :
    wp logic (tab (.argfd fd) >>= f) Q l := by
  refine wp_op ⟨hb, trivial⟩ fun r l1 h1 => ?_
  simp only [logic, tabPost] at h1
  split at h1
  · obtain ⟨rfl, rfl⟩ := h1
    exact hnone l1.fd
  · next hin =>
    subst h1
    cases r with
    | none => exact hnone _
    | some g => exact hsome g (by omega)

theorem wp_clearFd {fd : Nat} {k : Unit → Sys.Prog α} (hb : l.busy = true) (hlt : fd < NOFILE)
    (hf : l.fd fd = some (some f))
    (h : wp logic (k ()) Q { l with files := l.files + one f, fd := update l.fd fd (some none) }) :
    wp logic (tab (.clearFd fd) >>= k) Q l := by
  refine wp_op ⟨hb, hlt, f, hf⟩ fun _ l1 h1 => ?_
  obtain ⟨g, hg, rfl⟩ := h1
  rw [hf] at hg
  cases hg
  exact h

section
variable (hb : l.busy = true) (hs : l.Settled)
include hb hs

theorem wp_sysDup {fd : Int} : wp logic (sysDup fd) Ended l := by
  refine wp_argfd hb (fun x => hs.fd) fun f hfd => ?_
  refine wp_op ⟨hb, trivial⟩ fun r l1 h1 => ?_
  cases r with
  | none =>
    cases h1
    exact hs.fd
  | some fd' =>
    obtain ⟨hlt, hfree, rfl⟩ := h1
    have hne : fd.toNat ≠ fd' := by
      intro he
      refine hfree f ?_
      rw [← he]
      exact update_self ..
    refine wp_op ⟨hb, ?_⟩ fun _ l2 h2 => ?_
    · refine hasFile_of_two ?_ hne hfd hlt ?_ (update_self ..)
      · show (l.files - one f) f = -1
        simp [hs.files]
      · exact (update_of_ne hne _ _).trans (update_self ..)
    · subst h2
      exact ⟨hs.ino, by simp [hs.files], hs.ends, hs.new, hs.kid⟩

theorem wp_sysClose {fd : Int} : wp logic (sysClose fd) Ended l := by
  refine wp_argfd hb (fun x => hs.fd) fun f hfd => ?_
  refine wp_clearFd hb hfd (update_self ..) ?_
  refine wp_call (wp_fileclose hb ⟨hs.pos.ino, hs.pos.ends⟩ hs.few (hasFile_of_files ?_)) fun _ l2 h2 => ?_
  · show 0 < (l.files + one f) f
    simp [hs.files]
  · subst h2
    exact ⟨hs.ino, by simp [Know.closed, hs.files], hs.ends, fun g hg => hs.new g hg.1, hs.kid⟩

theorem wp_putEnd {r : Int} : wp logic (do iunlockput ip; endWith r) Ended (l.gain ip) :=
  wp_release (Or.inr rfl) hb hs.pos (wp_endWith hb hs)

theorem wp_looked {r : Int} {x : α → Nat} {m : Sys.Prog (Option α)} {f : Option α → Sys.Prog Int}
    (hm : wp logic m (fun r l' => ∃ l1, Looked l l1 ∧ l' = r.elim l1 fun a => l1.gain (x a)) l)
    (hn : f none = endWith r)
    (hf : ∀ a (l1 : Know), l1.busy = true → l1.Settled → wp logic (f (some a)) Ended (l1.gain (x a))) :
    wp logic (m >>= f) Ended l := by
  refine wp_option hm (fun l' h => ?_) fun a l' h => ?_
  · obtain ⟨l1, hl, rfl⟩ := h
    rw [hn]
    exact wp_endWith (hl.busy hb) (hl.settled hs)
  · obtain ⟨l1, hl, rfl⟩ := h
    exact hf a l1 (hl.busy hb) (hl.settled hs)

theorem wp_linkBad : wp logic (linkBad ip) Ended (l.gain ip) := by
  refine wp_keep hb rfl fun _ => ?_
  refine wp_keep hb rfl fun st => ?_
  refine wp_keep hb rfl fun _ => ?_
  exact wp_putEnd hb hs

theorem wp_sysLink {old new : Option Path} : wp logic (sysLink old new) Ended l := by
  unfold sysLink
  split
  · refine wp_beginOp hb (wp_looked hb hs (wp_namei hb hs.pos hs.few) rfl fun ip l1 hb1 hs1 => ?_)
    refine wp_keep hb1 rfl fun _ => ?_
    refine wp_keep hb1 rfl fun st => ?_
    split
    · exact wp_putEnd hb1 hs1
    · refine wp_keep hb1 rfl fun _ => ?_
      refine wp_keep hb1 rfl fun _ => ?_
      refine wp_call (wp_namex hb1 (hs1.pos.gain ip) (hs1.few.gain ip)) fun r l' h => ?_
      obtain ⟨l6, hl6, rfl⟩ := h
      obtain ⟨l7, hl7, rfl⟩ := hl6.of_gain
      have hb7 := hl7.busy hb1
      have hs7 := hl7.settled hs1
      cases r with
      | none => exact wp_linkBad hb7 hs7
      | some x =>
        refine wp_keep hb7 rfl fun _ => ?_
        refine wp_call (wp_dirlink hb7 ((hs7.pos.gain ip).gain x.1) ((hs7.few.gain ip).gain x.1)) fun ok l9 h9 => ?_
        subst h9
        cases ok with
        | true =>
          exact wp_release (Or.inr rfl) hb7 (hs7.pos.gain ip) (wp_release (Or.inl rfl) hb7 hs7.pos (wp_endWith hb7 hs7))
        | false => exact wp_release (Or.inr rfl) hb7 (hs7.pos.gain ip) (wp_linkBad hb7 hs7)
  · exact hs

theorem wp_unlinkEntry {off : Nat} {st : Stat} : wp logic (unlinkEntry dp ip off st) Ended ((l.gain dp).gain ip) := by
  refine wp_keep hb rfl fun ok => ?_
  cases ok with
  | false => exact wp_panic hb (by decide)
  | true =>
    have hrest : wp logic (do iunlockput dp; ino (.setLink ip (st.nlink - 1)); iunlockput ip; endWith (0 : Int)) Ended
        ((l.gain dp).gain ip) := by
      rw [gain_comm]
      refine wp_release (Or.inr rfl) hb (hs.pos.gain ip) (wp_keep hb rfl fun _ => ?_)
      exact wp_putEnd hb hs
    show wp logic (if st.type = T_DIR then _ else _) _ _
    split
    · refine wp_keep hb rfl fun sd => ?_
      refine wp_keep hb rfl fun _ => ?_
      exact hrest
    · exact hrest

theorem wp_sysUnlink : wp logic (sysUnlink path) Ended l := by
  cases path with
  | none => exact hs
  | some path =>
    refine wp_beginOp hb (wp_looked hb hs (wp_namex hb hs.pos hs.few) rfl fun x l1 hb1 hs1 => ?_)
    obtain ⟨dp, name⟩ := x
    refine wp_keep hb1 rfl fun _ => ?_
    split
    · exact wp_putEnd hb1 hs1
    · refine wp_op ⟨hb1, hs1.few.gain dp⟩ fun r l3 h3 => ?_
      subst h3
      cases r with
      | none => exact wp_putEnd hb1 hs1
      | some y =>
        obtain ⟨ip, off⟩ := y
        refine wp_keep hb1 rfl fun _ => ?_
        refine wp_keep hb1 rfl fun st => ?_
        show wp logic (if st.nlink < 1 then _ else _) _ _
        split
        · exact wp_panic hb1 (by decide)
        · show wp logic (if st.type = T_DIR then _ else _) _ _
          split
          · refine wp_keep hb1 rfl fun e => ?_
            cases e with
            | true => exact wp_unlinkEntry hb1 hs1
            | false => exact wp_release (Or.inr rfl) hb1 (hs1.pos.gain dp) (wp_putEnd hb1 hs1)
          · exact wp_unlinkEntry hb1 hs1

end

def Got (l : Know) (r : Option Nat) (l' : Know) : Prop := ∃ l1, Looked l l1 ∧ l' = r.elim l1 l1.gain

section
variable (hb : l.busy = true) (hs : l.Settled)
include hb hs

theorem wp_createFail : wp logic (createFail dp ip) (Got l) ((l.gain dp).gain ip) := by
  refine wp_keep hb rfl fun _ => ?_
  exact wp_release (Or.inr rfl) hb (hs.pos.gain dp) (wp_release (Or.inr rfl) hb hs.pos ⟨l, .refl l, rfl⟩)

theorem wp_createLink : wp logic (createLink dp name ip type) (Got l) ((l.gain dp).gain ip) := by
  refine wp_call (wp_dirlink hb ((hs.pos.gain dp).gain ip) ((hs.few.gain dp).gain ip)) fun ok l1 h1 => ?_
  subst h1
  have hrest : wp logic (do iunlockput dp; pure (some ip)) (Got l) ((l.gain dp).gain ip) := by
    rw [gain_comm]
    exact wp_release (Or.inr rfl) hb (hs.pos.gain ip) ⟨l, .refl l, rfl⟩
  cases ok with
  | false => exact wp_createFail hb hs
  | true =>
    show wp logic (if type = T_DIR then _ else _) _ _
    split
    · refine wp_keep hb rfl fun sd => ?_
      refine wp_keep hb rfl fun _ => ?_
      exact hrest
    · exact hrest

theorem wp_createNew : wp logic (createNew dp name ip type major minor) (Got l) ((l.gain dp).gain ip) := by
  have hp := (hs.pos.gain dp).gain ip
  have hf : Know.Few _ 2 := (hs.few.gain dp).gain ip
  refine wp_keep hb rfl fun _ => ?_
  refine wp_keep hb rfl fun _ => ?_
  show wp logic (if type = T_DIR then _ else _) _ _
  split
  · refine wp_call (wp_dirlink hb hp hf) fun ok l3 h3 => ?_
    subst h3
    cases ok with
    | false => exact wp_createFail hb hs
    | true =>
      refine wp_call (wp_dirlink hb hp hf) fun ok l4 h4 => ?_
      subst h4
      cases ok with
      | false => exact wp_createFail hb hs
      | true => exact wp_createLink hb hs
  · exact wp_createLink hb hs

theorem wp_create {path : Path} : wp logic (create path type major minor) (Got l) l := by
  refine wp_call (wp_namex hb hs.pos hs.few) fun r l' h => ?_
  obtain ⟨l1, hl, rfl⟩ := h
  have hb1 := hl.busy hb
  have hs1 := hl.settled hs
  cases r with
  | none => exact ⟨l1, hl, rfl⟩
  | some x =>
    obtain ⟨dp, name⟩ := x
    refine wp_keep hb1 rfl fun _ => ?_
    refine wp_op ⟨hb1, hs1.few.gain dp⟩ fun r l3 h3 => ?_
    subst h3
    cases r with
    | none =>
      refine wp_bind (wp_keep hb1 rfl fun r => ?_)
      cases r with
      | none => exact wp_release (Or.inr rfl) hb1 hs1.pos ⟨l1, hl, rfl⟩
      | some x =>
        refine wp_op ⟨hb1, hs1.few.gain dp⟩ fun ip l3 h3 => ?_
        subst h3
        show wp logic (createNew dp name ip type major minor) (Got l) ((l1.gain dp).gain ip)
        refine wp_mono (fun r l' h => ?_) _ _ (wp_createNew hb1 hs1)
        obtain ⟨l2, hl2, rfl⟩ := h
        obtain ⟨c, rfl⟩ := hl
        obtain ⟨c', rfl⟩ := hl2
        exact ⟨_, ⟨c', rfl⟩, rfl⟩
    | some y =>
      show wp logic (do iunlockput dp; _) _ ((l1.gain dp).gain y.1)
      rw [gain_comm]
      refine wp_release (Or.inr rfl) hb1 (hs1.pos.gain y.1) (wp_keep hb1 rfl fun _ => ?_)
      refine wp_keep hb1 rfl fun st => ?_
      split
      · exact ⟨l1, hl, rfl⟩
      · exact wp_release (Or.inr rfl) hb1 hs1.pos ⟨l1, hl, rfl⟩

theorem wp_openInode {path : Path} : wp logic (openInode path omode) (Got l) l := by
  unfold openInode
  split
  · exact wp_create hb hs
  · refine wp_call (wp_namei hb hs.pos hs.few) fun r l' h => ?_
    obtain ⟨l1, hl, rfl⟩ := h
    have hb1 := hl.busy hb
    cases r with
    | none => exact ⟨l1, hl, rfl⟩
    | some ip =>
      refine wp_keep hb1 rfl fun _ => ?_
      refine wp_keep hb1 rfl fun st => ?_
      split
      · exact wp_release (Or.inr rfl) hb1 (hl.settled hs).pos ⟨l1, hl, rfl⟩
      · exact ⟨l1, hl, rfl⟩

end

theorem wp_iputCwd (hb : l.busy = true) (hp : l.Pos)
    (h : ∀ cwd, wp logic (g ()) Q { l.lose cwd with cwd := some (some cwd) }) :
    wp logic (do let cwd ← tab .cwd; iput cwd; endOp; g ()) Q l := by
  refine wp_op ⟨hb, trivial⟩ fun cwd l1 h1 => ?_
  subst h1
  refine wp_call (wp_iput hb ?_) fun _ l2 h2 => ?_
  · have := hp.ino cwd
    show 0 < l.ino cwd + (if some (some cwd) = some (some cwd) then 1 else 0)
    rw [if_pos rfl]
    omega
  · subst h2
    exact wp_endOp hb (h cwd)

theorem wp_readAll (reads : List (Nat × Nat)) (hb : l.busy = true) :
    wp logic (readAll ip reads) (fun _ l' => l' = l) l := by
  induction reads with
  | nil => rfl
  | cons x reads ih =>
    refine wp_keep hb rfl fun _ => ?_
    exact ih

section
variable (hb : l.busy = true) (hs : l.Settled)
include hb hs

theorem wp_openFile : wp logic (openFile ip omode) Ended (l.gain ip) := by
  refine wp_keep hb rfl fun st => ?_
  split
  · exact wp_putEnd hb hs
  · refine wp_op ⟨hb, trivial⟩ fun r l2 h2 => ?_
    cases r with
    | none =>
      cases h2
      exact wp_putEnd hb hs
    | some f =>
      obtain ⟨_, rfl⟩ := h2
      refine wp_op ⟨hb, trivial⟩ fun r l3 h3 => ?_
      cases r with
      | none =>
        cases h3
        refine wp_call (wp_fileclose hb ⟨(hs.pos.gain ip).ino, hs.pos.ends⟩ (hs.few.gain ip)
          (hasFile_of_files ?_)) fun _ l4 h4 => ?_
        · show 0 < (l.files + one f) f
          simp [hs.files]
        · subst h4
          let l5 : Know := { l with files := l.files + one f - one f, new := fun g => (l.new g ∨ g = f) ∧ g ≠ f }
          have hs5 : l5.Settled :=
            ⟨hs.ino, by simp [l5, hs.files], hs.ends, fun g hg => hg.1.elim (hs.new g) hg.2, hs.kid⟩
          exact wp_putEnd (l := l5) hb hs5
      | some fd =>
        obtain ⟨_, _, rfl⟩ := h3
        refine wp_op ⟨hb, Or.inr rfl, ?_, ?_⟩ fun _ l4 h4 => ?_
        · split
          · exact Or.inr rfl
          · exact Or.inl rfl
        · show 0 < (l.ino + one ip) ip
          simp [hs.ino]
        · have hs4 : l4.Settled := by
            subst h4
            exact ⟨by simp [Know.gain, Know.lose, hs.ino], by simp [Know.gain, Know.lose, hs.files], hs.ends,
              fun g hg => hg.1.elim (hs.new g) hg.2, hs.kid⟩
          have hb4 : l4.busy = true := by
            subst h4
            exact hb
          have hend : wp logic (do ino (.iunlock ip); endWith (fd : Int)) Ended l4 :=
            wp_op ⟨hb4, trivial⟩ fun _ l5 h5 => by subst h5; exact wp_endWith hb4 hs4
          show wp logic (if omode &&& O_TRUNC ≠ 0 ∧ st.type = T_FILE then _ else _) _ _
          split
          · refine wp_keep hb4 rfl fun _ => ?_
            exact hend
          · exact hend

theorem wp_sysOpen : wp logic (sysOpen path omode) Ended l := by
  cases path with
  | none => exact hs
  | some path =>
    exact wp_beginOp hb (wp_looked hb hs (wp_openInode hb hs) rfl fun ip l1 hb1 hs1 => wp_openFile hb1 hs1)

theorem wp_sysCreate : wp logic (sysCreate path type major minor) Ended l := by
  refine wp_beginOp hb ?_
  cases path with
  | none => exact wp_endWith hb hs
  | some path => exact wp_looked hb hs (wp_create hb hs) rfl fun ip l1 hb1 hs1 => wp_putEnd hb1 hs1

theorem wp_sysChdir : wp logic (sysChdir path) Ended l := by
  refine wp_beginOp hb ?_
  cases path with
  | none => exact wp_endWith hb hs
  | some path =>
    refine wp_looked hb hs (wp_namei hb hs.pos hs.few) rfl fun ip l1 hb1 hs1 => ?_
    refine wp_keep hb1 rfl fun _ => ?_
    refine wp_keep hb1 rfl fun st => ?_
    split
    · exact wp_putEnd hb1 hs1
    · refine wp_keep hb1 rfl fun _ => ?_
      refine wp_iputCwd (l := l1.gain ip) (g := fun _ => do tab (.setCwd ip); pure 0) hb1 (hs1.pos.gain ip) fun cwd =>
        wp_op ⟨hb1, ⟨cwd, rfl⟩, (hs1.few.gain ip).lose cwd⟩ fun _ l5 h5 => ?_
      obtain ⟨old, hold, rfl⟩ := h5
      cases hold
      refine ⟨?_, hs1.files, hs1.ends, hs1.new, hs1.kid⟩
      show l1.ino + one ip - one cwd + one cwd - one ip = 0
      simp [hs1.ino]

theorem wp_sysExec {reads : List (Nat × Nat)} : wp logic (sysExec path reads) Ended l := by
  cases path with
  | none => exact hs
  | some path =>
    refine wp_beginOp hb (wp_looked hb hs (wp_namei hb hs.pos hs.few) rfl fun ip l1 hb1 hs1 => ?_)
    refine wp_keep hb1 rfl fun _ => ?_
    refine wp_call (wp_readAll reads hb1) fun _ l3 h3 => ?_
    subst h3
    exact wp_putEnd hb1 hs1

end

/-! ## `kernel/pipe.c` -/

/-- With one reference to each of two files. -/
def Know.both (l : Know) (rf wf : Nat) : Know := { l with files := l.files + one rf + one wf }

theorem wp_closeBoth {rf wf : Nat} {r : α} (hb : l.busy = true)
    (hs : Know.Settled { l with new := fun _ => False }) (hnew : ∀ g, l.new g → g = rf ∨ g = wf)
    (hQ : ∀ l' : Know, l'.busy = true → l'.Settled → Q r l') :
    wp logic (do fileclose rf; fileclose wf; pure r) Q (l.both rf wf) := by
  have hfiles : l.files = 0 := hs.files
  have hp : (l.both rf wf).Pos := ⟨hs.pos.ino, hs.pos.ends⟩
  refine wp_call (wp_fileclose hb hp hs.few (hasFile_of_files ?_)) fun _ l1 h1 => ?_
  · show 0 < (l.files + one rf + one wf) rf
    have := one_nonneg wf rf
    simp only [hfiles, Pi.add_apply, one_self, Pi.zero_apply]
    omega
  · subst h1
    refine wp_call (wp_fileclose hb ⟨hp.ino, hp.ends⟩ hs.few (hasFile_of_files ?_)) fun _ l2 h2 => ?_
    · show 0 < (l.files + one rf + one wf - one rf) wf
      rw [add_right_comm, add_sub_cancel_right]
      simp [hfiles]
    · subst h2
      refine hQ _ hb ⟨hs.ino, ?_, hs.ends, ?_, hs.kid⟩
      · show l.files + one rf + one wf - one rf - one wf = 0
        rw [hfiles]
        abel
      · rintro g ⟨⟨hg, h0⟩, h1⟩
        exact (hnew g hg).elim h0 h1

theorem wp_pipealloc (hb : l.busy = true) (hs : l.Settled) : wp logic pipealloc (fun r l' =>
    ∃ l1 : Know, l1.busy = true ∧ l1.Settled ∧ l' = r.elim l1 fun x => l1.both x.1 x.2) l := by
  refine wp_op ⟨hb, trivial⟩ fun r l1 h1 => ?_
  cases r with
  | none =>
    cases h1
    exact ⟨l, hb, hs, rfl⟩
  | some f0 =>
    obtain ⟨_, rfl⟩ := h1
    refine wp_op ⟨hb, trivial⟩ fun r l2 h2 => ?_
    cases r with
    | none =>
      cases h2
      refine wp_call (wp_fileclose hb ⟨hs.pos.ino, hs.pos.ends⟩ hs.few (hasFile_of_files ?_)) fun _ l3 h3 => ?_
      · show 0 < (l.files + one f0) f0
        simp [hs.files]
      · subst h3
        refine ⟨_, ?_, ?_, rfl⟩
        · exact hb
        · refine ⟨hs.ino, ?_, hs.ends, ?_, hs.kid⟩
          · show l.files + one f0 - one f0 = 0
            simp [hs.files]
          · rintro g ⟨hg, h0⟩
            exact hg.elim (hs.new g) h0
    | some f1 =>
      obtain ⟨hne, rfl⟩ := h2
      have hne : f1 ≠ f0 := fun he => hne (Or.inr he)
      have hnew : ∀ g, (l.new g ∨ g = f0) ∨ g = f1 → g = f0 ∨ g = f1 := by
        rintro g ((hg | hg) | hg)
        · exact absurd hg (hs.new g)
        · exact Or.inl hg
        · exact Or.inr hg
      refine wp_op ⟨hb, trivial⟩ fun r l3 h3 => ?_
      subst h3
      cases r with
      | none =>
        exact wp_closeBoth (l := { l with new := fun g => (l.new g ∨ g = f0) ∨ g = f1 }) hb
          ⟨hs.ino, hs.files, hs.ends, fun _ h => h, hs.kid⟩ hnew fun l' hb' hs' => ⟨l', hb', hs', rfl⟩
      | some pi =>
        refine wp_op ⟨hb, Or.inl (Or.inr rfl), ?_⟩ fun _ l4 h4 => ?_
        · show 0 < (l.ends + one (pi, false) + one (pi, true)) (pi, false)
          have := one_nonneg (pi, true) (pi, false)
          simp only [hs.ends, Pi.add_apply, one_self, Pi.zero_apply]
          omega
        · subst h4
          refine wp_op ⟨hb, ⟨Or.inr rfl, hne⟩, ?_⟩ fun _ l5 h5 => ?_
          · show 0 < (l.ends + one (pi, false) + one (pi, true) - one (pi, false)) (pi, true)
            rw [add_right_comm, add_sub_cancel_right]
            simp [hs.ends]
          · subst h5
            refine ⟨{ l with
              ends := l.ends + one (pi, false) + one (pi, true) - one (pi, false) - one (pi, true)
              new := fun g => (((l.new g ∨ g = f0) ∨ g = f1) ∧ g ≠ f0) ∧ g ≠ f1 }, hb, ⟨hs.ino, hs.files, ?_,
                ?_, hs.kid⟩, rfl⟩
            · show l.ends + one (pi, false) + one (pi, true) - one (pi, false) - one (pi, true) = 0
              rw [hs.ends]
              abel
            · rintro g ⟨⟨hg, h0⟩, h1⟩
              exact (hnew g hg).elim h0 h1

theorem wp_sysPipe (hb : l.busy = true) (hs : l.Settled) : wp logic (sysPipe ok) Ended l := by
  -- the end of every failure
  have hbad : ∀ (rf wf : Nat) (l : Know), l.busy = true → l.Settled →
      wp logic (do fileclose rf; fileclose wf; pure (-1 : Int)) Ended (l.both rf wf) :=
    fun rf wf l hb hs => wp_closeBoth hb ⟨hs.ino, hs.files, hs.ends, fun _ h => h, hs.kid⟩
      (fun g hg => absurd hg (hs.new g)) fun l' _ hs' => hs'
  refine wp_call (wp_pipealloc hb hs) fun r l' h => ?_
  obtain ⟨l1, hb1, hs1, rfl⟩ := h
  cases r with
  | none => exact hs1
  | some x =>
    obtain ⟨rf, wf⟩ := x
    refine wp_op ⟨hb1, trivial⟩ fun r l2 h2 => ?_
    cases r with
    | none =>
      cases h2
      exact hbad rf wf l1 hb1 hs1
    | some fd0 =>
      obtain ⟨hlt0, _, rfl⟩ := h2
      refine wp_op ⟨hb1, trivial⟩ fun r l3 h3 => ?_
      cases r with
      | none =>
        cases h3
        refine wp_clearFd hb1 hlt0 (update_self ..) ?_
        have := hbad rf wf { l1 with fd := update (update l1.fd fd0 (some (some rf))) fd0 (some none) } hb1 hs1.fd
        simpa [Know.both] using this
      | some fd1 =>
        obtain ⟨hlt1, hfree, rfl⟩ := h3
        have hne : fd1 ≠ fd0 := by
          rintro rfl
          exact hfree rf (update_self ..)
        cases ok with
        | true =>
          refine ⟨hs1.ino, ?_, hs1.ends, hs1.new, hs1.kid⟩
          show l1.files + one rf + one wf - one rf - one wf = 0
          rw [hs1.files]
          abel
        | false =>
          refine wp_clearFd hb1 hlt0 ((update_of_ne hne.symm _ _).trans (update_self ..)) ?_
          refine wp_clearFd hb1 hlt1 ((update_of_ne hne _ _).trans (update_self ..)) ?_
          have h := hbad rf wf { l1 with fd := update (update (update (update l1.fd
            fd0 (some (some rf))) fd1 (some (some wf))) fd0 (some none)) fd1 (some none) } hb1 hs1.fd
          have he : l1.files + one rf + one wf - one rf - one wf + one rf + one wf =
            l1.files + one rf + one wf := by abel
          simpa [Know.both, he] using h

/-! ## `kernel/proc.c` -/

/-- While `fork` sets up `np`. -/
structure Know.Forking (l : Know) (np : Nat) : Prop where
  busy : l.busy = true
  ino : l.ino = 0
  files : l.files = 0
  ends : l.ends = 0
  new : ∀ f, ¬ l.new f
  kid : l.kid = some np
  cwd : ¬ l.kidCwd

theorem wp_forkFiles {np : Nat} (fds : List Nat) : ∀ l : Know, l.Forking np → fds.Nodup →
    (∀ fd ∈ fds, fd < NOFILE ∧ ¬ l.kidFd fd) → wp logic (forkFiles np fds) (fun _ l' => l'.Forking np) l := by
  induction fds with
  | nil => exact fun l h _ _ => h
  | cons fd fds ih =>
    intro l h hnd hfds
    obtain ⟨hfd, hnd⟩ := List.nodup_cons.mp hnd
    obtain ⟨hlt, hkid⟩ := hfds fd List.mem_cons_self
    refine wp_argfd h.busy (fun x => ?_) fun f _ => ?_
    · exact ih { l with fd := x } ⟨h.busy, h.ino, h.files, h.ends, h.new, h.kid, h.cwd⟩ hnd fun fd' hm =>
        hfds fd' (List.mem_cons_of_mem _ hm)
    · have hto : ((fd : Int)).toNat = fd := Int.toNat_natCast fd
      rw [hto]
      refine wp_op ⟨h.busy, hasFile_of_fd ?_ hlt (update_self ..)⟩ fun _ l1 h1 => ?_
      · show 0 ≤ l.files f
        rw [h.files]
        exact le_refl _
      · subst h1
        refine wp_op ⟨h.busy, h.kid, hkid, hlt, ?_, h.new f⟩ fun _ l2 h2 => ?_
        · show 0 < (l.files + one f) f
          simp [h.files]
        · subst h2
          refine ih _ ⟨h.busy, h.ino, ?_, h.ends, h.new, h.kid, h.cwd⟩ hnd fun fd' hm => ?_
          · show l.files + one f - one f = 0
            simp [h.files]
          · refine ⟨(hfds fd' (List.mem_cons_of_mem _ hm)).1, ?_⟩
            rintro (hc | rfl)
            · exact (hfds fd' (List.mem_cons_of_mem _ hm)).2 hc
            · exact hfd hm

theorem wp_sysFork (hb : l.busy = true) (hs : l.Settled) : wp logic (sysFork ok) Ended l := by
  refine wp_op ⟨hb, hs.kid⟩ fun r l1 h1 => ?_
  subst h1
  cases r with
  | none => exact hs
  | some np =>
    cases ok with
    | false =>
      refine wp_op ⟨hb, rfl, fun _ h => h, fun h => h⟩ fun _ l2 h2 => ?_
      subst h2
      exact ⟨hs.ino, hs.files, hs.ends, hs.new, rfl⟩
    | true =>
      refine wp_call (wp_forkFiles (List.range NOFILE) _ ⟨hb, hs.ino, hs.files, hs.ends, hs.new, rfl, fun h => h⟩
        List.nodup_range fun fd hfd => ⟨List.mem_range.mp hfd, fun h => h⟩) fun _ l2 h2 => ?_
      refine wp_op ⟨h2.busy, trivial⟩ fun cwd l3 h3 => ?_
      subst h3
      refine wp_op ⟨h2.busy, ?_, 0, Nat.zero_le _,
        fun i => by rw [h2.ino]; exact Int.natCast_nonneg _⟩ fun h l4 h4 => ?_
      · show 0 < l2.ino cwd + (if some (some cwd) = some (some cwd) then 1 else 0)
        rw [h2.ino, if_pos rfl]
        exact Int.one_pos
      · obtain ⟨rfl, rfl⟩ := h4
        refine wp_op ⟨h2.busy, h2.kid, h2.cwd, ?_⟩ fun _ l5 h5 => ?_
        · show 0 < (l2.ino + one h) h
          simp [h2.ino]
        · subst h5
          refine wp_op ⟨h2.busy, h2.kid⟩ fun _ l6 h6 => ?_
          subst h6
          refine ⟨?_, h2.files, h2.ends, h2.new, rfl⟩
          show l2.ino + one h - one h = 0
          simp [h2.ino]

theorem wp_exitFiles (fds : List Nat) : ∀ l : Know, l.busy = true → l.Settled → (∀ fd ∈ fds, fd < NOFILE) →
    wp logic (exitFiles fds) (fun _ l' => l'.busy = true ∧ l'.Settled ∧
      ∀ fd, l.fd fd = some none ∨ fd ∈ fds → l'.fd fd = some none) l := by
  induction fds with
  | nil => exact fun l hb hs _ => ⟨hb, hs, fun fd h => h.resolve_right List.not_mem_nil⟩
  | cons fd fds ih =>
    intro l hb hs hfds
    have hlt := hfds fd List.mem_cons_self
    have hto : ((fd : Int)).toNat = fd := Int.toNat_natCast fd
    -- the rest of the loop, when `fd` is known to be closed
    have hrest : ∀ l1 : Know, l1.busy = true → l1.Settled → l1.fd = update l.fd fd (some none) →
        wp logic (exitFiles fds) (fun _ l' => l'.busy = true ∧ l'.Settled ∧
          ∀ x, l.fd x = some none ∨ x ∈ fd :: fds → l'.fd x = some none) l1 := by
      intro l1 hb1 hs1 hfd1
      refine wp_mono (fun _ l' h => ⟨h.1, h.2.1, fun x hx => h.2.2 x ?_⟩) _ _
        (ih l1 hb1 hs1 fun fd' hm => hfds fd' (List.mem_cons_of_mem _ hm))
      rw [hfd1]
      by_cases hxf : x = fd
      · subst hxf
        exact Or.inl (update_self ..)
      · rw [update_of_ne hxf]
        exact hx.imp_right fun hm => (List.mem_cons.mp hm).resolve_left hxf
    refine wp_op ⟨hb, trivial⟩ fun r l1 h1 => ?_
    simp only [logic, tabPost] at h1
    rw [if_neg (by omega), hto] at h1
    subst h1
    cases r with
    | none => exact hrest _ hb hs.fd rfl
    | some f =>
      refine wp_call (wp_fileclose hb ⟨hs.pos.ino, hs.pos.ends⟩ hs.few (hasFile_of_fd ?_ hlt (update_self ..)))
        fun _ l2 h2 => ?_
      · show 0 ≤ l.files f
        rw [hs.files]
        exact le_refl _
      · subst h2
        refine wp_clearFd hb hlt (update_self ..) (hrest _ hb ?_ (update_idem ..))
        refine ⟨hs.ino, ?_, hs.ends, fun g hg => hs.new g hg.1, hs.kid⟩
        show l.files - one f + one f = 0
        simp [hs.files]

theorem wp_sysExit (hb : l.busy = true) (hs : l.Settled) : wp logic sysExit Ended l := by
  refine wp_keep hb rfl fun _ => ?_
  refine wp_call (wp_exitFiles _ l hb hs fun fd hfd => List.mem_range.mp hfd) fun _ l2 h2 => ?_
  obtain ⟨hb2, hs2, hfds⟩ := h2
  refine wp_beginOp hb2 (wp_iputCwd (g := fun _ => do tab .clearCwd; tab .zombie; pure 0) hb2 hs2.pos fun cwd => ?_)
  refine wp_op ⟨hb2, ⟨cwd, rfl⟩, hs2.few.lose cwd⟩ fun _ l3 h3 => ?_
  obtain ⟨old, hold, rfl⟩ := h3
  cases hold
  refine wp_op ⟨hb2, ⟨?_, hs2.files, hs2.ends, hs2.new, hs2.kid⟩, rfl, fun fd hfd => hfds fd
    (Or.inr (List.mem_range.mpr hfd))⟩
    fun _ l4 h4 => ?_
  · show l2.ino - one cwd + one cwd = 0
    simp [hs2.ino]
  · subst h4
    exact ⟨rfl, rfl, rfl, fun _ h => h, rfl⟩

theorem wp_code (c : Sys.Call) : wp logic c.code Ended Know.start := by
  have hb : Know.start.busy = true := rfl
  have hs := start_settled
  cases c with
  | dup fd => exact wp_sysDup hb hs
  | read fd n fail dev =>
    exact wp_argfd hb (fun x => hs.fd) fun f _ => wp_mono (fun _ _ h => h ▸ hs.fd) _ _ (wp_fileread hb)
  | write fd src n fail dev =>
    exact wp_argfd hb (fun x => hs.fd) fun f _ => wp_mono (fun _ _ h => h ▸ hs.fd) _ _ (wp_filewrite hb)
  | close fd => exact wp_sysClose hb hs
  | fstat fd ok =>
    exact wp_argfd hb (fun x => hs.fd) fun f _ => wp_mono (fun _ _ h => h ▸ hs.fd) _ _ (wp_filestat hb)
  | link old new => exact wp_sysLink hb hs
  | unlink path => exact wp_sysUnlink hb hs
  | openFile path omode => exact wp_sysOpen hb hs
  | mkdir path => exact wp_sysCreate hb hs
  | mknod path major minor => exact wp_sysCreate hb hs
  | chdir path => exact wp_sysChdir hb hs
  | exec path reads => exact wp_sysExec hb hs
  | pipe ok => exact wp_sysPipe hb hs
  | fork ok => exact wp_sysFork hb hs
  | exit => exact wp_sysExit hb hs
  | wait =>
    refine wp_keep hb rfl fun q => ?_
    cases q <;> exact hs

end

end Xv6.Fs.Refs
