import Xv6.Lib.Threads
import Xv6.Param

/-!
# The operations of file-system system calls

The steps that `kernel/fs.c`, `kernel/file.c` and `kernel/sysfile.c` are made
of, as operations that processes interleave: on the inode layer (`InoOp`), on the
file table, the process table and the pipes (`TabOp`), and on the log (`LogOp`).
A step is a critical section, or what a process does to an inode whose sleep-lock
it holds.  `iput` is up to three steps and `ialloc` two.

The tables and the pipes are modelled here.  The inode layer and the log are left
open; an inode pointer is a number, a handle.
-/

namespace Xv6.Fs

open Function

/-- A path element: at most `DIRSIZ` bytes, none of them 0. -/
abbrev Name := List UInt8

abbrev Path := List UInt8

def DIRSIZ : Nat := 14

def T_DIR : Nat := 1

def T_FILE : Nat := 2

def T_DEVICE : Nat := 3

def O_RDONLY : Nat := 0

def O_WRONLY : Nat := 1

def O_RDWR : Nat := 2

def O_CREATE : Nat := 512

def O_TRUNC : Nat := 1024

structure Dirent where
  inum : Nat
  name : Name
  deriving DecidableEq

def dot : Name := [46]

def dotdot : Name := [46, 46]

/-- The value a C `short` has after `n` is stored in it. -/
def toShort (n : Int) : Int := (n + 32768) % 65536 - 32768

namespace Sys

inductive Panic
  | igetNoInodes       -- "iget: no inodes"
  | ilockNoType        -- "ilock: no type"
  | dirlookupNotDir    -- "dirlookup not DIR"
  | dirRead            -- "dirlookup read", "dirlink read", "isdirempty: readi"
  | unlinkNlink        -- "unlink: nlink < 1"
  | unlinkWritei       -- "unlink: writei"
  | freeingFreeBlock   -- "freeing free block"
  | bmapOutOfRange     -- "bmap: out of range"
  | fileread           -- "fileread"
  | filewrite          -- "filewrite"
  | filedup            -- "filedup"
  | fileclose          -- "fileclose"
  | initExiting        -- "init exiting"
  | ilock              -- "ilock"
  | iunlock            -- "iunlock"
  | schedLocks         -- "sched locks"
  /-- A null pointer is followed. -/
  | nullPointer
  /-- A pipe is used whose page is free. -/
  | freedPipe
  deriving DecidableEq

/-! ## The file table and the process table -/

inductive FdType
  | none
  | pipe
  | inode
  | device
  deriving DecidableEq

/-- `struct file`; `pipe` is a page, and `ip` a handle of the inode layer. -/
structure File where
  ref : Int
  type : FdType
  readable : Bool
  writable : Bool
  pipe : Nat
  ip : Nat
  off : Nat
  major : Int

/-- The fields of `struct pipe` that say which ends are open. -/
structure Pipe where
  readopen : Bool
  writeopen : Bool

inductive ProcState
  | unused
  | used
  | running
  | zombie
  deriving DecidableEq

/-- The fields of `struct proc` that matter here. -/
structure Proc where
  state : ProcState
  ofile : Nat → Option Nat
  cwd : Option Nat

structure Tables where
  file : Nat → File
  proc : Nat → Proc
  /-- The pages that are in use as pipes. -/
  pipe : Nat → Option Pipe

inductive TabOp : Type → Type
  | cwd : TabOp Nat
  | setCwd (h : Nat) : TabOp Unit
  | clearCwd : TabOp Unit
  | argfd (fd : Int) : TabOp (Option Nat)
  | clearFd (fd : Nat) : TabOp Unit
  | fdalloc (f : Nat) : TabOp (Option Nat)
  | filealloc : TabOp (Option Nat)
  | file (f : Nat) : TabOp File
  | setFile (f : Nat) (type : FdType) (readable writable : Bool) (ip off : Nat) (major : Int) : TabOp Unit
  | setOff (f off : Nat) : TabOp Unit
  | filedup (f : Nat) : TabOp Unit
  /-- The critical section of `fileclose`: the file, if this was its last reference. -/
  | closeRef (f : Nat) : TabOp (Option File)
  /-- The `kalloc` of `pipealloc`, and the stores into the pipe. -/
  | newPipe : TabOp (Option Nat)
  | setPipe (f pi : Nat) (writable : Bool) : TabOp Unit
  | pipeclose (pi : Nat) (writable : Bool) : TabOp Unit
  | allocproc : TabOp (Option Nat)
  | freeproc (np : Nat) : TabOp Unit
  | copyFd (np fd f : Nat) : TabOp Unit
  | copyCwd (np h : Nat) : TabOp Unit
  | runnable (np : Nat) : TabOp Unit
  /-- The check at the start of `exit`. -/
  | exiting : TabOp Unit
  | zombie : TabOp Unit
  /-- `wait` frees a zombie child. -/
  | reap : TabOp (Option Nat)

def Tables.setProc (t : Tables) (p : Nat) (x : Proc) : Tables := { t with proc := update t.proc p x }

def Tables.setFile (t : Tables) (f : Nat) (x : File) : Tables := { t with file := update t.file f x }

def Tables.setPipe (t : Tables) (pi : Nat) (x : Option Pipe) : Tables := { t with pipe := update t.pipe pi x }

/-- `pipeclose` on the pipe: `none` when both ends are closed, and the page is freed. -/
def Pipe.close (x : Pipe) (writable : Bool) : Option Pipe :=
  let y : Pipe := if writable then { x with writeopen := false } else { x with readopen := false }
  if y.readopen ∨ y.writeopen then some y else none

def Proc.setFd (x : Proc) (fd : Nat) (v : Option Nat) : Proc := { x with ofile := update x.ofile fd v }

/-- A step of process `p` on the tables.  `initproc` is process 0.  The process
that `wait` frees is the choice `c`; whose child it is does not matter here.  So
is the page that `kalloc` returns, 0 if there is none. -/
def TabOp.exec {β : Type} (o : TabOp β) (p c : Nat) (t : Tables) : Except Panic (β × Tables) :=
  match o with
  | .cwd =>
    match (t.proc p).cwd with
    | some h => .ok (h, t)
    | none => .error .nullPointer
  | .setCwd h => .ok ((), t.setProc p { t.proc p with cwd := some h })
  | .clearCwd => .ok ((), t.setProc p { t.proc p with cwd := none })
  | .argfd fd =>
    if fd < 0 ∨ (NOFILE : Int) ≤ fd then .ok (none, t) else .ok ((t.proc p).ofile fd.toNat, t)
  | .clearFd fd => .ok ((), t.setProc p ((t.proc p).setFd fd none))
  | .fdalloc f =>
    match (List.range NOFILE).find? fun fd => ((t.proc p).ofile fd).isNone with
    | some fd => .ok (some fd, t.setProc p ((t.proc p).setFd fd (some f)))
    | none => .ok (none, t)
  | .filealloc =>
    match (List.range NFILE).find? fun f => (t.file f).ref = 0 with
    | some f => .ok (some f, t.setFile f { t.file f with ref := 1 })
    | none => .ok (none, t)
  | .file f => .ok (t.file f, t)
  | .setFile f ty r w ip off major =>
    .ok ((), t.setFile f
      { t.file f with type := ty, readable := r, writable := w, ip := ip, off := off, major := major })
  | .setOff f off => .ok ((), t.setFile f { t.file f with off := off })
  | .filedup f =>
    if (t.file f).ref < 1 then .error .filedup
    else .ok ((), t.setFile f { t.file f with ref := (t.file f).ref + 1 })
  | .closeRef f =>
    if (t.file f).ref < 1 then .error .fileclose
    else if 0 < (t.file f).ref - 1 then .ok (none, t.setFile f { t.file f with ref := (t.file f).ref - 1 })
    else .ok (some (t.file f), t.setFile f { t.file f with ref := 0, type := .none })
  | .newPipe =>
    if c = 0 ∨ (t.pipe c).isSome then .ok (none, t) else .ok (some c, t.setPipe c (some ⟨true, true⟩))
  | .setPipe f pi w =>
    .ok ((), t.setFile f { t.file f with type := .pipe, readable := !w, writable := w, pipe := pi })
  | .pipeclose pi w =>
    match t.pipe pi with
    | none => .error .freedPipe
    | some x => .ok ((), t.setPipe pi (x.close w))
  | .allocproc =>
    match (List.range NPROC).find? fun q => (t.proc q).state = .unused with
    | some q => .ok (some q, t.setProc q { t.proc q with state := .used })
    | none => .ok (none, t)
  | .freeproc q => .ok ((), t.setProc q { t.proc q with state := .unused })
  | .copyFd q fd f => .ok ((), t.setProc q ((t.proc q).setFd fd (some f)))
  | .copyCwd q h => .ok ((), t.setProc q { t.proc q with cwd := some h })
  | .runnable q => .ok ((), t.setProc q { t.proc q with state := .running })
  | .exiting => if p = 0 then .error .initExiting else .ok ((), t)
  | .zombie => .ok ((), t.setProc p { t.proc p with state := .zombie })
  | .reap =>
    if (t.proc c).state = .zombie then .ok (some c, t.setProc c { t.proc c with state := .unused })
    else .ok (none, t)

/-! ## The inode layer -/

/-- What a process that holds the lock of an inode reads of it. -/
structure Stat where
  inum : Nat
  type : Nat
  nlink : Int
  major : Int

inductive InoOp : Type → Type
  /-- `iget(ROOTDEV, ROOTINO)`. -/
  | root : InoOp Nat
  | idup (h : Nat) : InoOp Nat
  | ilock (h : Nat) : InoOp Unit
  | iunlock (h : Nat) : InoOp Unit
  /-- The first critical section of `iput`: whether the inode is to be freed. -/
  | iput (h : Nat) : InoOp Bool
  | iputFree (h : Nat) : InoOp Unit
  | iputLast (h : Nat) : InoOp Unit
  /-- The loop of `ialloc`, up to the inode that it marks; what it returns is for
  `ialloced`. -/
  | ialloc (type : Nat) : InoOp (Option Nat)
  /-- The `iget` at the end of `ialloc`. -/
  | ialloced (h : Nat) : InoOp Nat
  | stat (h : Nat) : InoOp Stat
  /-- `dirlookup`: the inode, and the offset of its entry. -/
  | dirlookup (h : Nat) (name : Name) : InoOp (Option (Nat × Nat))
  /-- The loop of `dirlink` that looks for an empty entry. -/
  | emptySlot (h : Nat) : InoOp Nat
  /-- `writei` of an entry that names the inode of `target`. -/
  | link (h off : Nat) (name : Name) (target : Nat) : InoOp Bool
  /-- `writei` of an empty entry. -/
  | clear (h off : Nat) : InoOp Bool
  | isdirempty (h : Nat) : InoOp Bool
  /-- Set `major`, `minor` and `nlink`, and `iupdate`. -/
  | setInode (h : Nat) (major minor nlink : Int) : InoOp Unit
  /-- Set `nlink`, and `iupdate`. -/
  | setLink (h : Nat) (nlink : Int) : InoOp Unit
  | itrunc (h : Nat) : InoOp Unit
  /-- `readi` to user memory. -/
  | readi (h off n : Nat) (fail : Nat → Bool) : InoOp Int
  /-- `writei` from user memory. -/
  | writei (h : Nat) (src : Nat → UInt8) (off n : Nat) (fail : Nat → Option Nat) : InoOp Int

inductive LogOp : Type → Type
  | beginOp : LogOp Unit
  | endOp : LogOp Unit

inductive Op (β : Type)
  | ino (o : InoOp β)
  | tab (o : TabOp β)
  | log (o : LogOp β)
  | panic (m : Panic)

abbrev Prog := Threads.Prog Op

end Sys

end Xv6.Fs
