import Xv6.Fs.BlockSys

/-!
# The file system under any interleaving

The operations of `Xv6.Fs.Ops` on the inode table as the kernel has it, an array
of `NINODE` entries; an inode pointer is the number of an entry.  What the disk
holds, `dinode`, `readi`, `writei` and the others read and write as before.

Any number of system calls of `Xv6.Fs.Syscalls` run at the same time, operation by
operation.
-/

namespace Xv6.Fs.Slots

open Sys (InoOp TabOp LogOp Op Panic Tables)
open Threads (Outcome)
open BlockSys (shortBits newInode freeInode)

def ROOTDEV : Nat := 1

/-- `struct inode`: `mem` are the fields that are copied from the disk, `lock` is the
process that holds the sleep-lock. -/
structure Slot where
  dev : Nat
  inum : Nat
  ref : Int
  valid : Bool
  lock : Option Nat
  mem : Inode

structure St where
  disk : Disk
  /-- `itable.inode`. -/
  slot : Nat → Slot
  tab : Tables
  panic : Option Panic

def St.stop {β : Type} (s : St) (m : Panic) : Outcome St β := .halt { s with panic := some m }

def St.set (s : St) (i : Nat) (x : Slot) : St := { s with slot := Function.update s.slot i x }

def St.setRef (s : St) (i : Nat) (n : Int) : St := s.set i { s.slot i with ref := n }

/-- The entry that `iget` finds for an inode. -/
def St.find (s : St) (dev inum : Nat) : Option Nat :=
  (List.range NINODE).find? fun i => 0 < (s.slot i).ref ∧ (s.slot i).dev = dev ∧ (s.slot i).inum = inum

/-- The first entry that is not in use. -/
def St.empty (s : St) : Option Nat := (List.range NINODE).find? fun i => (s.slot i).ref = 0

/-- `iget`, and what is done with its result. -/
def St.iget {β : Type} (s : St) (dev inum : Nat) (k : Nat → β) : Outcome St β :=
  match s.find dev inum with
  | some i => .done (k i) (s.setRef i ((s.slot i).ref + 1))
  | none =>
    match s.empty with
    | some i => .done (k i) (s.set i { s.slot i with dev := dev, inum := inum, ref := 1, valid := false })
    | none => s.stop .igetNoInodes

section
variable (sb : Super)

/-- The disk and the copy in memory after an operation on an inode. -/
def St.store (s : St) (h : Nat) (disk : Disk) (ip : Inode) : St :=
  { s with disk := disk, slot := Function.update s.slot h { s.slot h with mem := ip } }

/-- Change the inode in memory, and `iupdate`. -/
def St.iupdate (s : St) (h : Nat) (ip : Inode) : St := s.store h (putDinode sb s.disk (s.slot h).inum ip) ip

/-- `ilock` once it has the sleep-lock. -/
def St.ilocked (s : St) (h p : Nat) : Outcome St Unit :=
  if (s.slot h).valid then .done () (s.set h { s.slot h with lock := some p })
  else
    let ip := dinode sb s.disk (s.slot h).inum
    if ip.type = 0 then s.stop .ilockNoType
    else .done () (s.set h { s.slot h with lock := some p, valid := true, mem := ip })

/-- A step of process `p` on the inode layer.  `ialloc` passes on the number of the
inode it has marked. -/
def inoExec {β : Type} (o : InoOp β) (p : Nat) (s : St) : Outcome St β :=
  match o with
  | .root => s.iget ROOTDEV ROOTINO id
  | .idup h => .done h (s.setRef h ((s.slot h).ref + 1))
  | .ilock h =>
    if (s.slot h).ref < 1 then s.stop .ilock
    else if (s.slot h).lock = none then s.ilocked sb h p
    else .wait
  | .iunlock h =>
    if (s.slot h).lock ≠ some p ∨ (s.slot h).ref < 1 then s.stop .iunlock
    else .done () (s.set h { s.slot h with lock := none })
  | .iput h =>
    if (s.slot h).ref = 1 ∧ (s.slot h).valid ∧ (s.slot h).mem.nlink = 0 then
      -- `acquiresleep` with `itable.lock` held
      if (s.slot h).lock = none then .done true (s.set h { s.slot h with lock := some p }) else s.stop .schedLocks
    else .done false (s.setRef h ((s.slot h).ref - 1))
  | .iputFree h =>
    match itrunc sb s.disk (s.slot h).inum (s.slot h).mem with
    | none => s.stop .freeingFreeBlock
    | some (disk, ip) =>
      .done ()
        { (s.set h { s.slot h with mem := { ip with type := 0 }, valid := false, lock := none }) with
          disk := putDinode sb disk (s.slot h).inum { ip with type := 0 } }
  | .iputLast h => .done () (s.setRef h ((s.slot h).ref - 1))
  | .ialloc type =>
    match freeInode sb s.disk with
    | none => .done none s
    | some i => .done (some i) { s with disk := putDinode sb s.disk i (newInode type) }
  | .ialloced i => s.iget ROOTDEV i id
  | .stat h =>
    .done ⟨(s.slot h).inum, (s.slot h).mem.type, toShort (s.slot h).mem.nlink, toShort (s.slot h).mem.major⟩ s
  | .dirlookup h name =>
    match dirlookup sb s.disk (s.slot h).mem name with
    | .error m => s.stop m
    | .ok (none, disk, ip) => .done none (s.store h disk ip)
    | .ok (some (inum, off), disk, ip) => (s.store h disk ip).iget (s.slot h).dev inum fun i => some (i, off)
  | .emptySlot h =>
    match emptySlot sb s.disk (s.slot h).mem with
    | .error m => s.stop m
    | .ok (off, disk, ip) => .done off (s.store h disk ip)
  | .link h off name target =>
    match writeDirent sb s.disk (s.slot h).inum (s.slot h).mem off ⟨(s.slot target).inum, name⟩ with
    | none => s.stop .bmapOutOfRange
    | some (ok, disk, ip) => .done ok (s.store h disk ip)
  | .clear h off =>
    match writeDirent sb s.disk (s.slot h).inum (s.slot h).mem off ⟨0, []⟩ with
    | none => s.stop .bmapOutOfRange
    | some (ok, disk, ip) => .done ok (s.store h disk ip)
  | .isdirempty h =>
    match isdirempty sb s.disk (s.slot h).mem with
    | .error m => s.stop m
    | .ok (empty, disk, ip) => .done empty (s.store h disk ip)
  | .setInode h major minor nlink =>
    .done () (s.iupdate sb h
      { (s.slot h).mem with major := shortBits major, minor := shortBits minor, nlink := shortBits nlink })
  | .setLink h nlink => .done () (s.iupdate sb h { (s.slot h).mem with nlink := shortBits nlink })
  | .itrunc h =>
    match itrunc sb s.disk (s.slot h).inum (s.slot h).mem with
    | none => s.stop .freeingFreeBlock
    | some (disk, ip) => .done () (s.store h disk ip)
  | .readi h off n fail =>
    match readi sb fail s.disk (s.slot h).mem off n with
    | none => s.stop .bmapOutOfRange
    | some (r, _, disk, ip) => .done r (s.store h disk ip)
  | .writei h src off n fail =>
    match writei sb src fail s.disk (s.slot h).inum (s.slot h).mem off n with
    | none => s.stop .bmapOutOfRange
    | some (r, disk, ip) => .done r (s.store h disk ip)

/-- The log is modelled on its own. -/
def logExec {β : Type} (o : LogOp β) (s : St) : Outcome St β :=
  match o with
  | .beginOp => .done () s
  | .endOp => .done () s

def exec {β : Type} (o : Op β) (p c : Nat) (s : St) : Outcome St β :=
  match o with
  | .ino o => inoExec sb o p s
  | .tab o =>
    match o.exec p c s.tab with
    | .ok (b, t) => .done b { s with tab := t }
    | .error m => s.stop m
  | .log o => logExec o s
  | .panic m => s.stop m

/-- Processes that run can make any system call. -/
def sys : Threads.System Op St Sys.Call Nat Int where
  exec o p c s := exec sb o p c s
  code := Sys.Call.code
  ready s p := (s.tab.proc p).state = .running

end

/-- After `userinit`: `initproc` runs in the root directory, and nothing is open. -/
structure Initial (s : Threads.St Op St Int) : Prop where
  slots : ∀ i, (s.shared.slot i).ref = if i = 0 then 1 else 0
  root : (s.shared.slot 0).dev = ROOTDEV ∧ (s.shared.slot 0).inum = ROOTINO
  files : ∀ f, (s.shared.tab.file f).ref = 0 ∧ (s.shared.tab.file f).type = .none
  init : s.shared.tab.proc 0 = ⟨.running, fun _ => none, some 0⟩
  procs : ∀ p, p ≠ 0 → s.shared.tab.proc p = ⟨.unused, fun _ => none, none⟩
  pipes : ∀ pi, s.shared.tab.pipe pi = none
  idle : ∀ p, s.prog p = none
  running : s.halted = false ∧ s.shared.panic = none

/-- The states that system calls lead to, whatever the disk holds. -/
def Reachable (sb : Super) (s : Threads.St Op St Int) : Prop :=
  Run.Reach (Threads.step (sys sb)) (fun _ _ => True) Initial s

end Xv6.Fs.Slots
