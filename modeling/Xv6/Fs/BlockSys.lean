import Xv6.Fs.Dir
import Xv6.Fs.Syscalls
import Xv6.Fs.Tickets

/-!
# The file system on blocks

The operations of `Xv6.Fs.Ops` on the bytes of the disk.  The inode table is the
one of `Xv6.Fs.Itable`, whose inodes on the disk are here the ones that
`dinode` reads (`St.view`); handles are tickets.  What an operation does to an
inode it does with `bmap`, `readi`, `writei` and `itrunc`, to the copy in memory
and to the disk.

A step is a whole system call of `Xv6.Fs.Syscalls`, made by any process.
-/

namespace Xv6.Fs.BlockSys

open Sys (InoOp TabOp LogOp Op Panic Tables)

/-- The fields of `struct inode` besides `type` and `nlink`. -/
structure Fields where
  major : Nat
  minor : Nat
  size : Nat
  addrs : Fin 13 → Nat

instance : Content Fields where
  zero := ⟨0, 0, 0, fun _ => 0⟩
  trunc d := { d with size := 0, addrs := fun _ => 0 }

/-- An inode as the inode table has it.  The link count is the 16-bit pattern. -/
def ofInode (d : Inode) : Dinode Fields :=
  { type := d.type, nlink := d.nlink, blocks := [], data := ⟨d.major, d.minor, d.size, d.addrs⟩ }

def toInode (d : Dinode Fields) : Inode :=
  { type := d.type, major := d.data.major, minor := d.data.minor, nlink := d.nlink.toNat
    size := d.data.size, addrs := d.data.addrs }

structure St where
  disk : Disk
  ent : Nat → Itable.Entry Fields
  slots : Nat
  live : Finset Nat
  tk : Nat → Itable.Ticket
  /-- The next ticket. -/
  next : Nat
  tab : Tables
  panic : Option Panic

section
variable (sb : Super)

/-- The inode table, with the inodes that are on the disk. -/
def St.view (s : St) : Itable.St Fields :=
  { dino := fun i => if i < sb.ninodes then ofInode (dinode sb s.disk i) else ⟨0, 0, [], Content.zero⟩
    ent := s.ent
    slots := s.slots
    used := ∅
    live := s.live
    tk := s.tk
    panic := none }

def St.setTable (s : St) (t : Itable.St Fields) : St :=
  { s with ent := t.ent, slots := t.slots, live := t.live, tk := t.tk }

def St.stop {β : Type} (s : St) (m : Panic) : Threads.Outcome St β := .halt { s with panic := some m }

/-- A step of the inode table, and what follows it. -/
def St.table {β : Type} (s : St) (a : Itable.Act Fields) (k : St → Threads.Outcome St β) : Threads.Outcome St β :=
  match Itable.step (s.view sb) a with
  | none => .wait
  | some t =>
    match t.panic with
    | some .igetNoInodes => s.stop .igetNoInodes
    | some .ilockNoType => s.stop .ilockNoType
    | none => k (s.setTable t)

def St.Locked (s : St) (h : Nat) : Prop := h ∈ s.live ∧ (s.tk h).stage = .locked

instance (s : St) (h : Nat) : Decidable (s.Locked h) := by
  unfold St.Locked
  infer_instance

def St.inum (s : St) (h : Nat) : Nat := (s.tk h).inum

/-- The copy in memory of the inode of a ticket. -/
def St.inode (s : St) (h : Nat) : Inode := toInode (s.ent (s.inum h)).mem

/-- The disk and the copy in memory after an operation on an inode. -/
def St.store (s : St) (h : Nat) (disk : Disk) (ip : Inode) : St :=
  { s with disk := disk, ent := Function.update s.ent (s.inum h) { s.ent (s.inum h) with mem := ofInode ip } }

/-- Change the inode in memory, and `iupdate`. -/
def St.iupdate (s : St) (h : Nat) (ip : Inode) : St := s.store h (putDinode sb s.disk (s.inum h) ip) ip

/-- An operation on a locked inode. -/
def St.withInode {β : Type} (s : St) (h : Nat) (k : Inode → Threads.Outcome St β) : Threads.Outcome St β :=
  if s.Locked h then k (s.inode h) else .wait

/-- What a C `short` stores. -/
def shortBits (n : Int) : Nat := (n % 65536).toNat

/-- The inode that `ialloc` writes. -/
def newInode (type : Nat) :
    Inode := { type := type, major := 0, minor := 0, nlink := 0, size := 0, addrs := fun _ => 0 }

/-- The first free inode. -/
def freeInode (disk : Disk) : Option Nat :=
  (List.range sb.ninodes).find? fun i => i ≠ 0 ∧ (dinode sb disk i).type = 0

def inoExec {β : Type} (o : InoOp β) (s : St) : Threads.Outcome St β :=
  match o with
  | .root => s.table sb (.iget s.next ROOTINO) fun t => .done s.next { t with next := s.next + 1 }
  | .idup h => s.table sb (.idup h s.next) fun t => .done s.next { t with next := s.next + 1 }
  | .ilock h => s.table sb (.ilock h) fun t => .done () t
  | .iunlock h => s.table sb (.iunlock h) fun t => .done () t
  | .iput h => s.table sb (.iput h) fun t => .done (h ∈ t.live ∧ (t.tk h).stage = .freeing) t
  | .iputFree h =>
    if h ∈ s.live ∧ (s.tk h).stage = .freeing then
      match itrunc sb s.disk (s.inum h) (s.inode h) with
      | none => s.stop .freeingFreeBlock
      | some (disk, ip) =>
        s.table sb (.iputFree h) fun t => .done () { t with disk := putDinode sb disk (s.inum h) { ip with type := 0 } }
    else .wait
  | .iputLast h => s.table sb (.iputLast h) fun t => .done () t
  | .ialloc type =>
    match freeInode sb s.disk with
    | none => .done none s
    | some i =>
      s.table sb (.claim s.next i type) fun t =>
        .done (some s.next) { t with disk := putDinode sb s.disk i (newInode type), next := s.next + 1 }
  | .ialloced h => s.table sb (.ialloced h) fun t => .done h t
  | .stat h => s.withInode h fun ip => .done ⟨s.inum h, ip.type, toShort ip.nlink, toShort ip.major⟩ s
  | .dirlookup h name => s.withInode h fun ip =>
    match dirlookup sb s.disk ip name with
    | .error m => s.stop m
    | .ok (none, disk, ip) => .done none (s.store h disk ip)
    | .ok (some (inum, off), disk, ip) =>
      (s.store h disk ip).table sb (.iget s.next inum) fun t =>
        .done (some (s.next, off)) { t with next := s.next + 1 }
  | .emptySlot h => s.withInode h fun ip =>
    match emptySlot sb s.disk ip with
    | .error m => s.stop m
    | .ok (off, disk, ip) => .done off (s.store h disk ip)
  | .link h off name target => s.withInode h fun ip =>
    match writeDirent sb s.disk (s.inum h) ip off ⟨s.inum target, name⟩ with
    | none => s.stop .bmapOutOfRange
    | some (ok, disk, ip) => .done ok (s.store h disk ip)
  | .clear h off => s.withInode h fun ip =>
    match writeDirent sb s.disk (s.inum h) ip off ⟨0, []⟩ with
    | none => s.stop .bmapOutOfRange
    | some (ok, disk, ip) => .done ok (s.store h disk ip)
  | .isdirempty h => s.withInode h fun ip =>
    match isdirempty sb s.disk ip with
    | .error m => s.stop m
    | .ok (empty, disk, ip) => .done empty (s.store h disk ip)
  | .setInode h major minor nlink => s.withInode h fun ip =>
    .done () (s.iupdate sb h
      { ip with major := shortBits major, minor := shortBits minor, nlink := shortBits nlink })
  | .setLink h nlink => s.withInode h fun ip => .done () (s.iupdate sb h { ip with nlink := shortBits nlink })
  | .itrunc h => s.withInode h fun ip =>
    match itrunc sb s.disk (s.inum h) ip with
    | none => s.stop .freeingFreeBlock
    | some (disk, ip) => .done () (s.store h disk ip)
  | .readi h off n fail => s.withInode h fun ip =>
    match readi sb fail s.disk ip off n with
    | none => s.stop .bmapOutOfRange
    | some (r, _, disk, ip) => .done r (s.store h disk ip)
  | .writei h src off n fail => s.withInode h fun ip =>
    match writei sb src fail s.disk (s.inum h) ip off n with
    | none => s.stop .bmapOutOfRange
    | some (r, disk, ip) => .done r (s.store h disk ip)

/-- The log is modelled on its own. -/
def logExec {β : Type} (o : LogOp β) (s : St) : Threads.Outcome St β :=
  match o with
  | .beginOp => .done () s
  | .endOp => .done () s

def exec {β : Type} (o : Op β) (p c : Nat) (s : St) : Threads.Outcome St β :=
  match o with
  | .ino o => inoExec sb o s
  | .log o => logExec o s
  | .tab o =>
    match o.exec p c s.tab with
    | .ok (b, t) => .done b { s with tab := t }
    | .error m => s.stop m
  | .panic m => s.stop m

/-- A system call of process `p`.  `choice` picks the child that `wait` frees. -/
structure Act where
  p : Nat
  call : Sys.Call
  choice : Nat

/-- A complete system call, or one that panics. -/
def step (s : St) (a : Act) : Option St :=
  if s.panic = none ∧ (s.tab.proc a.p).state = .running then
    match Threads.eval (fun o s => exec sb o a.p a.choice s) a.call.code s with
    | .done _ s => some s
    | .halt s => some s
    | .wait => none
  else none

end

/-- After `userinit`: `initproc` runs in the root directory, and nothing is open. -/
def boot (disk : Disk) : St where
  disk := disk
  ent i := ⟨if i = ROOTINO then 1 else 0, false, ⟨0, 0, [], Content.zero⟩, none⟩
  slots := 1
  live := {0}
  tk _ := ⟨ROOTINO, .idle⟩
  next := 1
  tab :=
    { file := fun _ => ⟨0, .none, false, false, 0, 0, 0, 0⟩
      proc := fun p => if p = 0 then ⟨.running, fun _ => none, some 0⟩ else ⟨.unused, fun _ => none, none⟩
      pipe := fun _ => none }
  panic := none

end Xv6.Fs.BlockSys
