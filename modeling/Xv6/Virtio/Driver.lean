import Xv6.Param
import Xv6.Lib.Monitor
import Xv6.Lib.Pool
import Xv6.Lib.Ring

/-!
# The disk driver

`kernel/virtio_disk.c` after `virtio_disk_init`, with the device as a party of
its own.  `Mem` is `struct disk`, `b->disk` and `b->lock` of the buffers, and what
the device knows.  `body` runs the code under `vdisk_lock` one statement at a
time; `sleep` and `wakeup` are those of `Monitor`.  The device takes heads from
the avail ring, performs requests and appends heads to the used ring, all without
the lock and in any order.

A process can also be woken by `kill`, which is `Monitor.Move.rouse`.

The callers of `virtio_disk_rw` are `bread` and `bwrite`, which hold `b->lock`:
an actor can lock and unlock buffers while it is in no call, and call
`virtio_disk_rw` on a buffer that it has locked.
-/

namespace Xv6.Virtio

open Function
open Monitor (Next)

/-- Number of descriptors. -/
def NUM : Nat := 8

/-- The indexes of the rings are `uint16`. -/
def U16 : Nat := 2 ^ 16

/-- The arguments of `virtio_disk_rw`, with `b->blockno`. -/
structure Call (β : Type) where
  b : β
  write : Bool
  blockno : Nat

/-- The product is one of `uint`s. -/
def Call.sector {β : Type} (c : Call β) : Nat := c.blockno * (BSIZE / 512) % 2 ^ 32

/-- `struct virtio_blk_req`; `write` is the type `VIRTIO_BLK_T_OUT`. -/
structure Op where
  write : Bool
  sector : Nat

/-- Where a descriptor points: a command header, the data of a buffer, or a status. -/
inductive Addr (β : Type)
  | null
  | op (i : Nat)
  | data (b : β)
  | status (i : Nat)

/-- `struct virtq_desc`, with the flags `VRING_DESC_F_NEXT` and `VRING_DESC_F_WRITE`. -/
structure Desc (β : Type) where
  addr : Addr β
  len : Nat
  flagNext : Bool
  flagWrite : Bool
  next : Nat

def Desc.zero {β : Type} : Desc β := { addr := .null, len := 0, flagNext := false, flagWrite := false, next := 0 }

inductive Panic
  | freeDesc1
  | freeDesc2
  /-- `virtio_disk_intr status`. -/
  | status
  /-- `info[id].b` is 0 when `virtio_disk_intr` follows it. -/
  | nullBuf
  /-- The device finds no request in a chain. -/
  | badChain
  deriving DecidableEq

structure Mem (ι β : Type) where
  desc : Nat → Desc β
  /-- `avail->ring` and `avail->idx`. -/
  ring : Nat → Nat
  availIdx : Nat
  /-- `used->ring[..].id` and `used->idx`. -/
  usedRing : Nat → Nat
  usedIdx : Nat
  free : Nat → Bool
  /-- `disk.used_idx`. -/
  seenIdx : Nat
  /-- `info[..].b` and `info[..].status`. -/
  info : Nat → Option β
  status : Nat → Nat
  ops : Nat → Op
  /-- `b->disk`. -/
  disk : β → Bool
  /-- The holder of `b->lock`. -/
  owner : β → Option ι
  /-- How far the device has looked in the avail ring. -/
  lastAvail : Nat
  /-- The heads that the device has taken, and those it has performed but not yet
  put into the used ring. -/
  pending : List Nat
  finished : List Nat
  /-- The request that the device has performed on a buffer, since `b->disk` was
  last set. -/
  result : β → Option Op
  panicked : Option Panic

/-- The indexes of the three descriptors of a request. -/
structure Idx where
  i0 : Nat
  i1 : Nat
  i2 : Nat

def Idx.list (idx : Idx) : List Nat := [idx.i0, idx.i1, idx.i2]

/-- `alloc3_desc` has all it needs. -/
def threeOf : List Nat → Option Idx
  | [i0, i1, i2] => some ⟨i0, i1, i2⟩
  | _ => none

inductive Chan (β : Type)
  /-- `&disk.free[0]`. -/
  | free
  | buf (b : β)
  deriving DecidableEq

/-- A store of `virtio_disk_rw` before it publishes its request. -/
inductive Store (β : Type)
  | op (i : Nat) (o : Op)
  | desc (i : Nat) (d : Desc β)
  | status (i : Nat) (v : Nat)
  | disk (b : β)
  | info (i : Nat) (b : β)

/-- The code that is left, at points where `vdisk_lock` is held or about to be acquired. -/
inductive Code (β : Type)
  /-- The loop of `alloc3_desc`. -/
  | alloc (c : Call β) (got : List Nat)
  /-- `alloc3_desc` frees what it got. -/
  | rollback (c : Call β) (todo : List Nat)
  | format (c : Call β) (idx : Idx) (todo : List (Store β))
  /-- `disk.avail->ring[disk.avail->idx % NUM] = idx[0]`. -/
  | publish (c : Call β) (idx : Idx)
  /-- `disk.avail->idx += 1`. -/
  | bump (c : Call β) (idx : Idx)
  /-- `while(b->disk == 1)`. -/
  | wait (c : Call β) (idx : Idx)
  /-- `disk.info[idx[0]].b = 0`. -/
  | clear (c : Call β) (idx : Idx)
  /-- `free_chain` at `i`. -/
  | chain (c : Call β) (idx : Idx) (i : Nat)
  | ret (c : Call β)
  /-- `virtio_disk_intr`: the loop, the entry `id` of the used ring, and
  `disk.used_idx += 1`. -/
  | intr
  | used (id : Nat)
  | advance
  | iret

section
variable {ι β : Type}

/-- The three descriptors: the command header, the data, and the status. -/
def headDesc (idx : Idx) : Desc β :=
  { addr := .op idx.i0, len := 16, flagNext := true, flagWrite := false, next := idx.i1 }

def dataDesc (c : Call β) (idx : Idx) : Desc β :=
  { addr := .data c.b, len := BSIZE, flagNext := true, flagWrite := !c.write, next := idx.i2 }

def statusDesc (idx : Idx) : Desc β :=
  { addr := .status idx.i0, len := 1, flagNext := false, flagWrite := true, next := 0 }

/-- The device writes 0 into the status if it succeeds. -/
def stores (c : Call β) (idx : Idx) : List (Store β) :=
  [.op idx.i0 ⟨c.write, c.sector⟩, .desc idx.i0 (headDesc idx), .desc idx.i1 (dataDesc c idx), .status idx.i0 0xff,
    .desc idx.i2 (statusDesc idx), .disk c.b, .info idx.i0 c.b]

def Mem.store [DecidableEq β] (m : Mem ι β) : Store β → Mem ι β
  | .op i o => { m with ops := update m.ops i o }
  | .desc i d => { m with desc := update m.desc i d }
  | .status i v => { m with status := update m.status i v }
  | .disk b => { m with disk := update m.disk b true, result := update m.result b none }
  | .info i b => { m with info := update m.info i (some b) }

def allocDesc (m : Mem ι β) : Option (Nat × Mem ι β) :=
  ((List.range NUM).find? m.free).map fun i => (i, { m with free := update m.free i false })

/-- `free_desc` without its `wakeup`. -/
def freeDesc (m : Mem ι β) (i : Nat) : Except Panic (Mem ι β) :=
  if NUM ≤ i then .error .freeDesc1
  else if m.free i then .error .freeDesc2
  else .ok { m with desc := update m.desc i Desc.zero, free := update m.free i true }

/-- `free_desc(i)`, and what comes after it. -/
def thenFree (m : Mem ι β) (i : Nat) (here next : Code β) : Mem ι β × Next (Code β) (Chan β) :=
  match freeDesc m i with
  | .error e => ({ m with panicked := some e }, .go here)
  | .ok m => (m, .wake .free next)

def body [DecidableEq β] (m : Mem ι β) : Code β → Mem ι β × Next (Code β) (Chan β)
  | .alloc c got =>
    match threeOf got with
    | some idx => (m, .go (.format c idx (stores c idx)))
    | none =>
      match allocDesc m with
      | some (i, m) => (m, .go (.alloc c (got ++ [i])))
      | none => (m, .go (.rollback c got))
  | .rollback c [] => (m, .sleep .free (.alloc c []))
  | .rollback c (j :: todo) => thenFree m j (.rollback c (j :: todo)) (.rollback c todo)
  | .format c idx [] => (m, .go (.publish c idx))
  | .format c idx (x :: todo) => (m.store x, .go (.format c idx todo))
  | .publish c idx => ({ m with ring := update m.ring (m.availIdx % NUM) idx.i0 }, .go (.bump c idx))
  | .bump c idx => ({ m with availIdx := (m.availIdx + 1) % U16 }, .go (.wait c idx))
  | .wait c idx => if m.disk c.b then (m, .sleep (.buf c.b) (.wait c idx)) else (m, .go (.clear c idx))
  | .clear c idx => ({ m with info := update m.info idx.i0 none }, .go (.chain c idx idx.i0))
  | .chain c idx i =>
    thenFree m i (.chain c idx i) (if (m.desc i).flagNext then .chain c idx (m.desc i).next else .ret c)
  | .ret _ => (m, .leave)
  | .intr => (m, .go (if m.seenIdx = m.usedIdx then .iret else .used (m.usedRing (m.seenIdx % NUM))))
  | .used id =>
    if m.status id ≠ 0 then ({ m with panicked := some .status }, .go (.used id))
    else
      match m.info id with
      | none => ({ m with panicked := some .nullBuf }, .go (.used id))
      | some b => ({ m with disk := update m.disk b false }, .wake (.buf b) .advance)
  | .advance => ({ m with seenIdx := (m.seenIdx + 1) % U16 }, .go .intr)
  | .iret => (m, .leave)

inductive Start (β : Type)
  | rw (c : Call β)
  | intr

def start [DecidableEq ι] (m : Mem ι β) (p : ι) : Start β → Option (Mem ι β × Code β)
  | .rw c => if m.owner c.b = some p then some (m, .alloc c []) else none
  | .intr => some (m, .intr)

/-- `acquiresleep(&b->lock)` and `releasesleep(&b->lock)`. -/
inductive BufLock (β : Type)
  | lock (b : β)
  | unlock (b : β)

def bufLock [DecidableEq ι] [DecidableEq β] (m : Mem ι β) (p : ι) : BufLock β → Option (Mem ι β)
  | .lock b => if m.owner b = none then some { m with owner := update m.owner b (some p) } else none
  | .unlock b => if m.owner b = some p then some { m with owner := update m.owner b none } else none

/-! ## The device -/

/-- What the chain that starts at `h` describes: the request, the buffer, and where the
status goes. -/
def request (m : Mem ι β) (h : Nat) : Option (Op × β × Nat) :=
  let d0 := m.desc h
  let d1 := m.desc d0.next
  let d2 := m.desc d1.next
  match d0.addr, d1.addr, d2.addr with
  | .op i, .data b, .status j =>
    if d0.flagNext ∧ ¬ d0.flagWrite ∧ d0.len = 16 ∧ d1.flagNext ∧ (d1.flagWrite = !(m.ops i).write) ∧ d1.len = BSIZE ∧
        ¬ d2.flagNext ∧ d2.flagWrite ∧ d2.len = 1 then
      some (m.ops i, b, j)
    else none
  | _, _, _ => none

inductive Device
  /-- Take the next head from the avail ring. -/
  | take
  /-- Perform the request of a head that was taken, with this status. -/
  | perform (h : Nat) (status : Nat)
  /-- Append a head to the used ring. -/
  | append (h : Nat)

def device [DecidableEq β] (m : Mem ι β) : Device → Option (Mem ι β)
  | .take =>
    if m.lastAvail = m.availIdx then none
    else some { m with pending := m.pending ++ [m.ring (m.lastAvail % NUM)], lastAvail := (m.lastAvail + 1) % U16 }
  | .perform h st =>
    if h ∈ m.pending then
      match request m h with
      | none => some { m with panicked := some .badChain }
      | some (o, b, j) =>
        some { m with
          status := update m.status j st
          result := update m.result b (some o)
          pending := m.pending.erase h
          finished := m.finished ++ [h] }
    else none
  | .append h =>
    if h ∈ m.finished then
      some { m with
        usedRing := update m.usedRing (m.usedIdx % NUM) h
        usedIdx := (m.usedIdx + 1) % U16
        finished := m.finished.erase h }
    else none

/-! ## The system -/

variable [DecidableEq ι] [DecidableEq β]

/-- `procs` is the process table. -/
def sys (procs : List ι) : Monitor.Sys ι (Mem ι β) (Code β) (Chan β) (Start β) (BufLock β) Device where
  stopped m := m.panicked.isSome
  start := start
  idle := bufLock
  env := device
  body m _ k := some (body m k)
  procs := procs

/-- After `virtio_disk_init`. -/
structure Initial (m : Mem ι β) : Prop where
  free : ∀ i, i < NUM → m.free i = true
  idx : m.availIdx = 0 ∧ m.usedIdx = 0 ∧ m.seenIdx = 0 ∧ m.lastAvail = 0
  device : m.pending = [] ∧ m.finished = []
  unlocked : ∀ b, m.owner b = none
  panicked : m.panicked = none

abbrev State (ι β : Type) := Monitor.St ι (Mem ι β) (Code β) (Chan β)

def Reachable (procs : List ι) (s : State ι β) : Prop := Monitor.Reachable (sys procs) Initial s

end

end Xv6.Virtio
