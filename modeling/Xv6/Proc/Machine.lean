import Xv6.Lib.Cpus
import Xv6.Param

/-!
# Processes, processors and locks

The memory of `kernel/proc.c`, `kernel/spinlock.c`, `kernel/pipe.c` and of the clock
and the console, and the operations of the kernel on it: one access each, or a few
accesses under one lock.  A processor executes a context, its scheduler's or a
process's; `swtch` changes which.

Marks leave no trace in the kernel: they record the calls of `sleep`, the tests of
`killed`, and what was exited, waited for, written and read.
-/

namespace Xv6.Proc

open Cpus
open Function (update)

instance : NeZero NPROC := ⟨by decide⟩

/-- An index of `proc[]`. -/
abbrev Pr := Fin NPROC

def initproc : Pr := 0

def PIPESIZE : Nat := 512

def INPUT_BUF_SIZE : Nat := 128

inductive ProcState
  | UNUSED
  | USED
  | SLEEPING
  | RUNNABLE
  | RUNNING
  | ZOMBIE
  deriving DecidableEq

/-- What a processor executes: its scheduler or a process. -/
inductive Ctx
  | sched (c : Nat)
  | proc (p : Pr)
  deriving DecidableEq

/-- Spinlocks; `other` are those of sleep locks, the log, the disk and the UART. -/
inductive Lock
  | proc (p : Pr)
  | wait
  | pid
  | pipe
  | ticks
  | cons
  | other (n : Nat)
  deriving DecidableEq

/-- Wait channels: addresses. -/
inductive Chan
  | null
  | proc (p : Pr)
  | nread
  | nwrite
  | ticks
  | cons
  | other (n : Nat)
  deriving DecidableEq

/-- `struct proc` -/
structure Slot where
  state : ProcState
  chan : Chan
  killed : Bool
  xstate : Int
  pid : Int
  parent : Option Pr
  deriving DecidableEq

def Slot.free : Slot := ⟨.UNUSED, .null, false, 0, 0, none⟩

/-- `struct pipe` without its lock -/
structure Pipe where
  data : Nat → UInt8
  nread : UInt32
  nwrite : UInt32
  readopen : Bool
  writeopen : Bool

structure Cons where
  buf : Nat → UInt8
  r : UInt32
  w : UInt32
  e : UInt32

/-- A call of `sleep`. -/
structure SleepCall where
  chan : Chan
  lk : Lock
  /-- Whether the process has become SLEEPING. -/
  slept : Bool
  deriving DecidableEq

/-- What `wait` returned: to whom, who was the parent, and the child's pid and status. -/
structure Waited where
  caller : Pr
  parent : Option Pr
  pid : Int
  status : Int
  deriving DecidableEq

/-- What a read of `n` bytes returned, and whether the pipe was empty and its write end open. -/
structure ReadRet where
  n : Int
  count : Nat
  empty : Bool
  writeopen : Bool
  deriving DecidableEq

structure Mem where
  slot : Pr → Slot
  /-- The processor that holds a lock. -/
  lock : Lock → Option Nat
  noff : Nat → Nat
  /-- `c->proc` -/
  cur : Nat → Option Pr
  ctx : Nat → Ctx
  nextpid : Nat
  pipe : Pipe
  ticks : UInt32
  cons : Cons
  call : Pr → Option SleepCall
  /-- The process has found `killed` 0 and is about to sleep. -/
  tested : Pr → Bool
  exits : List (Int × Int)
  waits : List Waited
  stored : List UInt8
  delivered : List UInt8
  reads : List ReadRet

/-- What `exit` closes: an end of the pipe, or a file behind other locks. -/
inductive File
  | pipe (writable : Bool)
  | other (n m : Nat)

inductive Op : Type → Type
  | myproc : Op (Option Pr)
  | cpuid : Op Nat
  | acquire (lk : Lock) : Op Unit
  | release (lk : Lock) : Op Unit
  | slot (p : Pr) : Op Slot
  | setState (p : Pr) (x : ProcState) : Op Unit
  | sleepOn (p : Pr) (ch : Chan) : Op Unit           -- p->chan = chan; p->state = SLEEPING;
  | wake (p : Pr) (ch : Chan) : Op Unit              -- if(p->state == SLEEPING && p->chan == chan) p->state = RUNNABLE;
  | clearChan (p : Pr) : Op Unit                     -- p->chan = 0;
  | setKilled (p : Pr) : Op Unit                     -- p->killed = 1;
  | killed (p : Pr) (mark : Bool) : Op Bool          -- k = p->killed;
  | zombie (p : Pr) (status : Int) : Op Unit         -- p->xstate = status; p->state = ZOMBIE;
  | setParent (p q : Pr) : Op Unit                   -- p->parent = q;
  | nextpid : Op Int                                 -- pid = nextpid; nextpid = nextpid + 1;
  | found (p : Pr) (pid : Int) : Op Unit             -- p->pid = pid; p->state = USED;
  | newContext (p : Pr) : Op Unit                    -- p->context.ra = forkret;
  | freeproc (p : Pr) : Op Unit
  | setCur (v : Option Pr) : Op Unit                 -- c->proc = v;
  | swtch (p : Pr) : Op Unit                         -- swtch(&c->context, &p->context);
  | sched : Op Unit
  | panic : Op Unit
  | choose : Op Bool                                 -- whether memory was found, or could be copied
  | files : Op (List File)                           -- the open files
  | pipe : Op Pipe
  | pput (ch : UInt8) : Op Unit                      -- pi->data[pi->nwrite++ % PIPESIZE] = ch;
  | ptake (ok : Bool) : Op UInt8                     -- ch = pi->data[pi->nread++ % PIPESIZE]; copyout(.., &ch, 1)
  | pclose (writable : Bool) : Op Unit               -- pi->writeopen = 0; or pi->readopen = 0;
  | ticks : Op UInt32
  | tick : Op Unit                                   -- ticks++;
  | cons : Op Cons
  | setCons (co : Cons) : Op Unit
  -- marks
  | sleepCall (p : Pr) (ch : Chan) (lk : Lock) : Op Unit
  | sleepRet (p : Pr) : Op Unit
  | wakeupRet (ch : Chan) : Op Unit
  | untest (p : Pr) : Op Unit
  | waitRet (p pp : Pr) (pid status : Int) : Op Unit
  | readRet (n : Int) (count : Nat) : Op Unit

structure Choice where
  ok : Bool
  files : List File

def Mem.setSlot (s : Mem) (p : Pr) (x : Slot) : Mem := { s with slot := update s.slot p x }

def Pipe.put (pi : Pipe) (ch : UInt8) : Pipe :=
  { pi with data := update pi.data (pi.nwrite.toNat % PIPESIZE) ch, nwrite := pi.nwrite + 1 }

/-- The byte that `piperead` takes next. -/
def Pipe.first (pi : Pipe) : UInt8 := pi.data (pi.nread.toNat % PIPESIZE)

def Pipe.take (pi : Pipe) : Pipe := { pi with nread := pi.nread + 1 }

def Pipe.close (pi : Pipe) (writable : Bool) : Pipe :=
  if writable then { pi with writeopen := false } else { pi with readopen := false }

/-- An operation of the context on processor `c`. -/
def exec {β : Type} (o : Op β) (_t : Ctx) (c : Nat) (x : Choice) (s : Mem) : Outcome Mem Ctx β :=
  match o with
  | .myproc => .done (s.cur c) s none
  | .cpuid => .done c s none
  | .acquire lk =>
    match s.lock lk with
    | none => .done () { s with lock := update s.lock lk (some c),
                                noff := update s.noff c (s.noff c + 1) } none
    | some d => if d = c then .halt else .wait
  | .release lk =>
    if s.lock lk = some c then
      .done () { s with lock := update s.lock lk none, noff := update s.noff c (s.noff c - 1) } none
    else .halt
  | .slot p => .done (s.slot p) s none
  | .setState p y => .done () (s.setSlot p { s.slot p with state := y }) none
  | .sleepOn p ch =>
    .done () { s.setSlot p { s.slot p with chan := ch, state := .SLEEPING } with
      call := update s.call p ((s.call p).map fun k => { k with slept := true })
      tested := update s.tested p false } none
  | .wake p ch =>
    .done () (if (s.slot p).state = .SLEEPING ∧ (s.slot p).chan = ch then
        s.setSlot p { s.slot p with state := .RUNNABLE } else s) none
  | .clearChan p => .done () (s.setSlot p { s.slot p with chan := .null }) none
  | .setKilled p => .done () (s.setSlot p { s.slot p with killed := true }) none
  | .killed p mark =>
    .done (s.slot p).killed
      { s with tested := if mark then update s.tested p (!(s.slot p).killed) else s.tested } none
  | .zombie p status =>
    .done () { s.setSlot p { s.slot p with xstate := status, state := .ZOMBIE } with
      exits := s.exits ++ [((s.slot p).pid, status)] } none
  | .setParent p q => .done () (s.setSlot p { s.slot p with parent := some q }) none
  | .nextpid => .done (toInt32 s.nextpid) { s with nextpid := s.nextpid + 1 } none
  | .found p pid => .done () (s.setSlot p { s.slot p with pid := pid, state := .USED }) none
  | .newContext p => .done () s (some (.proc p))
  | .freeproc p => .done () (s.setSlot p Slot.free) none
  | .setCur v => .done () { s with cur := update s.cur c v } none
  | .swtch p => .done () { s with ctx := update s.ctx c (.proc p) } none
  | .sched =>
    match s.cur c with
    | none => .halt
    | some p =>
      if s.lock (.proc p) ≠ some c then .halt                -- "sched p->lock"
      else if s.noff c ≠ 1 then .halt                        -- "sched locks"
      else if (s.slot p).state = .RUNNING then .halt         -- "sched running"
      else .done () { s with ctx := update s.ctx c (.sched c) } none
  | .panic => .halt
  | .choose => .done x.ok s none
  | .files => .done x.files s none
  | .pipe => .done s.pipe s none
  | .pput ch => .done () { s with pipe := s.pipe.put ch, stored := s.stored ++ [ch] } none
  | .ptake ok =>
    .done s.pipe.first
      { s with pipe := s.pipe.take, delivered := if ok then s.delivered ++ [s.pipe.first] else s.delivered } none
  | .pclose w => .done () { s with pipe := s.pipe.close w } none
  | .ticks => .done s.ticks s none
  | .tick => .done () { s with ticks := s.ticks + 1 } none
  | .cons => .done s.cons s none
  | .setCons co => .done () { s with cons := co } none
  | .sleepCall p ch lk => .done () { s with call := update s.call p (some ⟨ch, lk, false⟩) } none
  | .sleepRet p => .done () { s with call := update s.call p none } none
  | .wakeupRet _ => .done () s none
  | .untest p => .done () { s with tested := update s.tested p false } none
  | .waitRet p pp pid status => .done () { s with waits := s.waits ++ [⟨p, (s.slot pp).parent, pid, status⟩] } none
  | .readRet n count =>
    .done () { s with reads := s.reads ++ [⟨n, count, s.pipe.nread = s.pipe.nwrite, s.pipe.writeopen⟩] } none

/-! What an operation did that may also wait or halt -/

section
variable {t : Ctx} {c : Nat} {x : Choice} {s s' : Mem} {lk : Lock} {b : Unit} {fresh : Option Ctx}

theorem exec_acquire (he : exec (.acquire lk) t c x s = .done b s' fresh) :
    s.lock lk = none ∧ s' = { s with lock := update s.lock lk (some c),
                                     noff := update s.noff c (s.noff c + 1) } ∧ fresh = none := by
  simp only [exec] at he
  split at he
  · next hfree =>
    cases he
    exact ⟨hfree, rfl, rfl⟩
  · split at he <;> cases he

theorem exec_release (he : exec (.release lk) t c x s = .done b s' fresh) :
    s.lock lk = some c ∧ s' = { s with lock := update s.lock lk none,
                                       noff := update s.noff c (s.noff c - 1) } ∧ fresh = none := by
  simp only [exec] at he
  split at he
  · next hhold =>
    cases he
    exact ⟨hhold, rfl, rfl⟩
  · cases he

theorem exec_sched (he : exec .sched t c x s = .done b s' fresh) :
    s' = { s with ctx := update s.ctx c (.sched c) } ∧ fresh = none := by
  simp only [exec] at he
  split at he
  · cases he
  · split at he
    · cases he
    · split at he
      · cases he
      · split at he
        · cases he
        · cases he
          exact ⟨rfl, rfl⟩

end

end Xv6.Proc
