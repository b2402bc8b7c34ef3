import Xv6.Proc.Machine

/-!
# The kernel's code on processes

`kernel/proc.c`, `kernel/pipe.c`, `kernel/trap.c`, and from `kernel/sysproc.c` and
`kernel/console.c` the code that sleeps on the clock and on the console.  Sleep locks,
the log, the disk and the UART all follow one pattern, a loop of `sleep` under a
spinlock and a `wakeup` under it: `otherSleep` and `otherWake`.

What user memory holds, and whether an address is mapped, comes with the calls.
-/

namespace Xv6.Proc

open Cpus

abbrev K := Prog Op

def procs : List Pr := List.finRange NPROC

/-! ## `kernel/spinlock.c`, `kernel/proc.c` -/

def acquire (lk : Lock) : K Unit := perform (.acquire lk)

def release (lk : Lock) : K Unit := perform (.release lk)

def slot (p : Pr) : K Slot := perform (.slot p)

/-- `myproc()` where it is not 0. -/
def me : K Pr := do
  match ← perform .myproc with
  | some p => pure p
  | none => do
      perform .panic
      pure initproc

/-- `killed(p)`.  With `mark`, a process is about to sleep if the answer is 0. -/
def killed (p : Pr) (mark : Bool) : K Bool := do
  acquire (.proc p)
  let k ← perform (.killed p mark)
  release (.proc p)
  pure k

def setkilled (p : Pr) : K Unit := do
  acquire (.proc p)
  perform (.setKilled p)
  release (.proc p)

def yield : K Unit := do
  let p ← me
  acquire (.proc p)
  perform (.setState p .RUNNABLE)
  perform .sched
  release (.proc p)

def sleep (ch : Chan) (lk : Lock) : K Unit := do
  let p ← me
  perform (.sleepCall p ch lk)
  acquire (.proc p)
  release lk
  perform (.sleepOn p ch)
  perform .sched
  perform (.clearChan p)
  release (.proc p)
  acquire lk
  perform (.sleepRet p)

def wakeSlot (ch : Chan) (p : Pr) : K Unit := do
  if (← perform .myproc) ≠ some p then
    acquire (.proc p)
    perform (.wake p ch)
    release (.proc p)
  else pure ()

def wakeup (ch : Chan) : K Unit := do
  forEach (wakeSlot ch) procs
  perform (.wakeupRet ch)

def schedSlot (p : Pr) : K Unit := do
  acquire (.proc p)
  if (← slot p).state = .RUNNABLE then
    perform (.setState p .RUNNING)
    perform (.setCur (some p))
    perform (.swtch p)
    perform (.setCur none)
    release (.proc p)
  else release (.proc p)

def scheduler : K Unit := do
  perform (.setCur none)
  iterate (fun _ : Unit => do
    forEach schedSlot procs
    pure (.inl ())) ()

def forkret : K Unit := do
  let p ← me
  release (.proc p)

def allocpid : K Int := do
  acquire .pid
  let pid ← perform .nextpid
  release .pid
  pure pid

def tryAlloc (p : Pr) : K (Option Pr) := do
  acquire (.proc p)
  if (← slot p).state = .UNUSED then pure (some p)
  else do
    release (.proc p)
    pure none

def freeproc (p : Pr) : K Unit := perform (.freeproc p)

/-- `allocproc`; the choices are whether there is memory for the trapframe and the page table. -/
def allocproc : K (Option Pr) := do
  match ← firstOf tryAlloc procs with
  | none => pure none
  | some p => do
      let pid ← allocpid
      perform (.found p pid)
      if !(← perform .choose) then
        freeproc p
        release (.proc p)
        pure none
      else if !(← perform .choose) then
        freeproc p
        release (.proc p)
        pure none
      else
        perform (.newContext p)
        pure (some p)

/-- `fork`; the choice is whether `uvmcopy` succeeds. -/
def fork : K Int := do
  let p ← me
  match ← allocproc with
  | none => pure (-1)
  | some np =>
    if !(← perform .choose) then do
      freeproc np
      release (.proc np)
      pure (-1)
    else do
      let pid := (← slot np).pid
      release (.proc np)
      acquire .wait
      perform (.setParent np p)
      release .wait
      acquire (.proc np)
      perform (.setState np .RUNNABLE)
      release (.proc np)
      pure pid

def reparentSlot (p pp : Pr) : K Unit := do
  if (← slot pp).parent = some p then
    perform (.setParent pp initproc)
    wakeup (.proc initproc)
  else pure ()

def reparent (p : Pr) : K Unit := forEach (reparentSlot p) procs

/-- A pointer to a process as a channel. -/
def chanOf : Option Pr → Chan
  | none => .null
  | some q => .proc q

/-- A loop of `sleep` under a lock, as in `acquiresleep`, `begin_op`, `virtio_disk_rw` and `uartputc`. -/
def otherSleep (n m : Nat) : K Unit := do
  acquire (.other n)
  iterate (fun _ : Unit => do
    if ← perform .choose then
      sleep (.other m) (.other n)
      pure (.inl ())
    else pure (.inr ())) ()
  release (.other n)

/-- `releasesleep`, `end_op`, `virtio_disk_intr`, `uartstart`. -/
def otherWake (n m : Nat) : K Unit := do
  acquire (.other n)
  wakeup (.other m)
  release (.other n)

/-! ## `kernel/pipe.c` -/

def pipeclose (writable : Bool) : K Unit := do
  acquire .pipe
  perform (.pclose writable)
  wakeup (if writable then .nread else .nwrite)
  release .pipe

/-- The loop of `pipewrite`: `some i` when it was left after `i` bytes, `none` when
`pipewrite` returned. -/
def pipewriteLoop (pr : Pr) (buf : Nat → Option UInt8) (n : Int) : K (Option Nat) :=
  iterate (fun i : Nat => do
    if (i : Int) < n then
      if (← perform .pipe).readopen = false then
        release .pipe
        pure (.inr none)
      else if ← killed pr true then
        release .pipe
        pure (.inr none)
      else
        let pi ← perform .pipe
        if pi.nwrite = pi.nread + UInt32.ofNat PIPESIZE then
          wakeup .nread
          sleep .nwrite .pipe
          pure (.inl i)
        else do
          perform (.untest pr)
          match buf i with
          | none => pure (.inr (some i))
          | some ch => do
              perform (.pput ch)
              pure (.inl (i + 1))
    else pure (.inr (some i))) 0

/-- `pipewrite`; `buf i` is the byte at `addr + i`, if it is mapped. -/
def pipewrite (buf : Nat → Option UInt8) (n : Int) : K Int := do
  let pr ← me
  acquire .pipe
  match ← pipewriteLoop pr buf n with
  | none => pure (-1)
  | some i => do
      wakeup .nread
      release .pipe
      pure i

/-- The first loop of `piperead`: whether it was left, and not `piperead`. -/
def pipereadWait (pr : Pr) : K Bool :=
  iterate (fun _ : Unit => do
    let pi ← perform .pipe
    if pi.nread = pi.nwrite ∧ pi.writeopen then
      if ← killed pr true then
        release .pipe
        pure (.inr false)
      else
        sleep .nread .pipe
        pure (.inl ())
    else pure (.inr true)) ()

/-- The second loop of `piperead`, with `fuel` bytes to go. -/
def pipereadCopy (mapped : Nat → Bool) : Nat → Nat → K Nat
  | 0, i => pure i
  | fuel + 1, i => do
      let pi ← perform .pipe
      if pi.nread = pi.nwrite then pure i
      else do
        let _ ← perform (.ptake (mapped i))
        if mapped i then pipereadCopy mapped fuel (i + 1) else pure i

/-- `piperead`; `mapped i` says whether `addr + i` is mapped. -/
def piperead (mapped : Nat → Bool) (n : Int) : K Int := do
  let pr ← me
  acquire .pipe
  if ← pipereadWait pr then
    let i ← pipereadCopy mapped n.toNat 0
    wakeup .nwrite
    perform (.readRet n i)
    release .pipe
    pure i
  else pure (-1)

def fileclose : File → K Unit
  | .pipe writable => pipeclose writable
  | .other n m => do
      otherSleep n m
      otherWake n m

/-! ## `exit` and `wait` -/

def exit (status : Int) : K Unit := do
  let p ← me
  if p = initproc then perform .panic
  else
    forEach fileclose (← perform .files)
    acquire .wait
    reparent p
    wakeup (chanOf (← slot p).parent)
    acquire (.proc p)
    perform (.zombie p status)
    release .wait
    perform .sched
    perform .panic

/-- The loop of `wait` over the slots: `inl havekids` at its end, `inr r` when `wait`
returned.  `addr` says whether the status is to be stored. -/
def waitScan (p : Pr) (addr : Bool) : List Pr → Bool → K (Bool ⊕ Int)
  | [], havekids => pure (.inl havekids)
  | pp :: pps, havekids => do
      if (← slot pp).parent = some p then
        acquire (.proc pp)
        let sl ← slot pp
        if sl.state = .ZOMBIE then
          let ok ← perform .choose
          if addr && !ok then
            release (.proc pp)
            release .wait
            pure (.inr (-1))
          else
            perform (.waitRet p pp sl.pid sl.xstate)
            freeproc pp
            release (.proc pp)
            release .wait
            pure (.inr sl.pid)
        else
          release (.proc pp)
          waitScan p addr pps true
      else waitScan p addr pps havekids

def wait (addr : Bool) : K Int := do
  let p ← me
  acquire .wait
  iterate (fun _ : Unit => do
    match ← waitScan p addr procs false with
    | .inr r => pure (.inr r)
    | .inl false => do
        release .wait
        pure (.inr (-1))
    | .inl true =>
      if ← killed p true then
        release .wait
        pure (.inr (-1))
      else
        sleep (.proc p) .wait
        pure (.inl ())) ()

def killSlot (pid : Int) (p : Pr) : K (Option Int) := do
  acquire (.proc p)
  if (← slot p).pid = pid then
    perform (.setKilled p)
    if (← slot p).state = .SLEEPING then
      perform (.setState p .RUNNABLE)
      release (.proc p)
      pure (some 0)
    else
      release (.proc p)
      pure (some 0)
  else
    release (.proc p)
    pure none

def kill (pid : Int) : K Int := do
  match ← firstOf (killSlot pid) procs with
  | some r => pure r
  | none => pure (-1)

/-! ## `kernel/sysproc.c`, `kernel/console.c` -/

def sysSleep (n : UInt32) : K Int := do
  acquire .ticks
  let ticks0 ← perform .ticks
  iterate (fun _ : Unit => do
    if (← perform .ticks) - ticks0 < n then
      let p ← me
      if ← killed p true then
        release .ticks
        pure (.inr (-1))
      else
        sleep .ticks .ticks
        pure (.inl ())
    else
      release .ticks
      pure (.inr 0)) ()

/-- The inner loop of `consoleread`: whether there is input. -/
def consoleWait : K Bool :=
  iterate (fun _ : Unit => do
    let co ← perform .cons
    if co.r = co.w then
      let p ← me
      if ← killed p true then
        release .cons
        pure (.inr false)
      else
        sleep .cons .cons
        pure (.inl ())
    else pure (.inr true)) ()

/-- `consoleread` of `target` bytes; `mapped n` says whether the address for the byte
before the last `n - 1` is mapped. -/
def consoleread (mapped : Int → Bool) (target : Int) : K Int := do
  acquire .cons
  let left ← iterate (fun n : Int => do
    if n > 0 then
      if ← consoleWait then
        let co ← perform .cons
        let ch := co.buf (co.r.toNat % INPUT_BUF_SIZE)
        if ch = 4 then
          -- end-of-file, kept for the next read if there was input before it
          perform (.setCons (if n < target then co else { co with r := co.r + 1 }))
          pure (.inr (some n))
        else do
          perform (.setCons { co with r := co.r + 1 })
          if !mapped n then pure (.inr (some n))
          else if ch = 10 then pure (.inr (some (n - 1)))
          else pure (.inl (n - 1))
      else pure (.inr none)
    else pure (.inr (some n))) target
  match left with
  | none => pure (-1)
  | some n => do
      release .cons
      pure (target - n)

/-- The loop for control-U of `consoleintr`. -/
def Cons.killLine : Nat → Cons → Cons
  | 0, co => co
  | fuel + 1, co =>
    if co.e ≠ co.w ∧ co.buf ((co.e - 1).toNat % INPUT_BUF_SIZE) ≠ 10 then killLine fuel
      { co with e := co.e - 1 } else co

/-- `cons` after the character `ch`, and whether `consoleread` is to be woken. -/
def Cons.input (co : Cons) (ch : UInt8) : Cons × Bool :=
  if ch = 16 then (co, false)
  else if ch = 21 then (co.killLine INPUT_BUF_SIZE, false)
  else if ch = 8 ∨ ch = 127 then (if co.e ≠ co.w then { co with e := co.e - 1 } else co, false)
  else if ch ≠ 0 ∧ co.e - co.r < UInt32.ofNat INPUT_BUF_SIZE then
    let ch := if ch = 13 then 10 else ch
    let co := { co with buf := Function.update co.buf (co.e.toNat % INPUT_BUF_SIZE) ch, e := co.e + 1 }
    if ch = 10 ∨ ch = 4 ∨ co.e - co.r = UInt32.ofNat INPUT_BUF_SIZE then ({ co with w := co.e }, true) else (co, false)
  else (co, false)

def consoleintr (ch : UInt8) : K Unit := do
  acquire .cons
  let co ← perform .cons
  perform (.setCons (co.input ch).1)
  if (co.input ch).2 then
    wakeup .cons
    release .cons
  else release .cons

/-! ## `kernel/trap.c` -/

/-- What interrupts: the clock, a character from the UART, or another device. -/
inductive Dev
  | timer
  | uart (ch : UInt8)
  | other (n m : Nat)
  deriving DecidableEq

def clockintr : K Unit := do
  acquire .ticks
  perform .tick
  wakeup .ticks
  release .ticks

def devintr : Dev → K Unit
  | .timer => do
      if (← perform .cpuid) = 0 then clockintr else pure ()
  | .uart ch => consoleintr ch
  | .other n m => otherWake n m

def kerneltrap (d : Dev) : K Unit := do
  devintr d
  if d = .timer then
    match ← perform .myproc with
    | none => pure ()
    | some p => if (← slot p).state = .RUNNING then yield else pure ()
  else pure ()

inductive Syscall
  | fork
  | exit (status : Int)
  | wait (addr : Bool)
  | kill (pid : Int)
  | sleep (n : UInt32)
  | pipewrite (buf : Nat → Option UInt8) (n : Int)
  | piperead (mapped : Nat → Bool) (n : Int)
  | close (f : File)
  | consoleread (mapped : Int → Bool) (n : Int)
  | other (n m : Nat)

def syscall : Syscall → K Unit
  | .fork => do
      let _ ← Proc.fork
  | .exit status => Proc.exit status
  | .wait addr => do
      let _ ← Proc.wait addr
  | .kill pid => do
      let _ ← Proc.kill pid
  | .sleep n => do
      let _ ← sysSleep n
  | .pipewrite buf n => do
      let _ ← Proc.pipewrite buf n
  | .piperead mapped n => do
      let _ ← Proc.piperead mapped n
  | .close f => fileclose f
  | .consoleread mapped n => do
      let _ ← Proc.consoleread mapped n
  | .other n m => do
      otherSleep n m
      otherWake n m

/-- Why a process enters the kernel. -/
inductive Trap
  | syscall (k : Syscall)
  | intr (d : Dev)
  | fault

/-- The body of `usertrap` for a trap. -/
def serve (p : Pr) : Trap → K Unit
  | .syscall k => do
      if ← killed p false then exit (-1) else pure ()
      syscall k
  | .intr d => devintr d
  | .fault => setkilled p

def usertrap (t : Trap) : K Unit := do
  let p ← me
  serve p t
  if ← killed p false then exit (-1) else pure ()
  match t with
  | .intr .timer => yield
  | _ => pure ()

/-! ## The machine -/

def machine : System Op Mem Ctx Trap Dev Choice where
  exec := exec
  current s c := s.ctx c
  code := usertrap
  handler := kerneltrap
  enabled s c := s.noff c = 0
  entry
    | .proc _ => forkret
    | .sched _ => scheduler

abbrev State := St Op Mem Ctx

abbrev Action := Act Trap Dev Choice

/-- The memory after `main` and `userinit`: the first process is RUNNABLE, every
processor enters its scheduler, and there is a pipe. -/
def bootMem (data : Nat → UInt8) : Mem where
  slot p := if p = initproc then ⟨.RUNNABLE, .null, false, 0, 1, none⟩ else Slot.free
  lock _ := none
  noff _ := 0
  cur _ := none
  ctx c := .sched c
  nextpid := 2
  pipe := ⟨data, 0, 0, true, true⟩
  ticks := 0
  cons := ⟨fun _ => 0, 0, 0, 0⟩
  call _ := none
  tested _ := false
  exits := []
  waits := []
  stored := []
  delivered := []
  reads := []

def boot (data : Nat → UInt8) : State := ⟨bootMem data, machine.entry, false⟩

def Initial (s : State) : Prop := ∃ data, s = boot data

/-- Processor `c` makes `n` steps, and what is not determined turns out well. -/
def steps (c n : Nat) : List Action := List.replicate n (.step c ⟨true, []⟩)

def Reachable (s : State) : Prop := Run.Reach (step machine) (fun _ _ => True) Initial s

end Xv6.Proc
