import Xv6.Proc.Kernel

/-!
# The parts of the kernel's code

A property of programs that holds of the common operations and of the parts of a
function holds of the function.  A proof about all code then looks only at the
functions in which something happens.
-/

namespace Xv6.Proc

open Cpus

/-- Locks, reads of a slot, and what else occurs all over the kernel. -/
def Op.Common {β : Type} : Op β → Prop
  | .myproc | .cpuid | .acquire _ | .release _ | .slot _ | .sched | .panic | .choose | .files | .ticks | .tick | .cons
  | .setCons _ => True
  | _ => False

/-- A property that holds of the common operations too. -/
structure Plain (T : {α : Type} → K α → Prop) : Prop extends Closed T where
  one : ∀ {β : Type} {o : Op β}, o.Common → T (perform o)

section
variable {T : {α : Type} → K α → Prop} (hT : Plain T)

include hT

theorem Plain.op {α β : Type} {o : Op β} {f : β → K α} (ho : o.Common) (hf : ∀ b, T (f b)) : T (perform o >>= f) :=
  hT.bind (hT.one ho) hf

theorem me_of : T me := by
  refine hT.op trivial fun r => ?_
  cases r with
  | none => exact hT.op trivial fun _ => hT.ret _
  | some p => exact hT.ret p

theorem killed_of {p : Pr} {mark : Bool} (hk : T (perform (.killed p mark))) : T (killed p mark) :=
  hT.op trivial fun _ => hT.bind hk fun k => hT.op trivial fun _ => hT.ret k

theorem setkilled_of {p : Pr} (hk : T (perform (.setKilled p))) : T (setkilled p) :=
  hT.op trivial fun _ => hT.bind hk fun _ => hT.one trivial

theorem yield_of (hset : ∀ p, T (perform (.setState p .RUNNABLE))) : T yield :=
  hT.bind (me_of hT) fun p => hT.op trivial fun _ => hT.bind (hset p) fun _ =>
    hT.op trivial fun _ => hT.one trivial

theorem forkret_of : T forkret := hT.bind (me_of hT) fun _ => hT.one trivial

theorem scheduler_of (hset : ∀ p, T (perform (.setState p .RUNNING))) (hcur : ∀ v, T (perform (.setCur v)))
    (hsw : ∀ p, T (perform (.swtch p))) : T scheduler := by
  refine hT.bind (hcur none) fun _ => hT.iterate () fun _ => ?_
  refine hT.bind (hT.forEach (fun p => ?_) procs) fun _ => hT.ret _
  refine hT.op trivial fun _ => hT.op trivial fun sl => ?_
  split
  · exact hT.bind (hset p) fun _ => hT.bind (hcur _) fun _ => hT.bind (hsw p) fun _ =>
      hT.bind (hcur none) fun _ => hT.one trivial
  · exact hT.one trivial

theorem wakeup_of {ch : Chan} (hwake : ∀ p, T (perform (.wake p ch))) (hret : T (perform (.wakeupRet ch))) :
    T (wakeup ch) := by
  refine hT.bind (hT.forEach (fun p => ?_) procs) fun _ => hret
  refine hT.op trivial fun q => ?_
  split
  · exact hT.op trivial fun _ => hT.bind (hwake p) fun _ => hT.one trivial
  · exact hT.ret ()

theorem sleep_of {ch : Chan} {lk : Lock} (hcall : ∀ p, T (perform (.sleepCall p ch lk)))
    (hsleep : ∀ p, T (perform (.sleepOn p ch))) (hclear : ∀ p, T (perform (.clearChan p)))
    (hret : ∀ p, T (perform (.sleepRet p))) : T (sleep ch lk) := by
  refine hT.bind (me_of hT) fun p => hT.bind (hcall p) fun _ => hT.op trivial fun _ => ?_
  refine hT.op trivial fun _ => hT.bind (hsleep p) fun _ => hT.op trivial fun _ => ?_
  refine hT.bind (hclear p) fun _ => hT.op trivial fun _ => hT.op trivial fun _ => ?_
  exact hret p

theorem otherSleep_of {n m : Nat} (hsleep : T (sleep (.other m) (.other n))) : T (otherSleep n m) := by
  refine hT.op trivial fun _ => hT.bind (hT.iterate () fun _ => ?_) fun _ => hT.one trivial
  refine hT.op trivial fun b => ?_
  split
  · exact hT.bind hsleep fun _ => hT.ret _
  · exact hT.ret _

theorem otherWake_of {n m : Nat} (hwake : T (wakeup (.other m))) : T (otherWake n m) :=
  hT.op trivial fun _ => hT.bind hwake fun _ => hT.one trivial

theorem pipeclose_of {w : Bool} (hclose : T (perform (.pclose w)))
    (hwake : T (wakeup (if w then .nread else .nwrite))) :
    T (pipeclose w) :=
  hT.op trivial fun _ => hT.bind hclose fun _ => hT.bind hwake fun _ => hT.one trivial

theorem clockintr_of (hwake : T (wakeup .ticks)) : T clockintr :=
  hT.op trivial fun _ => hT.op trivial fun _ => hT.bind hwake fun _ => hT.one trivial

theorem consoleintr_of {ch : UInt8} (hwake : T (wakeup .cons)) : T (consoleintr ch) := by
  refine hT.op trivial fun _ => hT.op trivial fun co => hT.op trivial fun _ => ?_
  split
  · exact hT.bind hwake fun _ => hT.one trivial
  · exact hT.one trivial

theorem devintr_of {d : Dev} (hticks : T (wakeup .ticks)) (hcons : T (wakeup .cons))
    (hother : ∀ m, T (wakeup (.other m))) :
    T (devintr d) := by
  cases d with
  | timer =>
    refine hT.op trivial fun c => ?_
    split
    · exact clockintr_of hT hticks
    · exact hT.ret ()
  | uart ch => exact consoleintr_of hT hcons
  | other n m => exact otherWake_of hT (hother m)

theorem kerneltrap_of {d : Dev} (hdev : T (devintr d)) (hyield : T yield) : T (kerneltrap d) := by
  refine hT.bind hdev fun _ => ?_
  split
  · refine hT.op trivial fun r => ?_
    cases r with
    | none => exact hT.ret ()
    | some p =>
      refine hT.op trivial fun sl => ?_
      split
      · exact hyield
      · exact hT.ret ()
  · exact hT.ret ()

theorem sysSleep_of {n : UInt32} (hk : ∀ p, T (killed p true)) (hsleep : T (sleep .ticks .ticks)) : T (sysSleep n) := by
  refine hT.op trivial fun _ => hT.op trivial fun t => hT.iterate () fun _ => ?_
  refine hT.op trivial fun t' => ?_
  split
  · refine hT.bind (me_of hT) fun p => hT.bind (hk p) fun k => ?_
    split
    · exact hT.op trivial fun _ => hT.ret _
    · exact hT.bind hsleep fun _ => hT.ret _
  · exact hT.op trivial fun _ => hT.ret _

theorem consoleWait_of (hk : ∀ p, T (killed p true)) (hsleep : T (sleep .cons .cons)) : T consoleWait := by
  refine hT.iterate () fun _ => hT.op trivial fun co => ?_
  split
  · refine hT.bind (me_of hT) fun p => hT.bind (hk p) fun k => ?_
    split
    · exact hT.op trivial fun _ => hT.ret _
    · exact hT.bind hsleep fun _ => hT.ret _
  · exact hT.ret _

theorem consoleread_of {mapped : Int → Bool} {target : Int} (hwait : T consoleWait) :
    T (consoleread mapped target) := by
  refine hT.op trivial fun _ => hT.bind (hT.iterate target fun n => ?_) fun left => ?_
  · split
    · refine hT.bind hwait fun r => ?_
      split
      · refine hT.op trivial fun co => ite_of ?_ ?_
        · exact hT.op trivial fun _ => hT.ret _
        · refine hT.op trivial fun _ => ?_
          exact ite_of (hT.ret _) (ite_of (hT.ret _) (hT.ret _))
      · exact hT.ret _
    · exact hT.ret _
  · cases left with
    | none => exact hT.ret _
    | some n => exact hT.op trivial fun _ => hT.ret _

theorem kill_of {pid : Int} (hk : ∀ p, T (perform (.setKilled p))) (hset : ∀ p, T (perform (.setState p .RUNNABLE))) :
    T (kill pid) := by
  refine hT.bind (hT.firstOf (fun p => ?_) procs) fun r => ?_
  · refine hT.op trivial fun _ => hT.op trivial fun sl => ?_
    split
    · refine hT.bind (hk p) fun _ => hT.op trivial fun sl' => ?_
      split
      · exact hT.bind (hset p) fun _ => hT.op trivial fun _ => hT.ret _
      · exact hT.op trivial fun _ => hT.ret _
    · exact hT.op trivial fun _ => hT.ret _
  · cases r with
    | none => exact hT.ret _
    | some r => exact hT.ret r

theorem allocpid_of (hpid : T (perform .nextpid)) : T allocpid :=
  hT.op trivial fun _ => hT.bind hpid fun pid => hT.op trivial fun _ => hT.ret pid

theorem findUnused_of : T (firstOf tryAlloc procs) := by
  refine hT.firstOf (fun p => ?_) procs
  refine hT.op trivial fun _ => hT.op trivial fun sl => ?_
  exact ite_of (hT.ret _) (hT.op trivial fun _ => hT.ret _)

theorem fork_of (hpid : T (perform .nextpid)) (hfound : ∀ p pid, T (perform (.found p pid)))
    (hnew : ∀ p, T (perform (.newContext p))) (hfree : ∀ p, T (freeproc p)) (hpar : ∀ p q, T (perform (.setParent p q)))
    (hset : ∀ p, T (perform (.setState p .RUNNABLE))) : T fork := by
  have hback : ∀ {α : Type} (p : Pr) (a : α), T (do freeproc p; release (.proc p); pure a) := fun p a =>
    hT.bind (hfree p) fun _ => hT.op trivial fun _ => hT.ret a
  have halloc : T allocproc := by
    refine hT.bind (findUnused_of hT) fun r => ?_
    cases r with
    | none => exact hT.ret _
    | some p =>
      refine hT.bind (allocpid_of hT hpid) fun pid => hT.bind (hfound p pid) fun _ => ?_
      refine hT.op trivial fun b => ite_of (hback p _) ?_
      refine hT.op trivial fun b => ite_of (hback p _) ?_
      exact hT.bind (hnew p) fun _ => hT.ret _
  refine hT.bind (me_of hT) fun p => hT.bind halloc fun r => ?_
  cases r with
  | none => exact hT.ret _
  | some np =>
    refine hT.op trivial fun b => ite_of (hback np _) ?_
    refine hT.op trivial fun sl => hT.op trivial fun _ => hT.op trivial fun _ => ?_
    refine hT.bind (hpar np p) fun _ => hT.op trivial fun _ => hT.op trivial fun _ => ?_
    exact hT.bind (hset np) fun _ => hT.op trivial fun _ => hT.ret _

theorem reparent_of {p : Pr} (hpar : ∀ q r, T (perform (.setParent q r))) (hwake : T (wakeup (.proc initproc))) :
    T (reparent p) := by
  refine hT.forEach (fun pp => ?_) procs
  refine hT.op trivial fun sl => ite_of ?_ (hT.ret ())
  exact hT.bind (hpar _ _) fun _ => hwake

theorem fileclose_of {f : File} (hpipe : ∀ w, T (pipeclose w)) (hsleep : ∀ n m, T (otherSleep n m))
    (hwake : ∀ n m, T (otherWake n m)) : T (fileclose f) := by
  cases f with
  | pipe w => exact hpipe w
  | other n m => exact hT.bind (hsleep n m) fun _ => hwake n m

theorem exit_of {status : Int} (hclose : ∀ f, T (fileclose f)) (hrep : ∀ p, T (reparent p))
    (hwake : ∀ o, T (wakeup (chanOf o))) (hz : ∀ p, T (perform (.zombie p status))) : T (exit status) := by
  refine hT.bind (me_of hT) fun p => ite_of (hT.one trivial) ?_
  refine hT.op trivial fun fs => hT.bind (hT.forEach hclose fs) fun _ => hT.op trivial fun _ => ?_
  refine hT.bind (hrep p) fun _ => hT.op trivial fun sl => hT.bind (hwake _) fun _ => ?_
  refine hT.op trivial fun _ => hT.bind (hz p) fun _ => hT.op trivial fun _ => ?_
  exact hT.op trivial fun _ => hT.one trivial

theorem waitScan_of {p : Pr} {addr : Bool} (hret : ∀ pp pid st, T (perform (.waitRet p pp pid st)))
    (hfree : ∀ pp, T (freeproc pp)) (pps : List Pr) : ∀ havekids, T (waitScan p addr pps havekids) := by
  induction pps with
  | nil => exact fun havekids => hT.ret _
  | cons pp pps ih =>
    intro havekids
    refine hT.op trivial fun sl => ite_of ?_ (ih havekids)
    refine hT.op trivial fun _ => hT.op trivial fun sl' => ite_of ?_ ?_
    · refine hT.op trivial fun ok => ite_of ?_ ?_
      · exact hT.op trivial fun _ => hT.op trivial fun _ => hT.ret _
      · refine hT.bind (hret _ _ _) fun _ => hT.bind (hfree pp) fun _ => ?_
        exact hT.op trivial fun _ => hT.op trivial fun _ => hT.ret _
    · exact hT.op trivial fun _ => ih true

theorem wait_of {addr : Bool} (hscan : ∀ p h, T (waitScan p addr procs h)) (hk : ∀ p, T (killed p true))
    (hsleep : ∀ p, T (sleep (.proc p) .wait)) : T (wait addr) := by
  refine hT.bind (me_of hT) fun p => hT.op trivial fun _ => hT.iterate () fun _ => ?_
  refine hT.bind (hscan p false) fun r => ?_
  match r with
  | .inr r => exact hT.ret _
  | .inl false => exact hT.op trivial fun _ => hT.ret _
  | .inl true =>
    refine hT.bind (hk p) fun k => ite_of ?_ ?_
    · exact hT.op trivial fun _ => hT.ret _
    · exact hT.bind (hsleep p) fun _ => hT.ret _

theorem pipewrite_of {buf : Nat → Option UInt8} {n : Int} (hpipe : T (perform .pipe)) (hk : ∀ p, T (killed p true))
    (hun : ∀ p, T (perform (.untest p))) (hput : ∀ ch, T (perform (.pput ch))) (hwake : T (wakeup .nread))
    (hsleep : T (sleep .nwrite .pipe)) : T (pipewrite buf n) := by
  have hloop : ∀ pr, T (pipewriteLoop pr buf n) := by
    refine fun pr => hT.iterate 0 fun i => ite_of ?_ (hT.ret _)
    refine hT.bind hpipe fun pi => ite_of ?_ ?_
    · exact hT.op trivial fun _ => hT.ret _
    · refine hT.bind (hk pr) fun k => ite_of ?_ ?_
      · exact hT.op trivial fun _ => hT.ret _
      · refine hT.bind hpipe fun pi => ite_of ?_ ?_
        · exact hT.bind hwake fun _ => hT.bind hsleep fun _ => hT.ret _
        · refine hT.bind (hun pr) fun _ => ?_
          cases buf i with
          | none => exact hT.ret _
          | some ch => exact hT.bind (hput ch) fun _ => hT.ret _
  refine hT.bind (me_of hT) fun pr => hT.op trivial fun _ => hT.bind (hloop pr) fun r => ?_
  cases r with
  | none => exact hT.ret _
  | some i => exact hT.bind hwake fun _ => hT.op trivial fun _ => hT.ret _

theorem piperead_of {mapped : Nat → Bool} {n : Int} (hpipe : T (perform .pipe)) (hk : ∀ p, T (killed p true))
    (htake : ∀ ok, T (perform (.ptake ok))) (hret : ∀ n i, T (perform (.readRet n i))) (hwake : T (wakeup .nwrite))
    (hsleep : T (sleep .nread .pipe)) : T (piperead mapped n) := by
  have hwait : ∀ pr, T (pipereadWait pr) := by
    refine fun pr => hT.iterate () fun _ => hT.bind hpipe fun pi => ite_of ?_ (hT.ret _)
    refine hT.bind (hk pr) fun k => ite_of ?_ ?_
    · exact hT.op trivial fun _ => hT.ret _
    · exact hT.bind hsleep fun _ => hT.ret _
  have hcopy : ∀ fuel i, T (pipereadCopy mapped fuel i) := by
    intro fuel
    induction fuel with
    | zero => exact fun i => hT.ret _
    | succ fuel ih =>
      refine fun i => hT.bind hpipe fun pi => ite_of (hT.ret _) ?_
      exact hT.bind (htake _) fun _ => ite_of (ih (i + 1)) (hT.ret _)
  refine hT.bind (me_of hT) fun pr => hT.op trivial fun _ => hT.bind (hwait pr) fun r => ite_of ?_ ?_
  · refine hT.bind (hcopy _ 0) fun i => hT.bind hwake fun _ => hT.bind (hret n i) fun _ => ?_
    exact hT.op trivial fun _ => hT.ret _
  · exact hT.ret _

theorem syscall_of {k : Syscall} (hfork : T fork) (hexit : ∀ status, T (exit status)) (hwait : ∀ addr, T (wait addr))
    (hkill : ∀ pid, k = .kill pid → T (kill pid)) (hsleep : ∀ n, T (sysSleep n)) (hwrite : ∀ buf n, T (pipewrite buf n))
    (hread : ∀ mapped n, T (piperead mapped n)) (hclose : ∀ f, T (fileclose f))
    (hcons : ∀ mapped n, T (consoleread mapped n)) (hos : ∀ n m, T (otherSleep n m)) (how : ∀ n m, T (otherWake n m)) :
    T (syscall k) := by
  cases k with
  | fork => exact hT.bind hfork fun _ => hT.ret ()
  | exit status => exact hexit status
  | wait addr => exact hT.bind (hwait addr) fun _ => hT.ret ()
  | kill pid => exact hT.bind (hkill pid rfl) fun _ => hT.ret ()
  | sleep n => exact hT.bind (hsleep n) fun _ => hT.ret ()
  | pipewrite buf n => exact hT.bind (hwrite buf n) fun _ => hT.ret ()
  | piperead mapped n => exact hT.bind (hread mapped n) fun _ => hT.ret ()
  | close f => exact hclose f
  | consoleread mapped n => exact hT.bind (hcons mapped n) fun _ => hT.ret ()
  | other n m => exact hT.bind (hos n m) fun _ => how n m

theorem usertrap_of {t : Trap} (hk : ∀ p, T (killed p false)) (hset : ∀ p, t = .fault → T (setkilled p))
    (hexit : T (exit (-1))) (hdev : ∀ d, T (devintr d)) (hyield : T yield) (hsys : ∀ k, t = .syscall k →
    T (syscall k)) :
    T (usertrap t) := by
  have hserve : ∀ p, T (serve p t) := by
    intro p
    cases t with
    | syscall k => exact hT.bind (hk p) fun b => ite_of (hT.bind hexit fun _ => hsys k rfl) (hsys k rfl)
    | intr d => exact hdev d
    | fault => exact hset p rfl
  have hend : ∀ {e : K Unit} (k : Bool), T e → T (if k = true then exit (-1) >>= fun _ => e else e) :=
    fun k he => ite_of (hT.bind hexit fun _ => he) he
  refine hT.bind (me_of hT) fun p => hT.bind (hserve p) fun _ => hT.bind (hk p) fun k => ?_
  -- only a timer interrupt gives up the processor at the end
  cases t with
  | syscall | fault => exact hend k (hT.ret ())
  | intr d =>
    cases d with
    | timer => exact hend k hyield
    | uart | other => exact hend k (hT.ret ())

theorem usertrap_of_parts {t : Trap} (hk : ∀ p mark, T (killed p mark)) (hset : ∀ p, t = .fault →
    T (perform (.setKilled p)))
    (hyield : T yield) (hkill : ∀ pid, t = .syscall (.kill pid) → T (kill pid)) (hwake : ∀ ch, T (wakeup ch))
    (hos : ∀ n m, T (sleep (.other m) (.other n))) (hts : T (sleep .ticks .ticks))
    (hcs : T (sleep .cons .cons)) (hfork : T fork) (hclose : ∀ w, T (pipeclose w))
    (hexit : (∀ f, T (fileclose f)) → ∀ status, T (exit status)) (hwait : ∀ addr, T (wait addr))
    (hwrite : ∀ buf n, T (pipewrite buf n)) (hread : ∀ mapped n, T (piperead mapped n)) : T (usertrap t) := by
  have hsleep : ∀ n m, T (otherSleep n m) := fun n m => otherSleep_of hT (hos n m)
  have hwakes : ∀ n m, T (otherWake n m) := fun n m => otherWake_of hT (hwake _)
  have hfiles : ∀ f, T (fileclose f) := fun f => fileclose_of hT hclose hsleep hwakes
  refine usertrap_of hT (fun p => hk p false) (fun p ht => setkilled_of hT (hset p ht)) (hexit hfiles _)
    (fun d => devintr_of hT (hwake _) (hwake _) fun _ => hwake _) hyield fun k ht => ?_
  exact syscall_of hT hfork (hexit hfiles) hwait (fun pid hk => hkill pid (hk ▸ ht))
    (fun n => sysSleep_of hT (fun p => hk p true) hts) hwrite hread hfiles
    (fun mapped n => consoleread_of hT (consoleWait_of hT (fun p => hk p true) hcs)) hsleep hwakes

end

end Xv6.Proc
