import Xv6.Proc.OneCpu
import Xv6.Proc.Parts

/-!
# `kill`

`kill` compares the pids of all slots, whatever their state, and the pid of a free
slot is 0: `kill(0)` marks the first free slot, and the process that gets the slot
next is killed from birth.  With any other argument `kill` marks a process that has
the pid, or nothing.

On one table (`kill_exact`, first part) `kill` runs alone.  Over all interleavings,
`killed` is only set in a slot in use, by a `kill` of its pid or by the process itself,
and a new process that is killed was named after it got its pid, if no `kill` of the pid
was under way then.
-/

namespace Xv6.Proc.Kill

open Cpus
open Function (update update_eq_self update_idem update_of_ne update_self)

/-! ## On one table -/

def target (m : Mem) (v : Int) (ps : List Pr) : Option Pr := ps.find? fun p => (m.slot p).pid = v

def hit (b : Slot) : Slot := { b with killed := true, state := if b.state = .SLEEPING then .RUNNABLE else b.state }

/-- The memory while processor `c` holds the lock of `p`. -/
def locked (m : Mem) (c : Nat) (p : Pr) : Mem :=
  { m with lock := update m.lock (.proc p) (some c), noff := update m.noff c (m.noff c + 1) }

variable {p : Pr} {v : Int} {x : Choice} {fresh : Option Ctx}

section
variable {α β : Type} {c : Nat} {p : Pr} {m m' : Mem} {a : α}

theorem alone_perform {o : Op β} {f : β → K α} {b : β} {m1 : Mem} (he : ∀ x, exec o (m.ctx c) c x m = .done b m1 none)
    (hc : m1.ctx = m.ctx) : Alone machine c (perform o >>= f) m a m' ↔ Alone machine c (f b) m1 a m' := by
  refine alone_op.trans ⟨?_, fun h => ⟨⟨true, []⟩, b, m1, he _, congrFun hc c, h⟩⟩
  rintro ⟨x, b', m2, he', -, h⟩
  have heq : Outcome.done b m1 none = Outcome.done b' m2 none := (he x).symm.trans he'
  cases heq
  exact h

theorem alone_acquire {f : Unit → K α} (hm : m.lock (.proc p) = none) :
    Alone machine c (acquire (.proc p) >>= f) m a m' ↔ Alone machine c (f ()) (locked m c p) a m' :=
  alone_perform (fun x => by simp only [exec, hm]; rfl) rfl

theorem alone_release {f : Unit → K α} (hm : m.lock (.proc p) = none) :
    Alone machine c (release (.proc p) >>= f) (locked m c p) a m' ↔ Alone machine c (f ()) m a m' := by
  refine alone_perform (fun x => ?_) rfl
  have hlock : update (locked m c p).lock (.proc p) none = m.lock := by
    show update (update m.lock _ _) _ _ = _
    rw [update_idem, ← hm, update_eq_self]
  have hnoff : update (locked m c p).noff c ((locked m c p).noff c - 1) = m.noff := by
    show update (update m.noff _ _) _ (update m.noff c _ c - 1) = _
    rw [update_idem, update_self, Nat.add_sub_cancel, update_eq_self]
  have hheld : (locked m c p).lock (.proc p) = some c := update_self ..
  simp only [exec]
  rw [if_pos hheld, hlock, hnoff]
  rfl

theorem setSlot_setSlot (b b' : Slot) : (m.setSlot p b).setSlot p b' = m.setSlot p b' := by
  show { m with slot := update (update m.slot p b) p b' } = _
  rw [update_idem]
  rfl

theorem setSlot_slot (b : Slot) : (m.setSlot p b).slot p = b := update_self ..

variable {f : Option Int → K α}

theorem alone_killSlot (hm : m.lock (.proc p) = none) : Alone machine c (killSlot v p >>= f) m a m' ↔
      if (m.slot p).pid = v then Alone machine c (f (some 0)) (m.setSlot p (hit (m.slot p))) a m'
      else Alone machine c (f none) m a m' := by
  unfold killSlot
  simp only [bind_assoc]
  rw [alone_acquire hm, slot, alone_perform (fun _ => rfl) rfl]
  by_cases hv : (m.slot p).pid = v
  · obtain ⟨b, hb⟩ : ∃ b, { m.slot p with killed := true } = b := ⟨_, rfl⟩
    have hstate : b.state = (m.slot p).state := by rw [← hb]
    have hkill : ∀ x, exec (.setKilled p) (m.ctx c) c x (locked m c p) = .done ()
      (locked (m.setSlot p b) c p) none := by
      subst hb
      exact fun _ => rfl
    have hread : ∀ x, exec (.slot p) (m.ctx c) c x (locked (m.setSlot p b) c p) =
        .done b (locked (m.setSlot p b) c p) none := fun _ =>
      congrArg (Outcome.done · _ _) (setSlot_slot b)
    rw [if_pos hv, if_pos (show ((locked m c p).slot p).pid = v from hv)]
    simp only [bind_assoc]
    rw [alone_perform hkill (by rfl), alone_perform hread (by rfl)]
    by_cases hs : (m.slot p).state = .SLEEPING
    · have hhit : { b with state := .RUNNABLE } = hit (m.slot p) := by rw [hit, if_pos hs, ← hb]
      have hset : ∀ x, exec (.setState p .RUNNABLE) (m.ctx c) c x (locked (m.setSlot p b) c p) =
          .done () (locked (m.setSlot p (hit (m.slot p))) c p) none := by
        intro x
        show Outcome.done () ((locked (m.setSlot p b) c p).setSlot p
          { (m.setSlot p b).slot p with state := .RUNNABLE }) none = _
        rw [setSlot_slot, hhit]
        exact congrArg (fun m => Outcome.done () (locked m c p) none) (setSlot_setSlot b _)
      have hfree : (m.setSlot p (hit (m.slot p))).lock (.proc p) = none := hm
      rw [if_pos (hstate.trans hs)]
      simp only [bind_assoc]
      rw [alone_perform hset (by rfl), alone_release hfree]
      rfl
    · have hhit : b = hit (m.slot p) := by rw [hit, if_neg hs, hb]
      have hfree : (m.setSlot p b).lock (.proc p) = none := hm
      rw [if_neg fun hc => hs (hstate.symm.trans hc), ← hhit]
      simp only [bind_assoc]
      rw [alone_release hfree]
      rfl
  · rw [if_neg hv, if_neg (show ¬((locked m c p).slot p).pid = v from hv), bind_assoc, alone_release hm]
    rfl

theorem alone_scan (hm : ∀ p, m.lock (.proc p) = none) (ps : List Pr) :
    Alone machine c (firstOf (killSlot v) ps >>= f) m a m' ↔
      (target m v ps = none ∧ Alone machine c (f none) m a m') ∨
      ∃ p, target m v ps = some p ∧ Alone machine c (f (some 0)) (m.setSlot p (hit (m.slot p))) a m' := by
  induction ps with
  | nil => simp [firstOf, target]
  | cons p ps ih =>
    rw [firstOf, bind_assoc, alone_killSlot (hm p)]
    by_cases hv : (m.slot p).pid = v
    · have ht : target m v (p :: ps) = some p := List.find?_cons_of_pos (by simpa using hv)
      rw [if_pos hv, ht]
      simp
    · have ht : target m v (p :: ps) = target m v ps := List.find?_cons_of_neg (by simpa using hv)
      rw [if_neg hv, ht]
      exact ih

theorem alone_kill {r : Int} (hm : ∀ p, m.lock (.proc p) = none) : Alone machine c (kill v) m r m' ↔
      (target m v procs = none ∧ r = -1 ∧ m' = m) ∨
      ∃ p, target m v procs = some p ∧ r = 0 ∧ m' = m.setSlot p (hit (m.slot p)) := by
  refine (alone_scan hm procs).trans (or_congr (and_congr_right fun _ => alone_ret) ?_)
  exact exists_congr fun p => and_congr_right fun _ => alone_ret

theorem kill_returns (c : Nat) (v : Int) (hm : ∀ p, m.lock (.proc p) = none) :
    ∃ r m', Alone machine c (kill v) m r m' := by
  cases ht : target m v procs with
  | none => exact ⟨-1, m, (alone_kill hm).mpr (.inl ⟨ht, rfl, rfl⟩)⟩
  | some p => exact ⟨0, _, (alone_kill hm).mpr (.inr ⟨p, ht, rfl, rfl⟩)⟩

end

/-! ## The layer

A context that has locked a slot knows the pid that it read there. -/

abbrev Seen := Option (Pr × Int)

/-- `killed` is set by the process that the trap of a fault is about, and by `kill` in the
slot where it has read its argument. -/
def pre (k : Option Trap) {β : Type} (o : Op β) (l : Local) (x : Seen) : Prop :=
  match o with
  | .setKilled p => (k = some .fault ∧ l.self = some p ∧ l.st p = some .RUNNING) ∨
      ∃ v, k = some (.syscall (.kill v)) ∧ x = some (p, v)
  | _ => True

def upd {β : Type} (o : Op β) (l : Local) (b : β) : Seen :=
  match o with
  | .slot p => if .proc p ∈ l.held then some (p, b.pid) else none
  | _ => none

def layer (k : Option Trap) : Layer Op Local Seen := ⟨pre k, fun _ _ _ _ => True, fun o l _ b => upd o l b⟩

/-- What was read is still locked. -/
def Held (l : Local) (x : Seen) : Prop := ∀ p v, x = some (p, v) → .proc p ∈ l.held

/-- The operation sets `killed` of `p`. -/
def Marks {β : Type} : Op β → Pr → Prop
  | .setKilled q, p => q = p
  | _, _ => False

section
variable {k : Option Trap} {β : Type} {l : Local} {x : Seen}

theorem held_upd (o : Op β) (b : β) : Held (Proc.upd o l b) (upd o l b) := by
  intro p v hx
  cases o with
  | slot q =>
    change (if .proc q ∈ l.held then some (q, b.pid) else none) = _ at hx
    by_cases hq : .proc q ∈ l.held
    · rw [if_pos hq] at hx
      cases hx
      show _ ∈ Local.held (if _ then _ else _)
      rw [if_pos hq]
      exact hq
    · rw [if_neg hq] at hx
      cases hx
  | _ => cases hx

end

/-! ## The code -/

/-- A property of programs that holds of all operations but the marking of a slot. -/
structure Unmarked (T : {α : Type} → K α → Prop) : Prop extends Closed T where
  one : ∀ {β : Type} {o : Op β}, (∀ p, ¬Marks o p) → T (perform o)

section
variable {T : {α : Type} → K α → Prop} (hT : Unmarked T)
include hT

theorem Unmarked.plain : Plain T where
  toClosed := hT.toClosed
  one {_ o} ho := by
    refine hT.one fun p hm => ?_
    cases o with
    | setKilled q => exact ho
    | _ => exact hm

theorem Unmarked.wakeup (ch : Chan) : T (wakeup ch) :=
  wakeup_of hT.plain (fun _ => hT.one fun _ => id) (hT.one fun _ => id)

theorem Unmarked.sleep (ch : Chan) (lk : Lock) : T (sleep ch lk) :=
  sleep_of hT.plain (fun _ => hT.one fun _ => id) (fun _ => hT.one fun _ => id) (fun _ => hT.one fun _ => id)
    fun _ => hT.one fun _ => id

theorem Unmarked.yield : T yield :=
  yield_of hT.plain fun _ => hT.one fun _ => id

theorem Unmarked.killed (p : Pr) (mark : Bool) : T (killed p mark) :=
  killed_of hT.plain (hT.one fun _ => id)

theorem Unmarked.pipeclose (w : Bool) : T (pipeclose w) :=
  pipeclose_of hT.plain (hT.one fun _ => id) (hT.wakeup _)

theorem Unmarked.fileclose (f : File) : T (fileclose f) :=
  fileclose_of hT.plain hT.pipeclose (fun _ _ => otherSleep_of hT.plain (hT.sleep _ _))
    fun _ _ => otherWake_of hT.plain (hT.wakeup _)

theorem Unmarked.exit (status : Int) : T (exit status) :=
  exit_of hT.plain hT.fileclose (fun _ => reparent_of hT.plain (fun _ _ => hT.one fun _ => id) (hT.wakeup _))
    (fun _ => hT.wakeup _) fun _ => hT.one fun _ => id

theorem Unmarked.fork : T fork :=
  fork_of hT.plain (hT.one fun _ => id) (fun _ _ => hT.one fun _ => id) (fun _ => hT.one fun _ => id)
    (fun _ => hT.one fun _ => id) (fun _ _ => hT.one fun _ => id) fun _ => hT.one fun _ => id

theorem Unmarked.kerneltrap (d : Dev) : T (kerneltrap d) :=
  kerneltrap_of hT.plain (devintr_of hT.plain (hT.wakeup _) (hT.wakeup _) fun _ => hT.wakeup _) hT.yield

theorem Unmarked.entry : ∀ t : Ctx, T (machine.entry t)
  | .proc _ => forkret_of hT.plain
  | .sched _ => scheduler_of hT.plain (fun _ => hT.one fun _ => id) (fun _ => hT.one fun _ => id)
      fun _ => hT.one fun _ => id

end

variable {k : Option Trap}

theorem unmarked_keeps : Unmarked ((layer k).Keeps logic Held) where
  toClosed := (layer k).closed_keeps logic Held
  one {_ o} ho := by
    refine Layer.keeps_op fun l x _ _ => ⟨?_, fun b _ _ => held_upd o b⟩
    cases o with
    | setKilled p => exact absurd rfl (ho p)
    | _ => trivial

/-- No operation may mark a slot. -/
def silent : Logic Op Unit := ⟨fun o _ => ∀ p, ¬Marks o p, fun _ _ _ => True, fun _ _ _ => ()⟩

/-- The program cannot mark a slot any more. -/
def Silent {α : Type} (m : K α) : Prop := wp silent m (fun _ _ => True) ()

theorem unmarked_silent : Unmarked Silent where
  ret _ := trivial
  bind hm hf := wp_call hm fun a _ _ => hf a
  iterate x hb := wp_iterate (fun _ _ => True) trivial fun y _ _ =>
    wp_mono (fun r _ _ => by cases r <;> trivial) _ _ (hb y)
  one ho := ⟨ho, fun _ _ => trivial⟩

theorem keeps_kill (v : Int) : (layer (some (.syscall (.kill v)))).Keeps logic Held (kill v) := by
  have hT := (unmarked_keeps (k := some (.syscall (.kill v)))).plain
  refine hT.bind (hT.firstOf (fun p => ?_) procs) fun r => ?_
  · have hrest : (layer (some (.syscall (.kill v)))).Keeps logic Held (do
        if (← slot p).state = .SLEEPING then
          perform (.setState p .RUNNABLE)
          release (.proc p)
          pure (some (0 : Int))
        else
          release (.proc p)
          pure (some 0)) := by
      refine hT.op trivial fun b => ite_of ?_ ?_
      · exact hT.bind (unmarked_keeps.one fun _ => id) fun _ => hT.op trivial fun _ => hT.ret _
      · exact hT.op trivial fun _ => hT.ret _
    intro l x hx
    unfold killSlot
    refine wp_op (fun _ => trivial) fun _ _ => ?_
    refine wp_op (fun _ => trivial) fun b _ => ?_
    have hlocked : Lock.proc p ∈ (l.take (.proc p)).held := List.mem_cons_self
    have hseen : upd (.slot p) (l.take (.proc p)) b = some (p, b.pid) := if_pos hlocked
    by_cases hv : b.pid = v
    · rw [if_pos hv]
      refine wp_op (fun _ => .inr ⟨v, rfl, ?_⟩) fun _ _ => hrest _ _ (held_upd (.setKilled p) ())
      rw [← hv]
      exact hseen
    · rw [if_neg hv]
      exact hT.op (o := .release (.proc p)) trivial (fun _ => hT.ret none) _ _ (held_upd (.slot p) b)
  · cases r with
    | none => exact hT.ret _
    | some r => exact hT.ret r

theorem wp_fault {l : Local} {x : Seen} (hs : l.self = some p) :
    wp ((layer (some .fault)).over logic) (usertrap .fault) (fun _ l' => Held l'.1 l'.2) (l, x) := by
  have hT := unmarked_keeps (k := some .fault)
  unfold usertrap me
  rw [bind_assoc]
  refine wp_op (fun _ => trivial) fun r hr => ?_
  obtain rfl : r = some p := by
    rcases hr.2.1 with hr | ⟨hn, -⟩
    · exact hr.trans hs
    · rw [hs] at hn
      cases hn
  have hset : wp ((layer (some .fault)).over logic) (setkilled p) (fun _ l' => Held l'.1 l'.2)
    (l, upd .myproc l (some p)) := by
    refine wp_op (fun _ => trivial) fun _ _ => ?_
    refine wp_op (fun _ => .inl ⟨rfl, hs, Local.take_st_self hs⟩) fun _ _ => ?_
    exact wp_perform (fun _ => trivial) fun _ _ => held_upd (.release (.proc p)) ()
  show wp _ (setkilled p >>= _) _ _
  refine wp_call hset fun _ l' hl => hT.bind (hT.killed p false) (fun b => ?_) l'.1 l'.2 hl
  exact ite_of (hT.bind (hT.exit _) fun _ => hT.ret ()) (hT.ret ())

theorem wp_usertrap (t : Trap) {l : Local} {x : Seen} (hs : l.self ≠ none) (hx : Held l x) :
    wp ((layer (some t)).over logic) (usertrap t) (fun _ l' => Held l'.1 l'.2) (l, x) := by
  by_cases ht : t = .fault
  · subst ht
    obtain ⟨p, hp⟩ := Option.ne_none_iff_exists'.mp hs
    exact wp_fault hp
  have hT := unmarked_keeps (k := some t)
  refine usertrap_of_parts (t := t) hT.plain hT.killed (fun _ hc => absurd hc ht) hT.yield
    (fun pid hk => hk ▸ keeps_kill pid) hT.wakeup (fun _ _ => hT.sleep _ _) (hT.sleep _ _) (hT.sleep _ _)
    hT.fork hT.pipeclose (fun _ => hT.exit) (fun addr => ?_) (fun buf n => ?_) (fun mapped n => ?_) l x hx
  · exact wait_of hT.plain (fun p h => waitScan_of (p := p) hT.plain (fun _ _ _ => hT.one fun _ => id)
      (fun _ => hT.one fun _ => id) procs h) (fun p => hT.killed p true) fun p => hT.sleep _ _
  · exact pipewrite_of hT.plain (hT.one fun _ => id) (fun p => hT.killed p true)
      (fun _ => hT.one fun _ => id) (fun _ => hT.one fun _ => id) (hT.wakeup _) (hT.sleep _ _)
  · exact piperead_of hT.plain (hT.one fun _ => id) (fun p => hT.killed p true)
      (fun _ => hT.one fun _ => id) (fun _ _ => hT.one fun _ => id) (hT.wakeup _) (hT.sleep _ _)

/-! ## What an operation does to a slot -/

/-- How a slot changes: in other fields, or from one state of a process in use to another
that is not USED; or, with its lock held, it is marked, given a pid, or freed. -/
inductive Change (marks held : Prop) (b : Slot) : Slot → Prop
  | keep {b' : Slot} (hpid : b'.pid = b.pid) (hkilled : b'.killed = b.killed)
      (hstate : b'.state = b.state ∨ b.state ≠ .UNUSED ∧ b'.state ≠ .UNUSED ∧ b'.state ≠ .USED) : Change marks held b b'
  | mark (hm : marks) (hl : held) : Change marks held b { b with killed := true }
  | found (pid : Int) (hl : held) (hu : b.state = .UNUSED) : Change marks held b { b with pid := pid, state := .USED }
  | free (hl : held) : Change marks held b .free

section
variable {s s' : Mem} {Λ : Ctx → Local} {c : Nat} {marks held : Prop}

theorem Change.same (b : Slot) : Change marks held b b := .keep rfl rfl (.inl rfl)

theorem change_setSlot {β : Type} (o : Op β) {l : Local} {b : Slot}
    (h : Change (Marks o p) (.proc p ∈ l.held) (s.slot p) b) (q : Pr) :
    Change (Marks o q) (.proc q ∈ l.held) (s.slot q) ((s.setSlot p b).slot q) := by
  by_cases hq : q = p
  · subst hq
    rw [setSlot_slot]
    exact h
  · rw [show (s.setSlot p b).slot q = s.slot q from update_of_ne hq _ _]
    exact .same _

theorem change_state (hi : Proc.Inv s Λ) {x : ProcState} (hpre : Proc.pre (.setState p x) (Λ (s.ctx c))) :
    (s.slot p).state ≠ .UNUSED ∧ x ≠ .UNUSED ∧ x ≠ .USED := by
  obtain ⟨-, ⟨-, hst, rfl⟩ | ⟨-, hst, rfl, -⟩ | ⟨-, hst, rfl⟩ | ⟨hs, -, hown, rfl⟩⟩ := hpre
  · rw [(hi.known c p _ hst).2]
    decide
  · rw [(hi.known c p _ hst).2]
    decide
  · rw [(hi.known c p _ hst).2]
    decide
  · obtain ⟨q, hq⟩ := Option.ne_none_iff_exists'.mp hs
    rw [hi.ctx_proc hq] at hown
    rw [(hi.own q p true hown).1]
    decide

theorem change_of_exec (hi : Proc.Inv s Λ) {β : Type} {o : Op β} {b : β}
    (hpre : Proc.pre o (Λ (s.ctx c))) (he : exec o (s.ctx c) c x s = .done b s' fresh) (p : Pr) :
    Change (Marks o p) (.proc p ∈ (Λ (s.ctx c)).held) (s.slot p) (s'.slot p) := by
  cases o with
  | acquire lk =>
    rw [(exec_acquire he).2.1]
    exact .same _
  | release lk =>
    rw [(exec_release he).2.1]
    exact .same _
  | sched =>
    rw [(exec_sched he).1]
    exact .same _
  | setState q y =>
    cases he
    refine change_setSlot (.setState q y) ?_ p
    exact .keep rfl rfl (.inr (change_state hi hpre))
  | sleepOn q ch =>
    cases he
    refine change_setSlot (.sleepOn q ch) ?_ p
    refine .keep rfl rfl (.inr ⟨?_, by simp, by simp⟩)
    rw [(hi.known c q _ hpre.2.2).2]
    decide
  | wake q ch =>
    cases he
    by_cases hw : (s.slot q).state = .SLEEPING ∧ (s.slot q).chan = ch
    · rw [if_pos hw]
      refine change_setSlot (.wake q ch) ?_ p
      refine .keep rfl rfl (.inr ⟨?_, by simp, by simp⟩)
      rw [hw.1]
      decide
    · rw [if_neg hw]
      exact .same _
  | zombie q st =>
    cases he
    refine change_setSlot (.zombie q st) ?_ p
    refine .keep rfl rfl (.inr ⟨?_, by simp, by simp⟩)
    rw [(hi.known c q _ hpre.2.2.2.2.2).2]
    decide
  | clearChan q =>
    cases he
    refine change_setSlot (.clearChan q) ?_ p
    exact .keep rfl rfl (.inl rfl)
  | setParent q r =>
    cases he
    refine change_setSlot (.setParent q r) ?_ p
    exact .keep rfl rfl (.inl rfl)
  | setKilled q =>
    cases he
    exact change_setSlot (.setKilled q) (.mark rfl hpre) p
  | found q pid =>
    cases he
    exact change_setSlot (.found q pid) (.found pid hpre.1 (hi.known c q _ hpre.2.2.1).2) p
  | freeproc q =>
    cases he
    exact change_setSlot (.freeproc q) (.free hpre.1) p
  | panic => cases he
  | _ =>
    cases he
    exact .same _

end

/-! ## All runs -/

/-- What a context has seen is true, and the context is on a processor. -/
def Inv (s : Mem) (Λ : Ctx → Local) (N : Ctx → Seen) : Prop :=
  ∀ t p v, N t = some (p, v) → ∃ c, s.ctx c = t ∧ .proc p ∈ (Λ t).held ∧ (s.slot p).pid = v

section
variable {s s' : Mem} {Λ : Ctx → Local} {N : Ctx → Seen} {c : Nat}

variable {β : Type}

variable {o : Op β}

theorem ctx_of_exec {t : Ctx} {b : β}
    (he : exec o t c x s = .done b s' fresh) {d : Nat} (hd : d ≠ c) : s'.ctx d = s.ctx d := by
  cases o with
  | acquire lk => rw [(exec_acquire he).2.1]
  | release lk => rw [(exec_release he).2.1]
  | sched =>
    rw [(exec_sched he).1]
    exact update_of_ne hd _ _
  | swtch p =>
    cases he
    exact update_of_ne hd _ _
  | wake p ch =>
    cases he
    split <;> rfl
  | panic => cases he
  | _ =>
    cases he
    rfl

/-- A pid that a processor has read under the lock does not change by what others do. -/
theorem pid_of_exec (hi : Proc.Inv s Λ) {b : β} {d : Nat}
    (hpre : Proc.pre o (Λ (s.ctx c))) (he : exec o (s.ctx c) c x s = .done b s' fresh) (hd : d ≠ c)
    (hp : .proc p ∈ (Λ (s.ctx d)).held) : (s'.slot p).pid = (s.slot p).pid := by
  have hnot : .proc p ∉ (Λ (s.ctx c)).held := fun hc =>
    hd (Option.some.inj (((hi.held d _).mp hp).symm.trans ((hi.held c _).mp hc)))
  have hchange := change_of_exec hi hpre he p
  generalize s'.slot p = b' at hchange ⊢
  cases hchange with
  | keep hpid => exact hpid
  | mark => rfl
  | found _ hl => exact absurd hl hnot
  | free hl => exact absurd hl hnot

theorem Inv.exec (hi : Proc.Inv s Λ) (h : Inv s Λ N) {b : β}
    (hpre : Proc.pre o (Λ (s.ctx c))) (he : exec o (s.ctx c) c x s = .done b s' fresh) :
    Inv s' (renew Proc.start (update Λ (s.ctx c) (Proc.upd o (Λ (s.ctx c)) b)) fresh)
      (renew (fun _ => none) (update N (s.ctx c) (upd o (Λ (s.ctx c)) b)) fresh) := by
  intro t p v hN
  -- a fresh context has seen nothing
  have hfresh : ∀ q, fresh = some q → t ≠ q := by
    rintro q rfl rfl
    rw [renew, update_self] at hN
    cases hN
  have hrenew : ∀ {M : Type} (start X : Ctx → M), renew start X fresh t = X t := by
    intro M start X
    cases fresh with
    | none => rfl
    | some q => exact renew_of_ne (hfresh q rfl)
  rw [hrenew] at hN ⊢
  by_cases ht : t = s.ctx c
  · subst ht
    rw [update_self] at hN ⊢
    cases o with
    | slot q =>
      have hin := held_upd (.slot q) b p v hN
      cases he
      change (if _ then some (q, (s.slot q).pid) else none) = some (p, v) at hN
      split at hN
      · cases hN
        exact ⟨c, rfl, hin, rfl⟩
      · cases hN
    | _ => cases hN
  · rw [update_of_ne ht] at hN ⊢
    obtain ⟨d, rfl, hin, hpid⟩ := h t p v hN
    have hd : d ≠ c := fun hc => ht (congrArg s.ctx hc)
    exact ⟨d, ctx_of_exec he hd, hin, (pid_of_exec hi hpre he hd hin).trans hpid⟩

end

theorem held_none (l : Local) : Held l none := fun _ _ hx => by cases hx

/-- The local states of the two layers agree with the memory. -/
def Both (s : Mem) (Λ : Ctx → Local × Seen) : Prop :=
  Proc.Inv s (fun t => (Λ t).1) ∧ Inv s (fun t => (Λ t).1) fun t => (Λ t).2

theorem calls : Calls machine (fun k => (layer k).full logic) (fun _ _ _ => True) Both
    (fun l => l.1.User ∧ Held l.1 l.2) (fun l => l.1.Quiet ∧ l.2 = none) (fun t => (Proc.start t, none)) where
  done k β o c x s Λ b s' fresh hI hpre _ he := by
    obtain ⟨hr, hi⟩ := hI.1.exec o hpre.1 he
    refine ⟨⟨hr, trivial⟩, ?_⟩
    unfold Both
    rw [fst_renew_update, snd_renew_update]
    exact ⟨hi, Inv.exec hI.1 hI.2 hpre.1 he⟩
  isQuiet s Λ c hI hn := by
    have hq := hI.1.quiet (of_decide_eq_true hn)
    refine ⟨hq, ?_⟩
    cases hx : (Λ (s.ctx c)).2 with
    | none => exact hx
    | some y =>
      obtain ⟨-, -, hin, -⟩ := hI.2 _ _ _ hx
      exact absurd hin hq.notMem
  code k l hl := wp_full _ (sound.code k l.1 hl.1) (wp_usertrap k hl.1.self hl.2)
  handler k d l hl := by
    refine wp_mono (fun _ l' h => ?_) _ _
      (wp_full _ (sound.handler d l.1 hl.1) (unmarked_keeps.kerneltrap d l.1 l.2 (by rw [hl.2]; exact held_none l.1)))
    obtain ⟨h1, h2⟩ := h
    refine Prod.ext h1 ?_
    rw [hl.2]
    cases hx : l'.2 with
    | none => rfl
    | some y => exact absurd (h2 _ _ hx) (by rw [h1]; exact hl.1.notMem)
  entry k t := wp_full _ (sound.entry t) (unmarked_keeps.entry t _ _ (held_none _))

/-! ## Who is named -/

abbrev Calling := Called Op Mem Ctx Trap

/-- A call of `kill(v)` is under way: it can still mark a slot. -/
def Killing (w : Calling) (v : Int) : Prop :=
  ∃ t, w.call t = some (.syscall (.kill v)) ∧ ¬Silent (w.st.prog t)

def killArg : Action → Option Int
  | .call _ (.syscall (.kill v)) => some v
  | _ => none

/-- The machine with the calls, and with the slots in use whose pid `kill` was called with after they got it. -/
structure Watched where
  sys : Calling
  named : Pr → Prop

def Watched.step (w : Watched) (a : Action) : Option Watched :=
  (w.sys.step machine a).map fun s =>
    ⟨s, fun p => (s.st.shared.slot p).state ≠ .UNUSED ∧ (w.named p ∨ killArg a = some (s.st.shared.slot p).pid)⟩

def Watched.Initial (w : Watched) : Prop := ∃ data, w = ⟨⟨boot data, fun _ => none⟩, fun _ => False⟩

/-- `kill` is not called with 0, and no `kill(v)` is under way when a slot gets the pid `v`. -/
def Clear (w : Watched) (a : Action) : Prop :=
  killArg a ≠ some 0 ∧ ∀ w' p, w.step a = some w' → (w.sys.st.shared.slot p).state = .UNUSED →
    (w'.sys.st.shared.slot p).state ≠ .UNUSED → ¬Killing w'.sys (w'.sys.st.shared.slot p).pid

/-- A free slot has pid 0 and is not killed; a slot whose process has not started is not
killed unless it was named. -/
structure Marked (w : Watched) : Prop where
  nonzero : ∀ t, w.sys.call t ≠ some (.syscall (.kill 0))
  free : ∀ p, (w.sys.st.shared.slot p).state = .UNUSED →
    (w.sys.st.shared.slot p).pid = 0 ∧ (w.sys.st.shared.slot p).killed = false
  used : ∀ p, (w.sys.st.shared.slot p).state = .USED → (w.sys.st.shared.slot p).killed = true → w.named p
  killing : ∀ p, (w.sys.st.shared.slot p).state ≠ .UNUSED → Killing w.sys (w.sys.st.shared.slot p).pid → w.named p

/-- Who sets `killed` of `p`: the process itself, at a fault, or a call of `kill` with its pid. -/
def MarkedBy (w : Calling) (c : Nat) (p : Pr) : Prop :=
  (w.call (w.st.shared.ctx c) = some .fault ∧ w.st.shared.ctx c = .proc p ∧ (w.st.shared.slot p).state = .RUNNING) ∨
  w.call (w.st.shared.ctx c) = some (.syscall (.kill (w.st.shared.slot p).pid)) ∧
    ¬Silent (w.st.prog (w.st.shared.ctx c))

section
variable {w w' : Watched} {a : Action}

variable {b b' : Slot} {held marks : Prop}

theorem Change.imp {marks' held' : Prop} (h : Change marks held b b') (hm : marks → held → marks')
    (hl : held → held') : Change marks' held' b b' := by
  cases h with
  | keep h1 h2 h3 => exact .keep h1 h2 h3
  | mark h1 h2 => exact .mark (hm h1 h2) (hl h2)
  | found pid h1 h2 => exact .found pid (hl h1) h2
  | free h1 => exact .free (hl h1)

theorem Change.marked (h : Change marks held b b') (h0 : b.killed = false) (h1 : b'.killed = true) : marks := by
  cases h with
  | keep _ hk _ => exact absurd (h0.symm.trans (hk.symm.trans h1)) (by decide)
  | mark hm _ => exact hm
  | found => exact absurd (h0.symm.trans h1) (by decide)
  | free => exact absurd h1 (by decide)

theorem Change.start (h : Change marks held b b') (hu : b.state = .USED)
    (hr : b'.state = .RUNNABLE) : b'.killed = b.killed := by
  cases h with
  | keep _ hk _ => exact hk
  | mark => exact absurd (hu.symm.trans hr) (by decide)
  | found _ _ hf => exact absurd (hu.symm.trans hf) (by decide)
  | free => exact absurd hr (by decide)

abbrev Watched.Good (w : Watched) : Prop :=
  Called.Good (fun k => (layer k).full logic) Both (fun l => l.1.User ∧ Held l.1 l.2) w.sys

theorem change_of_step (hg : w.Good) (hs : w.step a = some w') (p : Pr) :
    Change (∃ c x, a = .step c x ∧ MarkedBy w.sys c p) True (w.sys.st.shared.slot p) (w'.sys.st.shared.slot p) := by
  obtain ⟨Λ, hB, hw⟩ := hg
  obtain ⟨s', hs', rfl⟩ := Option.map_eq_some_iff.mp hs
  obtain ⟨st, hst, rfl⟩ := Option.map_eq_some_iff.mp hs'
  cases moves_of_step hst with
  | call | intr | halt | turn => exact .same _
  | @op c x β o k b s1 fresh hp he =>
    replace hp : w.sys.st.prog (w.sys.st.shared.ctx c) = .op o k := hp
    have hwp := hw (w.sys.st.shared.ctx c)
    rw [hp] at hwp
    refine (change_of_exec hB.1 hwp.1.1 he p).imp (fun hm _ => ⟨c, x, rfl, ?_⟩) fun _ => trivial
    have hmark := hwp.1.2
    cases o with
    | setKilled q =>
      obtain rfl : q = p := hm
      rcases hmark with ⟨hk, hself, hrunning⟩ | ⟨v, hk, hseen⟩
      · exact .inl ⟨hk, hB.1.ctx_proc hself, (hB.1.known c q _ hrunning).2⟩
      · obtain ⟨-, -, -, rfl⟩ := hB.2 _ _ _ hseen
        refine .inr ⟨hk, ?_⟩
        rw [hp]
        exact fun hsilent => hsilent.1 q rfl
    | _ => exact hm.elim

theorem Marked.not_unused (h : Marked w) {c : Nat} (hm : MarkedBy w.sys c p) :
    (w.sys.st.shared.slot p).state ≠ .UNUSED := by
  intro hu
  rcases hm with ⟨-, -, hr⟩ | ⟨hk, -⟩
  · rw [hr] at hu
    cases hu
  · rw [(h.free p hu).1] at hk
    exact h.nonzero _ hk

section
variable (h : Marked w) (hp : Change (∃ c x, a = .step c x ∧ MarkedBy w.sys c p) True (w.sys.st.shared.slot p) b)
include h hp

theorem Marked.change_free (hu : b.state = .UNUSED) : b.pid = 0 ∧ b.killed = false := by
  cases hp with
  | keep hpid hkilled hstate =>
    rcases hstate with hstate | ⟨-, hne, -⟩
    · rw [hpid, hkilled]
      exact h.free p (hstate ▸ hu)
    · exact absurd hu hne
  | mark hm =>
    obtain ⟨c, x, -, hm⟩ := hm
    exact absurd hu (h.not_unused hm)
  | found => cases hu
  | free => exact ⟨rfl, rfl⟩

theorem Marked.change_used (hu : b.state = .USED) (hk : b.killed = true) : w.named p := by
  cases hp with
  | keep hpid hkilled hstate =>
    rcases hstate with hstate | ⟨-, -, hne⟩
    · exact h.used p (hstate ▸ hu) (hkilled ▸ hk)
    · exact absurd hu hne
  | mark hm =>
    obtain ⟨c, x, -, hm⟩ := hm
    refine h.killing p (h.not_unused hm) ?_
    rcases hm with ⟨-, -, hr⟩ | ⟨hcall, hrun⟩
    · exact absurd (hr.symm.trans hu) (by decide)
    · exact ⟨_, hcall, hrun⟩
  | found pid _ hfree => exact absurd ((h.free p hfree).2.symm.trans hk) (by decide)
  | free => cases hu

end

theorem silent_of_step {s s' : State} (hs : Cpus.step machine s a = some s') (t : Ctx) (h : Silent (s.prog t))
    (hc : ∀ c k, a = .call c k → t ≠ s.shared.ctx c) : Silent (s'.prog t) := by
  have hset : ∀ {prog : Ctx → K Unit} {q : Ctx} {m : K Unit}, Silent (prog t) → (t = q → Silent m) →
      Silent (update prog q m t) := by
    intro prog q m ht hm
    by_cases hq : t = q
    · rw [hq, update_self]
      exact hm hq
    · rwa [update_of_ne hq]
  cases moves_of_step hs with
  | call hp => exact hset h fun ht => absurd ht (hc _ _ rfl)
  | @intr c d he => exact hset h fun ht => unmarked_silent.bind (unmarked_silent.kerneltrap d) fun _ => ht ▸ h
  | @op c x β o k b s1 fresh hp he =>
    have hop : Silent (update s.prog (s.shared.ctx c) (k b) t) := by
      refine hset h fun ht => ?_
      rw [ht, show s.prog (s.shared.ctx c) = _ from hp] at h
      exact h.2 b trivial
    cases fresh with
    | none => exact hop
    | some q => exact hset hop fun _ => unmarked_silent.entry q
  | halt => exact h
  | @turn c x β γ body y k hp =>
    refine hset h fun ht => ?_
    rw [ht, hp] at h
    exact wp_unroll h

theorem killing_of_step (hs : w.step a = some w') (h : Killing w'.sys v) : Killing w.sys v ∨ killArg a = some v := by
  obtain ⟨s', hs', rfl⟩ := Option.map_eq_some_iff.mp hs
  obtain ⟨st, hst, rfl⟩ := Option.map_eq_some_iff.mp hs'
  obtain ⟨t, hcall, hmay⟩ := h
  by_cases hc : ∃ c k, a = .call c k ∧ t = w.sys.st.shared.ctx c
  · obtain ⟨c, k, rfl, rfl⟩ := hc
    change update w.sys.call (w.sys.st.shared.ctx c) (some k) (w.sys.st.shared.ctx c) = _ at hcall
    rw [update_self] at hcall
    cases hcall
    exact .inr rfl
  · have hcall' : w.sys.call t = some (.syscall (.kill v)) := by
      cases a with
      | call c k => exact (update_of_ne (fun ht => hc ⟨c, k, rfl, ht⟩) _ _).symm.trans hcall
      | intr c d => exact hcall
      | step c x => exact hcall
    exact .inl ⟨t, hcall', fun h => hmay (silent_of_step hst t h fun c k ha ht => hc ⟨c, k, ha, ht⟩)⟩

/-- A slot whose pid a call under way is about was named, unless it has only just got the pid. -/
theorem Marked.change_killing (h : Marked w) (ha : Clear w a) (hs : w.step a = some w')
    (hp : Change (∃ c x, a = .step c x ∧ MarkedBy w.sys c p) True (w.sys.st.shared.slot p) (w'.sys.st.shared.slot p))
    (hu : (w'.sys.st.shared.slot p).state ≠ .UNUSED) (hk : Killing w'.sys (w'.sys.st.shared.slot p).pid) :
    w.named p ∨ killArg a = some (w'.sys.st.shared.slot p).pid := by
  refine (killing_of_step hs hk).imp_left fun hkw => ?_
  have hused : (w.sys.st.shared.slot p).state ≠ .UNUSED := fun h0 => ha.2 w' p hs h0 hu hk
  refine h.killing p hused ?_
  generalize w'.sys.st.shared.slot p = b at hp hkw hu
  cases hp with
  | keep hpid => exact hpid ▸ hkw
  | mark => exact hkw
  | found _ _ h0 => exact absurd h0 hused
  | free => exact absurd rfl hu

theorem Marked.step (h : Marked w) (hg : w.Good) (ha : Clear w a) (hs : w.step a = some w') : Marked w' := by
  have hchange := change_of_step hg hs
  have hkilling := fun p => h.change_killing ha hs (hchange p)
  obtain ⟨s', hs', rfl⟩ := Option.map_eq_some_iff.mp hs
  obtain ⟨st, hst, rfl⟩ := Option.map_eq_some_iff.mp hs'
  refine ⟨fun t => ?_, fun p hu => h.change_free (hchange p) hu, fun p hu hk => ?_, fun p hp hk => ?_⟩
  · cases a with
    | call c k =>
      show update w.sys.call (w.sys.st.shared.ctx c) (some k) t ≠ _
      by_cases ht : t = w.sys.st.shared.ctx c
      · rw [ht, update_self]
        intro hk
        cases hk
        exact ha.1 rfl
      · rw [update_of_ne ht]
        exact h.nonzero t
    | intr c i => exact h.nonzero t
    | step c x => exact h.nonzero t
  · exact ⟨by rw [hu]; decide, .inl (h.change_used (hchange p) hu hk)⟩
  · exact ⟨hp, hkilling p hp hk⟩

theorem reach_marked (h : Run.Reach Watched.step Clear Watched.Initial w) : w.Good ∧ Marked w := by
  refine h.invariant (fun w => w.Good ∧ Marked w) ?_ fun w a w' hi ha hs => ?_
  · rintro w ⟨data, rfl⟩
    refine ⟨⟨fun t => (Proc.start t, none), ⟨inv_boot data, fun t p v hx => by cases hx⟩, calls.entry none⟩, ?_⟩
    have hslot : ∀ p, ((bootMem data).slot p).killed = false ∧ (((bootMem data).slot p).state = .UNUSED →
        ((bootMem data).slot p).pid = 0) := by
      intro p
      show (ite _ _ _ : Slot).killed = false ∧ ((ite _ _ _ : Slot).state = _ → (ite _ _ _ : Slot).pid = 0)
      split
      · exact ⟨rfl, fun hc => by cases hc⟩
      · exact ⟨rfl, fun _ => rfl⟩
    refine ⟨fun t hc => ?_, fun p hu => ⟨(hslot p).2 hu, (hslot p).1⟩, fun p _ hk => ?_, fun p _ hk => ?_⟩
    · cases hc
    · exact absurd ((hslot p).1.symm.trans hk) (by decide)
    · obtain ⟨t, hc, -⟩ := hk
      cases hc
  · refine ⟨?_, hi.2.step hi.1 ha hs⟩
    obtain ⟨s', hs', rfl⟩ := Option.map_eq_some_iff.mp hs
    exact calls.keeps hi.1 (stepOk_of_all (fun _ _ _ => trivial) _ a) hs'

end

/-- A run without `kill` meets the condition. -/
theorem watch_reach {s : State} (h : Run.Reach (step machine) (fun _ a => killArg a = none) Initial s) :
    ∃ w : Watched, Run.Reach Watched.step Clear Watched.Initial w ∧ w.sys.st = s ∧ ∀ v, ¬Killing w.sys v := by
  induction h with
  | start hi =>
    obtain ⟨data, rfl⟩ := hi
    refine ⟨_, .start ⟨data, rfl⟩, rfl, fun v hk => ?_⟩
    obtain ⟨t, hc, -⟩ := hk
    cases hc
  | @next s s' a _ ha hs ih =>
    obtain ⟨w, hw, rfl, hno⟩ := ih
    have hno' : ∀ w', w.step a = some w' → ∀ v, ¬Killing w'.sys v := by
      intro w' hs v hk
      rcases killing_of_step hs hk with hk | hk
      · exact hno v hk
      · rw [ha] at hk
        cases hk
    have hc : w.sys.step machine a = some ⟨s', remember machine w.sys.st.shared w.sys.call a⟩ := by
      rw [Called.step, hs]
      rfl
    have hstep : w.step a = some _ := congrArg (Option.map _) hc
    exact ⟨_, .next a hw ⟨by simp [ha], fun w' p hs _ _ => hno' w' hs _⟩ hstep, rfl, hno' _ hstep⟩

theorem target_spec {m : Mem} : (∀ p, target m v procs = some p → (m.slot p).pid = v) ∧
    (target m v procs = none → ∀ p, (m.slot p).pid ≠ v) := by
  refine ⟨fun p hp => by simpa using List.find?_some hp, fun hn p => ?_⟩
  simpa using List.find?_eq_none.mp hn p (List.mem_finRange p)

/-- In runs that do not call `kill` with 0, and in which no pid is given while a `kill` of it is
under way.  On the table of every state, `kill(v)` returns 0 if a slot in use has the pid `v`, and
marks such a slot and wakes it; otherwise it returns -1 and changes nothing.  A step sets `killed`
only in a slot in use, for a fault of the process there or for a `kill` of its pid, and for a
process that starts killed, `kill` was called with its pid after it got it. -/
theorem kill_exact {w : Watched} (h : Run.Reach Watched.step Clear Watched.Initial w) :
    (∀ (v : Int) (c : Nat) (m : Mem), v ≠ 0 → m.slot = w.sys.st.shared.slot → (∀ p, m.lock (.proc p) = none) →
      (∃ r m', Alone machine c (kill v) m r m') ∧ ∀ r m', Alone machine c (kill v) m r m' →
        (r = 0 ∧ ∃ p, (m.slot p).state ≠ .UNUSED ∧ (m.slot p).pid = v ∧ m' = m.setSlot p (hit (m.slot p))) ∨
        (r = -1 ∧ m' = m ∧ ∀ p, (m.slot p).state ≠ .UNUSED → (m.slot p).pid ≠ v)) ∧
    ∀ a w' p, w.step a = some w' →
      ((w.sys.st.shared.slot p).killed = false → (w'.sys.st.shared.slot p).killed = true →
        (w.sys.st.shared.slot p).state ≠ .UNUSED ∧ ∃ c x, a = .step c x ∧ MarkedBy w.sys c p) ∧
      ((w.sys.st.shared.slot p).state = .USED → (w'.sys.st.shared.slot p).state = .RUNNABLE →
        (w'.sys.st.shared.slot p).killed = true → w'.named p) := by
  obtain ⟨hg, hm⟩ := reach_marked h
  refine ⟨fun v c m hv hslot hfree => ⟨kill_returns c v hfree, fun r m' hrun => ?_⟩, fun a w' p hs => ?_⟩
  · rcases (alone_kill hfree).mp hrun with ⟨ht, rfl, rfl⟩ | ⟨p, ht, rfl, rfl⟩
    · exact .inr ⟨rfl, rfl, fun p _ => target_spec.2 ht p⟩
    · have hpid := target_spec.1 p ht
      refine .inl ⟨rfl, p, fun hu => hv ?_, hpid, rfl⟩
      rw [← hpid, hslot]
      exact (hm.free p (hslot ▸ hu)).1
  · have hchange := change_of_step hg hs p
    obtain ⟨s', hs', rfl⟩ := Option.map_eq_some_iff.mp hs
    refine ⟨fun h0 h1 => ?_, fun hu hr hk => ?_⟩
    · obtain ⟨c, x, ha, hby⟩ := hchange.marked h0 h1
      exact ⟨hm.not_unused hby, c, x, ha, hby⟩
    · refine ⟨?_, .inl (hm.used p hu ((hchange.start hu hr).symm.trans hk))⟩
      rw [show (s'.st.shared.slot p).state = .RUNNABLE from hr]
      decide

/-- The first process has a child that it can kill. -/
theorem kill_exact_child : ∃ w : Watched, Run.Reach Watched.step Clear Watched.Initial w ∧
    (w.sys.st.shared.slot 1).state = .RUNNABLE ∧ (w.sys.st.shared.slot 1).pid = 2 ∧
    ∀ m r m', m.slot = w.sys.st.shared.slot → (∀ p, m.lock (.proc p) = none) →
      Alone machine 0 (kill 2) m r m' → r = 0 := by
  have hview : (Run.runOk (step machine) (fun _ a => killArg a = none) (boot fun _ => 0)
      (steps 0 9 ++ .call 0 (.syscall .fork) :: steps 0 29)).map
        (fun s => ((s.shared.slot 1).state, (s.shared.slot 1).pid)) = some (.RUNNABLE, 2) := by
    decide +kernel
  obtain ⟨s, hs, hv⟩ := Option.map_eq_some_iff.mp hview
  obtain ⟨h1, h2⟩ := Prod.mk.inj hv
  obtain ⟨w, hw, rfl, -⟩ := watch_reach (Run.Reach.of_runOk _ (.start ⟨_, rfl⟩) hs)
  refine ⟨w, hw, h1, h2, fun m r m' hslot hfree hrun => ?_⟩
  obtain ⟨hr, -⟩ | ⟨-, -, hno⟩ := ((kill_exact hw).1 2 0 m (by decide) hslot hfree).2 r m' hrun
  · exact hr
  · rw [hslot] at hno
    exact absurd h2 (hno 1 (by rw [h1]; decide))

/-- At boot, `kill(0)` returns 0, although no process has pid 0, and marks the free slot 1;
the process that the next `fork` puts there is killed when it becomes RUNNABLE, and no
`kill` was called with its pid. -/
theorem kill_zero : (∃ m', Alone machine 0 (kill 0) (bootMem fun _ => 0) 0 m' ∧
      (∀ p, ((bootMem fun _ => 0).slot p).state ≠ .UNUSED → ((bootMem fun _ => 0).slot p).pid ≠ 0) ∧
      ((bootMem fun _ => 0).slot 1).state = .UNUSED ∧ (m'.slot 1).killed = true) ∧
    ∃ (as : List Action) (s : State), Run.run (step machine) (boot fun _ => 0) as = some s ∧
      (∀ a ∈ as, killArg a ≠ some 2) ∧ (s.shared.slot 1).state = .RUNNABLE ∧ (s.shared.slot 1).pid = 2 ∧
      (s.shared.slot 1).killed = true := by
  constructor
  · have ht : target (bootMem fun _ => 0) 0 procs = some 1 := by decide +kernel
    refine ⟨_, (alone_kill fun _ => rfl).mpr (.inr ⟨1, ht, rfl, rfl⟩), by decide +kernel, by decide +kernel, ?_⟩
    rw [setSlot_slot]
    rfl
  · have hview : (Run.run (step machine) (boot fun _ => 0) (steps 0 9 ++ .call 0 (.syscall (.kill 0)) :: steps 0 15 ++
        .call 0 (.syscall .fork) :: steps 0 29)).map
          (fun s => ((s.shared.slot 1).state, (s.shared.slot 1).pid, (s.shared.slot 1).killed)) =
          some (.RUNNABLE, 2, true) := by
      decide +kernel
    obtain ⟨s, hs, hv⟩ := Option.map_eq_some_iff.mp hview
    obtain ⟨h1, hv⟩ := Prod.mk.inj hv
    obtain ⟨h2, h3⟩ := Prod.mk.inj hv
    exact ⟨_, s, hs, by decide +kernel, h1, h2, h3⟩

end Xv6.Proc.Kill
