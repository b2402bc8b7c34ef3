import Xv6.Proc.Kernel

/-!
# Locks and context switches

What a context knows about locks and process states: the locks that its processor
holds, the states of the slots it has locked, the slot it is filling in `fork`, and for
a scheduler the process it has chosen and the value of `c->proc`.

A process that is not running has only its own lock to look forward to: it gave up the
processor in `sched` with that lock held, and the scheduler that takes it up again
holds it too.  This is what the lock of a slot protects across `swtch`.
-/

namespace Xv6.Proc

open Cpus
open Function (update update_eq_self update_idem update_of_ne update_self)

/-! ## The logic -/

@[ext] structure Local where
  /-- The process, for the context of one. -/
  self : Option Pr
  held : List Lock
  /-- The states of slots that it has locked. -/
  st : Pr → Option ProcState
  /-- The slot that `fork` is filling, and whether its context is set up. -/
  own : Option (Pr × Bool)
  /-- The process that the scheduler has made RUNNING. -/
  pick : Option Pr
  /-- `c->proc`, for a scheduler. -/
  on : Option Pr

/-- The lock of `p` is about to be given up. -/
def Local.MayRelease (l : Local) (p : Pr) : Prop :=
  (l.self = some p → l.st p = some .RUNNING) ∧ l.pick ≠ some p ∧ l.on ≠ some p

/-- Which process states a context may change, and how. -/
def Local.MaySet (l : Local) (p : Pr) (x : ProcState) : Prop :=
  (l.self = some p ∧ l.st p = some .RUNNING ∧ x = .RUNNABLE) ∨
  (l.self = none ∧ l.st p = some .RUNNABLE ∧ x = .RUNNING ∧ l.pick = none ∧ l.on = none) ∨
  (l.self ≠ some p ∧ l.st p = some .SLEEPING ∧ x = .RUNNABLE) ∨
  (l.self ≠ none ∧ l.self ≠ some p ∧ l.own = some (p, true) ∧ x = .RUNNABLE)

def pre {β : Type} (o : Op β) (l : Local) : Prop :=
  match o with
  | .acquire lk => lk ∉ l.held
  | .release lk => lk ∈ l.held ∧ ∀ p, lk = .proc p → l.MayRelease p
  | .setState p x => .proc p ∈ l.held ∧ l.MaySet p x
  | .sleepOn p _ => .proc p ∈ l.held ∧ l.self = some p ∧ l.st p = some .RUNNING
  | .zombie p _ => .proc p ∈ l.held ∧ l.self = some p ∧ l.own = none ∧ .wait ∈ l.held ∧ p ≠ initproc ∧
      l.st p = some .RUNNING
  | .wake p _ => .proc p ∈ l.held ∧ l.self ≠ some p ∧ l.pick = none ∧ l.on = none
  | .clearChan p => .proc p ∈ l.held ∧ l.self = some p
  | .setKilled p => .proc p ∈ l.held
  | .killed p _ => .proc p ∈ l.held ∧ l.self = some p
  | .setParent p q => .wait ∈ l.held ∧
      ∃ o, l.self = some o ∧ (l.own = some (p, true) ∧ q = o ∨ l.own = none ∧ q = initproc ∧ o ≠ initproc)
  | .nextpid => .pid ∈ l.held ∧ ∃ q, l.self = some q ∧ .proc q ∉ l.held
  | .found p _ => .proc p ∈ l.held ∧ (∃ q, l.self = some q ∧ q ≠ p ∧ .proc q ∉ l.held) ∧ l.st p = some .UNUSED ∧
      l.own = none
  | .newContext p => l.own = some (p, false)
  | .freeproc p => .proc p ∈ l.held ∧ (∃ q, l.self = some q ∧ q ≠ p) ∧
      ((l.st p = some .ZOMBIE ∧ .wait ∈ l.held) ∨ ∃ r, l.own = some (p, r))
  | .setCur v => l.self = none ∧ (v = none ∧ l.pick = none ∨ l.on = none ∧ v = l.pick)
  | .swtch p => l.self = none ∧ l.pick = some p ∧ l.on = some p ∧ l.held = [.proc p]
  | .sched => ∃ p x, l.self = some p ∧ l.held = [.proc p] ∧ l.st p = some x ∧ x ≠ .RUNNING
  | .pipe | .pput _ | .ptake _ | .pclose _ | .readRet _ _ => .pipe ∈ l.held
  | .ticks | .tick => .ticks ∈ l.held
  | .cons | .setCons _ => .cons ∈ l.held
  | .sleepCall p _ lk => l.self = some p ∧ l.held = [lk] ∧ ∀ q, lk ≠ .proc q
  | .sleepRet p | .untest p => l.self = some p
  | .waitRet p pp _ _ => l.self = some p ∧ p ≠ pp ∧ .proc pp ∈ l.held ∧ .wait ∈ l.held ∧ l.st pp = some .ZOMBIE
  | _ => True

def res {β : Type} (o : Op β) (l : Local) (b : β) : Prop :=
  match o with
  | .myproc => b = l.self ∨ (l.self = none ∧ b = l.on)
  | .slot p => ∀ x, l.st p = some x → b.state = x
  | .panic => False
  | _ => True

def Local.setSt (l : Local) (p : Pr) (x : Option ProcState) : Local := { l with st := update l.st p x }

/-- The lock of a running process is taken: its state is RUNNING. -/
def Local.take (l : Local) (lk : Lock) : Local :=
  { l with
    held := lk :: l.held
    st := fun q => if lk = .proc q ∧ l.self = some q then some .RUNNING else l.st q }

def Local.drop (l : Local) (lk : Lock) : Local :=
  { l with
    held := l.held.erase lk
    st := fun q => if lk = .proc q then none else l.st q }

/-- What a process knows when it is taken up again after `sched`. -/
def Local.resumed (l : Local) : Local :=
  { l with st := fun q => if l.self = some q then some .RUNNING else none }

def upd {β : Type} (o : Op β) (l : Local) (b : β) : Local :=
  match o with
  | .acquire lk => l.take lk
  | .release lk => l.drop lk
  | .slot p => if .proc p ∈ l.held then l.setSt p (some b.state) else l
  | .setState p x =>
    { l.setSt p (some x) with
      own := if l.own = some (p, true) ∧ l.self ≠ some p then none else l.own
      pick := if x = .RUNNING then some p else l.pick }
  | .sleepOn p _ => l.setSt p (some .SLEEPING)
  | .zombie p _ => l.setSt p (some .ZOMBIE)
  | .wake p _ => l.setSt p none
  | .found p _ => { l.setSt p (some .USED) with own := some (p, false) }
  | .newContext p => { l with own := some (p, true) }
  | .freeproc p => { l.setSt p (some .UNUSED) with own := if l.own.map Prod.fst = some p then none else l.own }
  | .setCur v => { l with on := v }
  | .swtch _ => { l with pick := none, st := fun _ => none }
  | .sched => l.resumed
  | _ => l

def logic : Logic Op Local := ⟨pre, res, upd⟩

/-- Where a context begins: a process in `forkret`, with its lock held. -/
def start : Ctx → Local
  | .proc p => { self := some p, held := [.proc p], st := fun q => if q = p then some .RUNNING else none,
                 own := none, pick := none, on := none }
  | .sched _ => { self := none, held := [], st := fun _ => none, own := none, pick := none, on := none }

/-- A context that holds no lock. -/
structure Local.Quiet (l : Local) : Prop where
  held : l.held = []
  st : l.st = fun _ => none
  pick : l.pick = none
  on : l.on = none

/-- In user space. -/
structure Local.User (l : Local) : Prop extends Local.Quiet l where
  self : l.self ≠ none
  own : l.own = none

/-- A context that has locked no slot. -/
structure Local.NoProc (l : Local) : Prop where
  held : ∀ p, .proc p ∉ l.held
  st : l.st = fun _ => none
  pick : l.pick = none
  on : l.on = none

section
variable {l : Local} {lk : Lock} {p : Pr}

theorem Local.Quiet.noProc (h : l.Quiet) : l.NoProc :=
  ⟨fun p => by rw [h.held]; exact List.not_mem_nil, h.st, h.pick, h.on⟩

theorem Local.Quiet.notMem (h : l.Quiet) : lk ∉ l.held := by
  rw [h.held]
  exact List.not_mem_nil

theorem Local.drop_take (h : l.st = fun _ => none) : (l.take lk).drop lk = l := by
  have hheld : (lk :: l.held).erase lk = l.held := List.erase_cons_head ..
  have hst : (fun q => if lk = .proc q then none else
      if lk = .proc q ∧ l.self = some q then some ProcState.RUNNING else l.st q) = l.st := by
    funext q
    rw [h]
    by_cases hq : lk = .proc q <;> simp [hq]
  show { l with held := (lk :: l.held).erase lk, st := _ } = l
  rw [hheld]
  exact congrArg (fun f => { l with st := f }) hst

theorem Local.drop_take_of_ne (hlk : ∀ q, lk ≠ .proc q) : (l.take lk).drop lk = l := by
  refine Local.ext rfl (List.erase_cons_head ..) (funext fun q => ?_) rfl rfl rfl
  show (if lk = .proc q then none else if lk = .proc q ∧ _ then _ else l.st q) = l.st q
  rw [if_neg (hlk q), if_neg fun hc => hlk q hc.1]

theorem Local.drop_setSt (l : Local) (p : Pr) (x : Option ProcState) :
    (l.setSt p x).drop (.proc p) = l.drop (.proc p) := by
  have : (fun q => if Lock.proc p = .proc q then none else update l.st p x q) =
      fun q => if Lock.proc p = .proc q then none else l.st q := by
    funext q
    by_cases hq : p = q
    · simp [hq]
    · rw [if_neg (by simpa using hq), if_neg (by simpa using hq), update_of_ne (Ne.symm hq)]
  exact congrArg (fun f => { l with held := l.held.erase (.proc p), st := f }) this

theorem Local.NoProc.take (h : l.NoProc) (hlk : ∀ q, lk ≠ .proc q) : (l.take lk).NoProc := by
  refine ⟨fun q hq => ?_, ?_, h.pick, h.on⟩
  · rcases List.mem_cons.mp hq with he | he
    · exact hlk q he.symm
    · exact h.held q he
  · funext q
    show (if lk = .proc q ∧ _ then _ else _) = _
    rw [if_neg fun hc => hlk q hc.1, h.st]

theorem Local.NoProc.mayRelease (h : l.NoProc) {x : Option ProcState} (hx : l.self = some p → x = some .RUNNING) :
    ((l.take (.proc p)).setSt p x).MayRelease p :=
  ⟨fun hs => (update_self ..).trans (hx hs), by
    show l.pick ≠ _
    rw [h.pick]
    nofun, by
    show l.on ≠ _
    rw [h.on]
    nofun⟩

theorem Local.setSt_self (l : Local) (p : Pr) : l.setSt p (l.st p) = l := by
  unfold Local.setSt
  rw [update_eq_self]

theorem Local.setSt_setSt (l : Local) (p : Pr) (x y : Option ProcState) : (l.setSt p x).setSt p y = l.setSt p y :=
  congrArg (fun f => { l with st := f }) (update_idem ..)

theorem upd_slot (l : Local) (p : Pr) (b : Slot) : ∃ st, upd (.slot p) l b = { l with st := st } := by
  by_cases hin : .proc p ∈ l.held
  · exact ⟨_, if_pos hin⟩
  · exact ⟨l.st, if_neg hin⟩

theorem Local.MaySet.runs {x : ProcState} (h : l.MaySet p x) : x = .RUNNABLE ∨ x = .RUNNING := by
  rcases h with ⟨_, _, rfl⟩ | ⟨_, _, rfl, _⟩ | ⟨_, _, rfl⟩ | ⟨_, _, _, rfl⟩
  · exact .inl rfl
  · exact .inr rfl
  · exact .inl rfl
  · exact .inl rfl

theorem Local.with_own {l' : Local} {o : Option (Pr × Bool)} (h : l' = l) (ho : o = l.own) :
    { l' with own := o } = l := by
  rw [h, ho]

theorem Local.take_st_self (hs : l.self = some p) : (l.take (.proc p)).st p = some .RUNNING := by
  show (if _ then _ else _) = _
  rw [if_pos ⟨rfl, hs⟩]

end

/-! ## The code -/

section
variable {l : Local} {lk : Lock} {p : Pr}

theorem Local.NoProc.mayRelease_take (h : l.NoProc) : (l.take (.proc p)).MayRelease p := by
  have := h.mayRelease (p := p) (x := (l.take (.proc p)).st p) Local.take_st_self
  rwa [Local.setSt_self] at this

theorem wp_me (hs : l.self = some p) : wp logic me (fun q l' => q = p ∧ l' = l) l := by
  unfold me
  refine wp_op trivial fun b hb => ?_
  have hb' : b = some p := by
    rcases hb with hb | ⟨hn, _⟩
    · rw [hb, hs]
    · rw [hs] at hn
      cases hn
  rw [hb']
  exact ⟨rfl, rfl⟩

variable {n : Int} {α : Type} {ch : Chan}

variable {Q : α → Local → Prop}

theorem wp_me_bind {f : Pr → K α} (hs : l.self = some p) (h : wp logic (f p) Q l) : wp logic (me >>= f) Q l := by
  refine wp_call (wp_me hs) fun q l' hq => ?_
  rw [hq.1, hq.2]
  exact h

/-- A call that leaves what is known as it was. -/
abbrev Same {α : Type} (f : K α) (l : Local) : Prop := wp logic f (fun _ l' => l' = l) l

theorem Same.bind {β : Type} {f : K α} {g : α → K β} {Q : β → Local → Prop} (h : Same f l)
    (hg : ∀ a, wp logic (g a) Q l) : wp logic (f >>= g) Q l :=
  wp_call h fun a _ hl => hl ▸ hg a

theorem Same.forEach {γ : Type} {f : γ → K Unit} (h : ∀ x, Same (f x) l) (xs : List γ) : Same (forEach f xs) l := by
  refine wp_forEach (fun _ l' => l' = l) (fun _ h => h) ?_ rfl
  rintro x _ _ rfl
  exact h x

section
variable {α : Type} {Q : α → Local → Prop}

theorem wp_state {f : K α} {l' : Local} (hl : l = l') (h : wp logic f Q l') : wp logic f Q l := hl ▸ h

variable {g : Unit → K α}

theorem wp_lock (hin : lk ∉ l.held) (h : wp logic (g ()) Q (l.take lk)) : wp logic (acquire lk >>= g) Q l :=
  wp_op hin fun _ _ => h

theorem wp_unlock (hin : .proc p ∈ l.held) (hmay : l.MayRelease p)
    (h : wp logic (g ()) Q (l.drop (.proc p))) : wp logic (release (.proc p) >>= g) Q l := by
  refine wp_op ⟨hin, fun q hq => ?_⟩ fun _ _ => h
  cases hq
  exact hmay

theorem wp_slot {g : Slot → K α} (hin : .proc p ∈ l.held)
    (h : ∀ b : Slot, (∀ x, l.st p = some x → b.state = x) → wp logic (g b) Q (l.setSt p (some b.state))) :
    wp logic (slot p >>= g) Q l :=
  wp_op trivial fun b hb => wp_state (if_pos hin) (h b hb)

theorem wp_peek {g : Slot → K α} (hin : .proc p ∉ l.held) (h : ∀ b, wp logic (g b) Q l) : wp logic (slot p >>= g) Q l :=
  wp_op trivial fun b _ => wp_state (if_neg hin) (h b)

end

theorem wp_killed (hs : l.self = some p) (hn : l.NoProc) (mark : Bool) : Same (killed p mark) l := by
  unfold killed
  refine wp_lock (hn.held p) ?_
  refine wp_op ⟨List.mem_cons_self, hs⟩ fun k _ => ?_
  refine wp_op ⟨List.mem_cons_self, fun q hq => ?_⟩ fun _ _ => ?_
  · cases hq
    exact hn.mayRelease_take
  · exact Local.drop_take hn.st

theorem wp_setkilled (hn : l.NoProc) : Same (setkilled p) l := by
  unfold setkilled
  refine wp_lock (hn.held p) ?_
  refine wp_op List.mem_cons_self fun k _ => ?_
  refine wp_perform ⟨List.mem_cons_self, fun q hq => ?_⟩ fun _ _ => ?_
  · cases hq
    exact hn.mayRelease_take
  · exact Local.drop_take hn.st

theorem wp_yield (hs : l.self = some p) (hq : l.Quiet) : Same yield l := by
  unfold yield
  refine wp_me_bind hs ?_
  have hheld : (l.take (.proc p)).held = [.proc p] := congrArg (List.cons _) hq.held
  refine wp_lock hq.notMem ?_
  refine wp_op ⟨List.mem_cons_self, .inl ⟨hs, Local.take_st_self hs, rfl⟩⟩ fun _ _ => ?_
  refine wp_op ⟨p, .RUNNABLE, hs, hheld, update_self .., nofun⟩ fun _ _ => ?_
  refine wp_perform ⟨List.mem_cons_self, fun q hq' => ?_⟩ fun _ _ => ?_
  · cases hq'
    exact ⟨fun _ => if_pos hs, hq.noProc.mayRelease_take.2⟩
  · refine Local.ext rfl (List.erase_cons_head ..) (funext fun q => ?_) (if_neg fun hc => hc.2 hs) rfl rfl
    show (if _ then none else if l.self = some q then _ else none) = _
    rw [hs, hq.st]
    by_cases hqp : q = p <;> simp [hqp, eq_comm]

theorem wp_sleep (hs : l.self = some p) (hn : l.NoProc) (hlk : l.held = [lk]) : Same (sleep ch lk) l := by
  have hne : ∀ q, lk ≠ .proc q := by
    rintro q rfl
    exact hn.held q (by rw [hlk]; exact List.mem_cons_self)
  have hin : lk ∈ l.held := by
    rw [hlk]
    exact List.mem_cons_self
  have herase : (Lock.proc p :: l.held).erase lk = [.proc p] := by
    rw [hlk, List.erase_cons_tail (by simpa using (hne p).symm), List.erase_cons_head]
  unfold sleep
  refine wp_me_bind hs ?_
  refine wp_op ⟨hs, hlk, hne⟩ fun _ _ => ?_
  refine wp_lock (hn.held p) ?_
  refine wp_op ⟨List.mem_cons_of_mem _ hin, fun q hq => absurd hq (hne q)⟩ fun _ _ => ?_
  have hmem : Lock.proc p ∈ (Lock.proc p :: l.held).erase lk := by
    rw [herase]
    exact List.mem_cons_self
  refine wp_op ⟨hmem, hs, ?_⟩ fun _ _ => ?_
  · show (if lk = .proc p then none else (l.take (.proc p)).st p) = _
    rw [if_neg (hne p), Local.take_st_self hs]
  refine wp_op ⟨p, .SLEEPING, hs, herase, update_self .., nofun⟩ fun _ _ => ?_
  refine wp_op ⟨hmem, hs⟩ fun _ _ => ?_
  refine wp_op ⟨hmem, fun q hq => ?_⟩ fun _ _ => ?_
  · cases hq
    refine ⟨fun _ => if_pos hs, ?_, ?_⟩
    · show l.pick ≠ _
      rw [hn.pick]
      nofun
    · show l.on ≠ _
      rw [hn.on]
      nofun
  have hempty : ((Lock.proc p :: l.held).erase lk).erase (.proc p) = [] := by rw [herase, List.erase_cons_head]
  refine wp_op ?_ fun _ _ => ?_
  · show lk ∉ ((Lock.proc p :: l.held).erase lk).erase (.proc p)
    rw [hempty]
    exact List.not_mem_nil
  refine wp_perform hs fun _ _ => ?_
  refine Local.ext rfl ?_ (funext fun q => ?_) rfl rfl rfl
  · show lk :: ((Lock.proc p :: l.held).erase lk).erase (.proc p) = l.held
    rw [hempty, hlk]
  · show (if lk = .proc q ∧ _ then _ else if Lock.proc p = .proc q then none
      else if l.self = some q then _ else none) = _
    rw [if_neg fun hc => hne q hc.1, hs, hn.st]
    by_cases hqp : q = p <;> simp [hqp, eq_comm]

theorem wp_wakeSlot (hn : l.NoProc) (ch : Chan) (p : Pr) : Same (wakeSlot ch p) l := by
  unfold wakeSlot
  refine wp_op trivial fun b hb => ?_
  by_cases hp : b = some p
  · rw [if_neg (fun hc => hc hp)]
    exact rfl
  · have hself : l.self ≠ some p := by
      rcases hb with hb | ⟨hb, _⟩
      · rwa [← hb]
      · rw [hb]
        nofun
    rw [if_pos hp]
    refine wp_lock (hn.held p) ?_
    refine wp_op ⟨List.mem_cons_self, hself, hn.pick, hn.on⟩ fun _ _ => ?_
    refine wp_perform ⟨List.mem_cons_self, fun q hq => ?_⟩ fun _ _ => ?_
    · cases hq
      exact hn.mayRelease fun hc => absurd hc hself
    · exact (Local.drop_setSt ..).trans (Local.drop_take hn.st)

theorem wp_wakeup (hn : l.NoProc) (ch : Chan) : Same (wakeup ch) l := by
  unfold wakeup
  exact (Same.forEach (wp_wakeSlot hn ch) procs).bind fun _ => ⟨trivial, fun _ _ => rfl⟩

theorem wp_schedSlot (hs : l.self = none) (hown : l.own = none) (hq : l.Quiet) (p : Pr) : Same (schedSlot p) l := by
  have hheld : (l.take (.proc p)).held = [.proc p] := congrArg (List.cons _) hq.held
  unfold schedSlot
  refine wp_lock hq.notMem ?_
  refine wp_slot List.mem_cons_self fun b _ => ?_
  by_cases hb : b.state = .RUNNABLE
  · rw [if_pos hb]
    refine wp_op ⟨List.mem_cons_self, .inr (.inl ⟨hs, ?_, rfl, hq.pick, hq.on⟩)⟩ fun _ _ => ?_
    · exact (update_self ..).trans (congrArg some hb)
    refine wp_op ⟨hs, .inr ⟨hq.on, rfl⟩⟩ fun _ _ => ?_
    refine wp_op ⟨hs, rfl, rfl, hheld⟩ fun _ _ => ?_
    refine wp_op ⟨hs, .inl ⟨rfl, rfl⟩⟩ fun _ _ => ?_
    refine wp_perform ⟨List.mem_cons_self, fun q hq' => ?_⟩ fun _ _ => ?_
    · cases hq'
      exact ⟨fun hc => absurd (hs.symm.trans hc) nofun, nofun, nofun⟩
    · refine Local.ext rfl (List.erase_cons_head ..) (funext fun q => ?_) ?_ hq.pick.symm hq.on.symm
      · show (if _ then none else none) = _
        rw [hq.st]
        split <;> rfl
      · refine if_neg fun hc => ?_
        have h1 : l.own = some (p, true) := hc.1
        rw [hown] at h1
        cases h1
  · rw [if_neg hb]
    refine wp_perform ⟨List.mem_cons_self, fun q hq' => ?_⟩ fun _ _ => ?_
    · cases hq'
      exact hq.noProc.mayRelease fun hc => absurd (hs.symm.trans hc) nofun
    · exact (Local.drop_setSt ..).trans (Local.drop_take hq.st)

theorem wp_scheduler {Q : Unit → Local → Prop} (hs : l.self = none) (hown : l.own = none) (hq : l.Quiet) :
    wp logic scheduler Q l := by
  unfold scheduler
  refine wp_op ⟨hs, .inl ⟨rfl, hq.pick⟩⟩ fun _ _ => ?_
  have hon : { l with on := none } = l := Local.ext rfl rfl rfl rfl rfl hq.on.symm
  refine wp_state hon ?_
  refine wp_iterate (fun _ l' => l' = l) rfl fun _ l' hl' => ?_
  subst hl'
  exact (Same.forEach (wp_schedSlot hs hown hq) procs).bind fun _ => rfl

theorem start_proc_noProc (p : Pr) : ((start (.proc p)).drop (.proc p)).User where
  held := List.erase_cons_head ..
  st := by
    funext q
    show (if Lock.proc p = .proc q then none else if q = p then _ else none) = none
    by_cases h : q = p
    · rw [if_pos (by rw [h])]
    · rw [if_neg (by simpa using Ne.symm h), if_neg h]
  pick := rfl
  on := rfl
  self := nofun
  own := rfl

theorem wp_forkret (p : Pr) : wp logic forkret (fun _ l' => l'.User) (start (.proc p)) := by
  unfold forkret
  refine wp_me_bind rfl ?_
  refine wp_perform ⟨List.mem_cons_self, fun q hq => ?_⟩ fun _ _ => start_proc_noProc p
  cases hq
  exact ⟨fun _ => if_pos rfl, nofun, nofun⟩

theorem wp_release {a : α} (hlk : ∀ q, lk ≠ .proc q) (h : Q a l) :
    wp logic (release lk >>= fun _ => pure a) Q (l.take lk) := by
  refine wp_op ⟨List.mem_cons_self, fun q hq => absurd hq (hlk q)⟩ fun _ _ => ?_
  exact wp_state (Local.drop_take_of_ne hlk) h

theorem wp_allocpid (hp : .pid ∉ l.held) (hs : l.self = some p) (hheld : .proc p ∉ l.held) : Same allocpid l := by
  unfold allocpid
  refine wp_lock hp ?_
  refine wp_op ⟨List.mem_cons_self, p, hs, fun hc => ?_⟩ fun pid _ => ?_
  · exact hheld ((List.mem_cons.mp hc).resolve_left nofun)
  · exact wp_release nofun rfl

/-- A process in `fork` that has a slot to fill, with its lock held. -/
def Local.filling (l : Local) (np : Pr) : Local :=
  { (l.take (.proc np)).setSt np (some .USED) with own := some (np, true) }

theorem Local.drop_filling (hq : l.Quiet) (np : Pr) :
    ((l.filling np).drop (.proc np)) = { l with own := some (np, true) } := by
  have h := (Local.drop_setSt (l.take (.proc np)) np (some .USED)).trans (Local.drop_take hq.st)
  exact congrArg (fun l' => { l' with own := some (np, true) }) h

theorem wp_unfill {a : α} {np : Pr} {r : Bool} (hs : l.self = some p) (hne : np ≠ p)
    (hown : l.own = none) (hq : l.Quiet) (h : Q a l) :
    wp logic (do freeproc np; release (.proc np); pure a) Q { l.filling np with own := some (np, r) } := by
  have hself : l.self ≠ some np := by
    rw [hs]
    exact fun hc => hne (Option.some.inj hc).symm
  refine wp_op ⟨List.mem_cons_self, ⟨p, hs, hne.symm⟩, .inr ⟨r, rfl⟩⟩ fun _ _ => ?_
  refine wp_unlock List.mem_cons_self ⟨fun hc => absurd hc hself, (hq.noProc.mayRelease_take (p := np)).2⟩ ?_
  have hback : ((((l.take (.proc np)).setSt np (some .USED)).setSt np (some .UNUSED)).drop (.proc np)) = l := by
    rw [Local.drop_setSt, Local.drop_setSt, Local.drop_take hq.st]
  have hfree : (if (some (np, r)).map Prod.fst = some np then none else some (np, r)) = l.own := by
    rw [hown]
    exact if_pos rfl
  rwa [show Local.drop _ _ = l from Local.with_own hback hfree]

theorem wp_findUnused (hs : l.self = some p) (hq : l.Quiet) (xs : List Pr) :
    wp logic (firstOf tryAlloc xs) (fun r l' => match r with
      | none => l' = l
      | some np => np ≠ p ∧ l' = (l.take (.proc np)).setSt np (some .UNUSED)) l := by
  refine wp_firstOf (fun _ l' => l' = l) (fun _ h => h) ?_ rfl
  intro np _ l' hl
  rw [hl]
  unfold tryAlloc
  refine wp_lock hq.notMem ?_
  refine wp_slot List.mem_cons_self fun b hb => ?_
  -- the process itself is RUNNING
  have hself : b.state ≠ .RUNNING → l.self ≠ some np := fun hx hc => hx (hb .RUNNING (Local.take_st_self hc))
  by_cases hx : b.state = .UNUSED
  · rw [if_pos hx]
    refine ⟨nofun, fun a ha => ?_⟩
    cases ha
    refine ⟨fun hc => hself (by rw [hx]; nofun) (by rw [hs, hc]), by rw [hx]⟩
  · rw [if_neg hx]
    refine wp_unlock List.mem_cons_self (hq.noProc.mayRelease fun hc => ?_) ?_
    · exact congrArg some (hb .RUNNING (Local.take_st_self hc))
    · exact ⟨fun _ => (Local.drop_setSt ..).trans (Local.drop_take hq.st), nofun⟩

theorem wp_allocproc (hs : l.self = some p) (hown : l.own = none) (hq : l.Quiet) :
    wp logic allocproc (fun r l' => match r with
      | none => l' = l
      | some np => np ≠ p ∧ l' = l.filling np) l := by
  unfold allocproc
  refine wp_call (wp_findUnused hs hq procs) fun r l' hr => ?_
  cases r with
  | none => exact hr
  | some np =>
    obtain ⟨hne, rfl⟩ := hr
    have hpid : Lock.pid ∉ ((l.take (.proc np)).setSt np (some .UNUSED)).held := by
      show Lock.pid ∉ .proc np :: l.held
      rw [hq.held]
      simp
    have hheld : Lock.proc p ∉ ((l.take (.proc np)).setSt np (some .UNUSED)).held := by
      show Lock.proc p ∉ .proc np :: l.held
      rw [hq.held]
      simpa using hne.symm
    refine (wp_allocpid hpid hs hheld).bind fun pid => ?_
    refine wp_op ⟨List.mem_cons_self, ⟨p, hs, hne.symm, hheld⟩, update_self .., hown⟩ fun _ _ => ?_
    have hfound : { ((l.take (.proc np)).setSt np (some .UNUSED)).setSt np (some .USED) with own := some (np, false) } =
        { l.filling np with own := some (np, false) } :=
      Local.ext rfl rfl (update_idem ..) rfl rfl rfl
    refine wp_state hfound ?_
    refine wp_op trivial fun b _ => ?_
    cases b with
    | false => exact wp_unfill hs hne hown hq rfl
    | true =>
      refine wp_op trivial fun b _ => ?_
      cases b with
      | false => exact wp_unfill hs hne hown hq rfl
      | true => exact wp_op rfl fun _ _ => ⟨hne, rfl⟩

theorem wp_fork (hu : l.User) : Same fork l := by
  obtain ⟨p, hs⟩ := Option.ne_none_iff_exists'.mp hu.self
  have hq := hu.toQuiet
  unfold fork
  refine wp_me_bind hs ?_
  refine wp_call (wp_allocproc hs hu.own hq) fun r l' hr => ?_
  cases r with
  | none => exact hr
  | some np =>
    obtain ⟨hne, rfl⟩ := hr
    refine wp_op trivial fun b _ => ?_
    cases b with
    | false => exact wp_unfill hs hne hu.own hq rfl
    | true =>
      have hself : l.self ≠ some np := by
        rw [hs]
        exact fun hc => hne (Option.some.inj hc).symm
      have hmay := (hq.noProc.mayRelease_take (p := np)).2
      refine wp_slot List.mem_cons_self fun b hb => ?_
      rw [hb .USED (update_self ..)]
      refine wp_state (Local.ext rfl rfl (update_idem ..) rfl rfl rfl : (l.filling np).setSt np _ = l.filling np) ?_
      refine wp_unlock List.mem_cons_self ⟨fun hc => absurd hc hself, hmay⟩ ?_
      refine wp_state (Local.drop_filling hq np) ?_
      refine wp_lock hq.notMem ?_
      refine wp_op ⟨List.mem_cons_self, p, hs, .inl ⟨rfl, rfl⟩⟩ fun _ _ => ?_
      refine wp_op ⟨List.mem_cons_self, nofun⟩ fun _ _ => ?_
      refine wp_state (Local.drop_take_of_ne nofun) ?_
      refine wp_lock hq.notMem ?_
      refine wp_op ⟨List.mem_cons_self, .inr (.inr (.inr ⟨hu.self, hself, rfl, rfl⟩))⟩ fun _ _ => ?_
      refine wp_unlock List.mem_cons_self ⟨fun hc => absurd hc hself, hmay⟩ ?_
      have hback := (Local.drop_setSt (l.take (.proc np)) np (some .RUNNABLE)).trans (Local.drop_take hq.st)
      exact Local.with_own hback ((if_pos ⟨rfl, hself⟩).trans hu.own.symm)

/-! Code that runs with a lock that is not a slot's -/

theorem wp_reparent (hn : l.NoProc) (hw : .wait ∈ l.held) (hs : l.self = some p) (hown : l.own = none)
    (hp : p ≠ initproc) : Same (reparent p) l := by
  refine Same.forEach (fun pp => ?_) procs
  unfold reparentSlot
  refine wp_peek (hn.held pp) fun b => ?_
  split
  · refine wp_op ⟨hw, p, hs, .inr ⟨hown, rfl, hp⟩⟩ fun _ _ => ?_
    exact wp_wakeup hn _
  · exact rfl

theorem wp_release_end (hlk : ∀ q, lk ≠ .proc q) : wp logic (release lk) (fun _ l' => l' = l) (l.take lk) :=
  wp_perform ⟨List.mem_cons_self, fun q hq => absurd hq (hlk q)⟩ fun _ _ => Local.drop_take_of_ne hlk

theorem wp_wakeup_take (hq : l.Quiet) (ch : Chan) (hlk : ∀ q, lk ≠ .proc q) : Same (wakeup ch) (l.take lk) :=
  wp_wakeup (hq.noProc.take hlk) ch

theorem wp_sleep_take (hq : l.Quiet) (hs : l.self = some p) (hlk : ∀ q, lk ≠ .proc q) :
    Same (sleep ch lk) (l.take lk) :=
  wp_sleep (l := l.take lk) hs (hq.noProc.take hlk) (congrArg (List.cons _) hq.held)

theorem wp_killed_take (hq : l.Quiet) (hs : l.self = some p) (mark : Bool) (hlk : ∀ q, lk ≠ .proc q) :
    Same (killed p mark) (l.take lk) :=
  wp_killed (l := l.take lk) hs (hq.noProc.take hlk) mark

theorem wp_killed_or_sleep {a b : α} (hq : l.Quiet) (hs : l.self = some p)
    (ha : Q a l) (hb : Q b (l.take lk)) (hlk : ∀ q, lk ≠ .proc q) : wp logic (do
      if ← killed p true then
        release lk
        pure a
      else
        sleep ch lk
        pure b) Q (l.take lk) := by
  refine (wp_killed_take hq hs true hlk).bind fun k => ?_
  cases k with
  | true => exact wp_release hlk ha
  | false => exact (wp_sleep_take hq hs hlk).bind fun _ => hb

theorem wp_otherSleep {n m : Nat} (hs : l.self ≠ none) (hq : l.Quiet) : Same (otherSleep n m) l := by
  obtain ⟨p, hs⟩ := Option.ne_none_iff_exists'.mp hs
  unfold otherSleep
  refine wp_lock hq.notMem ?_
  refine Same.bind (l := l.take (.other n)) (wp_iterate (fun _ l' => l' = l.take (.other n)) rfl fun _ l' hl => ?_)
    fun _ => wp_release_end nofun
  rw [hl]
  refine wp_op trivial fun b _ => ?_
  cases b with
  | false => exact rfl
  | true => exact Same.bind (wp_sleep_take hq hs nofun) fun _ => rfl

theorem wp_otherWake {n m : Nat} (hq : l.Quiet) : Same (otherWake n m) l := by
  unfold otherWake
  refine wp_lock hq.notMem ?_
  exact Same.bind (wp_wakeup_take hq _ nofun) fun _ => wp_release_end nofun

theorem wp_pipeclose {w : Bool} (hq : l.Quiet) : Same (pipeclose w) l := by
  unfold pipeclose
  refine wp_lock hq.notMem ?_
  refine wp_op List.mem_cons_self fun _ _ => ?_
  exact Same.bind (wp_wakeup_take hq _ nofun) fun _ => wp_release_end nofun

theorem wp_pipewrite {buf : Nat → Option UInt8} (hs : l.self ≠ none) (hq : l.Quiet) : Same (pipewrite buf n) l := by
  obtain ⟨p, hs⟩ := Option.ne_none_iff_exists'.mp hs
  unfold pipewrite
  refine wp_me_bind hs ?_
  refine wp_lock hq.notMem ?_
  have hloop : wp logic (pipewriteLoop p buf n)
      (fun r l' => (r = none → l' = l) ∧ ∀ i, r = some i → l' = l.take .pipe) (l.take .pipe) := by
    refine wp_iterate (fun _ l' => l' = l.take .pipe) rfl fun i l' hl => ?_
    rw [hl]
    split
    case isFalse => exact ⟨nofun, fun _ _ => rfl⟩
    case isTrue =>
      refine wp_op List.mem_cons_self fun pi _ => ?_
      split
      · exact wp_release nofun ⟨fun _ => rfl, nofun⟩
      · refine Same.bind (wp_killed_take hq hs true nofun) fun k => ?_
        cases k with
        | true => exact wp_release nofun ⟨fun _ => rfl, nofun⟩
        | false =>
          refine wp_op List.mem_cons_self fun pi _ => ?_
          split
          · refine Same.bind (wp_wakeup_take hq _ nofun) fun _ => ?_
            exact Same.bind (wp_sleep_take hq hs nofun) fun _ => rfl
          · refine wp_op hs fun _ _ => ?_
            cases buf i with
            | none => exact ⟨nofun, fun _ _ => rfl⟩
            | some ch => exact wp_op List.mem_cons_self fun _ _ => rfl
  refine wp_call hloop fun r l' hr => ?_
  cases r with
  | none => exact hr.1 rfl
  | some i =>
    rw [hr.2 i rfl]
    exact Same.bind (wp_wakeup_take hq _ nofun) fun _ => wp_release nofun rfl

theorem wp_piperead {mapped : Nat → Bool} (hs : l.self ≠ none) (hq : l.Quiet) : Same (piperead mapped n) l := by
  obtain ⟨p, hs⟩ := Option.ne_none_iff_exists'.mp hs
  have hwait : wp logic (pipereadWait p) (fun r l' => l' = if r then l.take .pipe else l) (l.take .pipe) := by
    refine wp_iterate (fun _ l' => l' = l.take .pipe) rfl fun _ l' hl => ?_
    rw [hl]
    refine wp_op List.mem_cons_self fun pi _ => ?_
    split
    case isFalse => exact rfl
    case isTrue => exact wp_killed_or_sleep hq hs rfl rfl nofun
  have hcopy : ∀ fuel i, Same (pipereadCopy mapped fuel i) (l.take .pipe) := by
    intro fuel
    induction fuel with
    | zero => exact fun i => rfl
    | succ fuel ih =>
      intro i
      unfold pipereadCopy
      refine wp_op List.mem_cons_self fun pi _ => ?_
      split
      · exact rfl
      · refine wp_op List.mem_cons_self fun ch _ => ?_
        split
        · exact ih (i + 1)
        · exact rfl
  unfold piperead
  refine wp_me_bind hs ?_
  refine wp_lock hq.notMem ?_
  refine wp_call hwait fun r l' hr => ?_
  rw [hr]
  cases r with
  | false => exact rfl
  | true =>
    refine (hcopy _ 0).bind fun i => ?_
    refine Same.bind (wp_wakeup_take hq _ nofun) fun _ => ?_
    refine wp_op List.mem_cons_self fun _ _ => ?_
    exact wp_release nofun rfl

theorem wp_fileclose (hs : l.self ≠ none) (hq : l.Quiet) (f : File) : Same (fileclose f) l := by
  cases f with
  | pipe w => exact wp_pipeclose hq
  | other n m =>
    refine (wp_otherSleep hs hq).bind fun _ => ?_
    exact wp_otherWake hq

theorem wp_exit {status : Int} {Q : Unit → Local → Prop} (hu : l.User) : wp logic (exit status) Q l := by
  obtain ⟨p, hs⟩ := Option.ne_none_iff_exists'.mp hu.self
  have hq := hu.toQuiet
  have hn : (l.take .wait).NoProc := hq.noProc.take nofun
  unfold exit
  refine wp_me_bind hs ?_
  split
  case isTrue => exact wp_perform trivial nofun
  case isFalse hp =>
  refine wp_op trivial fun fs _ => ?_
  refine (Same.forEach (wp_fileclose hu.self hq) fs).bind fun _ => ?_
  refine wp_lock hq.notMem ?_
  refine (wp_reparent (l := l.take .wait) hn List.mem_cons_self hs hu.own hp).bind fun _ => ?_
  refine wp_peek (hn.held p) fun b => ?_
  refine (wp_wakeup hn _).bind fun _ => ?_
  refine wp_lock (hn.held p) ?_
  refine wp_op ⟨List.mem_cons_self, hs, hu.own, List.mem_cons_of_mem _ List.mem_cons_self, hp, Local.take_st_self hs⟩
    fun _ _ => ?_
  refine wp_op ⟨List.mem_cons_of_mem _ List.mem_cons_self, nofun⟩ fun _ _ => ?_
  have hheld : (Lock.proc p :: .wait :: l.held).erase .wait = [.proc p] := by
    rw [hq.held]
    rfl
  refine wp_op ⟨p, .ZOMBIE, hs, hheld, update_self .., nofun⟩ fun _ _ => ?_
  exact wp_perform trivial nofun

theorem wp_waitScan {addr : Bool} (hs : l.self = some p) (hown : l.own = none) (hq : l.Quiet) (xs : List Pr) :
    ∀ havekids,
    wp logic (waitScan p addr xs havekids)
      (fun r l' => (∀ h, r = .inl h → l' = l.take .wait) ∧ ∀ v, r = .inr v → l' = l) (l.take .wait) := by
  have hn : (l.take .wait).NoProc := hq.noProc.take nofun
  induction xs with
  | nil => exact fun h => ⟨fun _ _ => rfl, nofun⟩
  | cons pp pps ih =>
    intro havekids
    unfold waitScan
    refine wp_peek (hn.held pp) fun b => ?_
    by_cases hb : b.parent = some p
    case neg =>
      rw [if_neg hb]
      exact ih havekids
    case pos =>
    rw [if_pos hb]
    refine wp_lock (hn.held pp) ?_
    refine wp_slot List.mem_cons_self fun sl hsl => ?_
    have hmay : (((l.take .wait).take (.proc pp)).setSt pp (some sl.state)).MayRelease pp :=
      hn.mayRelease fun hc => congrArg some (hsl .RUNNING (Local.take_st_self hc))
    have hdrop : ∀ x, (((l.take .wait).take (.proc pp)).setSt pp x).drop (.proc pp) = l.take .wait :=
      fun x => (Local.drop_setSt ..).trans (Local.drop_take hn.st)
    split
    case isFalse =>
      exact wp_unlock List.mem_cons_self hmay (wp_state (hdrop _) (ih true))
    case isTrue hz =>
      -- the child is not the process itself, which is RUNNING
      have hself : l.self ≠ some pp := by
        intro hc
        have := hsl .RUNNING (Local.take_st_self hc)
        rw [hz] at this
        cases this
      have hself' : p ≠ pp := fun hc => hself (hc ▸ hs)
      refine wp_op trivial fun ok _ => ?_
      split
      · refine wp_unlock List.mem_cons_self hmay ?_
        exact wp_state (hdrop _) (wp_release nofun ⟨nofun, fun _ _ => rfl⟩)
      · refine wp_op ⟨hs, hself', List.mem_cons_self, List.mem_cons_of_mem _ List.mem_cons_self,
          (update_self ..).trans (congrArg some hz)⟩ fun _ _ => ?_
        refine wp_op ⟨List.mem_cons_self, ⟨p, hs, hself'⟩, .inl ⟨?_, List.mem_cons_of_mem _ List.mem_cons_self⟩⟩
          fun _ _ => ?_
        · exact (update_self ..).trans (congrArg some hz)
        refine wp_unlock List.mem_cons_self ⟨fun hc => absurd hc hself, (hn.mayRelease_take (p := pp)).2⟩ ?_
        have hback : ((((l.take .wait).take (.proc pp)).setSt pp (some sl.state)).setSt pp (some .UNUSED)).drop
          (.proc pp) =
            l.take .wait := by rw [Local.drop_setSt, hdrop]
        have hfree : (if l.own.map Prod.fst = some pp then none else l.own) = l.own := by
          rw [hown]
          rfl
        exact wp_state (Local.with_own hback hfree) (wp_release nofun ⟨nofun, fun _ _ => rfl⟩)

theorem wp_wait {addr : Bool} (hu : l.User) : Same (wait addr) l := by
  obtain ⟨p, hs⟩ := Option.ne_none_iff_exists'.mp hu.self
  have hq := hu.toQuiet
  unfold wait
  refine wp_me_bind hs ?_
  refine wp_lock hq.notMem ?_
  refine wp_iterate (fun _ l' => l' = l.take .wait) rfl fun _ l' hl => ?_
  rw [hl]
  refine wp_call (wp_waitScan hs hu.own hq procs false) fun r l' hr => ?_
  match r with
  | .inr v => exact hr.2 v rfl
  | .inl false =>
    rw [hr.1 false rfl]
    exact wp_release nofun rfl
  | .inl true =>
    rw [hr.1 true rfl]
    exact wp_killed_or_sleep hq hs rfl rfl nofun

theorem wp_kill {pid : Int} (hown : l.own = none) (hq : l.Quiet) : Same (kill pid) l := by
  unfold kill
  refine wp_call (P := fun _ l' => l' = l) (wp_firstOf (fun _ l' => l' = l) (fun _ h => h) ?_ rfl) fun r l' hl => ?_
  case refine_2 =>
    cases r with
    | none => exact hl
    | some v => exact hl
  intro p _ l' hl
  rw [hl]
  have hdrop : ∀ x, ((l.take (.proc p)).setSt p x).drop (.proc p) = l :=
    fun x => (Local.drop_setSt ..).trans (Local.drop_take hq.st)
  unfold killSlot
  refine wp_lock hq.notMem ?_
  refine wp_slot List.mem_cons_self fun b hb => ?_
  have hmay : ((l.take (.proc p)).setSt p (some b.state)).MayRelease p :=
    hq.noProc.mayRelease fun hc => congrArg some (hb .RUNNING (Local.take_st_self hc))
  split
  case isFalse =>
    exact wp_unlock List.mem_cons_self hmay ⟨fun _ => hdrop _, nofun⟩
  case isTrue =>
    refine wp_op List.mem_cons_self fun _ _ => ?_
    refine wp_slot List.mem_cons_self fun b2 hb2 => ?_
    have hst : b2.state = b.state := hb2 b.state (update_self ..)
    refine wp_state (Local.setSt_setSt ..) ?_
    rw [hst]
    split
    case isTrue hz =>
      have hself : l.self ≠ some p := by
        intro hc
        have := hb .RUNNING (Local.take_st_self hc)
        rw [hz] at this
        cases this
      refine wp_op ⟨List.mem_cons_self, .inr (.inr (.inl ⟨hself, ?_, rfl⟩))⟩ fun _ _ => ?_
      · exact (update_self ..).trans (congrArg some hz)
      refine wp_unlock List.mem_cons_self ⟨fun hc => absurd hc hself, (hq.noProc.mayRelease_take (p := p)).2⟩
        ⟨nofun, fun _ _ => ?_⟩
      have hback : (((l.take (.proc p)).setSt p (some b.state)).setSt p (some .RUNNABLE)).drop (.proc p) = l := by
        rw [Local.drop_setSt, hdrop]
      have hkeep : (if l.own = some (p, true) ∧ l.self ≠ some p then none else l.own) = l.own := by
        rw [hown]
        rfl
      exact Local.with_own hback hkeep
    case isFalse =>
      exact wp_unlock List.mem_cons_self hmay ⟨nofun, fun _ _ => hdrop _⟩

theorem wp_sysSleep {n : UInt32} (hs : l.self ≠ none) (hq : l.Quiet) : Same (sysSleep n) l := by
  obtain ⟨p, hs⟩ := Option.ne_none_iff_exists'.mp hs
  unfold sysSleep
  refine wp_lock hq.notMem ?_
  refine wp_op List.mem_cons_self fun t0 _ => ?_
  refine wp_iterate (fun _ l' => l' = l.take .ticks) rfl fun _ l' hl => ?_
  rw [hl]
  refine wp_op List.mem_cons_self fun t _ => ?_
  split
  case isFalse => exact wp_release nofun rfl
  case isTrue =>
    refine wp_me_bind hs ?_
    exact wp_killed_or_sleep hq hs rfl rfl nofun

theorem wp_consoleread {mapped : Int → Bool} (hs : l.self ≠ none) (hq : l.Quiet) : Same (consoleread mapped n) l := by
  obtain ⟨p, hs⟩ := Option.ne_none_iff_exists'.mp hs
  have hwait : wp logic consoleWait (fun r l' => l' = if r then l.take .cons else l) (l.take .cons) := by
    refine wp_iterate (fun _ l' => l' = l.take .cons) rfl fun _ l' hl => ?_
    rw [hl]
    refine wp_op List.mem_cons_self fun co _ => ?_
    split
    case isFalse => exact rfl
    case isTrue =>
      refine wp_me_bind hs ?_
      exact wp_killed_or_sleep hq hs rfl rfl nofun
  unfold consoleread
  refine wp_lock hq.notMem ?_
  refine wp_call (P := fun r l' => (r = none → l' = l) ∧ ∀ i, r = some i → l' = l.take .cons)
    (wp_iterate (fun _ l' => l' = l.take .cons) rfl fun m l' hl => ?_) fun r l' hr => ?_
  case refine_2 =>
    cases r with
    | none => exact hr.1 rfl
    | some i =>
      rw [hr.2 i rfl]
      exact wp_release nofun rfl
  rw [hl]
  split
  case isFalse => exact ⟨nofun, fun _ _ => rfl⟩
  case isTrue =>
    refine wp_call hwait fun r l' hr => ?_
    rw [hr]
    cases r with
    | false => exact ⟨fun _ => rfl, nofun⟩
    | true =>
      refine wp_op List.mem_cons_self fun co _ => ?_
      show wp logic (if co.buf (co.r.toNat % INPUT_BUF_SIZE) = 4 then _ else _) _ _
      split
      · exact wp_op List.mem_cons_self fun _ _ => ⟨nofun, fun _ _ => rfl⟩
      · refine wp_op List.mem_cons_self fun _ _ => ?_
        split
        · exact ⟨nofun, fun _ _ => rfl⟩
        · split
          · exact ⟨nofun, fun _ _ => rfl⟩
          · exact rfl

theorem wp_consoleintr {ch : UInt8} (hq : l.Quiet) : Same (consoleintr ch) l := by
  unfold consoleintr
  refine wp_lock hq.notMem ?_
  refine wp_op List.mem_cons_self fun co _ => ?_
  refine wp_op List.mem_cons_self fun _ _ => ?_
  split
  · exact Same.bind (wp_wakeup_take hq _ nofun) fun _ => wp_release_end nofun
  · exact wp_release_end nofun

theorem wp_devintr (hq : l.Quiet) (d : Dev) : Same (devintr d) l := by
  cases d with
  | timer =>
    refine wp_op trivial fun c _ => ?_
    split
    · refine wp_lock hq.notMem ?_
      refine wp_op List.mem_cons_self fun _ _ => ?_
      exact Same.bind (wp_wakeup_take hq _ nofun) fun _ => wp_release_end nofun
    · exact rfl
  | uart ch => exact wp_consoleintr hq
  | other n m => exact wp_otherWake hq

theorem wp_kerneltrap (hq : l.Quiet) (d : Dev) : Same (kerneltrap d) l := by
  unfold kerneltrap
  refine (wp_devintr hq d).bind fun _ => ?_
  split
  case isFalse => exact rfl
  case isTrue =>
    refine wp_op trivial fun b hb => ?_
    cases b with
    | none => exact rfl
    | some p =>
      have hs : l.self = some p := by
        rcases hb with hb | ⟨_, hb⟩
        · exact hb.symm
        · have hb : some p = l.on := hb
          rw [hq.on] at hb
          cases hb
      refine wp_peek hq.notMem fun sl => ?_
      split
      · exact wp_yield hs hq
      · exact rfl

theorem wp_syscall (hu : l.User) (k : Syscall) : Same (syscall k) l := by
  have hq := hu.toQuiet
  cases k with
  | fork => exact (wp_fork hu).bind fun _ => rfl
  | exit status => exact wp_exit hu
  | wait addr => exact (wp_wait hu).bind fun _ => rfl
  | kill pid => exact (wp_kill hu.own hq).bind fun _ => rfl
  | sleep n => exact (wp_sysSleep hu.self hq).bind fun _ => rfl
  | pipewrite buf n => exact (wp_pipewrite hu.self hq).bind fun _ => rfl
  | piperead mapped n => exact (wp_piperead hu.self hq).bind fun _ => rfl
  | close f => exact wp_fileclose hu.self hq f
  | consoleread mapped n => exact (wp_consoleread hu.self hq).bind fun _ => rfl
  | other n m => exact wp_fileclose hu.self hq (.other n m)

theorem wp_usertrap (hu : l.User) (t : Trap) : Same (usertrap t) l := by
  obtain ⟨p, hs⟩ := Option.ne_none_iff_exists'.mp hu.self
  have hq := hu.toQuiet
  have hserve : Same (serve p t) l := by
    cases t with
    | syscall k =>
      refine (wp_killed hs hq.noProc false).bind fun b => ?_
      cases b with
      | true => exact wp_call (wp_exit hu (Q := fun _ _ => False)) fun _ _ h => h.elim
      | false => exact wp_syscall hu k
    | intr d => exact wp_devintr hq d
    | fault => exact wp_setkilled hq.noProc
  unfold usertrap
  refine wp_me_bind hs ?_
  refine hserve.bind fun _ => ?_
  refine (wp_killed hs hq.noProc false).bind fun b => ?_
  cases b with
  | true => exact wp_call (wp_exit hu (Q := fun _ _ => False)) fun _ _ h => h.elim
  | false =>
    match t with
    | .intr .timer => exact wp_yield hs hq
    | .intr (.uart _) => exact rfl
    | .intr (.other _ _) => exact rfl
    | .syscall _ => exact rfl
    | .fault => exact rfl

end

end Xv6.Proc
