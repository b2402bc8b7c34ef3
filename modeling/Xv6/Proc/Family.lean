import Xv6.Proc.OneCpu
import Xv6.Proc.Parts
import Xv6.Proc.Table

/-!
# The process table

`fork`, `exit` and `wait` as operations on a table of processes.  A slot's pid and
state belong to its lock and its parent to `wait_lock`, so one function of the table
takes several critical sections of the code: `fork` gets a pid, a slot, a parent and a
start one after the other, and `wait` has read the parent of a slot before it takes the
slot's lock.  What a process has found out or begun in between is in `Work`.
-/

namespace Xv6.Proc.Family

open Cpus
open Function (comp_update update update_eq_self update_of_ne update_self)

def cls : ProcState → Cls
  | .UNUSED => .unused
  | .USED => .used
  | .SLEEPING => .live
  | .RUNNABLE => .live
  | .RUNNING => .live
  | .ZOMBIE => .zombie

def entry (b : Slot) : Entry Pr := ⟨cls b.state, b.pid, b.xstate, b.parent⟩

/-! ## The layer -/

/-- What a process that holds `wait_lock` has seen. -/
structure Scan where
  /-- Slots that are not its children. -/
  apart : List Pr
  /-- A slot that is. -/
  child : Option Pr
  /-- The pid and the status of a slot whose lock it holds too. -/
  view : Option (Pr × Int × Int)
  /-- `wait` is about to return these. -/
  reaped : Bool

def Scan.fresh : Scan := ⟨[], none, none, false⟩

def Scan.read (x : Scan) (self : Option Pr) (p : Pr) (locked : Bool) (b : Slot) : Scan where
  apart := if b.parent = self then x.apart else p :: x.apart
  child := if b.parent = self then some p else x.child
  view := if locked then some (p, b.pid, b.xstate) else x.view
  reaped := x.reaped

structure Work where
  /-- The pid that `allocpid` has returned. -/
  token : Option Int
  /-- Whether the slot that `fork` fills has its parent. -/
  placed : Bool
  scan : Scan

def Work.fresh : Work := ⟨none, false, .fresh⟩

def pre {β : Type} (o : Op β) (l : Local) (x : Work) : Prop :=
  match o with
  | .acquire _ | .release _ | .slot _ => x.scan.reaped = false
  | .setState p _ => (∃ y, l.st p = some y ∧ cls y = .live) ∨ x.placed = true
  | .zombie _ _ => x.token = none ∧ x.scan.reaped = false ∧ ∀ z, z ∈ x.scan.apart
  | .setParent p _ => x.scan.reaped = false ∧ (l.own = none → x.scan.child = some p)
  | .found _ pid => x.token = some pid ∧ x.scan.reaped = false
  | .freeproc p =>
    if l.own.map Prod.fst = some p then x.placed = false ∧ x.scan.reaped = false
    else x.scan.reaped = true ∧ ∃ v, x.scan.view = some (p, v)
  | .waitRet _ pp pid status => x.scan.child = some pp ∧ x.scan.view = some (pp, pid, status) ∧ x.scan.reaped = false
  | _ => True

def upd {β : Type} (o : Op β) (l : Local) (x : Work) (b : β) : Work :=
  match o with
  | .acquire lk | .release lk => { x with scan := if lk = .wait then .fresh else { x.scan with view := none } }
  | .slot p => if .wait ∈ l.held then { x with scan := x.scan.read l.self p (.proc p ∈ l.held) b } else x
  | .nextpid => { x with token := some b }
  | .found _ _ => ⟨none, false, { x.scan with view := none }⟩
  | .setParent p _ =>
    if l.own = none then { x with scan := { x.scan with apart := p :: x.scan.apart, child := none } }
    else { x with placed := true, scan := { x.scan with apart := [] } }
  | .zombie _ _ => { x with scan := { x.scan with view := none } }
  | .freeproc _ => { x with scan := { x.scan with child := none, view := none, reaped := false } }
  | .waitRet _ _ _ _ => { x with scan := { x.scan with reaped := true } }
  | _ => x

def layer : Layer Op Local Work := ⟨pre, fun _ _ _ _ => True, upd⟩

/-! ## The table of a state -/

def table (s : Mem) (Λ : Ctx → Local) (N : Ctx → Work) : Table Pr where
  entry p := entry (s.slot p)
  maker q := ⟨(Λ (.proc q)).own.map Prod.fst, (N (.proc q)).placed, (N (.proc q)).token⟩
  nextpid := s.nextpid
  exits := s.exits
  waits := s.waits.map fun w => (w.pid, w.status)

/-- What the process `q` has seen is so. -/
structure Scan.Ok (s : Mem) (l : Local) (q : Pr) (x : Scan) : Prop where
  apart : ∀ z, z ∈ x.apart → (s.slot z).parent ≠ some q
  child : ∀ z, x.child = some z → (s.slot z).parent = some q
  view : ∀ z v, x.view = some (z, v) → .proc z ∈ l.held ∧ ((s.slot z).pid, (s.slot z).xstate) = v
  reaped : x.reaped = true → ∀ z v, x.view = some (z, v) → x.child = some z ∧ ⟨q, some q, v.1, v.2⟩ ∈ s.waits

/-- Some process that holds `wait_lock` returns what it found in the slot. -/
def Reaping (s : Mem) (N : Ctx → Work) (z : Pr) (d : Nat) : Prop :=
  (N (s.ctx d)).scan.reaped = true ∧ ∃ v, (N (s.ctx d)).scan.view = some (z, v)

structure Inv (s : Mem) (Λ : Ctx → Local) (N : Ctx → Work) : Prop where
  valid : (table s Λ N).Valid initproc
  callers : ∀ w, w ∈ s.waits → w.parent = some w.caller
  pending : ∀ z, (s.slot z).state = .ZOMBIE → (s.slot z).pid ∈ s.waits.map Waited.pid → ∃ d, Reaping s N z d
  scan : ∀ d q, s.ctx d = .proc q → Scan.Ok s (Λ (.proc q)) q (N (.proc q)).scan
  rest : ∀ t, .wait ∉ (Λ t).held → (N t).scan = .fresh

variable {l : Local} {x : Work} {b : Slot} {p : Pr} {xs : List Pr}

section
variable {s s' : Mem} {Λ Λ' : Ctx → Local} {N N' : Ctx → Work} {c : Nat} {p q : Pr}

theorem Scan.Ok.fresh (s : Mem) (l : Local) (q : Pr) : Scan.Ok s l q .fresh := ⟨nofun, nofun, nofun, nofun⟩

theorem Scan.Ok.parents {l' : Local} {x : Scan} (h : Scan.Ok s l q x) (hwaits : s'.waits = s.waits)
    (hpar : ∀ z, (s'.slot z).parent = (s.slot z).parent)
    (hview : ∀ z v, x.view = some (z, v) → .proc z ∈ l'.held ∧ ((s'.slot z).pid, (s'.slot z).xstate) = v) :
    Scan.Ok s' l' q x where
  apart z hz := by
    rw [hpar]
    exact h.apart z hz
  child z hz := (hpar z).trans (h.child z hz)
  view := hview
  reaped := by
    rw [hwaits]
    exact h.reaped

theorem Scan.Ok.congr {l' : Local} {x : Scan} (h : Scan.Ok s l q x) (hslot : ∀ z, entry (s'.slot z) = entry (s.slot z))
    (hwaits : s'.waits = s.waits) (hheld : l'.held = l.held) : Scan.Ok s' l' q x := by
  refine h.parents hwaits (fun z => congrArg Entry.parent (hslot z)) fun z v hv => ?_
  rw [hheld, show (s'.slot z).pid = (s.slot z).pid from congrArg Entry.pid (hslot z),
    show (s'.slot z).xstate = (s.slot z).xstate from congrArg Entry.xstate (hslot z)]
  exact h.view z v hv

theorem cls_zombie {x : ProcState} (h : cls x = .zombie) : x = .ZOMBIE := by
  cases x <;> first | rfl | cases h

theorem state_zombie_congr (h : ∀ z, entry (s'.slot z) = entry (s.slot z)) {z : Pr} (hz : (s'.slot z).state = .ZOMBIE) :
    (s.slot z).state = .ZOMBIE := by
  have h1 : cls (s'.slot z).state = cls (s.slot z).state := congrArg Entry.cls (h z)
  rw [hz] at h1
  exact cls_zombie h1.symm

theorem Scan.Ok.blind {l' : Local} {x : Scan} (h : Scan.Ok s l q x)
    (hpar : ∀ z, (s'.slot z).parent = (s.slot z).parent) : Scan.Ok s' l' q { x with view := none } where
  apart z hz := by
    rw [hpar]
    exact h.apart z hz
  child z hz := by
    rw [hpar]
    exact h.child z hz
  view := nofun
  reaped := nofun

theorem table_maker (hc : s.ctx c = .proc q) : table s' (update Λ (s.ctx c) l) (update N (s.ctx c) x) =
      (table s' Λ N).setMaker q ⟨l.own.map Prod.fst, x.placed, x.token⟩ := by
  refine congrArg (fun f => { table s' Λ N with maker := f }) (funext fun r => ?_)
  by_cases hr : r = q
  · rw [hr, ← hc, update_self, update_self, update_self]
  · have hne : Ctx.proc r ≠ s.ctx c := by
      rw [hc]
      intro he
      cases he
      exact hr rfl
    rw [update_of_ne hne, update_of_ne hne, update_of_ne hr]
    rfl

theorem maker_child {r : Bool} (h : (Λ (.proc q)).own = some (p, r)) : ((table s Λ N).maker q).child = some p :=
  Option.map_eq_some_iff.mpr ⟨_, h, rfl⟩

theorem table_slot (hslot : s'.slot = update s.slot p b) : table s' Λ N = { (table s Λ N).set p (entry b) with
      nextpid := s'.nextpid, exits := s'.exits, waits := s'.waits.map fun w => (w.pid, w.status) } := by
  have : (table s' Λ N).entry = update (table s Λ N).entry p (entry b) := by
    show (fun z => entry (s'.slot z)) = _
    rw [hslot]
    exact comp_update entry s.slot p b
  exact congrArg (fun f => { table s' Λ N with entry := f }) this

theorem table_act (hc : s.ctx c = .proc q) (hslot : s'.slot = update s.slot p b) :
    table s' (update Λ (s.ctx c) l) (update N (s.ctx c) x) =
      { ((table s Λ N).set p (entry b)).setMaker q ⟨l.own.map Prod.fst, x.placed, x.token⟩ with
        nextpid := s'.nextpid, exits := s'.exits, waits := s'.waits.map fun w => (w.pid, w.status) } := by
  rw [table_maker hc, table_slot hslot]
  rfl

theorem slot_update {γ : Type} (f : Slot → γ) (hslot : s'.slot = update s.slot p b) (hb : f b = f (s.slot p)) (z : Pr) :
    f (s'.slot z) = f (s.slot z) := by
  rw [hslot]
  exact update_keep f hb z

theorem valid_idle (hown : l.own.map Prod.fst = (Λ (s.ctx c)).own.map Prod.fst)
    (hwork : x.placed = (N (s.ctx c)).placed ∧ x.token = (N (s.ctx c)).token) (h : (table s' Λ N).Valid initproc) :
    (table s' (update Λ (s.ctx c) l) (update N (s.ctx c) x)).Valid initproc := by
  suffices table s' (update Λ (s.ctx c) l) (update N (s.ctx c) x) = table s' Λ N by
    rwa [this]
  refine congrArg (fun f => { table s' Λ N with maker := f }) (funext fun q => ?_)
  by_cases hq : .proc q = s.ctx c
  · rw [hq, update_self, update_self, hown, hwork.1, hwork.2]
  · rw [update_of_ne hq, update_of_ne hq]

theorem table_same (hslot : ∀ z, entry (s'.slot z) = entry (s.slot z)) (hnext : s'.nextpid = s.nextpid)
    (hexits : s'.exits = s.exits) (hwaits : s'.waits = s.waits) : table s' Λ N = table s Λ N := by
  unfold table
  rw [hnext, hexits, hwaits, show (fun z => entry (s'.slot z)) = fun z => entry (s.slot z) from funext hslot]

theorem not_reaping (hr : (N (s.ctx c)).scan.reaped = false) (z : Pr) : ¬ Reaping s N z c := fun hc => by
  rw [hc.1] at hr
  cases hr

theorem known_cls (hi : Proc.Inv s Λ) {y : ProcState} (h : (Λ (s.ctx c)).st p = some y) :
    ((table s Λ N).entry p).cls = cls y :=
  congrArg cls (hi.known c p y h).2

/-- `allocpid` does not run out of pids. -/
def allow {β : Type} (o : Op β) (_ : Ctx) (s : Mem) : Prop :=
  match o with
  | .nextpid => s.nextpid + 1 < 2 ^ 31
  | _ => True

section
variable (h : Inv s Λ N)
include h

theorem Inv.valid_same (hslot : ∀ z, entry (s'.slot z) = entry (s.slot z))
    (hnext : s'.nextpid = s.nextpid) (hexits : s'.exits = s.exits) (hwaits : s'.waits = s.waits)
    (hown : l.own.map Prod.fst = (Λ (s.ctx c)).own.map Prod.fst)
    (hwork : x.placed = (N (s.ctx c)).placed ∧ x.token = (N (s.ctx c)).token) :
    (table s' (update Λ (s.ctx c) l) (update N (s.ctx c) x)).Valid initproc := by
  refine valid_idle hown hwork ?_
  rw [table_same hslot hnext hexits hwaits]
  exact h.valid

theorem Inv.pending_same
    (hslot : ∀ z, (s'.slot z).state = .ZOMBIE → (s.slot z).state = .ZOMBIE ∧ (s'.slot z).pid = (s.slot z).pid)
    (hwaits : s'.waits = s.waits) (hr : x.scan.reaped = (N (s.ctx c)).scan.reaped)
    (hv : x.scan.view = (N (s.ctx c)).scan.view) (z : Pr) (hz : (s'.slot z).state = .ZOMBIE)
    (hw : (s'.slot z).pid ∈ s'.waits.map Waited.pid) :
    (∃ d, d ≠ c ∧ Reaping s N z d) ∨ (x.scan.reaped = true ∧ ∃ v, x.scan.view = some (z, v)) := by
  obtain ⟨h1, h2⟩ := hslot z hz
  rw [hwaits, h2] at hw
  obtain ⟨d, hd⟩ := h.pending z h1 hw
  by_cases hdc : d = c
  · rw [hr, hv]
    exact .inr (hdc ▸ hd)
  · exact .inl ⟨d, hdc, hd⟩

theorem Inv.pending_ne (hr : (N (s.ctx c)).scan.reaped = false) {z : Pr} (hz : (s.slot z).state = .ZOMBIE)
    (hw : (s.slot z).pid ∈ s.waits.map Waited.pid) : ∃ d, d ≠ c ∧ Reaping s N z d := by
  obtain ⟨d, hd⟩ := h.pending z hz hw
  refine ⟨d, ?_, hd⟩
  rintro rfl
  exact not_reaping hr z hd

theorem Inv.pending_other (hslot : s'.slot = update s.slot p b)
    (hwaits : s'.waits = s.waits) (hb : b.state = .ZOMBIE → b.pid ∉ s.waits.map Waited.pid)
    (hmine : ∀ z, z ≠ p → ¬ Reaping s N z c) (z : Pr) (hz : (s'.slot z).state = .ZOMBIE)
    (hw : (s'.slot z).pid ∈ s'.waits.map Waited.pid) : ∃ d, d ≠ c ∧ Reaping s N z d := by
  by_cases hzp : z = p
  · subst hzp
    rw [hslot, update_self] at hz hw
    exact absurd (hwaits ▸ hw) (hb hz)
  · rw [hslot, update_of_ne hzp] at hz hw
    obtain ⟨d, hd⟩ := h.pending z hz (hwaits ▸ hw)
    refine ⟨d, ?_, hd⟩
    rintro rfl
    exact hmine z hzp hd

theorem Inv.present (hown : (Λ (.proc q)).own = none) (hp : (s.slot p).parent = some q) :
    p ≠ initproc ∧ (table s Λ N).Present p := by
  have hpar : ((table s Λ N).entry p).parent = some q := hp
  refine ⟨?_, ?_⟩
  · rintro rfl
    rw [h.valid.forest.top.2.2] at hpar
    cases hpar
  · rcases hc : ((table s Λ N).entry p).cls with _ | _ | _ | _
    · rw [h.valid.forest.unused p hc] at hpar
      cases hpar
    · -- only its parent fills the slot
      obtain ⟨r, hr⟩ := h.valid.makers.used p hc
      rw [(h.valid.makers.makes r p hr).parent] at hpar
      split at hpar
      · cases hpar
        replace hr : (Λ (.proc q)).own.map Prod.fst = some p := hr
        rw [hown] at hr
        cases hr
      · cases hpar
    · exact .inl hc
    · exact .inr hc

theorem Inv.reaping_holds {z : Pr} {d : Nat} (hr : Reaping s N z d) : .wait ∈ (Λ (s.ctx d)).held := by
  by_contra hw
  have := hr.1
  rw [h.rest _ hw] at this
  cases this

theorem Inv.switch {t : Ctx} (hheld : l.held = (Λ (s.ctx c)).held) (hown : l.own = (Λ (s.ctx c)).own)
    (hold : (Λ (s.ctx c)).held = [.proc p]) (hnew : (Λ t).held = [.proc p]) :
    Inv { s with ctx := update s.ctx c t } (update Λ (s.ctx c) l) (update N (s.ctx c) (N (s.ctx c))) := by
  have hheld' := update_keep Local.held hheld
  have hctx : ∀ d, d ≠ c → update s.ctx c t d = s.ctx d := fun d hd => update_of_ne hd ..
  rw [update_eq_self]
  constructor
  case valid =>
    have ht : table { s with ctx := update s.ctx c t } (update Λ (s.ctx c) l) N = table s Λ N := by
      unfold table
      simp only [update_keep Local.own hown]
    rw [ht]
    exact h.valid
  case callers => exact h.callers
  case pending =>
    intro z hz hw
    obtain ⟨d, hd⟩ := h.pending z hz hw
    have hdc : d ≠ c := by
      rintro rfl
      have := h.reaping_holds hd
      rw [hold] at this
      cases List.mem_singleton.mp this
    refine ⟨d, ?_⟩
    rw [Reaping, show ({ s with ctx := update s.ctx c t } : Mem).ctx d = s.ctx d from hctx d hdc]
    exact hd
  case scan =>
    intro d q hd
    by_cases hdc : d = c
    · rw [hdc] at hd
      obtain rfl : t = .proc q := (update_self ..).symm.trans hd
      rw [h.rest _ (by rw [hnew]; simp)]
      exact .fresh ..
    · exact (h.scan d q ((hctx d hdc).symm.trans hd)).congr (fun _ => rfl) rfl (hheld' _)
  case rest =>
    intro t ht
    rw [hheld'] at ht
    exact h.rest t ht

theorem Inv.newContext (hoff : Off s p) (hused : (s.slot p).state = .USED) :
    Inv s (update Λ (.proc p) (Proc.start (.proc p))) (update N (.proc p) .fresh) := by
  have hne : ∀ d, s.ctx d ≠ .proc p := hoff
  have hnlive : ((table s Λ N).entry p).cls ≠ .live := by
    show cls (s.slot p).state ≠ .live
    rw [hused]
    nofun
  have hchild : ((table s Λ N).maker p).child = none := by
    by_contra hc
    obtain ⟨z, hz⟩ := Option.ne_none_iff_exists'.mp hc
    exact hnlive (h.valid.makers.makes p z hz).live
  have htoken : ((table s Λ N).maker p).token = none := by
    by_contra hc
    obtain ⟨n, hn⟩ := Option.ne_none_iff_exists'.mp hc
    exact hnlive (h.valid.makers.holds p n hn).live
  constructor
  case valid =>
    have ht : table s (update Λ (.proc p) (Proc.start (.proc p))) (update N (.proc p) .fresh) =
        (table s Λ N).setMaker p ⟨none, false, none⟩ := by
      refine congrArg (fun f => { table s Λ N with maker := f }) (funext fun r => ?_)
      by_cases hr : r = p
      · rw [hr, update_self, update_self, update_self]
        rfl
      · have hrp : Ctx.proc r ≠ .proc p := fun he => hr (Ctx.proc.inj he)
        rw [update_of_ne hrp, update_of_ne hrp, update_of_ne hr]
        rfl
    rw [ht]
    exact h.valid.idle hchild htoken false
  case callers => exact h.callers
  case pending =>
    intro z hz hw
    obtain ⟨d, hd⟩ := h.pending z hz hw
    refine ⟨d, ?_⟩
    rw [Reaping, update_of_ne (hne d)]
    exact hd
  case scan =>
    intro d q hd
    have hqp : Ctx.proc q ≠ .proc p := hd ▸ hne d
    rw [update_of_ne hqp, update_of_ne hqp]
    exact h.scan d q hd
  case rest =>
    intro t ht
    by_cases htp : t = .proc p
    · rw [htp, update_self]
      rfl
    · rw [update_of_ne htp] at ht ⊢
      exact h.rest t ht

variable (hi : Proc.Inv s Λ)
include hi

theorem Inv.unseen (hw : s.lock .wait ≠ some c) : (N (s.ctx c)).scan = .fresh :=
  h.rest _ fun hin => hw ((hi.held c _).mp hin)

theorem Inv.act (hctx : s'.ctx = s.ctx)
    (hvalid : (table s' (update Λ (s.ctx c) l) (update N (s.ctx c) x)).Valid initproc)
    (hcallers : ∀ w, w ∈ s'.waits → w.parent = some w.caller)
    (hpending : ∀ z, (s'.slot z).state = .ZOMBIE → (s'.slot z).pid ∈ s'.waits.map Waited.pid →
      (∃ d, d ≠ c ∧ Reaping s N z d) ∨ (x.scan.reaped = true ∧ ∃ v, x.scan.view = some (z, v)))
    (hother : ∀ d q, d ≠ c → s.ctx d = .proc q → Scan.Ok s' (Λ (.proc q)) q (N (.proc q)).scan)
    (hmine : ∀ q, s.ctx c = .proc q → Scan.Ok s' l q x.scan) (hrest : .wait ∉ l.held → x.scan = .fresh) :
    Inv s' (update Λ (s.ctx c) l) (update N (s.ctx c) x) := by
  have hne : ∀ {d}, d ≠ c → s.ctx d ≠ s.ctx c := fun hd he => hd (hi.ctx_inj he)
  constructor
  case valid => exact hvalid
  case callers => exact hcallers
  case pending =>
    intro z hz hw
    rcases hpending z hz hw with ⟨d, hd, hr⟩ | hr
    · refine ⟨d, ?_⟩
      rw [Reaping, hctx, update_of_ne (hne hd)]
      exact hr
    · refine ⟨c, ?_⟩
      rw [Reaping, hctx, update_self]
      exact hr
  case scan =>
    intro d q hd
    rw [hctx] at hd
    by_cases hdc : d = c
    · subst hdc
      rw [← hd, update_self, update_self]
      exact hmine q hd
    · rw [update_of_ne (hd ▸ hne hdc), update_of_ne (hd ▸ hne hdc)]
      exact hother d q hdc hd
  case rest =>
    intro t ht
    by_cases htc : t = s.ctx c
    · subst htc
      rw [update_self] at ht ⊢
      exact hrest ht
    · rw [update_of_ne htc] at ht ⊢
      exact h.rest t ht

theorem Inv.quiet (hslot : ∀ z, entry (s'.slot z) = entry (s.slot z))
    (hnext : s'.nextpid = s.nextpid) (hexits : s'.exits = s.exits) (hwaits : s'.waits = s.waits) (hctx : s'.ctx = s.ctx)
    (hown : l.own.map Prod.fst = (Λ (s.ctx c)).own.map Prod.fst) (hheld : l.held = (Λ (s.ctx c)).held) :
    Inv s' (update Λ (s.ctx c) l) (update N (s.ctx c) (N (s.ctx c))) := by
  refine h.act hi hctx ?_ (by rw [hwaits]; exact h.callers) (h.pending_same (fun z hz => ?_) hwaits rfl rfl)
    (fun d q _ hd => ?_) (fun q hq => ?_) fun hw => ?_
  · exact h.valid_same hslot hnext hexits hwaits hown ⟨rfl, rfl⟩
  · exact ⟨state_zombie_congr hslot hz, congrArg Entry.pid (hslot z)⟩
  · exact (h.scan d q hd).congr hslot hwaits rfl
  · rw [hq]
    exact (h.scan c q hq).congr hslot hwaits (by rw [hheld, hq])
  · rw [hheld] at hw
    exact h.rest _ hw

theorem Inv.relock {lk : Lock} {f : Lock → Option Nat} {g : Nat → Nat} (hown : l.own = (Λ (s.ctx c)).own)
    (hr : (N (s.ctx c)).scan.reaped = false) (hheld : lk ≠ .wait → .wait ∉ l.held → .wait ∉ (Λ (s.ctx c)).held) :
    Inv { s with lock := f, noff := g } (update Λ (s.ctx c) l) (update N (s.ctx c)
      { N (s.ctx c) with scan := if lk = .wait then .fresh else { (N (s.ctx c)).scan with view := none } }) := by
  refine h.act hi rfl ?_ h.callers (fun z hz hw => .inl (h.pending_ne hr hz hw))
    (fun d q _ hd => (h.scan d q hd).congr (fun _ => rfl) rfl rfl) (fun q hq => ?_) fun hw => ?_
  · exact h.valid_same (fun _ => rfl) rfl rfl rfl (by rw [hown]) ⟨rfl, rfl⟩
  · show Scan.Ok _ l q (if _ then _ else _)
    split
    · exact .fresh ..
    · rw [hq]
      exact (h.scan c q hq).blind fun _ => rfl
  · show (if _ then _ else _) = _
    split
    · rfl
    · next hlk =>
      rw [h.rest _ (hheld hlk hw)]
      rfl

theorem Inv.read (hin : .wait ∈ (Λ (s.ctx c)).held)
    (hr : (N (s.ctx c)).scan.reaped = false) (p : Pr) (hown : l.own = (Λ (s.ctx c)).own)
    (hheld : l.held = (Λ (s.ctx c)).held) : Inv s (update Λ (s.ctx c) l) (update N (s.ctx c) { N (s.ctx c) with
      scan := (N (s.ctx c)).scan.read (Λ (s.ctx c)).self p (decide (.proc p ∈ (Λ (s.ctx c)).held)) (s.slot p) }) := by
  refine h.act hi rfl ?_ h.callers (fun z hz hw => .inl (h.pending_ne hr hz hw)) (fun d q _ hd => h.scan d q hd)
    (fun q hq => ?_) fun hw => absurd hin (hheld ▸ hw)
  · exact h.valid_same (fun _ => rfl) rfl rfl rfl (by rw [hown]) ⟨rfl, rfl⟩
  · have hself : (Λ (s.ctx c)).self = some q := by
      rw [hq]
      exact hi.selfP q
    have ho := h.scan c q hq
    rw [← hq] at ho
    rw [hself]
    refine ⟨fun z hz => ?_, fun z hz => ?_, fun z v hv => ?_, fun hc => absurd (hr.symm.trans hc) nofun⟩
    · replace hz : z ∈ (if (s.slot p).parent = some q then (N (s.ctx c)).scan.apart else p ::
        (N (s.ctx c)).scan.apart) := hz
      split at hz
      · exact ho.apart z hz
      · next hno =>
        rcases List.mem_cons.mp hz with rfl | hz
        · exact hno
        · exact ho.apart z hz
    · replace hz : (if (s.slot p).parent = some q then some p else (N (s.ctx c)).scan.child) = some z := hz
      split at hz
      · next hyes =>
        cases hz
        exact hyes
      · exact ho.child z hz
    · replace hv : (if decide (Lock.proc p ∈ (Λ (s.ctx c)).held) = true then some (p, (s.slot p).pid, (s.slot p).xstate)
        else (N (s.ctx c)).scan.view) = some (z, v) := hv
      rw [hheld]
      split at hv
      · next hyes =>
        cases hv
        exact ⟨of_decide_eq_true hyes, rfl⟩
      · exact ho.view z v hv

theorem Inv.seen_other (hslot : s'.slot = update s.slot p b)
    (hwaits : s'.waits = s.waits) (hp : .proc p ∈ (Λ (s.ctx c)).held) (hpar : b.parent = (s.slot p).parent) (d : Nat)
    (q : Pr) (hd : d ≠ c) (hq : s.ctx d = .proc q) : Scan.Ok s' (Λ (.proc q)) q (N (.proc q)).scan := by
  refine (h.scan d q hq).parents hwaits (slot_update Slot.parent hslot hpar) fun z v hv => ?_
  obtain ⟨h1, h2⟩ := (h.scan d q hq).view z v hv
  have hz : z ≠ p := by
    rintro rfl
    rw [← hq] at h1
    exact hd (hi.holder h1 hp)
  rw [hslot, update_of_ne hz]
  exact ⟨h1, h2⟩

theorem Inv.seen_none (hw : .wait ∈ (Λ (s.ctx c)).held) (d : Nat) (q : Pr)
    (hd : d ≠ c) (hq : s.ctx d = .proc q) : Scan.Ok s' (Λ (.proc q)) q (N (.proc q)).scan := by
  have hlock := (hi.held c _).mp hw
  rw [← hq, h.unseen hi fun hc => hd (Option.some.inj (hc.symm.trans hlock))]
  exact .fresh ..

theorem Inv.nextpid (hpre : Proc.pre .nextpid (Λ (s.ctx c)))
    (hlt : s.nextpid + 1 < 2 ^ 31) : Inv { s with nextpid := s.nextpid + 1 } (update Λ (s.ctx c) (Λ (s.ctx c)))
      (update N (s.ctx c) { N (s.ctx c) with token := some (toInt32 s.nextpid) }) := by
  obtain ⟨_, q, hs, hno⟩ := hpre
  have hc := hi.ctx_proc hs
  have hrun := hi.running c q hc (hc ▸ hno)
  have hlive : ((table s Λ N).entry q).cls = .live := by
    show cls (s.slot q).state = .live
    rw [hrun]
    rfl
  refine h.act hi rfl ?_ h.callers (h.pending_same (fun z hz => ⟨hz, rfl⟩) rfl rfl rfl) (fun d r _ hd => ?_)
    (fun r hr => ?_) (h.rest _)
  · have hv := h.valid.issue hlive
    rw [table_maker hc, toInt32_of_lt _ (by omega), hc]
    exact hv
  · exact (h.scan d r hd).congr (fun _ => rfl) rfl rfl
  · rw [hr]
    exact (h.scan c r hr).congr (fun _ => rfl) rfl rfl

theorem Inv.found {n : Int} (hpre : Proc.pre (.found p n) (Λ (s.ctx c)))
    (hx : pre (.found p n) (Λ (s.ctx c)) (N (s.ctx c))) : Inv (s.setSlot p { s.slot p with pid := n, state := .USED })
      (update Λ (s.ctx c) (Proc.upd (.found p n) (Λ (s.ctx c)) ()))
      (update N (s.ctx c) ⟨none, false, { (N (s.ctx c)).scan with view := none }⟩) := by
  obtain ⟨hp, ⟨q, hs, hqp, hno⟩, hst, hown⟩ := hpre
  have hc := hi.ctx_proc hs
  obtain ⟨htok, hr⟩ := hx
  have hcls := known_cls (N := N) hi hst
  have hslot : (s.setSlot p { s.slot p with pid := n, state := .USED }).slot = update s.slot p _ := rfl
  refine h.act hi rfl ?_ h.callers (fun z hz hw => .inl ?_) (h.seen_other hi hslot rfl hp rfl)
    (fun r hr => ?_) fun hw => ?_
  · rw [table_act hc rfl]
    refine h.valid.alloc (q := q) (p := p) (n := n) ?_ hcls ?_
    · rw [← htok, hc]
      rfl
    · show (Λ (.proc q)).own.map Prod.fst = none
      rw [← hc, hown]
      rfl
  · exact h.pending_other hslot rfl nofun (fun z _ => not_reaping hr z) z hz hw
  · rw [hr]
    exact (h.scan c r hr).blind (slot_update Slot.parent rfl rfl)
  · show { (N (s.ctx c)).scan with view := none } = Scan.fresh
    rw [h.rest _ hw]
    rfl

theorem Inv.start (hp : .proc p ∈ (Λ (s.ctx c)).held)
    (hown : (Λ (s.ctx c)).own = some (p, true)) (hpl : (N (s.ctx c)).placed = true) :
    Inv (s.setSlot p { s.slot p with state := .RUNNABLE })
      (update Λ (s.ctx c) (Proc.upd (.setState p .RUNNABLE) (Λ (s.ctx c)) ()))
      (update N (s.ctx c) (N (s.ctx c))) := by
  obtain ⟨q, hc, -, hused, hoff⟩ := hi.own_ne hown
  have hslot : (s.setSlot p { s.slot p with state := .RUNNABLE }).slot = update s.slot p _ := rfl
  have hself : (Λ (s.ctx c)).self ≠ some p := by
    exact fun he => hoff c (hi.ctx_proc he)
  have hnone : (Proc.upd (.setState p .RUNNABLE) (Λ (s.ctx c)) ()).own = none := if_pos ⟨hown, hself⟩
  have hview := slot_update (fun b => (b.pid, b.xstate)) hslot rfl
  refine h.act hi rfl ?_ h.callers (h.pending_same (fun z hz => ⟨?_, slot_update Slot.pid hslot rfl z⟩) rfl rfl rfl)
    (h.seen_other hi hslot rfl hp rfl) (fun r hr => ?_) (h.rest _)
  · rw [table_act hc hslot, hnone]
    rw [hc] at hpl hown ⊢
    exact h.valid.start (maker_child hown) hpl
  · have hzp : z ≠ p := by
      rintro rfl
      rw [hslot, update_self] at hz
      cases hz
    rwa [hslot, update_of_ne hzp] at hz
  · rw [hr]
    refine (h.scan c r hr).parents rfl (slot_update Slot.parent hslot rfl) fun z v hv => ?_
    rw [hview]
    exact (h.scan c r hr).view z v hv

theorem Inv.place (hw : .wait ∈ (Λ (s.ctx c)).held) (hs : (Λ (s.ctx c)).self = some q)
    (hown : (Λ (s.ctx c)).own = some (p, true)) :
    Inv (s.setSlot p { s.slot p with parent := some q }) (update Λ (s.ctx c) (Λ (s.ctx c)))
      (update N (s.ctx c)
        { N (s.ctx c) with placed := true, scan := { (N (s.ctx c)).scan with apart := [] } }) := by
  have hc := hi.ctx_proc hs
  have hslot : (s.setSlot p { s.slot p with parent := some q }).slot = update s.slot p _ := rfl
  have hview := slot_update (fun b => (b.pid, b.xstate)) hslot rfl
  refine h.act hi rfl ?_ h.callers (h.pending_same
    (fun z hz => ⟨(slot_update Slot.state hslot rfl z).symm.trans hz, slot_update Slot.pid hslot rfl z⟩) rfl rfl rfl)
    (h.seen_none hi hw) (fun r hr => ?_) fun hn => absurd hw hn
  · rw [table_act hc hslot, hc]
    rw [hc] at hown
    exact h.valid.place (maker_child hown)
  · obtain rfl : r = q := Ctx.proc.inj (hr.symm.trans hc)
    rw [hc]
    have ho := h.scan c r hc
    refine ⟨nofun, fun z hz => ?_, fun z v hv => ?_, ho.reaped⟩
    · rw [hslot]
      by_cases hzp : z = p
      · rw [hzp, update_self]
      · rw [update_of_ne hzp]
        exact ho.child z hz
    · rw [hview]
      exact ho.view z v hv

theorem Inv.adopt (hw : .wait ∈ (Λ (s.ctx c)).held) (hs : (Λ (s.ctx c)).self = some q)
    (hq : q ≠ initproc) (hown : (Λ (s.ctx c)).own = none) (hr : (N (s.ctx c)).scan.reaped = false)
    (hch : (N (s.ctx c)).scan.child = some p) :
    Inv (s.setSlot p { s.slot p with parent := some initproc }) (update Λ (s.ctx c) (Λ (s.ctx c)))
      (update N (s.ctx c) { N (s.ctx c) with
        scan := { (N (s.ctx c)).scan with apart := p :: (N (s.ctx c)).scan.apart, child := none } }) := by
  have hc := hi.ctx_proc hs
  have hslot : (s.setSlot p { s.slot p with parent := some initproc }).slot = update s.slot p _ := rfl
  have hview := slot_update (fun b => (b.pid, b.xstate)) hslot rfl
  refine h.act hi rfl ?_ h.callers (h.pending_same
    (fun z hz => ⟨(slot_update Slot.state hslot rfl z).symm.trans hz, slot_update Slot.pid hslot rfl z⟩) rfl rfl rfl)
    (h.seen_none hi hw) (fun r hrc => ?_) fun hn => absurd hw hn
  · refine valid_idle rfl ⟨rfl, rfl⟩ ?_
    rw [table_slot hslot]
    rw [hc] at hown hch
    obtain ⟨hp, hpres⟩ := h.present hown ((h.scan c q hc).child p hch)
    exact h.valid.adopt hp hpres
  · obtain rfl : r = q := Ctx.proc.inj (hrc.symm.trans hc)
    rw [hc] at hr ⊢
    have ho := h.scan c r hc
    refine ⟨fun z hz => ?_, nofun, fun z v hv => ?_, fun hx => absurd (hr.symm.trans hx) nofun⟩
    · rw [hslot]
      by_cases hzp : z = p
      · rw [hzp, update_self]
        exact fun he => hq (Option.some.inj he).symm
      · rw [update_of_ne hzp]
        exact ho.apart z ((List.mem_cons.mp hz).resolve_left hzp)
    · rw [hview]
      exact ho.view z v hv

theorem Inv.zombie {status : Int} (hpre : Proc.pre (.zombie p status) (Λ (s.ctx c)))
    (hx : pre (.zombie p status) (Λ (s.ctx c)) (N (s.ctx c))) :
    Inv { s.setSlot p { s.slot p with xstate := status, state := .ZOMBIE } with
        exits := s.exits ++ [((s.slot p).pid, status)] }
      (update Λ (s.ctx c) (Proc.upd (.zombie p status) (Λ (s.ctx c)) ()))
      (update N (s.ctx c) { N (s.ctx c) with scan := { (N (s.ctx c)).scan with view := none } }) := by
  obtain ⟨hp, hs, hown, hw, hinit, hst⟩ := hpre
  obtain ⟨htok, hr, hall⟩ := hx
  have hc := hi.ctx_proc hs
  have hlive := known_cls (N := N) hi hst
  have hchild : ((table s Λ N).maker p).child = none := by
    show (Λ (.proc p)).own.map Prod.fst = none
    rw [← hc, hown]
    rfl
  have htoken : ((table s Λ N).maker p).token = none := by
    show (N (.proc p)).token = none
    rw [← hc, htok]
  generalize hs' : ({ s.setSlot p { s.slot p with xstate := status, state := .ZOMBIE } with
    exits := s.exits ++ [((s.slot p).pid, status)] } : Mem) = s'
  have hslot : s'.slot = update s.slot p { s.slot p with xstate := status, state := .ZOMBIE } := by
    rw [← hs']
    rfl
  have hwaits : s'.waits = s.waits := by
    rw [← hs']
    rfl
  refine h.act hi (by rw [← hs']; rfl) ?_ (by rw [hwaits]; exact h.callers) (fun z hz hw' => .inl ?_)
    (h.seen_none hi hw) (fun r hrc => ?_) fun hn => absurd hw hn
  · refine valid_idle rfl ⟨rfl, rfl⟩ ?_
    rw [table_slot hslot, ← hs']
    refine h.valid.exit (q := p) hinit hlive hchild htoken fun z => ?_
    exact (h.scan c p hc).apart z (by rw [← hc]; exact hall z)
  · refine h.pending_other hslot hwaits (fun _ hin => ?_) (fun z _ => not_reaping hr z) z hz hw'
    -- its pid has not exited before
    obtain ⟨w, hwin, hwp⟩ := List.mem_map.mp hin
    refine h.valid.ledger.alive p (.inr hlive) (List.mem_map.mpr ⟨(w.pid, w.status), ?_, hwp⟩)
    exact h.valid.ledger.waits _ (List.mem_map.mpr ⟨w, hwin, rfl⟩)
  · rw [hrc]
    exact (h.scan c r hrc).blind (slot_update Slot.parent hslot rfl)

theorem Inv.abandon {r : Bool} (hp : .proc p ∈ (Λ (s.ctx c)).held)
    (hown : (Λ (s.ctx c)).own = some (p, r)) (hpl : (N (s.ctx c)).placed = false)
    (hr : (N (s.ctx c)).scan.reaped = false) :
    Inv (s.setSlot p Slot.free) (update Λ (s.ctx c) (Proc.upd (.freeproc p) (Λ (s.ctx c)) ()))
      (update N (s.ctx c) { N (s.ctx c) with
        scan := { (N (s.ctx c)).scan with child := none, view := none, reaped := false } }) := by
  obtain ⟨q, hc, hown', -, -⟩ := hi.own_ne hown
  have hslot : (s.setSlot p Slot.free).slot = update s.slot p Slot.free := rfl
  have hnone : (Proc.upd (.freeproc p) (Λ (s.ctx c)) ()).own = none := by
    refine if_pos ?_
    rw [hown]
    rfl
  have hchild := maker_child (s := s) (N := N) hown'
  have hpar : Slot.free.parent = (s.slot p).parent := by
    have := (h.valid.makers.makes q p hchild).parent
    rw [show ((table s Λ N).maker q).placed = false by rw [← hpl, hc]; rfl] at this
    exact this.symm
  refine h.act hi rfl ?_ h.callers (fun z hz hw => .inl ?_) (h.seen_other hi hslot rfl hp hpar) (fun r' hr' => ?_)
    fun hw => ?_
  · rw [table_act hc hslot, hnone, hc]
    exact h.valid.abandon hchild
  · exact h.pending_other hslot rfl nofun (fun z _ => not_reaping hr z) z hz hw
  · rw [hr']
    have ho := h.scan c r' hr'
    refine ⟨fun z hz => ?_, nofun, nofun, nofun⟩
    rw [slot_update Slot.parent hslot hpar]
    exact ho.apart z hz
  · show { (N (s.ctx c)).scan with child := none, view := none, reaped := false } = Scan.fresh
    rw [h.rest _ hw]
    rfl

theorem Inv.free {v : Int × Int} (hw : .wait ∈ (Λ (s.ctx c)).held)
    (hst : (Λ (s.ctx c)).st p = some .ZOMBIE) (hown : (Λ (s.ctx c)).own.map Prod.fst ≠ some p)
    (hv : (N (s.ctx c)).scan.view = some (p, v)) :
    Inv (s.setSlot p Slot.free) (update Λ (s.ctx c) (Proc.upd (.freeproc p) (Λ (s.ctx c)) ()))
      (update N (s.ctx c) { N (s.ctx c) with
        scan := { (N (s.ctx c)).scan with child := none, view := none, reaped := false } }) := by
  have hslot : (s.setSlot p Slot.free).slot = update s.slot p Slot.free := rfl
  have hsame : (Proc.upd (.freeproc p) (Λ (s.ctx c)) ()).own = (Λ (s.ctx c)).own := if_neg hown
  refine h.act hi rfl ?_ h.callers (fun z hz hw => .inl ?_) (h.seen_none hi hw) (fun r hr => ?_)
    fun hn => absurd hw hn
  · refine valid_idle (congrArg _ hsame) ⟨rfl, rfl⟩ ?_
    rw [table_slot hslot]
    exact h.valid.free (known_cls hi hst)
  · refine h.pending_other hslot rfl nofun (fun z hzp hrp => ?_) z hz hw
    obtain ⟨v', hv'⟩ := hrp.2
    rw [hv] at hv'
    cases hv'
    exact hzp rfl
  · rw [hr]
    have ho := h.scan c r hr
    refine ⟨fun z hz => ?_, nofun, nofun, nofun⟩
    rw [hslot]
    by_cases hzp : z = p
    · rw [hzp, update_self]
      nofun
    · rw [update_of_ne hzp]
      exact ho.apart z hz

theorem Inv.waitRet {pp : Pr} {pid status : Int} (hpre : Proc.pre (.waitRet p pp pid status) (Λ (s.ctx c)))
    (hx : pre (.waitRet p pp pid status) (Λ (s.ctx c)) (N (s.ctx c))) :
    Inv { s with waits := s.waits ++ [⟨p, (s.slot pp).parent, pid, status⟩] }
      (update Λ (s.ctx c) (Λ (s.ctx c)))
      (update N (s.ctx c) { N (s.ctx c) with scan := { (N (s.ctx c)).scan with reaped := true } }) := by
  obtain ⟨hs, _, hpp, hw, hst⟩ := hpre
  obtain ⟨hch, hv, hr⟩ := hx
  have hc := hi.ctx_proc hs
  have ho := h.scan c p hc
  rw [← hc] at ho
  have hpar := ho.child pp hch
  obtain ⟨hpid, hxs⟩ := Prod.mk.inj (ho.view pp _ hv).2
  have hz : ((table s Λ N).entry pp).cls = .zombie := known_cls hi hst
  -- no other `wait` is about to return it
  have hnone : ∀ z d, ¬ Reaping s N z d := fun z d hd => by
    have hdc := hi.holder (h.reaping_holds hd) hw
    rw [hdc] at hd
    exact not_reaping hr z hd
  have hnew : (s.slot pp).pid ∉ s.waits.map Waited.pid := fun hin => by
    obtain ⟨d, hd⟩ := h.pending pp (hi.known c pp _ hst).2 hin
    exact hnone pp d hd
  refine h.act hi rfl ?_ (fun w hwin => ?_) (fun z hzz hwz => .inr ⟨rfl, ?_⟩) (h.seen_none hi hw) (fun r hrc => ?_)
    fun hn => absurd hw hn
  · refine valid_idle rfl ⟨rfl, rfl⟩ ?_
    have ht : table { s with waits := s.waits ++ [⟨p, (s.slot pp).parent, pid, status⟩] } Λ N =
      (table s Λ N).reap pp := by
      refine congrArg (fun ws => { table s Λ N with waits := ws }) ?_
      show (s.waits ++ [Waited.mk p (s.slot pp).parent pid status]).map (fun w => (w.pid, w.status)) =
        (s.waits.map fun w => (w.pid, w.status)) ++ [((s.slot pp).pid, (s.slot pp).xstate)]
      rw [List.map_append, hpid, hxs]
      rfl
    rw [ht]
    refine h.valid.reap hz fun hin => hnew ?_
    obtain ⟨x, hx, he⟩ := List.mem_map.mp hin
    obtain ⟨w, hw, rfl⟩ := List.mem_map.mp hx
    exact List.mem_map.mpr ⟨w, hw, he⟩
  · rcases List.mem_append.mp hwin with hwin | hwin
    · exact h.callers w hwin
    · rw [List.mem_singleton.mp hwin]
      exact hpar
  · -- the slot is the only one with this pid
    rw [List.map_append, List.mem_append] at hwz
    rcases hwz with hwz | hwz
    · obtain ⟨d, hd⟩ := h.pending z hzz hwz
      exact absurd hd (hnone z d)
    · have hzpp : z = pp := by
        refine h.valid.forest.inj z pp ?_ (by rw [hz]; nofun) ((List.mem_singleton.mp hwz).trans hpid.symm)
        show cls (s.slot z).state ≠ .unused
        rw [show (s.slot z).state = .ZOMBIE from hzz]
        nofun
      rw [hzpp]
      exact ⟨_, hv⟩
  · rw [hrc]
    have ho := h.scan c r hrc
    refine ⟨ho.apart, ho.child, ho.view, fun _ z v hzv => ?_⟩
    rw [hc] at hrc
    cases hrc
    rw [hc] at hv hch
    replace hzv : (N (.proc p)).scan.view = some (z, v) := hzv
    rw [hv] at hzv
    cases hzv
    exact ⟨hch, List.mem_append_right _ (List.mem_singleton.mpr (by rw [hpar]))⟩

theorem Inv.setState {y : ProcState} (hpre : Proc.pre (.setState p y) (Λ (s.ctx c)))
    (hx : pre (.setState p y) (Λ (s.ctx c)) (N (s.ctx c))) : Inv (s.setSlot p { s.slot p with state := y })
      (update Λ (s.ctx c) (Proc.upd (.setState p y) (Λ (s.ctx c)) ()))
      (update N (s.ctx c) (N (s.ctx c))) := by
  obtain ⟨hp, hmay⟩ := hpre
  -- a living process lives on
  have hlive : ∀ x, (Λ (s.ctx c)).st p = some x → cls x = .live → cls y = .live →
      Inv (s.setSlot p { s.slot p with state := y })
        (update Λ (s.ctx c) (Proc.upd (.setState p y) (Λ (s.ctx c)) ()))
        (update N (s.ctx c) (N (s.ctx c))) := by
    intro x hst hcx hcy
    have hstate := (hi.known c p x hst).2
    refine h.quiet hi (fun z => ?_) rfl rfl rfl rfl ?_ rfl
    · show entry (update s.slot p _ z) = _
      by_cases hz : z = p
      · rw [hz, update_self]
        show Entry.mk (cls y) _ _ _ = Entry.mk (cls (s.slot p).state) _ _ _
        rw [hstate, hcx, hcy]
      · rw [update_of_ne hz]
    · show (if (Λ (s.ctx c)).own = some (p, true) ∧ (Λ (s.ctx c)).self ≠ some p then none else (Λ (s.ctx c)).own).map
        Prod.fst = _
      rw [if_neg]
      rintro ⟨hown, -⟩
      obtain ⟨_, _, _, hused, _⟩ := hi.own_ne hown
      rw [← hstate, hused] at hcx
      cases hcx
  rcases hmay with ⟨_, hst, rfl⟩ | ⟨_, hst, rfl, _⟩ | ⟨_, hst, rfl⟩ | ⟨_, _, hown, rfl⟩
  · exact hlive _ hst rfl rfl
  · exact hlive _ hst rfl rfl
  · exact hlive _ hst rfl rfl
  · rcases hx with ⟨x, hst, hcx⟩ | hpl
    · exact hlive x hst hcx rfl
    · exact h.start hi hp hown hpl

theorem Inv.exec {β : Type} (o : Op β) {x : Choice} {b : β} {fresh : Option Ctx}
    (hpre : Proc.pre o (Λ (s.ctx c))) (hx : pre o (Λ (s.ctx c)) (N (s.ctx c))) (ha : allow o (s.ctx c) s)
    (he : Proc.exec o (s.ctx c) c x s = .done b s' fresh) :
    Inv s' (renew Proc.start (update Λ (s.ctx c) (Proc.upd o (Λ (s.ctx c)) b)) fresh)
      (renew (fun _ => .fresh) (update N (s.ctx c) (upd o (Λ (s.ctx c)) (N (s.ctx c)) b)) fresh) := by
  -- one slot changes in nothing that the table shows
  have hslot : ∀ {p : Pr} {y : Slot}, entry y = entry (s.slot p) → ∀ z, entry ((s.setSlot p y).slot z) =
    entry (s.slot z) :=
    fun hy => update_keep entry hy
  cases o with
  | acquire lk =>
    obtain ⟨_, rfl, rfl⟩ := exec_acquire he
    exact h.relock hi rfl hx fun _ hin hw => hin (List.mem_cons_of_mem _ hw)
  | release lk =>
    obtain ⟨_, rfl, rfl⟩ := exec_release he
    exact h.relock hi rfl hx fun hlk hin hw => hin ((List.mem_erase_of_ne hlk.symm).mpr hw)
  | slot p =>
    cases he
    obtain ⟨_, hl⟩ := upd_slot (Λ (s.ctx c)) p (s.slot p)
    show Inv s (update Λ _ _) (update N (s.ctx c) (if _ then _ else _))
    rw [hl]
    split
    · next hin => exact h.read hi hin hx p rfl rfl
    · exact h.quiet hi (fun _ => rfl) rfl rfl rfl rfl rfl rfl
  | setState p y =>
    cases he
    exact h.setState hi hpre hx
  | sleepOn p ch =>
    cases he
    refine h.quiet hi (hslot ?_) rfl rfl rfl rfl rfl rfl
    show Entry.mk .live _ _ _ = Entry.mk (cls (s.slot p).state) _ _ _
    rw [(hi.known c p _ hpre.2.2).2]
    rfl
  | wake p ch =>
    cases he
    refine h.quiet hi (fun z => ?_) ?_ ?_ ?_ ?_ rfl rfl
    · split
      · next hsl =>
        refine hslot ?_ z
        show Entry.mk .live _ _ _ = Entry.mk (cls (s.slot p).state) _ _ _
        rw [hsl.1]
        rfl
      · rfl
    all_goals split <;> rfl
  | clearChan p | setKilled p =>
    cases he
    exact h.quiet hi (hslot rfl) rfl rfl rfl rfl rfl rfl
  | zombie p status =>
    cases he
    exact h.zombie hi hpre hx
  | setParent p r =>
    cases he
    obtain ⟨hw, q, hs, ⟨hown, rfl⟩ | ⟨hown, rfl, hq⟩⟩ := hpre
    · show Inv _ _ (update N (s.ctx c) (if _ then _ else _))
      rw [if_neg (by rw [hown]; nofun)]
      exact h.place hi hw hs hown
    · show Inv _ _ (update N (s.ctx c) (if _ then _ else _))
      rw [if_pos hown]
      exact h.adopt hi hw hs hq hown hx.1 (hx.2 hown)
  | nextpid =>
    cases he
    exact h.nextpid hi hpre ha
  | found p pid =>
    cases he
    exact h.found hi hpre hx
  | freeproc p =>
    cases he
    obtain ⟨hp, _, hst⟩ := hpre
    replace hx : if (Λ (s.ctx c)).own.map Prod.fst = some p then _ else _ := hx
    split at hx
    · next hown =>
      obtain ⟨⟨p', r⟩, ho, rfl⟩ := Option.map_eq_some_iff.mp hown
      exact h.abandon hi hp ho hx.1 hx.2
    · next hown =>
      obtain ⟨v, hv⟩ := hx.2
      obtain ⟨hz, hw⟩ := hst.resolve_right fun ⟨r, hr⟩ => hown (by rw [hr]; rfl)
      exact h.free hi hw hz hown hv
  | waitRet p pp pid status =>
    cases he
    exact h.waitRet hi hpre hx
  | newContext p =>
    cases he
    obtain ⟨_, _, _, hused, hoff⟩ := hi.own_ne hpre
    refine Inv.newContext (h.quiet hi (fun _ => rfl) rfl rfl rfl rfl ?_ rfl) hoff hused
    rw [show (Λ (s.ctx c)).own = some (p, false) from hpre]
    rfl
  | swtch p =>
    cases he
    obtain ⟨hs, hpk, _, hh⟩ := hpre
    have hc := hi.ctx_sched hs
    exact h.switch rfl rfl hh (hi.picked c p hc (hc ▸ hpk)).2.2.2.held
  | sched =>
    obtain ⟨p, y, hs, hh, _, _⟩ := hpre
    obtain ⟨rfl, rfl⟩ := exec_sched he
    exact h.switch rfl rfl hh (hi.away c p (hi.ctx_proc hs)).held
  | panic => cases he
  | myproc | cpuid | killed p mark | setCur v | choose | files | pipe | pput ch | ptake ok | pclose w | ticks
    | tick | cons | setCons co | sleepCall p ch lk | sleepRet p | wakeupRet ch | untest p | readRet n count =>
      cases he
      exact h.quiet hi (fun _ => rfl) rfl rfl rfl rfl rfl rfl

end

end

/-! ## The code -/

/-- A condition on the slot and the pid that a context has in `fork`. -/
def Stable (A : Local → Work → Prop) : Prop :=
  ∀ l l' x x', l'.self = l.self → l'.own = l.own → x'.token = x.token → x'.placed = x.placed → A l x → A l' x'

/-- Between two functions: no `wait` is about to return. -/
structure Steady (A : Local → Work → Prop) (l : Local) (x : Work) : Prop where
  reaped : x.scan.reaped = false
  rest : .wait ∉ l.held → x.scan = .fresh
  more : A l x

section
variable {A : Local → Work → Prop}

variable {β : Type}

theorem keeps_same (hA : Stable A) {o : Op β} (hpre : ∀ l x, Steady A l x → pre o l x)
    (hupd : ∀ l x b, upd o l x b = x) (hheld : ∀ l b, (Proc.upd o l b).held = l.held)
    (hself : ∀ l b, (Proc.upd o l b).self = l.self) (hown : ∀ l b, (Proc.upd o l b).own = l.own) :
    layer.Keeps logic (Steady A) (perform o) :=
  Layer.keeps_op fun l x h _ => ⟨hpre l x h, fun b _ _ => by
    show Steady A (Proc.upd o l b) (upd o l x b)
    rw [hupd]
    refine ⟨h.reaped, fun hw => h.rest ?_, hA l _ x _ (hself l b) (hown l b) rfl rfl h.more⟩
    rwa [hheld] at hw⟩

theorem Steady.relock (hA : Stable A) {l' : Local} {lk : Lock} (h : Steady A l x) (hself : l'.self = l.self)
    (hown : l'.own = l.own) (hheld : lk ≠ .wait → .wait ∉ l'.held → .wait ∉ l.held) :
    Steady A l' { x with scan := if lk = .wait then .fresh else { x.scan with view := none } } := by
  refine ⟨?_, fun hw => ?_, hA l l' x _ hself hown rfl rfl h.more⟩
  · show (if _ then _ else _ : Scan).reaped = false
    split
    · rfl
    · exact h.reaped
  · show (if _ then _ else _ : Scan) = .fresh
    split
    · rfl
    · next hlk =>
      rw [h.rest (hheld hlk hw)]
      rfl

theorem Steady.read (hA : Stable A) (h : Steady A l x) (p : Pr) (b : Slot) :
    Steady A (Proc.upd (.slot p) l b) (upd (.slot p) l x b) := by
  obtain ⟨_, hl⟩ := upd_slot l p b
  show Steady A (Proc.upd (.slot p) l b) (if .wait ∈ l.held then _ else x)
  rw [hl]
  split
  · next hw => exact ⟨h.reaped, fun hn => absurd hw hn, hA l _ x _ rfl rfl rfl rfl h.more⟩
  · exact ⟨h.reaped, h.rest, hA l _ x _ rfl rfl rfl rfl h.more⟩

theorem keeps_common (hA : Stable A) (o : Op β) (ho : o.Common) : layer.Keeps logic (Steady A) (perform o) := by
  cases o with
  | acquire lk =>
    refine Layer.keeps_op fun l x h _ => ⟨h.reaped, fun _ _ _ => ?_⟩
    exact h.relock hA rfl rfl fun _ hw hin => hw (List.mem_cons_of_mem _ hin)
  | release lk =>
    refine Layer.keeps_op fun l x h _ => ⟨h.reaped, fun _ _ _ => ?_⟩
    exact h.relock hA rfl rfl fun hlk hw hin => hw ((List.mem_erase_of_ne hlk.symm).mpr hin)
  | slot p =>
    exact Layer.keeps_op fun l x h _ => ⟨h.reaped, fun b _ _ => h.read hA p b⟩
  | sched | myproc | cpuid | panic | choose | files | ticks | tick | cons | setCons co =>
    exact keeps_same hA (fun _ _ _ => trivial) (fun _ _ _ => rfl) (fun _ _ => rfl) (fun _ _ => rfl) fun _ _ => rfl
  | _ => exact absurd ho nofun

theorem plain (hA : Stable A) : Plain (layer.Keeps logic (Steady A)) := ⟨layer.closed_keeps logic _, keeps_common hA _⟩

/-- Operations that are not about the table. -/
def Aside {β : Type} : Op β → Prop
  | .setKilled _ | .killed _ _ | .pipe | .pput _ | .ptake _ | .pclose _ | .untest _ | .readRet _ _ | .wake _ _
  | .sleepOn _ _ | .clearChan _ | .sleepCall _ _ _ | .sleepRet _ | .wakeupRet _ | .swtch _ | .setCur _ => True
  | _ => False

theorem keeps_aside (hA : Stable A) (o : Op β) (ho : Aside o) : layer.Keeps logic (Steady A) (perform o) := by
  cases o with
  | setKilled p | killed p mark | pipe | pput ch | ptake ok | pclose w | untest p | readRet n count | wake p ch
    | sleepOn p ch | clearChan p | sleepCall p ch lk | sleepRet p | wakeupRet ch | swtch p | setCur v =>
      exact keeps_same hA (fun _ _ _ => trivial) (fun _ _ _ => rfl) (fun _ _ => rfl) (fun _ _ => rfl) fun _ _ => rfl
  | _ => exact absurd ho nofun

theorem keeps_wakeup (hA : Stable A) (ch : Chan) : layer.Keeps logic (Steady A) (wakeup ch) :=
  wakeup_of (plain hA) (fun _ => keeps_aside hA _ trivial) (keeps_aside hA _ trivial)

theorem keeps_sleep (hA : Stable A) (ch : Chan) (lk : Lock) : layer.Keeps logic (Steady A) (sleep ch lk) :=
  sleep_of (plain hA) (fun _ => keeps_aside hA _ trivial)
    (fun _ => keeps_aside hA _ trivial) (fun _ => keeps_aside hA _ trivial) fun _ => keeps_aside hA _ trivial

theorem keeps_setState {y : ProcState} (hset : ∀ l x, A l x → A (Proc.upd (.setState p y) l ()) x)
    (hno : y = .RUNNING ∨ ∀ l x, A l x → l.self ≠ none → l.self ≠ some p → l.own ≠ some (p, true)) :
    layer.Keeps logic (Steady A) (perform (.setState p y)) := by
  refine Layer.keeps_op fun l x h hpre => ⟨.inl ?_, fun b _ _ => ⟨h.reaped, h.rest, hset l x h.more⟩⟩
  rcases hpre.2 with ⟨_, hst, rfl⟩ | ⟨_, hst, rfl, _⟩ | ⟨_, hst, rfl⟩ | ⟨h1, h2, hown, rfl⟩
  · exact ⟨_, hst, rfl⟩
  · exact ⟨_, hst, rfl⟩
  · exact ⟨_, hst, rfl⟩
  · exact absurd hown (hno.resolve_left nofun l x h.more h1 h2)

theorem wp_me (l : Local) (x : Work) :
    wp (layer.over logic) me (fun p l' => l' = (l, x) ∧ (l.self = some p ∨ l.self = none)) (l, x) := by
  unfold me
  refine wp_op (fun _ => trivial) fun b hb => ?_
  cases b with
  | none => exact wp_op (fun _ => trivial) fun _ hb => absurd hb.2.1 id
  | some p => exact ⟨rfl, hb.2.1.imp Eq.symm And.left⟩

theorem keeps_yield (hA : Stable A) (hset : ∀ p l x, A l x → A (Proc.upd (.setState p .RUNNABLE) l ()) x) :
    layer.Keeps logic (Steady A) yield := by
  intro l x h
  unfold yield
  refine wp_call (wp_me l x) fun p l' hl => ?_
  obtain ⟨rfl, hp⟩ := hl
  have hA' : Stable fun l x => A l x ∧ (l.self = some p ∨ l.self = none) := fun l l' x x' h1 h2 h3 h4 h5 =>
    ⟨hA l l' x x' h1 h2 h3 h4 h5.1, by rw [h1]; exact h5.2⟩
  have hT := layer.closed_keeps logic (Steady fun l x => A l x ∧ (l.self = some p ∨ l.self = none))
  have hrest : layer.Keeps logic (Steady fun l x => A l x ∧ (l.self = some p ∨ l.self = none)) (do
      acquire (.proc p)
      perform (.setState p .RUNNABLE)
      perform .sched
      release (.proc p)) := by
    refine hT.bind (keeps_common hA' _ trivial) fun _ => hT.bind ?_ fun _ =>
      hT.bind (keeps_common hA' _ trivial) fun _ => keeps_common hA' _ trivial
    refine keeps_setState (fun l x hx => ⟨hset p l x hx.1, hx.2⟩) (.inr fun l x hx h1 h2 => ?_)
    exact absurd (hx.2.resolve_right h1) h2
  refine wp_mono (fun _ l' h' => ?_) _ _ (hrest l x ⟨h.reaped, h.rest, h.more, hp⟩)
  exact ⟨h'.reaped, h'.rest, h'.more.1⟩

end

/-- A process that is not in `fork`. -/
structure Idle (l : Local) (x : Work) : Prop where
  self : l.self ≠ none
  own : l.own = none
  token : x.token = none

theorem stable_idle : Stable Idle := fun _ _ _ _ h1 h2 h3 _ h => ⟨h1 ▸ h.self, h2.trans h.own, h3.trans h.token⟩

theorem idle_setState (p : Pr) (l : Local) (x : Work) (h : Idle l x) :
    Idle (Proc.upd (.setState p .RUNNABLE) l ()) x := by
  refine ⟨h.self, ?_, h.token⟩
  show (if _ then none else l.own) = none
  rw [h.own]
  exact ite_self _

/-- `fork` has a pid. -/
structure HasPid (pid : Int) (l : Local) (x : Work) : Prop where
  self : l.self ≠ none
  own : l.own = none
  token : x.token = some pid

theorem stable_hasPid (pid : Int) : Stable (HasPid pid) := fun _ _ _ _ h1 h2 h3 _ h =>
  ⟨h1 ▸ h.self, h2.trans h.own, h3.trans h.token⟩

/-- `fork` fills a slot; `r` says whether its context is set up, and `b` whether it has its parent. -/
structure Filling (np : Pr) (r b : Bool) (l : Local) (x : Work) : Prop where
  self : l.self ≠ none
  other : l.self ≠ some np
  own : l.own = some (np, r)
  token : x.token = none
  placed : x.placed = b

theorem stable_filling (np : Pr) (r b : Bool) : Stable (Filling np r b) := fun _ _ _ _ h1 h2 h3 h4 h =>
  ⟨h1 ▸ h.self, h1 ▸ h.other, h2.trans h.own, h3.trans h.token, h4.trans h.placed⟩

theorem wp_allocpid (h : Steady Idle l x) :
    wp (layer.over logic) allocpid (fun pid l' => Steady (HasPid pid) l'.1 l'.2) (l, x) := by
  unfold allocpid
  refine wp_call (keeps_common stable_idle (.acquire .pid) trivial l x h) fun _ l' h' => ?_
  refine wp_op (fun _ => trivial) fun pid _ => ?_
  have h2 : Steady (HasPid pid) l'.1 { l'.2 with token := some pid } := ⟨h'.reaped, h'.rest, h'.more.self,
    h'.more.own, rfl⟩
  exact wp_call (keeps_common (stable_hasPid pid) (.release .pid) trivial _ _ h2) fun _ l' h' => h'

theorem wp_unfill {α : Type} {a : α} {np : Pr} {r : Bool} (h : Steady (Filling np r false) l x) :
    wp (layer.over logic) (do freeproc np; release (.proc np); pure a) (fun _ l' => Steady Idle l'.1 l'.2) (l, x) := by
  have hown : l.own.map Prod.fst = some np := by
    rw [h.more.own]
    rfl
  refine wp_op (fun _ => ?_) fun _ _ => ?_
  · show if l.own.map Prod.fst = some np then _ else _
    rw [if_pos hown]
    exact ⟨h.more.placed, h.reaped⟩
  · have h2 : Steady Idle (logic.upd (.freeproc np) l ())
        { x with scan := { x.scan with child := none, view := none, reaped := false } } := by
      refine ⟨rfl, fun hw => ?_, h.more.self, if_pos hown, h.more.token⟩
      show { x.scan with child := none, view := none, reaped := false } = Scan.fresh
      rw [h.rest hw]
      rfl
    exact wp_call (keeps_common stable_idle (.release (.proc np)) trivial _ _ h2) fun _ l' h' => h'

theorem wp_allocproc (h : Steady Idle l x) : wp (layer.over logic) allocproc (fun r l' => match r with
      | none => Steady Idle l'.1 l'.2
      | some np => Steady (Filling np true false) l'.1 l'.2) (l, x) := by
  unfold allocproc
  refine wp_call (findUnused_of (plain stable_idle) l x h) fun r l' h' => ?_
  cases r with
  | none => exact h'
  | some np =>
    refine wp_call (wp_allocpid h') fun pid l' h' => ?_
    refine wp_op (fun _ => ⟨h'.more.token, h'.reaped⟩) fun _ hb => ?_
    obtain ⟨_, ⟨q, hs, hq, _⟩, _⟩ := hb.1
    have h2 : Steady (Filling np false false) (logic.upd (.found np pid) l'.1 ())
        ⟨none, false, { l'.2.scan with view := none }⟩ := by
      refine ⟨h'.reaped, fun hw => ?_, h'.more.self, ?_, rfl, rfl, rfl⟩
      · show { l'.2.scan with view := none } = Scan.fresh
        rw [h'.rest hw]
        rfl
      · show l'.1.self ≠ some np
        rw [hs]
        exact fun hc => hq (Option.some.inj hc)
    refine wp_call (keeps_common (stable_filling np false false) .choose trivial _ _ h2) fun b l' h' => ?_
    cases b with
    | false => exact wp_mono (fun _ _ h => h) _ _ (wp_unfill (a := (none : Option Pr)) h')
    | true =>
      refine wp_call (keeps_common (stable_filling np false false) .choose trivial _ _ h') fun b l' h' => ?_
      cases b with
      | false => exact wp_mono (fun _ _ h => h) _ _ (wp_unfill (a := (none : Option Pr)) h')
      | true =>
        refine wp_op (fun _ => trivial) fun _ _ => ?_
        exact ⟨h'.reaped, h'.rest, h'.more.self, h'.more.other, rfl, h'.more.token, h'.more.placed⟩

theorem keeps_fork : layer.Keeps logic (Steady Idle) fork := by
  intro l x h
  unfold fork
  refine wp_call (wp_me l x) fun p l' hl => ?_
  obtain ⟨rfl, _⟩ := hl
  refine wp_call (wp_allocproc h) fun r l' h' => ?_
  cases r with
  | none => exact h'
  | some np =>
    have hop := fun {β : Type} {b : Bool} => keeps_common (β := β) (stable_filling np true b)
    refine wp_call (hop .choose trivial _ _ h') fun b l' h' => ?_
    cases b with
    | false => exact wp_unfill (a := (-1 : Int)) h'
    | true =>
      refine wp_call (hop (.slot np) trivial _ _ h') fun sl l' h' => ?_
      refine wp_call (hop (.release (.proc np)) trivial _ _ h') fun _ l' h' => ?_
      refine wp_call (hop (.acquire .wait) trivial _ _ h') fun _ l' h' => ?_
      have hown : l'.1.own ≠ none := by
        rw [h'.more.own]
        nofun
      refine wp_op (fun _ => ⟨h'.reaped, fun hn => absurd hn hown⟩) fun _ hb => ?_
      have h2 : Steady (Filling np true true) (logic.upd (.setParent np p) l'.1 ())
          (layer.upd (.setParent np p) l'.1 l'.2 ()) := by
        show Steady _ l'.1 (if l'.1.own = none then _ else _)
        rw [if_neg hown]
        exact ⟨h'.reaped, fun hw => absurd hb.1.1 hw, h'.more.self, h'.more.other, h'.more.own, h'.more.token, rfl⟩
      refine wp_call (hop (.release .wait) trivial _ _ h2) fun _ l' h' => ?_
      refine wp_call (hop (.acquire (.proc np)) trivial _ _ h') fun _ l' h' => ?_
      refine wp_op (fun _ => .inr h'.more.placed) fun _ _ => ?_
      have h3 : Steady Idle (logic.upd (.setState np .RUNNABLE) l'.1 ()) l'.2 :=
        ⟨h'.reaped, h'.rest, h'.more.self, if_pos ⟨h'.more.own, h'.more.other⟩, h'.more.token⟩
      exact wp_call (keeps_common stable_idle (.release (.proc np)) trivial _ _ h3) fun _ l' h' => h'

/-! `exit` and `wait` -/

/-- A process that holds `wait_lock` has seen that the slots outside `xs` are not its children. -/
structure Parting (p : Pr) (xs : List Pr) (l : Local) (x : Work) : Prop where
  self : l.self = some p
  held : .wait ∈ l.held
  reaped : x.scan.reaped = false
  idle : Idle l x
  apart : ∀ z, z ∈ xs ∨ z ∈ x.scan.apart

theorem wp_wakeup (h : Parting p xs l x) (ch : Chan) :
    wp (layer.over logic) (wakeup ch) (fun _ l' => Parting p xs l'.1 l'.2) (l, x) := by
  unfold wakeup
  refine wp_call (wp_forEach (Q := fun l' => Parting p xs l'.1 l'.2) (fun _ l' => Parting p xs l'.1 l'.2)
    (fun _ h => h) ?_ h) fun _ l' h' => ?_
  · rintro q _ ⟨l1, x1⟩ h1
    unfold wakeSlot
    refine wp_op (fun _ => trivial) fun b _ => ?_
    show wp (layer.over logic) (if b ≠ some q then _ else _) _ _
    split
    · refine wp_op (fun _ => h1.reaped) fun _ _ => wp_op (fun _ => trivial) fun _ _ => ?_
      refine wp_perform (fun _ => h1.reaped) fun _ _ => ⟨h1.self, ?_, h1.reaped, ⟨h1.idle.self, h1.idle.own,
        h1.idle.token⟩,
        h1.apart⟩
      exact (List.mem_erase_of_ne (by nofun)).mpr (List.mem_cons_of_mem _ h1.held)
    · exact h1
  · exact wp_perform (fun _ => trivial) fun _ _ => h'

theorem Parting.read (h : Parting p xs l x) (pp : Pr) (b : Slot) :
    Parting p xs (Proc.upd (.slot pp) l b) (upd (.slot pp) l x b) ∧
    (b.parent ≠ some p → pp ∈ (upd (.slot pp) l x b).scan.apart) ∧
    (b.parent = some p → (upd (.slot pp) l x b).scan.child = some pp) := by
  obtain ⟨_, hl⟩ := upd_slot l pp b
  have hx : upd (.slot pp) l x b = { x with scan := x.scan.read (some p) pp (decide (.proc pp ∈ l.held)) b } := by
    rw [← h.self]
    exact if_pos h.held
  rw [hx, hl]
  refine ⟨⟨h.self, h.held, h.reaped, stable_idle l _ x _ rfl rfl rfl rfl h.idle, fun z =>
    (h.apart z).imp_right fun hz => ?_⟩, fun hb => ?_, fun hb => if_pos hb⟩
  · show z ∈ (if b.parent = some p then x.scan.apart else pp :: x.scan.apart)
    split
    · exact hz
    · exact List.mem_cons_of_mem _ hz
  · show pp ∈ (if b.parent = some p then x.scan.apart else pp :: x.scan.apart)
    rw [if_neg hb]
    exact List.mem_cons_self

variable {pp : Pr}

theorem Parting.tick (h : Parting p (pp :: xs) l x) (hpp : pp ∈ x.scan.apart) : Parting p xs l x :=
  { h with
    apart := fun z => by
      rcases h.apart z with hz | hz
      · exact (List.mem_cons.mp hz).elim (fun he => .inr (he ▸ hpp)) .inl
      · exact .inr hz }

theorem Parting.give (h : Parting p (pp :: xs) l x) : Parting p xs l (upd (.setParent pp initproc) l x ()) := by
  rw [show upd (.setParent pp initproc) l x () = { x with scan := { x.scan with
    apart := pp :: x.scan.apart, child := none } } from if_pos h.idle.own]
  have hmore : Parting p (pp :: xs) l { x with scan := { x.scan with apart := pp :: x.scan.apart, child := none } } :=
    ⟨h.self, h.held, h.reaped, ⟨h.idle.self, h.idle.own, h.idle.token⟩,
      fun z => (h.apart z).imp_right (List.mem_cons_of_mem _)⟩
  exact hmore.tick List.mem_cons_self

theorem wp_reparent (h : Parting p procs l x) :
    wp (layer.over logic) (reparent p) (fun _ l' => Parting p [] l'.1 l'.2) (l, x) := by
  refine wp_forEach (fun xs (l' : Local × Work) => Parting p xs l'.1 l'.2) (fun _ h => h) ?_ h
  rintro pp xs ⟨l1, x1⟩ h1
  unfold reparentSlot
  refine wp_op (fun _ => h1.reaped) fun b _ => ?_
  obtain ⟨h2, hno, hch⟩ := h1.read pp b
  show wp (layer.over logic) (if b.parent = some p then _ else _) _ _
  split
  case isFalse hb => exact h2.tick (hno hb)
  case isTrue hb =>
    refine wp_op (fun _ => ⟨h2.reaped, fun _ => hch hb⟩) fun _ _ => ?_
    exact wp_wakeup h2.give _

theorem keeps_exit (hclose : ∀ p f, layer.Keeps logic (Steady fun l x => Idle l x ∧ l.self = some p) (fileclose f))
    (status : Int) : layer.Keeps logic (Steady Idle) (exit status) := by
  intro l x h
  unfold exit
  refine wp_call (wp_me l x) fun p l' hl => ?_
  obtain ⟨rfl, hs⟩ := hl
  replace hs : l.self = some p := hs.resolve_right h.more.self
  show wp (layer.over logic) (if p = initproc then _ else _) _ _
  split
  case isTrue => exact wp_perform (fun _ => trivial) fun _ hb => absurd hb.2.1 id
  case isFalse =>
  refine wp_op (fun _ => trivial) fun fs _ => ?_
  refine wp_call ((layer.closed_keeps logic _).forEach (hclose p) fs l x ⟨h.reaped, h.rest, h.more,
    hs⟩) fun _ l' h1 => ?_
  obtain ⟨l1, x1⟩ := l'
  refine wp_op (fun _ => h1.reaped) fun _ _ => ?_
  have h2 : Parting p procs (logic.upd (.acquire .wait) l1 ()) { x1 with scan := .fresh } :=
    ⟨h1.more.2, List.mem_cons_self, rfl, ⟨h1.more.1.self, h1.more.1.own, h1.more.1.token⟩,
      fun z => .inl (List.mem_finRange z)⟩
  refine wp_call (wp_reparent h2) fun _ l' h3 => ?_
  obtain ⟨l3, x3⟩ := l'
  refine wp_op (fun _ => h3.reaped) fun b _ => ?_
  have h5 := (h3.read p b).1
  refine wp_call (wp_wakeup h5 _) fun _ l' h6 => ?_
  refine wp_op (fun _ => h6.reaped) fun _ _ => ?_
  refine wp_op (fun _ => ⟨h6.idle.token, h6.reaped, fun z => (h6.apart z).resolve_left List.not_mem_nil⟩) fun _ _ => ?_
  refine wp_op (fun _ => h6.reaped) fun _ _ => wp_op (fun _ => trivial) fun _ _ => ?_
  exact wp_perform (fun _ => trivial) fun _ hb => absurd hb.2.1 id

/-- `wait` of `p` has seen that the slot is a child. -/
structure Looking (p pp : Pr) (l : Local) (x : Work) : Prop extends Steady Idle l x where
  child : .wait ∈ l.held → l.self = some p → x.scan.child = some pp

/-- `wait` of `p` has read the slot of a child under its lock. -/
structure Found (p pp : Pr) (b : Slot) (l : Local) (x : Work) : Prop extends Looking p pp l x where
  view : .wait ∈ l.held → x.scan.view = some (pp, b.pid, b.xstate)

theorem Steady.looks (h : Steady Idle l x) (pp : Pr) (hb : b.parent = some p) :
    Looking p pp (Proc.upd (.slot pp) l b) (upd (.slot pp) l x b) := by
  obtain ⟨_, hl⟩ := upd_slot l pp b
  refine ⟨h.read stable_idle pp b, fun hw hs => ?_⟩
  rw [hl] at hw hs
  rw [show upd (.slot pp) l x b = { x with scan := x.scan.read l.self pp (decide (.proc pp ∈ l.held)) b }
    from if_pos hw]
  exact if_pos (hb.trans hs.symm)

theorem Looking.acquire (h : Looking p pp l x) :
    Looking p pp (Proc.upd (.acquire (.proc pp)) l ()) (upd (.acquire (.proc pp)) l x ()) :=
  ⟨h.toSteady.relock stable_idle rfl rfl fun _ hw hin => hw (List.mem_cons_of_mem _ hin),
    fun hw hs => h.child ((List.mem_cons.mp hw).resolve_left nofun) hs⟩

theorem Looking.finds (h : Looking p pp l x) (hin : .proc pp ∈ l.held) (b : Slot) :
    Found p pp b (Proc.upd (.slot pp) l b) (upd (.slot pp) l x b) := by
  obtain ⟨_, hl⟩ := upd_slot l pp b
  have hx : .wait ∈ l.held → upd (.slot pp) l x b =
      { x with scan := x.scan.read l.self pp (decide (.proc pp ∈ l.held)) b } := fun hw => if_pos hw
  refine ⟨⟨h.toSteady.read stable_idle pp b, fun hw hs => ?_⟩, fun hw => ?_⟩
  · rw [hl] at hw hs
    rw [hx hw]
    show (if b.parent = l.self then some pp else x.scan.child) = some pp
    rw [h.child hw hs]
    exact ite_self _
  · rw [hl] at hw
    rw [hx hw]
    exact if_pos (decide_eq_true hin)

theorem keeps_waitEnd (pp : Pr) (v : Int) : layer.Keeps logic (Steady Idle)
    (do release (.proc pp); release .wait; pure (.inr v : Bool ⊕ Int)) := by
  have hT := plain stable_idle
  exact hT.op trivial fun _ => hT.op trivial fun _ => hT.ret _

theorem wp_reap (h : Found p pp b l x) : wp (layer.over logic) (do
      perform (.waitRet p pp b.pid b.xstate)
      freeproc pp
      release (.proc pp)
      release .wait
      pure (.inr b.pid : Bool ⊕ Int)) (fun _ l' => Steady Idle l'.1 l'.2) (l, x) := by
  have hown : ¬ (l.own.map Prod.fst = some pp) := by
    rw [h.more.own]
    nofun
  refine wp_op (fun hpre => ⟨h.child hpre.2.2.2.1 hpre.1, h.view hpre.2.2.2.1, h.reaped⟩) fun _ hb => ?_
  have hw : .wait ∈ l.held := hb.1.2.2.2.1
  refine wp_op (fun _ => ?_) fun _ _ => ?_
  · show if l.own.map Prod.fst = some pp then _ else _
    rw [if_neg hown]
    exact ⟨rfl, _, h.view hw⟩
  · refine keeps_waitEnd pp b.pid _ _ ⟨rfl, fun hn => absurd hw hn, h.more.self, ?_, h.more.token⟩
    show (if l.own.map Prod.fst = some pp then none else l.own) = none
    rw [if_neg hown]
    exact h.more.own

theorem keeps_waitScan {addr : Bool} (pps : List Pr) :
    ∀ havekids, layer.Keeps logic (Steady Idle) (waitScan p addr pps havekids) := by
  have hT := plain stable_idle
  induction pps with
  | nil => exact fun havekids => hT.ret _
  | cons pp pps ih =>
    intro havekids l x h
    unfold waitScan
    refine wp_op (fun _ => h.reaped) fun b _ => ?_
    show wp (layer.over logic) (if b.parent = some p then _ else _) _ _
    split
    case isFalse => exact ih havekids _ _ (h.read stable_idle pp b)
    case isTrue hb =>
    have h1 := h.looks pp hb
    refine wp_op (fun _ => h1.reaped) fun _ _ => ?_
    have h2 := h1.acquire
    refine wp_op (fun _ => h2.reaped) fun sl _ => ?_
    have h3 := h2.finds List.mem_cons_self sl
    show wp (layer.over logic) (if sl.state = .ZOMBIE then _ else _) _ _
    split
    case isFalse =>
      have hend := hT.op (o := .release (.proc pp)) trivial fun _ => ih true
      exact hend _ _ h3.toSteady
    case isTrue =>
      refine wp_op (fun _ => trivial) fun ok _ => ?_
      show wp (layer.over logic) (if (addr && !ok) = true then _ else _) _ _
      split
      · exact keeps_waitEnd pp (-1) _ _ h3.toSteady
      · exact wp_reap h3

theorem keeps_usertrap (t : Trap) : layer.Keeps logic (Steady Idle) (usertrap t) := by
  have hT := plain stable_idle
  have haside := fun {β : Type} => keeps_aside (β := β) stable_idle
  have hwake := keeps_wakeup stable_idle
  have hsleep := keeps_sleep stable_idle
  have hkilled := fun p mark => killed_of hT (haside (.killed p mark) trivial)
  have hset : ∀ p, layer.Keeps logic (Steady Idle) (perform (.setState p .RUNNABLE)) := fun p =>
    keeps_setState (idle_setState p) (.inr fun l x h _ _ => by rw [h.own]; nofun)
  -- for `exit`, which knows the process
  have hself : ∀ p, Stable fun l x => Idle l x ∧ l.self = some p := fun p l l' x x' h1 h2 h3 h4 h =>
    ⟨stable_idle l l' x x' h1 h2 h3 h4 h.1, h1.trans h.2⟩
  have hclose : ∀ p f, layer.Keeps logic (Steady fun l x => Idle l x ∧ l.self = some p) (fileclose f) := by
    intro p f
    have hT := plain (hself p)
    refine fileclose_of hT (fun w => pipeclose_of hT (keeps_aside (hself p) _ trivial) (keeps_wakeup (hself p) _))
      (fun n m => otherSleep_of hT (keeps_sleep (hself p) _ _)) fun n m => otherWake_of hT (keeps_wakeup (hself p) _)
  refine usertrap_of_parts hT hkilled (fun p _ => haside _ trivial) (keeps_yield stable_idle idle_setState)
    (fun pid _ => kill_of hT (fun p => haside _ trivial) hset) hwake (fun n m => hsleep _ _) (hsleep _ _) (hsleep _ _)
    keeps_fork (fun w => pipeclose_of hT (haside _ trivial) (hwake _)) (fun _ => keeps_exit hclose)
    (fun addr => wait_of hT (fun p => keeps_waitScan procs) (fun p => hkilled p true) fun p => hsleep _ _)
    (fun buf n => ?_) fun mapped n => ?_
  · exact pipewrite_of hT (haside _ trivial) (fun p => hkilled p true) (fun p => haside _ trivial)
      (fun ch => haside _ trivial) (hwake _) (hsleep _ _)
  · exact piperead_of hT (haside _ trivial) (fun p => hkilled p true) (fun ok => haside _ trivial)
      (fun n i => haside _ trivial) (hwake _) (hsleep _ _)

/-- What an interrupt leaves as it is. -/
def Same (n : Option Int) (b : Bool) (_ : Local) (x : Work) : Prop := x.token = n ∧ x.placed = b

theorem stable_same (n : Option Int) (b : Bool) :
    Stable (Same n b) := fun _ _ _ _ _ _ h3 h4 h => ⟨h3.trans h.1, h4.trans h.2⟩

theorem keeps_kerneltrap (n : Option Int) (b : Bool) (d : Dev) :
    layer.Keeps logic (Steady (Same n b)) (kerneltrap d) := by
  have hT := plain (stable_same n b)
  have hwake := keeps_wakeup (stable_same n b)
  exact kerneltrap_of hT (devintr_of hT (hwake _) (hwake _) fun _ => hwake _)
    (keeps_yield (stable_same n b) fun _ _ _ h => h)

theorem keeps_scheduler : layer.Keeps logic (Steady fun l _ => l.self = none) scheduler := by
  have hA : Stable fun l _ => l.self = none := fun _ _ _ _ h1 _ _ _ h => h1.trans h
  exact scheduler_of (plain hA) (fun p => keeps_setState (fun _ _ h => h) (.inl rfl))
    (fun v => keeps_aside hA _ trivial) fun p => keeps_aside hA _ trivial

/-! ## All runs -/

theorem sound : Layer.Sound machine logic layer allow Proc.Inv Inv Local.User Local.Quiet (Steady Idle)
    (fun _ x => x.scan = .fresh) Proc.start (fun _ => .fresh) where
  done o c x s Λ N b s' fresh hi h hpre hx ha he _ _ := ⟨trivial, h.exec hi o hpre hx ha he⟩
  isQuiet s Λ N c hi h hn := h.rest _ (hi.quiet (of_decide_eq_true hn)).notMem
  code t l x _ hx := (keeps_usertrap t).ends hx fun _ h _ => h
  handler d l x hl hx := by
    have h : Steady (Same x.token x.placed) l x := ⟨by rw [hx]; rfl, fun _ => hx, rfl, rfl⟩
    refine (keeps_kerneltrap _ _ d).ends h fun l' h' he => ?_
    have hscan : l'.2.scan = .fresh := by
      refine h'.rest ?_
      rw [he]
      exact hl.notMem
    obtain ⟨l1, ⟨tok, pl, sc⟩⟩ := l'
    obtain ⟨tok', pl', sc'⟩ := x
    obtain ⟨h1, h2⟩ := h'.more
    cases h1
    cases h2
    cases hscan
    cases hx
    rfl
  entry
    | .proc p => by
      have hk := forkret_of (plain stable_idle)
      have hx : Steady Idle (Proc.start (.proc p)) .fresh := ⟨rfl, fun _ => rfl, nofun, rfl, rfl⟩
      exact hk.ends hx fun _ h _ => h
    | .sched c => by
      have hx : Steady (fun l _ => l.self = none) (Proc.start (.sched c)) .fresh := ⟨rfl, fun _ => rfl, rfl⟩
      exact keeps_scheduler.ends hx fun _ h hu => absurd h.more hu.self

theorem inv_boot (data : Nat → UInt8) : Inv (bootMem data) Proc.start fun _ => .fresh where
  valid := by
    have hcls : ∀ p, ((table (bootMem data) Proc.start fun _ => .fresh).entry p).cls =
        if p = initproc then .live else .unused := fun p => by
      show cls (if p = initproc then _ else Slot.free).state = _
      split <;> rfl
    have hroot : ∀ p, ((table (bootMem data) Proc.start fun _ => .fresh).entry p).cls ≠ .unused →
      p = initproc := fun p hp => by
      by_contra hc
      rw [hcls, if_neg hc] at hp
      exact hp rfl
    refine ⟨?_, ?_, ?_⟩
    · constructor
      case top => exact ⟨rfl, rfl, rfl⟩
      case pid =>
        intro p hp
        rw [hroot p hp]
        exact ⟨Int.le_refl 1, (by decide : (1 : Int) < 2)⟩
      case inj => exact fun p q hp hq _ => (hroot p hp).trans (hroot q hq).symm
      case unused =>
        intro p _
        show (if p = initproc then _ else Slot.free).parent = none
        split <;> rfl
      case parent => exact fun p hp hpres => absurd (hroot p hpres.ne_unused) hp
    · constructor
      case issued => nofun
      case exits => exact List.nodup_nil
      case zombie =>
        intro p hp
        rw [hcls] at hp
        split at hp <;> cases hp
      case alive => exact fun _ _ => List.not_mem_nil
      case waits => nofun
      case once => exact List.nodup_nil
    · constructor
      case used =>
        intro p hp
        rw [hcls] at hp
        split at hp <;> cases hp
      case makes => nofun
      case one => nofun
      case holds => nofun
      case tokens => nofun
  callers := nofun
  pending _ _ hw := nomatch hw
  scan _ _ hc := nomatch hc
  rest _ _ := rfl

theorem nextpid_le {β : Type} {o : Op β} {t : Ctx} {c : Nat} {x : Choice} {s s' : Mem} {b : β} {fresh : Option Ctx}
    (he : exec o t c x s = .done b s' fresh) : s.nextpid ≤ s'.nextpid := by
  cases o with
  | acquire lk =>
    obtain ⟨_, rfl, _⟩ := exec_acquire he
    exact Nat.le_refl _
  | release lk =>
    obtain ⟨_, rfl, _⟩ := exec_release he
    exact Nat.le_refl _
  | sched =>
    obtain ⟨rfl, _⟩ := exec_sched he
    exact Nat.le_refl _
  | wake p ch =>
    cases he
    split <;> exact Nat.le_refl _
  | nextpid =>
    cases he
    exact Nat.le_succ _
  | panic => cases he
  | _ =>
    cases he
    exact Nat.le_refl _

theorem reach_allow {s : State} (h : Reachable s) (hlt : s.shared.nextpid < 2 ^ 31) :
    Run.Reach (step machine) (StepOk machine allow) Initial s := by
  induction h with
  | start h => exact .start h
  | @next s s' a hr _ hs ih =>
    obtain ⟨Λ, _, hw⟩ := Proc.good hr
    have hle : s.shared.nextpid ≤ s'.shared.nextpid := by
      rcases shared_of_step hw hs with he | ⟨β, o, d, x, b, fresh, _, _, he⟩
      · rw [he]
      · exact nextpid_le (t := s.shared.ctx d) he
    refine .next a (ih (Nat.lt_of_le_of_lt hle hlt)) ?_ hs
    cases a with
    | call c k => exact trivial
    | intr c i => exact trivial
    | step c x =>
      show nextOk allow s.shared (s.shared.ctx c) (s.prog (s.shared.ctx c))
      cases hp : s.prog (s.shared.ctx c) with
      | ret u => exact trivial
      | loop body y k => exact trivial
      | op o k =>
        cases o with
        | nextpid =>
          simp only [step] at hs
          split at hs
          · cases hs
          · rw [show machine.current s.shared c = s.shared.ctx c from rfl, hp] at hs
            cases hs
            exact hlt
        | _ => exact trivial

theorem good {s : State} (h : Reachable s) (hlt : s.shared.nextpid < 2 ^ 31) : ∃ Λ : Ctx → Local × Work,
    Proc.Inv s.shared (fun t => (Λ t).1) ∧ Inv s.shared (fun t => (Λ t).1) (fun t => (Λ t).2) ∧
      ∀ t, wp (layer.full logic) (s.prog t) (fun _ l => l.1.User ∧ Steady Idle l.1 l.2) (Λ t) := by
  have hfull := sound.full (Proc.sound.strengthen fun _ _ _ _ => trivial)
  have hg := hfull.reach (fun s hs => ?_) (reach_allow h hlt)
  · obtain ⟨Λ, hI, hw⟩ := hg
    exact ⟨Λ, hI.1, hI.2, hw⟩
  · obtain ⟨data, rfl⟩ := hs
    exact ⟨fun t => (Proc.start t, .fresh), ⟨Proc.inv_boot data, inv_boot data⟩, hfull.entry⟩

section
variable {s s' : Mem} {Λ : Ctx → Local} {N : Ctx → Work} {c : Nat} {p : Pr}

theorem Inv.freed (hi : Proc.Inv s Λ) (h : Inv s Λ N) {β : Type} (o : Op β) {x : Choice} {b : β} {fresh : Option Ctx}
    (hpre : Proc.pre o (Λ (s.ctx c))) (hx : pre o (Λ (s.ctx c)) (N (s.ctx c)))
    (he : Proc.exec o (s.ctx c) c x s = .done b s' fresh) (hz : (s.slot p).state = .ZOMBIE)
    (hne : (s'.slot p).state ≠ .ZOMBIE) :
    (s'.slot p).state = .UNUSED ∧ s.lock .wait = some c ∧ ∃ q, s.ctx c = .proc q ∧ (s.slot p).parent = some q ∧
      ⟨q, some q, (s.slot p).pid, (s.slot p).xstate⟩ ∈ s.waits := by
  -- the operation changes the slot
  have hslot : ∀ {q : Pr} {y : Slot}, (update s.slot q y p).state ≠ .ZOMBIE → q = p := by
    intro q y hy
    by_contra hc
    rw [update_of_ne (Ne.symm hc)] at hy
    exact hy hz
  have hknown : ∀ {y}, (Λ (s.ctx c)).st p = some y → y = .ZOMBIE := fun hy => (hi.known c p _ hy).2.symm.trans hz
  have hused : ∀ {r}, (Λ (s.ctx c)).own ≠ some (p, r) := fun hown => by
    obtain ⟨_, _, _, hu, _⟩ := hi.own_ne hown
    exact absurd (hu.symm.trans hz) nofun
  cases o with
  | acquire lk =>
    obtain ⟨_, rfl, _⟩ := exec_acquire he
    exact absurd hz hne
  | release lk =>
    obtain ⟨_, rfl, _⟩ := exec_release he
    exact absurd hz hne
  | sched =>
    obtain ⟨rfl, _⟩ := exec_sched he
    exact absurd hz hne
  | setState q y =>
    cases he
    have hqp := hslot hne
    subst hqp
    rcases hpre.2 with ⟨_, hst, _⟩ | ⟨_, hst, _⟩ | ⟨_, hst, _⟩ | ⟨_, _, hown, _⟩
    · cases hknown hst
    · cases hknown hst
    · cases hknown hst
    · exact absurd hown hused
  | sleepOn q ch =>
    cases he
    have hqp := hslot hne
    subst hqp
    cases hknown hpre.2.2
  | wake q ch =>
    cases he
    split at hne
    · next hsl =>
      have hqp := hslot hne
      subst hqp
      exact absurd (hsl.1.symm.trans hz) nofun
    · exact absurd hz hne
  | zombie q status =>
    cases he
    have hqp := hslot hne
    subst hqp
    cases hknown hpre.2.2.2.2.2
  | found q pid =>
    cases he
    have hqp := hslot hne
    subst hqp
    cases hknown hpre.2.2.1
  | freeproc q =>
    cases he
    have hqp := hslot hne
    subst hqp
    replace hx : if (Λ (s.ctx c)).own.map Prod.fst = some q then _ else _ := hx
    rw [if_neg fun hown => ?_] at hx
    · obtain ⟨hr, v, hv⟩ := hx
      obtain ⟨_, ⟨o, hs, _⟩, _⟩ := hpre
      have hc := hi.ctx_proc hs
      have ho := h.scan c o hc
      rw [← hc] at ho
      obtain ⟨hch, hin⟩ := ho.reaped hr q v hv
      have hv' := (ho.view q v hv).2
      refine ⟨by rw [setSlot_state, if_pos rfl]; rfl, (hi.held c _).mp (h.reaping_holds ⟨hr, v, hv⟩), o, hc,
        ho.child q hch, ?_⟩
      rw [← hv'] at hin
      exact hin
    · obtain ⟨⟨q', r⟩, ho, rfl⟩ := Option.map_eq_some_iff.mp hown
      exact hused ho
  | clearChan q | setKilled q | setParent q r =>
    cases he
    have hqp := hslot hne
    subst hqp
    refine absurd ?_ hne
    rw [setSlot_state, if_pos rfl]
    exact hz
  | panic => cases he
  | _ =>
    cases he
    exact absurd hz hne

end

/-- While pids last, the pids of slots in use are positive and distinct; a process that
was started, other than the first, has a parent that is neither free nor a ZOMBIE, and
its parents lead to the first process; a ZOMBIE slot changes only when its parent, in
`wait` with `wait_lock`, frees it, having returned its pid and status; and of each exit,
pid and status are returned by one `wait` at most, to who is the parent then. -/
theorem process_table {s : State} (h : Reachable s) (hpids : s.shared.nextpid < 2 ^ 31) :
    (∀ p, (s.shared.slot p).state ≠ .UNUSED → 0 < (s.shared.slot p).pid) ∧
    (∀ p q, (s.shared.slot p).state ≠ .UNUSED → (s.shared.slot q).state ≠ .UNUSED →
      (s.shared.slot p).pid = (s.shared.slot q).pid → p = q) ∧
    (∀ p, p ≠ initproc → (s.shared.slot p).state ∈ [.SLEEPING, .RUNNABLE, .RUNNING, .ZOMBIE] →
      (∃ q, (s.shared.slot p).parent = some q ∧ (s.shared.slot q).state ≠ .UNUSED ∧ (s.shared.slot q).state ≠ .ZOMBIE) ∧
      Relation.ReflTransGen (fun a b => (s.shared.slot a).parent = some b) p initproc) ∧
    (∀ a s' p, step machine s a = some s' → (s.shared.slot p).state = .ZOMBIE → (s'.shared.slot p).state ≠ .ZOMBIE →
      (s'.shared.slot p).state = .UNUSED ∧ ∃ c x q, a = .step c x ∧ s.shared.ctx c = .proc q ∧
        s.shared.lock .wait = some c ∧ (s.shared.slot p).parent = some q ∧
        ⟨q, some q, (s.shared.slot p).pid, (s.shared.slot p).xstate⟩ ∈ s.shared.waits) ∧
    (s.shared.exits.map Prod.fst).Nodup ∧ (s.shared.waits.map Waited.pid).Nodup ∧
    ∀ w ∈ s.shared.waits, (w.pid, w.status) ∈ s.shared.exits ∧ w.parent = some w.caller := by
  obtain ⟨Λ, hi, hI, hw⟩ := good h hpids
  have hcls : ∀ {p}, (s.shared.slot p).state ≠ .UNUSED →
      ((table s.shared (fun t => (Λ t).1) fun t => (Λ t).2).entry p).cls ≠ .unused := by
    intro p hp
    show cls (s.shared.slot p).state ≠ .unused
    revert hp
    cases (s.shared.slot p).state <;> simp [cls]
  refine ⟨fun p hp => (hI.valid.forest.pid p (hcls hp)).1, fun p q hp hq => hI.valid.forest.inj p q (hcls hp) (hcls hq),
    fun p hp hst => ?_, fun a s' p hs hz hne => ?_, hI.valid.ledger.exits, ?_, fun w hwin => ⟨?_, hI.callers w hwin⟩⟩
  · have hpres : (table s.shared (fun t => (Λ t).1) fun t => (Λ t).2).Present p := by
      show cls (s.shared.slot p).state = .live ∨ cls (s.shared.slot p).state = .zombie
      revert hst
      cases (s.shared.slot p).state <;> simp [cls]
    obtain ⟨q, hq, hlive, _⟩ := hI.valid.forest.parent p hp hpres
    replace hlive : cls (s.shared.slot q).state = .live := hlive
    refine ⟨⟨q, hq, ?_, ?_⟩, hI.valid.forest.reaches hpres⟩
    · intro hc
      rw [hc] at hlive
      cases hlive
    · intro hc
      rw [hc] at hlive
      cases hlive
  · rcases shared_of_step hw hs with he | ⟨β, o, c, x, b, fresh, ha, hpre, he⟩
    · rw [he] at hne
      exact absurd hz hne
    · obtain ⟨hu, hl, q, hc, hpar, hin⟩ := Inv.freed hi hI o hpre.1 hpre.2 he hz hne
      exact ⟨hu, c, x, q, ha, hc, hl, hpar, hin⟩
  · have := hI.valid.ledger.once
    rw [show (table s.shared (fun t => (Λ t).1) fun t => (Λ t).2).waits = s.shared.waits.map fun w =>
      (w.pid, w.status) from
      rfl, List.map_map] at this
    exact this
  · exact hI.valid.ledger.waits _ (List.mem_map.mpr ⟨w, hwin, rfl⟩)

/-- The first process forks, its child exits with status 7, and it waits for it. -/
theorem process_table_child : ∃ s : State, Reachable s ∧ s.shared.nextpid = 3 ∧
    s.shared.waits = [⟨initproc, some initproc, 2, 7⟩] ∧ (2, 7) ∈ s.shared.exits := by
  have hview : (Run.run (step machine) (boot fun _ => 0) (steps 0 9 ++ .call 0 (.syscall .fork) :: steps 0 29 ++
      .call 0 (.syscall (.wait false)) :: steps 0 92 ++ .call 0 (.syscall (.exit 7)) :: steps 0 540)).map
        (fun s => (s.shared.nextpid, s.shared.waits)) = some (3, [⟨initproc, some initproc, 2, 7⟩]) := by
    decide +kernel
  obtain ⟨s, hs, hv⟩ := Option.map_eq_some_iff.mp hview
  have hr : Reachable s := Run.Reach.of_run (fun _ _ => trivial) _ (.start ⟨_, rfl⟩) hs
  obtain ⟨hn, hw⟩ := Prod.mk.inj hv
  obtain ⟨-, -, -, -, -, -, hlast⟩ := process_table hr (by rw [hn]; decide)
  exact ⟨s, hr, hn, hw, (hlast _ (by rw [hw]; exact List.mem_singleton_self _)).1⟩

end Xv6.Proc.Family
