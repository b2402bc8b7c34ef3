import Mathlib.Data.List.Nodup
import Mathlib.Logic.Function.Basic
import Mathlib.Logic.Relation

/-!
# A table of processes

What a process table is for, without locks and processors: slots are given pids and
parents, start to live, exit, are handed over to a root process and are freed; what was
exited and what was waited for is written down.

The parents form a tree because a parent is older than its children: pids grow from
parent to child.
-/

namespace Xv6.Proc

open Function (update update_of_ne update_self)

/-- How far a slot is: `live` is RUNNABLE, RUNNING or SLEEPING. -/
inductive Cls
  | unused
  | used
  | live
  | zombie
  deriving DecidableEq

structure Entry (ι : Type) where
  cls : Cls
  pid : Int
  xstate : Int
  parent : Option ι

/-- What a process in `fork` has: the slot it fills, whether that has its parent, and a
pid that was issued to it. -/
structure Maker (ι : Type) where
  child : Option ι
  placed : Bool
  token : Option Int

structure Table (ι : Type) where
  entry : ι → Entry ι
  maker : ι → Maker ι
  nextpid : Int
  /-- The pids and statuses of all exits. -/
  exits : List (Int × Int)
  /-- The pids and statuses that were waited for. -/
  waits : List (Int × Int)

namespace Table

variable {ι : Type} {t : Table ι} {root p q z : ι}

/-- A process that has been started, and whose slot is not free again. -/
def Present (t : Table ι) (p : ι) : Prop := (t.entry p).cls = .live ∨ (t.entry p).cls = .zombie

/-- Pids are positive, distinct and have been issued; a process that is present has a
living parent that is older. -/
structure Forest (root : ι) (t : Table ι) : Prop where
  top : (t.entry root).cls = .live ∧ (t.entry root).pid = 1 ∧ (t.entry root).parent = none
  pid : ∀ p, (t.entry p).cls ≠ .unused → 1 ≤ (t.entry p).pid ∧ (t.entry p).pid < t.nextpid
  inj : ∀ p q, (t.entry p).cls ≠ .unused → (t.entry q).cls ≠ .unused → (t.entry p).pid = (t.entry q).pid → p = q
  unused : ∀ p, (t.entry p).cls = .unused → (t.entry p).parent = none
  parent : ∀ p, p ≠ root → t.Present p →
    ∃ q, (t.entry p).parent = some q ∧ (t.entry q).cls = .live ∧ (t.entry q).pid < (t.entry p).pid

/-- `q` fills the slot `z`. -/
structure Makes (t : Table ι) (q z : ι) : Prop where
  live : (t.entry q).cls = .live
  used : (t.entry z).cls = .used
  older : (t.entry q).pid < (t.entry z).pid
  parent : (t.entry z).parent = if (t.maker q).placed then some q else none

/-- `q` has the pid `n`, which no slot and no exit has. -/
structure Holds (t : Table ι) (q : ι) (n : Int) : Prop where
  live : (t.entry q).cls = .live
  older : (t.entry q).pid < n
  issued : n < t.nextpid
  slots : ∀ z, (t.entry z).cls ≠ .unused → (t.entry z).pid ≠ n
  exits : n ∉ t.exits.map Prod.fst

/-- Every slot in the making, and every pid that is issued and not used yet, belongs to
one living process. -/
structure Makers (t : Table ι) : Prop where
  used : ∀ z, (t.entry z).cls = .used → ∃ q, (t.maker q).child = some z
  makes : ∀ q z, (t.maker q).child = some z → t.Makes q z
  one : ∀ q r z, (t.maker q).child = some z → (t.maker r).child = some z → q = r
  holds : ∀ q n, (t.maker q).token = some n → t.Holds q n
  tokens : ∀ q r n, (t.maker q).token = some n → (t.maker r).token = some n → q = r

/-- Each pid exits at most once, and is waited for at most once, after its exit. -/
structure Ledger (t : Table ι) : Prop where
  issued : ∀ x ∈ t.exits, x.1 < t.nextpid
  exits : (t.exits.map Prod.fst).Nodup
  zombie : ∀ p, (t.entry p).cls = .zombie → ((t.entry p).pid, (t.entry p).xstate) ∈ t.exits
  alive : ∀ p, (t.entry p).cls = .used ∨ (t.entry p).cls = .live → (t.entry p).pid ∉ t.exits.map Prod.fst
  waits : ∀ x ∈ t.waits, x ∈ t.exits
  once : (t.waits.map Prod.fst).Nodup

theorem Present.ne_unused (h : t.Present p) : (t.entry p).cls ≠ .unused := by
  rcases h with h | h <;> rw [h] <;> nofun

theorem not_unused_of_live (h : (t.entry p).cls = .live) : (t.entry p).cls ≠ .unused :=
  Present.ne_unused (.inl h)

/-- Following parents leads to the root: the pids go down. -/
theorem Forest.reaches (h : Forest root t) (hp : t.Present p) :
    Relation.ReflTransGen (fun a b => (t.entry a).parent = some b) p root := by
  induction hn : (t.entry p).pid.toNat using Nat.strongRecOn generalizing p with
  | ind n ih =>
    by_cases hr : p = root
    · rw [hr]
    · obtain ⟨q, hq, hlive, hlt⟩ := h.parent p hr hp
      have h1 := (h.pid q (not_unused_of_live hlive)).1
      refine .head hq (ih _ ?_ (.inl hlive) rfl)
      omega

/-- A parent of a process is not free, no zombie, and not still being made. -/
theorem Forest.live_of_parent (h : Forest root t) (hz : t.Present z) (hp : (t.entry z).parent = some p) :
    (t.entry p).cls = .live := by
  have hr : z ≠ root := by
    rintro rfl
    rw [h.top.2.2] at hp
    cases hp
  obtain ⟨q, hq, hlive, _⟩ := h.parent z hr hz
  rw [hp] at hq
  cases hq
  exact hlive

theorem Forest.others (h : Forest root t) (hp : (t.entry p).cls ≠ .unused) :
    1 ≤ (t.entry p).pid ∧ (t.entry p).pid < t.nextpid ∧
      ∀ z, z ≠ p → (t.entry z).cls ≠ .unused → (t.entry z).pid ≠ (t.entry p).pid :=
  ⟨(h.pid p hp).1, (h.pid p hp).2, fun z hzp hz hc => hzp (h.inj z p hz hp hc)⟩

variable {t' : Table ι}

theorem Forest.mono (h : Forest root t) (he : t'.entry = t.entry) (hn : t.nextpid ≤ t'.nextpid) : Forest root t' where
  top := by rw [he]; exact h.top
  pid p hp := by
    rw [he] at hp ⊢
    exact ⟨(h.pid p hp).1, Int.lt_of_lt_of_le (h.pid p hp).2 hn⟩
  inj p q := by rw [he]; exact h.inj p q
  unused p := by rw [he]; exact h.unused p
  parent p hr hp := by
    rw [Present, he] at hp
    rw [he]
    exact h.parent p hr hp

theorem Ledger.mono (h : Ledger t) (he : t'.entry = t.entry) (hn : t.nextpid ≤ t'.nextpid)
    (hx : t'.exits = t.exits) (hw : t'.waits = t.waits) : Ledger t' where
  issued x hin := Int.lt_of_lt_of_le (h.issued x (hx ▸ hin)) hn
  exits := by rw [hx]; exact h.exits
  zombie p := by rw [he, hx]; exact h.zombie p
  alive p := by rw [he, hx]; exact h.alive p
  waits := by rw [hx, hw]; exact h.waits
  once := by rw [hw]; exact h.once

theorem Makers.child_ne (h : Makers t) (hp : (t.entry p).cls ≠ .used) (r : ι) : (t.maker r).child ≠ some p :=
  fun hr => hp (h.makes r p hr).used

theorem Holds.keep {n : Int} (h : t.Holds q n) (hentry : ∀ z, z ≠ p → t'.entry z = t.entry z)
    (hnext : t.nextpid ≤ t'.nextpid) (hq : (t'.entry q).cls = .live ∧ (t'.entry q).pid = (t.entry q).pid)
    (hp : (t'.entry p).cls ≠ .unused → (t'.entry p).pid ≠ n) (hx : n ∉ t'.exits.map Prod.fst) : t'.Holds q n where
  live := hq.1
  older := by rw [hq.2]; exact h.older
  issued := Int.lt_of_lt_of_le h.issued hnext
  slots z hz := by
    by_cases hzp : z = p
    · subst hzp
      exact hp hz
    · rw [hentry z hzp] at hz ⊢
      exact h.slots z hz
  exits := hx

theorem Makers.act (h : Makers t) (hentry : ∀ z, z ≠ p → t'.entry z = t.entry z)
    (hmaker : ∀ r, r ≠ q → t'.maker r = t.maker r) (hnext : t.nextpid ≤ t'.nextpid)
    (hlive : (t.entry p).cls = .live → p = q ∨ (t'.entry p).cls = .live ∧ (t'.entry p).pid = (t.entry p).pid)
    (hchild : ∀ r, r ≠ q → (t.maker r).child ≠ some p) (hused : (t'.entry p).cls = .used → (t'.maker q).child = some p)
    (hkeep : ∀ z, z ≠ p → (t.maker q).child = some z → (t'.maker q).child = some z)
    (hnew : ∀ z, (t'.maker q).child = some z → z = p ∨ (t.maker q).child = some z)
    (hmakes : ∀ z, (t'.maker q).child = some z → t'.Makes q z)
    (hholds : ∀ n, (t'.maker q).token = some n → t'.Holds q n ∧ ∀ r, r ≠ q → (t.maker r).token ≠ some n)
    (hfresh : ∀ r n, r ≠ q → t.Holds r n → (t.maker r).token = some n →
      ((t'.entry p).cls ≠ .unused → (t'.entry p).pid ≠ n) ∧ n ∉ t'.exits.map Prod.fst) : Makers t' := by
  -- other living processes live on
  have hother : ∀ r, r ≠ q → (t.entry r).cls = .live →
      (t'.entry r).cls = .live ∧ (t'.entry r).pid = (t.entry r).pid := by
    intro r hr hl
    by_cases hrp : r = p
    · subst hrp
      exact (hlive hl).resolve_left hr
    · rw [hentry r hrp]
      exact ⟨hl, rfl⟩
  constructor
  case used =>
    intro z hz
    by_cases hzp : z = p
    · subst hzp
      exact ⟨q, hused hz⟩
    · rw [hentry z hzp] at hz
      obtain ⟨r, hr⟩ := h.used z hz
      by_cases hrq : r = q
      · exact ⟨q, hkeep z hzp (hrq ▸ hr)⟩
      · exact ⟨r, by rw [hmaker r hrq]; exact hr⟩
  case makes =>
    intro r z hr
    by_cases hrq : r = q
    · subst hrq
      exact hmakes z hr
    · rw [hmaker r hrq] at hr
      have hm := h.makes r z hr
      have hzp : z ≠ p := fun hc => hchild r hrq (hc ▸ hr)
      obtain ⟨h1, h2⟩ := hother r hrq hm.live
      refine ⟨h1, ?_, ?_, ?_⟩
      · rw [hentry z hzp]
        exact hm.used
      · rw [hentry z hzp, h2]
        exact hm.older
      · rw [hentry z hzp, hmaker r hrq]
        exact hm.parent
  case one =>
    have hmine : ∀ r z, r ≠ q → (t'.maker r).child = some z → (t'.maker q).child ≠ some z := by
      intro r z hr hz hq
      rw [hmaker r hr] at hz
      rcases hnew z hq with he | he
      · exact hchild r hr (he ▸ hz)
      · exact hr (h.one r q z hz he)
    intro r r' z hr hr'
    by_cases hrq : r = q <;> by_cases hrq' : r' = q
    · rw [hrq, hrq']
    · exact absurd (hrq ▸ hr) (hmine r' z hrq' hr')
    · exact absurd (hrq' ▸ hr') (hmine r z hrq hr)
    · rw [hmaker r hrq] at hr
      rw [hmaker r' hrq'] at hr'
      exact h.one r r' z hr hr'
  case holds =>
    intro r n hr
    by_cases hrq : r = q
    · subst hrq
      exact (hholds n hr).1
    · rw [hmaker r hrq] at hr
      have hh := h.holds r n hr
      obtain ⟨h3, h4⟩ := hfresh r n hrq hh hr
      exact hh.keep hentry hnext (hother r hrq hh.live) h3 h4
  case tokens =>
    intro r r' n hr hr'
    by_cases hrq : r = q <;> by_cases hrq' : r' = q
    · rw [hrq, hrq']
    · rw [hmaker r' hrq'] at hr'
      exact absurd hr' ((hholds n (hrq ▸ hr)).2 r' hrq')
    · rw [hmaker r hrq] at hr
      exact absurd hr ((hholds n (hrq' ▸ hr')).2 r hrq)
    · rw [hmaker r hrq] at hr
      rw [hmaker r' hrq'] at hr'
      exact h.tokens r r' n hr hr'

/-- A table that processes have made. -/
structure Valid (root : ι) (t : Table ι) : Prop where
  forest : Forest root t
  ledger : Ledger t
  makers : Makers t

theorem Valid.making (h : Valid root t) (hc : (t.maker q).child = some p) :
    t.Makes q p ∧ q ≠ p ∧ p ≠ root ∧ ∀ r, r ≠ q → (t.maker r).child ≠ some p := by
  have hm := h.makers.makes q p hc
  refine ⟨hm, ?_, ?_, fun r hr hrc => hr (h.makers.one r q p hrc hc)⟩
  · rintro rfl
    exact absurd (hm.live.symm.trans hm.used) nofun
  · rintro rfl
    exact absurd (h.forest.top.1.symm.trans hm.used) nofun

theorem Valid.childless (h : Valid root t) (hp : (t.entry p).cls ≠ .live) (z : ι) (hz : t.Present z) :
    (t.entry z).parent ≠ some p :=
  fun hc => hp (h.forest.live_of_parent hz hc)

def reap (t : Table ι) (p : ι) : Table ι := { t with waits := t.waits ++ [((t.entry p).pid, (t.entry p).xstate)] }

theorem Valid.reap (h : Valid root t) (hp : (t.entry p).cls = .zombie)
    (hnew : (t.entry p).pid ∉ t.waits.map Prod.fst) : Valid root (t.reap p) where
  forest := h.forest.mono rfl (Int.le_refl _)
  ledger :=
    { issued := h.ledger.issued
      exits := h.ledger.exits
      zombie := h.ledger.zombie
      alive := h.ledger.alive
      waits := by
        intro x hx
        rcases List.mem_append.mp hx with hx | hx
        · exact h.ledger.waits x hx
        · rw [List.mem_singleton.mp hx]
          exact h.ledger.zombie p hp
      once := by
        show ((t.waits ++ [((t.entry p).pid, (t.entry p).xstate)]).map Prod.fst).Nodup
        rw [List.map_append, List.nodup_append]
        refine ⟨h.ledger.once, List.nodup_singleton _, fun a ha b hb => ?_⟩
        rw [List.mem_singleton.mp hb]
        rintro rfl
        exact hnew ha }
  makers :=
    { used := h.makers.used
      makes := fun q z hz =>
        have hm := h.makers.makes q z hz
        ⟨hm.live, hm.used, hm.older, hm.parent⟩
      one := h.makers.one
      holds := fun q n hn =>
        have hh := h.makers.holds q n hn
        ⟨hh.live, hh.older, hh.issued, hh.slots, hh.exits⟩
      tokens := h.makers.tokens }

section
variable [DecidableEq ι]

def set (t : Table ι) (p : ι) (e : Entry ι) : Table ι := { t with entry := update t.entry p e }

def setMaker (t : Table ι) (q : ι) (m : Maker ι) : Table ι := { t with maker := update t.maker q m }

/-! What the process `q` may do. -/

/-- `q` is issued a pid. -/
def issue (t : Table ι) (q : ι) : Table ι :=
  { t.setMaker q { t.maker q with token := some t.nextpid } with nextpid := t.nextpid + 1 }

def alloc (t : Table ι) (q p : ι) (pid : Int) : Table ι :=
  (t.set p { t.entry p with cls := .used, pid := pid }).setMaker q ⟨some p, false, none⟩

def place (t : Table ι) (q p : ι) : Table ι :=
  (t.set p { t.entry p with parent := some q }).setMaker q { t.maker q with placed := true }

def start (t : Table ι) (q p : ι) : Table ι :=
  (t.set p { t.entry p with cls := .live }).setMaker q { t.maker q with child := none }

/-- A slot that was freed. -/
def blank : Entry ι := ⟨.unused, 0, 0, none⟩

def abandon (t : Table ι) (q p : ι) : Table ι := (t.set p blank).setMaker q { t.maker q with child := none }

def exit (t : Table ι) (q : ι) (status : Int) : Table ι :=
  { t.set q { t.entry q with cls := .zombie, xstate := status } with exits := t.exits ++ [((t.entry q).pid, status)] }

def adopt (t : Table ι) (p r : ι) : Table ι := t.set p { t.entry p with parent := some r }

def free (t : Table ι) (p : ι) : Table ι := t.set p blank

@[simp] theorem set_self (e : Entry ι) : (t.set p e).entry p = e := update_self ..

@[simp] theorem set_of_ne {e : Entry ι} (h : z ≠ p) : (t.set p e).entry z = t.entry z := update_of_ne h ..

variable {e : Entry ι}

/-- A slot other than the root's changes.  If it does not live on with its pid, it is
the parent of no process that is present. -/
theorem Forest.set (h : Forest root t) (hr : p ≠ root) (hpid : e.cls ≠ .unused → 1 ≤ e.pid ∧ e.pid < t.nextpid ∧
      ∀ z, z ≠ p → (t.entry z).cls ≠ .unused → (t.entry z).pid ≠ e.pid) (hfree : e.cls = .unused → e.parent = none)
    (hpar : e.cls = .live ∨ e.cls = .zombie →
      ∃ q, q ≠ p ∧ e.parent = some q ∧ (t.entry q).cls = .live ∧ (t.entry q).pid < e.pid)
    (hkids : (e.cls = .live ∧ e.pid = (t.entry p).pid) ∨ ∀ z, z ≠ p → t.Present z → (t.entry z).parent ≠ some p) :
    Forest root (t.set p e) where
  top := by
    rw [set_of_ne hr.symm]
    exact h.top
  pid z hz := by
    by_cases hzp : z = p
    · subst hzp
      rw [set_self] at hz ⊢
      exact ⟨(hpid hz).1, (hpid hz).2.1⟩
    · rw [set_of_ne hzp] at hz ⊢
      exact h.pid z hz
  inj a b ha hb hab := by
    by_cases hap : a = p <;> by_cases hbp : b = p
    · rw [hap, hbp]
    · subst hap
      rw [set_self] at ha hab
      rw [set_of_ne hbp] at hb hab
      exact absurd hab.symm ((hpid ha).2.2 b hbp hb)
    · subst hbp
      rw [set_self] at hb hab
      rw [set_of_ne hap] at ha hab
      exact absurd hab ((hpid hb).2.2 a hap ha)
    · rw [set_of_ne hap] at ha hab
      rw [set_of_ne hbp] at hb hab
      exact h.inj a b ha hb hab
  unused z hz := by
    by_cases hzp : z = p
    · subst hzp
      rw [set_self] at hz ⊢
      exact hfree hz
    · rw [set_of_ne hzp] at hz ⊢
      exact h.unused z hz
  parent z hzr hz := by
    by_cases hzp : z = p
    · subst hzp
      rw [Present, set_self] at hz
      obtain ⟨q, hq, h1, h2, h3⟩ := hpar hz
      refine ⟨q, ?_⟩
      rw [set_self, set_of_ne hq]
      exact ⟨h1, h2, h3⟩
    · rw [Present, set_of_ne hzp] at hz
      obtain ⟨q, h1, h2, h3⟩ := h.parent z hzr hz
      refine ⟨q, by rw [set_of_ne hzp]; exact h1, ?_⟩
      rw [set_of_ne hzp]
      by_cases hq : q = p
      · subst hq
        obtain ⟨h4, h5⟩ := hkids.resolve_right fun hk => hk z hzp hz h1
        rw [set_self, h5]
        exact ⟨h4, h3⟩
      · rw [set_of_ne hq]
        exact ⟨h2, h3⟩

theorem Ledger.set (h : Ledger t) (hz : e.cls = .zombie → (e.pid, e.xstate) ∈ t.exits)
    (ha : e.cls = .used ∨ e.cls = .live → e.pid ∉ t.exits.map Prod.fst) : Ledger (t.set p e) := { h with
  zombie z hzc := by
    by_cases hzp : z = p
    · subst hzp
      rw [set_self] at hzc ⊢
      exact hz hzc
    · rw [set_of_ne hzp] at hzc ⊢
      exact h.zombie z hzc
  alive z hzc := by
    by_cases hzp : z = p
    · subst hzp
      rw [set_self] at hzc ⊢
      exact ha hzc
    · rw [set_of_ne hzp] at hzc ⊢
      exact h.alive z hzc }

/-! They keep a table valid. -/

@[simp] theorem setMaker_self {m : Maker ι} : (t.setMaker q m).maker q = m := update_self ..

@[simp] theorem setMaker_of_ne {m : Maker ι} (h : p ≠ q) : (t.setMaker q m).maker p = t.maker p :=
  update_of_ne h ..

section
variable (h : Valid root t)
include h

theorem Valid.idle (hc : (t.maker q).child = none) (ht : (t.maker q).token = none) (b : Bool) :
    Valid root (t.setMaker q ⟨none, b, none⟩) := by
  have hmaker : ∀ r, ((t.setMaker q ⟨none, b, none⟩).maker r).child = (t.maker r).child ∧
      ((t.setMaker q ⟨none, b, none⟩).maker r).token = (t.maker r).token ∧
      (r ≠ q → ((t.setMaker q ⟨none, b, none⟩).maker r).placed = (t.maker r).placed) := by
    intro r
    by_cases hr : r = q
    · subst hr
      rw [setMaker_self]
      exact ⟨hc.symm, ht.symm, absurd rfl⟩
    · rw [setMaker_of_ne hr]
      exact ⟨rfl, rfl, fun _ => rfl⟩
  refine ⟨h.forest.mono rfl (Int.le_refl _), h.ledger.mono rfl (Int.le_refl _) rfl rfl, ?_⟩
  constructor
  case used =>
    intro z hz
    obtain ⟨r, hr⟩ := h.makers.used z hz
    exact ⟨r, (hmaker r).1.trans hr⟩
  case makes =>
    intro r z hr
    rw [(hmaker r).1] at hr
    have hm := h.makers.makes r z hr
    refine ⟨hm.live, hm.used, hm.older, ?_⟩
    rw [(hmaker r).2.2 ?_]
    · exact hm.parent
    · rintro rfl
      rw [hc] at hr
      cases hr
  case one =>
    intro r r' z
    rw [(hmaker r).1, (hmaker r').1]
    exact h.makers.one r r' z
  case holds =>
    intro r n hr
    rw [(hmaker r).2.1] at hr
    have hh := h.makers.holds r n hr
    exact ⟨hh.live, hh.older, hh.issued, hh.slots, hh.exits⟩
  case tokens =>
    intro r r' n
    rw [(hmaker r).2.1, (hmaker r').2.1]
    exact h.makers.tokens r r' n

theorem Valid.issue (hq : (t.entry q).cls = .live) : Valid root (t.issue q) where
  forest := h.forest.mono rfl (Int.le_of_lt (Int.lt_succ _))
  ledger := h.ledger.mono rfl (Int.le_of_lt (Int.lt_succ _)) rfl rfl
  makers := by
    have hpid := (h.forest.pid q (not_unused_of_live hq)).2
    have hused : (t.entry q).cls ≠ .used := by
      rw [hq]
      nofun
    have hq' : (t.issue q).maker q = { t.maker q with token := some t.nextpid } := setMaker_self
    refine h.makers.act (p := q) (q := q) (fun _ _ => rfl) (fun r hr => setMaker_of_ne hr)
      (Int.le_of_lt (Int.lt_succ _))
      (fun _ => .inl rfl) (fun r _ => h.makers.child_ne hused r) (fun hc => absurd hc hused) (fun z _ hz => ?_)
      (fun z hz => .inr ?_) (fun z hz => ?_) (fun n hn => ?_)
      (fun r n hr hh _ => ⟨fun _ => hh.slots q (not_unused_of_live hq), hh.exits⟩)
    · rw [hq']
      exact hz
    · rwa [hq'] at hz
    · rw [hq'] at hz
      have hm := h.makers.makes q z hz
      exact ⟨hm.live, hm.used, hm.older, by rw [hq']; exact hm.parent⟩
    · rw [hq'] at hn
      cases hn
      refine ⟨⟨hq, hpid, Int.lt_succ _, fun z hz => ?_, fun hc => ?_⟩, fun r _ hr => ?_⟩
      · exact Int.ne_of_lt (h.forest.pid z hz).2
      · obtain ⟨x, hx, he⟩ := List.mem_map.mp hc
        exact absurd he (Int.ne_of_lt (h.ledger.issued x hx))
      · exact absurd (h.makers.holds r _ hr).issued (Int.lt_irrefl _)

theorem Valid.alloc {n : Int} (hn : (t.maker q).token = some n) (hp : (t.entry p).cls = .unused)
    (hchild : (t.maker q).child = none) : Valid root (t.alloc q p n) := by
  have hh := h.makers.holds q n hn
  have hr : p ≠ root := by
    rintro rfl
    rw [h.forest.top.1] at hp
    cases hp
  have hqp : q ≠ p := by
    rintro rfl
    rw [hh.live] at hp
    cases hp
  have h1 : 1 ≤ n := Int.le_of_lt (Int.lt_of_le_of_lt (h.forest.pid q (not_unused_of_live hh.live)).1 hh.older)
  have hset : Forest root (t.set p { t.entry p with cls := .used, pid := n }) := by
    refine h.forest.set hr (fun _ => ⟨h1, hh.issued, fun z _ => hh.slots z⟩) nofun nofun (.inr fun z _ hz hc => ?_)
    rw [h.forest.live_of_parent hz hc] at hp
    cases hp
  have hled : Ledger (t.set p { t.entry p with cls := .used, pid := n }) := h.ledger.set nofun fun _ => hh.exits
  have hp' : (t.alloc q p n).entry p = { t.entry p with cls := .used, pid := n } := set_self _
  have hq' : (t.alloc q p n).maker q = ⟨some p, false, none⟩ := setMaker_self
  refine ⟨hset.mono rfl (Int.le_refl _), hled.mono rfl (Int.le_refl _) rfl rfl, ?_⟩
  refine h.makers.act (p := p) (q := q) (fun z hz => set_of_ne hz) (fun r hr => setMaker_of_ne hr) (Int.le_refl _)
    (fun hc => ?_) (fun r _ => h.makers.child_ne (by rw [hp]; nofun) r) (fun _ => by rw [hq']) (fun z _ hz => ?_)
    (fun z hz => .inl ?_) (fun z hz => ?_) (fun m hm => ?_) (fun r m hr hm hrm => ⟨fun _ => ?_, hm.exits⟩)
  · rw [hp] at hc
    cases hc
  · rw [hchild] at hz
    cases hz
  · rw [hq'] at hz
    cases hz
    rfl
  · rw [hq'] at hz
    cases hz
    have he : (t.alloc q p n).entry q = t.entry q := set_of_ne hqp
    refine ⟨by rw [he]; exact hh.live, by rw [hp'], by rw [he, hp']; exact hh.older, ?_⟩
    rw [hp', hq']
    exact h.forest.unused p hp
  · rw [hq'] at hm
    cases hm
  · rw [hp']
    show n ≠ m
    rintro rfl
    exact hr (h.makers.tokens r q n hrm hn)

theorem Valid.act_child (hc : (t.maker q).child = some p) {m : Maker ι}
    (htok : m.token = (t.maker q).token) (hpid : e.cls ≠ .unused → e.pid = (t.entry p).pid)
    (hm : m.child = some p ∧ e.cls = .used ∧ e.parent = (if m.placed then some q else none) ∨
      m.child = none ∧ e.cls ≠ .used) : Makers ((t.set p e).setMaker q m) := by
  obtain ⟨hmk, hqp, -, hothers⟩ := h.making hc
  have hno : (t.entry p).cls ≠ .unused := by
    rw [hmk.used]
    nofun
  have hp' : ((t.set p e).setMaker q m).entry p = e := set_self _
  have hq' : ((t.set p e).setMaker q m).maker q = m := setMaker_self
  have he : ((t.set p e).setMaker q m).entry q = t.entry q := set_of_ne hqp
  have hslot : ∀ r n, t.Holds r n → e.cls ≠ .unused → e.pid ≠ n := fun r n hh hu => by
    rw [hpid hu]
    exact hh.slots p hno
  refine h.makers.act (p := p) (q := q) (fun z hz => set_of_ne hz) (fun r hr => setMaker_of_ne hr) (Int.le_refl _)
    (fun hl => absurd (hmk.used.symm.trans hl) nofun) hothers ?_ ?_ ?_ ?_ ?_ ?_
  · rw [hp', hq']
    exact fun hu => (hm.resolve_right fun hn => hn.2 hu).1
  · exact fun z hz hcz => absurd (Option.some.inj (hcz.symm.trans hc)) hz
  · rw [hq']
    intro z hz
    rcases hm with ⟨h1, _⟩ | ⟨h1, _⟩
    · exact .inl (Option.some.inj (hz.symm.trans h1))
    · rw [h1] at hz
      cases hz
  · rw [hq']
    intro z hz
    rcases hm with ⟨h1, h2, h3⟩ | ⟨h1, _⟩
    · rw [h1] at hz
      cases hz
      refine ⟨by rw [he]; exact hmk.live, by rw [hp']; exact h2, ?_, by rw [hp', hq']; exact h3⟩
      rw [he, hp', hpid (by rw [h2]; nofun)]
      exact hmk.older
    · rw [h1] at hz
      cases hz
  · rw [hq', htok]
    intro n hn
    have hh := h.makers.holds q n hn
    refine ⟨hh.keep (fun z hz => set_of_ne hz) (Int.le_refl _) ?_ ?_ hh.exits, fun r hr hrn =>
      hr (h.makers.tokens r q n hrn hn)⟩
    · rw [he]
      exact ⟨hmk.live, rfl⟩
    · rw [hp']
      exact hslot q n hh
  · rw [hp']
    exact fun r n _ hh _ => ⟨hslot r n hh, hh.exits⟩

theorem Valid.place (hc : (t.maker q).child = some p) : Valid root (t.place q p) := by
  obtain ⟨hm, hqp, hr, _⟩ := h.making hc
  have hno : (t.entry p).cls ≠ .unused := by
    rw [hm.used]
    nofun
  have hset : Forest root (t.set p { t.entry p with parent := some q }) := by
    refine h.forest.set hr (fun _ => h.forest.others hno) (fun hc => absurd hc hno) (fun hc => ?_)
      (.inr fun z _ => h.childless (by rw [hm.used]; nofun) z)
    rcases hc with hc | hc <;> exact absurd (hm.used.symm.trans hc) nofun
  have hled : Ledger (t.set p { t.entry p with parent := some q }) := h.ledger.set (h.ledger.zombie p)
    (h.ledger.alive p)
  exact ⟨hset.mono rfl (Int.le_refl _), hled.mono rfl (Int.le_refl _) rfl rfl,
    h.act_child hc rfl (fun _ => rfl) (.inl ⟨hc, hm.used, rfl⟩)⟩

theorem Valid.start (hc : (t.maker q).child = some p) (hpl : (t.maker q).placed = true) :
    Valid root (t.start q p) := by
  obtain ⟨hm, hqp, hr, _⟩ := h.making hc
  have hpar : (t.entry p).parent = some q := by
    rw [hm.parent, hpl]
    rfl
  have hset : Forest root (t.set p { t.entry p with cls := .live }) :=
    h.forest.set hr (fun _ => h.forest.others (by rw [hm.used]; nofun)) nofun
      (fun _ => ⟨q, hqp, hpar, hm.live, hm.older⟩) (.inl ⟨rfl, rfl⟩)
  have hled : Ledger (t.set p { t.entry p with cls := .live }) := h.ledger.set nofun fun _ => h.ledger.alive p
    (.inl hm.used)
  exact ⟨hset.mono rfl (Int.le_refl _), hled.mono rfl (Int.le_refl _) rfl rfl,
    h.act_child hc rfl (fun _ => rfl) (.inr ⟨rfl, nofun⟩)⟩

end

theorem Forest.blank (h : Forest root t) (hp : (t.entry p).cls ≠ .live) : Forest root (t.set p blank) := by
  have hr : p ≠ root := by
    rintro rfl
    exact hp h.top.1
  exact h.set hr (fun hc => absurd rfl hc) (fun _ => rfl) nofun (.inr fun z _ hz hc => hp (h.live_of_parent hz hc))

section
variable (h : Valid root t)
include h

theorem Valid.abandon (hc : (t.maker q).child = some p) : Valid root (t.abandon q p) := by
  obtain ⟨hm, _⟩ := h.making hc
  have hset := h.forest.blank (p := p) (by rw [hm.used]; nofun)
  have hled : Ledger (t.set p Table.blank) := h.ledger.set nofun nofun
  exact ⟨hset.mono rfl (Int.le_refl _), hled.mono rfl (Int.le_refl _) rfl rfl,
    h.act_child hc rfl (fun hu => absurd rfl hu) (.inr ⟨rfl, nofun⟩)⟩

theorem Valid.act_other (hp : (t.entry p).cls ≠ .used) (hu : e.cls ≠ .used)
    (he : t'.entry = update t.entry p e) (hmk : t'.maker = t.maker) (hnext : t'.nextpid = t.nextpid)
    (hpid : e.cls ≠ .unused → (t.entry p).cls ≠ .unused ∧ e.pid = (t.entry p).pid)
    (hlive : (t.entry p).cls = .live → e.cls = .live ∨ (t.maker p).child = none ∧ (t.maker p).token = none)
    (hx : ∀ r n, t.Holds r n → n ∉ t'.exits.map Prod.fst) : Makers t' := by
  have hother : ∀ z, z ≠ p → t'.entry z = t.entry z := fun z hz => by rw [he, update_of_ne hz]
  have hp' : t'.entry p = e := by rw [he, update_self]
  have hslot : ∀ r n, t.Holds r n → e.cls ≠ .unused → e.pid ≠ n := fun r n hh hu => by
    rw [(hpid hu).2]
    exact hh.slots p (hpid hu).1
  have hsame : (t.entry p).cls = .live → e.cls = .live → (t'.entry p).cls = .live ∧ (t'.entry p).pid =
    (t.entry p).pid := by
    intro _ hl
    rw [hp']
    exact ⟨hl, (hpid (by rw [hl]; nofun)).2⟩
  refine h.makers.act (p := p) (q := p) hother (fun r _ => by rw [hmk]) (Int.le_of_eq hnext.symm) (fun _ => .inl rfl)
    (fun r _ => h.makers.child_ne hp r) ?_ ?_ ?_ ?_ ?_ ?_
  · rw [hp']
    exact fun hc => absurd hc hu
  · rw [hmk]
    exact fun z _ hz => hz
  · rw [hmk]
    exact fun z hz => .inr hz
  · rw [hmk]
    intro z hz
    have hm := h.makers.makes p z hz
    have hzp : z ≠ p := by
      rintro rfl
      exact hp hm.used
    have hl := (hlive hm.live).resolve_right fun hn => by
      rw [hn.1] at hz
      cases hz
    obtain ⟨h1, h2⟩ := hsame hm.live hl
    refine ⟨h1, by rw [hother z hzp]; exact hm.used, by rw [hother z hzp, h2]; exact hm.older, ?_⟩
    rw [hother z hzp, hmk]
    exact hm.parent
  · rw [hmk]
    intro n hn
    have hh := h.makers.holds p n hn
    have hl := (hlive hh.live).resolve_right fun hc => by
      rw [hc.2] at hn
      cases hn
    refine ⟨hh.keep hother (Int.le_of_eq hnext.symm) (hsame hh.live hl) ?_ (hx p n hh), fun r hr hrn =>
      hr (h.makers.tokens r p n hrn hn)⟩
    rw [hp']
    exact hslot p n hh
  · rw [hp']
    exact fun r n _ hh _ => ⟨hslot r n hh, hx r n hh⟩

theorem Valid.exit {status : Int} (hr : q ≠ root) (hq : (t.entry q).cls = .live)
    (hchild : (t.maker q).child = none) (htok : (t.maker q).token = none) (hkids : ∀ z, (t.entry z).parent ≠ some q) :
    Valid root (t.exit q status) := by
  obtain ⟨r, h1, h2, h3⟩ := h.forest.parent q hr (.inl hq)
  have hrq : r ≠ q := by
    rintro rfl
    exact hkids r h1
  have hno := not_unused_of_live hq
  have hpid := h.forest.others hno
  have hnew := h.ledger.alive q (.inr hq)
  have hset : Forest root (t.set q { t.entry q with cls := .zombie, xstate := status }) :=
    h.forest.set hr (fun _ => hpid) nofun (fun _ => ⟨r, hrq, h1, h2, h3⟩) (.inr fun z _ _ => hkids z)
  have hother : ∀ z, z ≠ q → (t.exit q status).entry z = t.entry z := fun z hz => set_of_ne hz
  have hsame : (t.exit q status).entry q = { t.entry q with cls := .zombie, xstate := status } := set_self _
  have hled : Ledger (t.exit q status) := by
    constructor
    case issued =>
      intro x hx
      rcases List.mem_append.mp hx with hx | hx
      · exact h.ledger.issued x hx
      · rw [List.mem_singleton.mp hx]
        exact hpid.2.1
    case exits =>
      show ((t.exits ++ [((t.entry q).pid, status)]).map Prod.fst).Nodup
      rw [List.map_append, List.nodup_append]
      refine ⟨h.ledger.exits, List.nodup_singleton _, fun a ha b hb => ?_⟩
      rw [List.mem_singleton.mp hb]
      rintro rfl
      exact hnew ha
    case zombie =>
      intro z hz
      by_cases hzq : z = q
      · subst hzq
        rw [hsame]
        exact List.mem_append_right _ (List.mem_singleton_self _)
      · rw [hother z hzq] at hz ⊢
        exact List.mem_append_left _ (h.ledger.zombie z hz)
    case alive =>
      intro z hz
      show ((t.exit q status).entry z).pid ∉ (t.exits ++ [((t.entry q).pid, status)]).map Prod.fst
      by_cases hzq : z = q
      · subst hzq
        rw [hsame] at hz
        rcases hz with hz | hz <;> cases hz
      · rw [hother z hzq] at hz ⊢
        rw [List.map_append, List.mem_append, not_or]
        refine ⟨h.ledger.alive z hz, fun hc => hpid.2.2 z hzq ?_ (List.mem_singleton.mp hc)⟩
        rcases hz with hz | hz <;> rw [hz] <;> nofun
    case waits => exact fun x hx => List.mem_append_left _ (h.ledger.waits x hx)
    case once => exact h.ledger.once
  refine ⟨hset.mono rfl (Int.le_refl _), hled, ?_⟩
  refine h.act_other (p := q) (e := { t.entry q with cls := .zombie, xstate := status })
    (by rw [hq]; nofun) nofun rfl rfl
    rfl (fun _ => ⟨hno, rfl⟩) (fun _ => .inr ⟨hchild, htok⟩) ?_
  intro r n hh hc
  rcases List.mem_append.mp ((List.map_append ..) ▸ hc) with hc | hc
  · exact hh.exits hc
  · exact hh.slots q hno (List.mem_singleton.mp hc).symm

theorem Valid.adopt (hr : p ≠ root) (hp : t.Present p) : Valid root (t.adopt p root) := by
  obtain ⟨h1, h2, h3⟩ := h.forest.others hp.ne_unused
  have hused : (t.entry p).cls ≠ .used := by
    rcases hp with hp | hp <;> rw [hp] <;> nofun
  have hlt : 1 < (t.entry p).pid := by
    have := h3 root hr.symm (not_unused_of_live h.forest.top.1)
    rw [h.forest.top.2.1] at this
    omega
  refine ⟨h.forest.set hr (fun _ => ⟨h1, h2, h3⟩) (fun hc => absurd hc hp.ne_unused)
    (fun _ => ⟨root, hr.symm, rfl, h.forest.top.1, by rw [h.forest.top.2.1]; exact hlt⟩) ?_,
    h.ledger.set (h.ledger.zombie p) (h.ledger.alive p), ?_⟩
  · rcases hp with hp | hp
    · exact .inl ⟨hp, rfl⟩
    · exact .inr fun z _ => h.childless (by rw [hp]; nofun) z
  · exact h.act_other (p := p) (e := { t.entry p with parent := some root }) hused hused rfl rfl rfl
      (fun hu => ⟨hu, rfl⟩) .inl fun _ _ hh => hh.exits

theorem Valid.free (hp : (t.entry p).cls = .zombie) : Valid root (t.free p) := by
  refine ⟨h.forest.blank (by rw [hp]; nofun), h.ledger.set nofun nofun, ?_⟩
  refine h.act_other (p := p) (e := blank) (by rw [hp]; nofun) nofun rfl rfl rfl (fun hu => absurd rfl hu)
    (fun hl => ?_) fun _ _ hh =>
    hh.exits
  exact absurd (hp.symm.trans hl) nofun

end

end

end Table

end Xv6.Proc
