import Mathlib.Tactic.Set
import Xv6.Log.BufCache
import Xv6.Log.Isolation

/-!
# The buffer cache under the log

`kernel/log.c` on top of `kernel/bio.c`, with any number of processes.  The
control part of the log is the machine of `Isolation`; here `log_write` also pins
the buffer, and every loop turn of `write_log` and `install_trans` and both
`write_head`s are cut into their steps on the cache: the two `bread`s (each of
them `bget`, `acquiresleep`, the read), the copy, the `bwrite`, the `bunpin` and
the two `brelse`s.  Processes outside the log use the cache in between, in any
order: `bread`, stores into held buffers, `log_write` of a held buffer inside an
operation, and `brelse` of a buffer whose modifications they logged.

Ghost fields: `logged` is the history of logged modifications, newest first;
`view` is what the store holds; `bpins` and `bunpins` are all calls of `bpin` and
`bunpin` with the number of their transaction; `unpinned` counts the `bunpin`s
since the header was last cleared.
-/

namespace Xv6.Log.Coherence

open Function
open Xv6.Log (Geometry InLog)
open Xv6.Log.BufCache
open Xv6.Log.Isolation (CommitPc nextPc inv_step)

/-- The log device: where the log lies and how the header is laid out in its block. -/
structure LogDev (β : Type) where
  geo : Geometry
  dev : Nat
  dev_ne : dev ≠ 0
  encodeHead : List Nat → β → β
  decodeHead : β → List Nat

/-- Where `commit()` stands inside a loop turn or a `write_head`; the numbers are
its open tickets. -/
inductive Sub
  | start
  | first (a : Nat)
  | second (a b : Nat)
  | copied (a b : Nat)
  | written (a b : Nat)
  | closing (a b : Nat)
  | last (a : Nat)
  | headStored (a : Nat)
  deriving DecidableEq

structure St (ι β : Type) where
  ctl : Isolation.St ι Unit
  cache : Cache ι β
  sub : Sub
  view : Nat → β
  unpinned : Nat
  logged : List (Nat × β)
  bpins : List (Nat × Nat)
  bunpins : List (Nat × Nat)
  /-- The disk when `initlog` returned. -/
  boot : Nat → β

inductive Act (ι β : Type)
  | beginOp (p : ι)
  | endOp (p : ι)
  /-- The critical section of `bget`, opening ticket `k`. -/
  | bget (p : ι) (k b : Nat)
  | acquire (p : ι) (k : Nat)
  | fill (p : ι) (k : Nat)
  | modify (p : ι) (k : Nat) (v : β)
  | logWrite (p : ι) (k : Nat)
  | unlock (p : ι) (k : Nat)
  | unref (p : ι) (k : Nat)
  /-- The next step of `commit()`; `k` is the ticket it opens, if it opens one. -/
  | commit (p : ι) (k : Nat)

variable {b : Nat} {sub : Sub} {d : Nat} {pin : Nat → Nat}

variable {ι β : Type}

section
variable [DecidableEq ι]

def Owns (c : Cache ι β) (o : Option ι) (k : Nat) : Prop := k ∈ c.live ∧ (c.tk k).owner = o

instance (c : Cache ι β) (o : Option ι) (k : Nat) : Decidable (Owns c o k) :=
  inferInstanceAs (Decidable (_ ∧ _))

instance (lg : Geometry) (b : Nat) : Decidable (InLog lg b) :=
  inferInstanceAs (Decidable (_ ∧ _))

def inCache (s : St ι β) (c : Option (Cache ι β)) : Option (St ι β) :=
  c.map fun c => { s with cache := c }

def breadStep (c : Cache ι β) (k : Nat) : Option (Cache ι β) :=
  match (c.tk k).stage with
  | .waiting => acquire c k
  | .locked => fill c k
  | _ => none

/-- `log_write` of the held buffer of ticket `k`. -/
def logWrite (ld : LogDev β) (s : St ι β) (p : ι) (k : Nat) : Option (St ι β) :=
  let b := (s.cache.tk k).blk
  match Isolation.step ld.geo s.ctl (.logWrite p b) with
  | none => none
  | some ctl =>
    if ctl.panic.isSome then some { s with ctl := ctl }
    else some { s with
      ctl := ctl
      cache := clean (if b ∈ s.ctl.lh then s.cache else bpin s.cache k) k
      view := update s.view b (bufOf s.cache k).data
      logged := (b, (bufOf s.cache k).data) :: s.logged
      bpins := if b ∈ s.ctl.lh then s.bpins else (s.ctl.epoch, b) :: s.bpins }

/-- `commit()` moves to its next loop turn or its next part. -/
def advance (ld : LogDev β) (s : St ι β) (p : ι) : Option (St ι β) :=
  (Isolation.step ld.geo s.ctl (.commit p)).map fun ctl => { s with ctl := ctl, sub := .start }

/-- `brelse` in `commit()`: `done` says what follows its last critical section. -/
def brelseStep (s : St ι β) (k : Nat) (done : St ι β → Option (St ι β)) : Option (St ι β) :=
  if (s.cache.tk k).stage = .held then inCache s (unlock s.cache k)
  else (inCache s (unref s.cache k)).bind done

/-- `bwrite` in `commit()`. -/
def bwriteStep (s : St ι β) (k : Nat) (sub : Sub) : Option (St ι β) :=
  (BufCache.bwrite s.cache k).map fun c => { s with
    cache := c
    view := update s.view (s.cache.tk k).blk (bufOf s.cache k).data
    sub := sub }

/-- One loop turn of `write_log` (`log` true: `x` is the log block, `y` the cached
home block copied into it) or of `install_trans` (`log` false: `x` is the log
block, `y` the home block it is copied to). -/
def copyStep (ld : LogDev β) (s : St ι β) (p : ι) (k x y : Nat) (log : Bool) : Option (St ι β) :=
  match s.sub with
  | .start => (bget ld.dev s.cache k none x).map fun c => { s with cache := c, sub := .first k }
  | .first a =>
    if (s.cache.tk a).stage = .held then
      (bget ld.dev s.cache k none y).map fun c => { s with cache := c, sub := .second a k }
    else inCache s (breadStep s.cache a)
  | .second a b =>
    if (s.cache.tk b).stage = .held then
      (if log then store s.cache a (bufOf s.cache b).data else store s.cache b (bufOf s.cache a).data).map
        fun c => { s with cache := c, sub := .copied a b }
    else inCache s (breadStep s.cache b)
  | .copied a b => if log then bwriteStep s a (.closing b a) else bwriteStep s b (.written a b)
  | .written a b => some { s with
      cache := bunpin s.cache b
      unpinned := s.unpinned + 1
      bunpins := (s.ctl.epoch - 1, y) :: s.bunpins
      sub := .closing a b }
  | .closing a b => brelseStep s a fun s' => some { s' with sub := .last b }
  | .last a => brelseStep s a fun s' => advance ld s' p
  | .headStored _ => none

def writeHeadStep (ld : LogDev β) (s : St ι β) (p : ι) (k : Nat) : Option (St ι β) :=
  match s.sub with
  | .start =>
    (bget ld.dev s.cache k none ld.geo.start).map fun c => { s with cache := c, sub := .first k }
  | .first a =>
    if (s.cache.tk a).stage = .held then
      (store s.cache a (ld.encodeHead s.ctl.lh (bufOf s.cache a).data)).map
        fun c => { s with cache := c, sub := .headStored a }
    else inCache s (breadStep s.cache a)
  | .headStored a => bwriteStep s a (.last a)
  | .last a => brelseStep s a fun s' => advance ld s' p
  | _ => none

/-- The next step of `commit()`, or of the end of `end_op`. -/
def commitStep (ld : LogDev β) (s : St ι β) (p : ι) (k : Nat) : Option (St ι β) :=
  match s.ctl.phase p with
  | .commit (.writeLog tail) =>
    match s.ctl.lh[tail]? with
    | some b => copyStep ld s p k (ld.geo.start + tail + 1) b true
    | none => advance ld s p
  | .commit .writeHead => writeHeadStep ld s p k
  | .commit (.install tail) =>
    match s.ctl.lh[tail]? with
    | some b => copyStep ld s p k (ld.geo.start + tail + 1) b false
    | none => advance ld s p
  | .commit .clear => (advance ld s p).map fun s' => { s' with unpinned := 0 }
  | .commit .eraseHead => writeHeadStep ld s p k
  | .commit _ => advance ld s p
  | _ => none

def step (ld : LogDev β) (s : St ι β) (a : Act ι β) : Option (St ι β) :=
  if s.ctl.panic.isSome then none
  else
    match a with
    | .beginOp p => (Isolation.step ld.geo s.ctl (.beginOp p)).map fun ctl => { s with ctl := ctl }
    | .endOp p => (Isolation.step ld.geo s.ctl (.endOp p)).map fun ctl => { s with ctl := ctl }
    | .bget p k b => inCache s (bget ld.dev s.cache k (some p) b)
    | .acquire p k => if Owns s.cache (some p) k then inCache s (acquire s.cache k) else none
    | .fill p k => if Owns s.cache (some p) k then inCache s (fill s.cache k) else none
    | .modify p k v =>
      if Owns s.cache (some p) k ∧ ¬ InLog ld.geo (s.cache.tk k).blk then inCache s (store s.cache k v)
      else none
    | .logWrite p k =>
      if Owns s.cache (some p) k ∧ (s.cache.tk k).stage = .held ∧ ¬ InLog ld.geo (s.cache.tk k).blk then
        logWrite ld s p k
      else none
    | .unlock p k =>
      if Owns s.cache (some p) k ∧ (s.cache.tk k).dirty = false then inCache s (unlock s.cache k)
      else none
    | .unref p k => if Owns s.cache (some p) k then inCache s (unref s.cache k) else none
    | .commit p k => commitStep ld s p k

/-! ## Boot -/

/-- `bread` by the only process running. -/
def bread (ld : LogDev β) (c : Cache ι β) (k b : Nat) : Option (Cache ι β) := do
  fill (← acquire (← bget ld.dev c k none b) k) k

def brelse (c : Cache ι β) (k : Nat) : Option (Cache ι β) := do unref (← unlock c k) k

/-- `install_trans(1)`: one log block after the other to its home. -/
def installTrans (ld : LogDev β) : Nat → List Nat → Cache ι β → Option (Cache ι β)
  | _, [], c => some c
  | tail, b :: bs, c => do
      let c ← bread ld c 0 (ld.geo.start + tail + 1)
      let c ← bread ld c 1 b
      let c ← store c 1 (bufOf c 0).data
      let c ← BufCache.bwrite c 1
      let c ← brelse c 0
      let c ← brelse c 1
      installTrans ld (tail + 1) bs c

def writeHead (ld : LogDev β) (lh : List Nat) (c : Cache ι β) : Option (Cache ι β) := do
  let c ← bread ld c 0 ld.geo.start
  let c ← store c 0 (ld.encodeHead lh (bufOf c 0).data)
  let c ← BufCache.bwrite c 0
  brelse c 0

/-- `initlog` on a cache fresh from `binit`: `read_head`, `install_trans(1)` and
`write_head` with an empty header. -/
def initlog (ld : LogDev β) (c : Cache ι β) : Option (Cache ι β) := do
  let c ← bread ld c 0 ld.geo.start
  let lh := ld.decodeHead (bufOf c 0).data
  let c ← brelse c 0
  let c ← installTrans ld 0 lh c
  writeHead ld [] c

def initial (c : Cache ι β) : St ι β :=
  { ctl := Isolation.initial (fun _ => ()) (fun _ => ()), cache := c, sub := .start, view := c.disk,
    unpinned := 0, logged := [], bpins := [], bunpins := [], boot := c.disk }

/-- The file system is ready: `binit`, on any disk, and then `initlog`. -/
def Initial (ld : LogDev β) (s : St ι β) : Prop :=
  ∃ disk data tk c, initlog ld (binit disk data tk) = some c ∧ s = initial c

def Reachable (ld : LogDev β) (s : St ι β) : Prop :=
  Run.Reach (step ld) (fun _ _ => True) (Initial ld) s

/-! ## The invariant -/

/-- One pin for each block of the header that `install_trans` has not unpinned yet. -/
def pinOf (lh : List Nat) (unpinned : Nat) (b : Nat) : Nat := if b ∈ lh.drop unpinned then 1 else 0

/-- Ticket `k` is `commit()`'s, for block `b`, and unmodified. -/
structure Open (c : Cache ι β) (k b : Nat) : Prop where
  live : k ∈ c.live
  owner : (c.tk k).owner = none
  blk : (c.tk k).blk = b
  clean : (c.tk k).dirty = false

/-- Ticket `k` is `commit()`'s, and its buffer is locked and holds `v` for block `b`. -/
structure Stored (c : Cache ι β) (k b : Nat) (v : β) : Prop where
  live : k ∈ c.live
  owner : (c.tk k).owner = none
  blk : (c.tk k).blk = b
  held : (c.tk k).stage = .held
  data : (bufOf c k).data = v

def CopyOK (c : Cache ι β) (view : Nat → β) (x y : Nat) (log : Bool) : Sub → Prop
  | .start => True
  | .first a => Open c a x
  | .second a b => Open c a x ∧ (c.tk a).stage = .held ∧ Open c b y ∧ a ≠ b
  | .copied a b =>
    if log then Stored c a x (view y) ∧ Open c b y ∧ a ≠ b
    else Open c a x ∧ Stored c b y (view x) ∧ a ≠ b
  | .written a b =>
    log = false ∧ Open c a x ∧ Open c b y ∧ (c.tk b).stage = .held ∧ a ≠ b ∧ c.disk y = view y
  | .closing a b => (∃ z, Open c a z) ∧ (∃ z, Open c b z) ∧ a ≠ b ∧ (log = true → view x = view y)
  | .last a => (∃ z, Open c a z) ∧ (log = true → view x = view y)
  | .headStored _ => False

def HeadOK (c : Cache ι β) (b : Nat) : Sub → Prop
  | .start => True
  | .first a => Open c a b
  | .headStored a => ∃ v, Stored c a b v
  | .last a => ∃ z, Open c a z
  | _ => False

/-- The first `t` log blocks hold what the store holds for the first `t` blocks of the header. -/
def Copied (lg : Geometry) (lh : List Nat) (view : Nat → β) (t : Nat) : Prop :=
  ∀ j b, j < t → lh[j]? = some b → view (lg.start + j + 1) = view b

/-- Whether the `bunpin` of the current turn of `install_trans` is done. -/
def unpinDone : Sub → Nat
  | .closing _ _ => 1
  | .last _ => 1
  | _ => 0

/-- What holds while `commit()` is at `pc`. -/
def SubOK (ld : LogDev β) (lh : List Nat) (c : Cache ι β) (view : Nat → β) (sub : Sub) (unpinned : Nat) :
    CommitPc → Prop
  | .test => sub = .start ∧ unpinned = 0
  | .writeLog t => unpinned = 0 ∧ Copied ld.geo lh view t ∧
      ∀ b, lh[t]? = some b → CopyOK c view (ld.geo.start + t + 1) b true sub
  | .writeHead => unpinned = 0 ∧ Copied ld.geo lh view lh.length ∧ HeadOK c ld.geo.start sub
  | .install t => unpinned = t + unpinDone sub ∧ t ≤ lh.length ∧ Copied ld.geo lh view lh.length ∧
      (∀ b, lh[t]? = some b → CopyOK c view (ld.geo.start + t + 1) b false sub) ∧
      (lh[t]? = none → sub = .start)
  | .clear => sub = .start ∧ unpinned = lh.length
  | .eraseHead => unpinned = 0 ∧ HeadOK c ld.geo.start sub
  | .finish => sub = .start ∧ unpinned = 0

/-- The number of the transaction being built or committed. -/
def curTx (ctl : Isolation.St ι Unit) : Nat := if ctl.committing then ctl.epoch - 1 else ctl.epoch

structure Inv (ld : LogDev β) (s : St ι β) : Prop where
  ctl : Isolation.Inv s.ctl
  good : Good ld.dev (pinOf s.ctl.lh s.unpinned) s.view s.cache
  nodup : s.ctl.lh.Nodup
  home : ∀ b ∈ s.ctl.lh, ¬ InLog ld.geo b
  fits : s.ctl.lh.length ≤ ld.geo.size - 1
  idle : s.ctl.committing = false → s.sub = .start ∧ s.unpinned = 0
  sub : ∀ p pc, s.ctl.phase p = .commit pc → SubOK ld s.ctl.lh s.cache s.view s.sub s.unpinned pc
  shown : ∀ b, ¬ InLog ld.geo b → s.view b = (s.logged.lookup b).getD (s.boot b)
  loggedHome : ∀ b, InLog ld.geo b → s.logged.lookup b = none
  lhLogged : ∀ b ∈ s.ctl.lh, s.logged.lookup b ≠ none
  pinsNodup : s.bpins.Nodup
  unpinsNodup : s.bunpins.Nodup
  pins : ∀ e b, (e, b) ∈ s.bpins ↔ ∃ o, (o, e, b) ∈ s.ctl.writes
  unpins : ∀ e b, (e, b) ∈ s.bunpins ↔
    (e, b) ∈ s.bpins ∧ ¬ (e = curTx s.ctl ∧ b ∈ s.ctl.lh.drop s.unpinned)

end

variable {ld : LogDev β} {s s' : St ι β} {ctl : Isolation.St ι Unit} {p : ι} {pc : CommitPc} {c c' : Cache ι β}
  {view : Nat → β} {lh : List Nat} {sub' : Sub} {n t k y : Nat} {log : Bool}

/-! ## Frames for `commit()` -/

variable {v : β} {a : Nat}

theorem Open.ne (h : Open c a b) (hk : ¬ Owns c none k) : a ≠ k := by
  rintro rfl
  exact hk ⟨h.live, h.owner⟩

theorem Open.frame (h : Open c a b) (hf : Frame k c c') (ha : a ≠ k) : Open c' a b := by
  constructor
  · exact (hf.live a ha).mpr h.live
  · rw [hf.tk a ha, h.owner]
  · rw [hf.tk a ha, h.blk]
  · rw [hf.tk a ha, h.clean]

theorem Stored.ne (h : Stored c a b v) (hk : ¬ Owns c none k) : a ≠ k := by
  rintro rfl
  exact hk ⟨h.live, h.owner⟩

theorem Stored.frame (h : Stored c a b v) (hf : Frame k c c') (ha : a ≠ k) : Stored c' a b v := by
  constructor
  · exact (hf.live a ha).mpr h.live
  · rw [hf.tk a ha, h.owner]
  · rw [hf.tk a ha, h.blk]
  · rw [hf.tk a ha, h.held]
  · rw [hf.data a h.live ha (Or.inr h.held), h.data]

theorem CopyOK.frame {x : Nat}
    (h : CopyOK c view x y log sub) (hf : Frame k c c') (hd : c'.disk = c.disk) (hk : ¬ Owns c none k) :
    CopyOK c' view x y log sub := by
  cases sub with
  | start => trivial
  | first a => exact Open.frame h hf (Open.ne h hk)
  | second a b =>
    obtain ⟨h1, h2, h3, h4⟩ := h
    exact ⟨h1.frame hf (h1.ne hk), by rw [hf.tk a (h1.ne hk), h2], h3.frame hf (h3.ne hk), h4⟩
  | copied a b =>
    cases log with
    | true =>
      obtain ⟨h1, h2, h3⟩ : Stored c a x (view y) ∧ Open c b y ∧ a ≠ b := h
      exact ⟨h1.frame hf (h1.ne hk), h2.frame hf (h2.ne hk), h3⟩
    | false =>
      obtain ⟨h1, h2, h3⟩ : Open c a x ∧ Stored c b y (view x) ∧ a ≠ b := h
      exact ⟨h1.frame hf (h1.ne hk), h2.frame hf (h2.ne hk), h3⟩
  | written a b =>
    obtain ⟨h1, h2, h3, h4, h5, h6⟩ := h
    exact ⟨h1, h2.frame hf (h2.ne hk), h3.frame hf (h3.ne hk), by rw [hf.tk b (h3.ne hk), h4], h5,
      by rw [hd, h6]⟩
  | closing a b =>
    obtain ⟨⟨z, h1⟩, ⟨z', h2⟩, h3⟩ := h
    exact ⟨⟨z, h1.frame hf (h1.ne hk)⟩, ⟨z', h2.frame hf (h2.ne hk)⟩, h3⟩
  | last a =>
    obtain ⟨⟨z, h1⟩, h2⟩ := h
    exact ⟨⟨z, h1.frame hf (h1.ne hk)⟩, h2⟩
  | headStored a => exact h

theorem HeadOK.frame (h : HeadOK c b sub) (hf : Frame k c c') (hk : ¬ Owns c none k) : HeadOK c' b sub := by
  cases sub with
  | start => trivial
  | first a => exact Open.frame h hf (Open.ne h hk)
  | headStored a =>
    obtain ⟨v, h1⟩ := h
    exact ⟨v, h1.frame hf (h1.ne hk)⟩
  | last a =>
    obtain ⟨z, h1⟩ := h
    exact ⟨z, h1.frame hf (h1.ne hk)⟩
  | second a b => exact h
  | copied a b => exact h
  | written a b => exact h
  | closing a b => exact h

theorem SubOK.frame
    (h : SubOK ld lh c view sub n pc) (hf : Frame k c c') (hd : c'.disk = c.disk) (hk : ¬ Owns c none k) :
    SubOK ld lh c' view sub n pc := by
  cases pc with
  | test => exact h
  | writeLog t => exact ⟨h.1, h.2.1, fun b hb => (h.2.2 b hb).frame hf hd hk⟩
  | writeHead => exact ⟨h.1, h.2.1, h.2.2.frame hf hk⟩
  | install t =>
    obtain ⟨h1, h2, h3, h4, h5⟩ := h
    exact ⟨h1, h2, h3, fun b hb => (h4 b hb).frame hf hd hk, h5⟩
  | clear => exact h
  | eraseHead => exact ⟨h.1, h.2.frame hf hk⟩
  | finish => exact h

/-! ## Steps of the processes -/

theorem Inv.inCache (h : Inv ld s) (hg : Good ld.dev (pinOf s.ctl.lh s.unpinned) s.view c) (hf : Frame k s.cache c)
    (hd : c.disk = s.cache.disk) (hk : ¬ Owns s.cache none k) : Inv ld { s with cache := c } :=
  { h with good := hg, sub := fun q pc hq => (h.sub q pc hq).frame hf hd hk }

theorem Owns.not_none (h : Owns c (some p) k) : ¬ Owns c none k := by
  rintro ⟨_, hn⟩
  rw [h.2] at hn
  cases hn

theorem inCache_some {c : Option (Cache ι β)} (h : inCache s c = some s') :
    ∃ c', c = some c' ∧ s' = { s with cache := c' } := by
  obtain ⟨c', hc, rfl⟩ := Option.map_eq_some_iff.mp h
  exact ⟨c', hc, rfl⟩

theorem Inv.control (h : Inv ld s) (hi : Isolation.Inv ctl) (hlh : ctl.lh = s.ctl.lh)
    (hw : ctl.writes = s.ctl.writes) (hcur : s.ctl.lh = [] ∨ curTx ctl = curTx s.ctl)
    (hg : Good ld.dev (pinOf s.ctl.lh s.unpinned) s.view c)
    (hidle : ctl.committing = false → sub = .start ∧ s.unpinned = 0)
    (hsub : ∀ q pc, ctl.phase q = .commit pc → SubOK ld s.ctl.lh c s.view sub s.unpinned pc) :
    Inv ld { s with ctl := ctl, cache := c, sub := sub } := by
  have hun := h.unpins
  rw [← hlh] at hg hsub hun
  refine { h with ctl := hi, good := hg, nodup := hlh ▸ h.nodup, home := hlh ▸ h.home, fits := hlh ▸ h.fits,
                  idle := hidle, sub := hsub, lhLogged := hlh ▸ h.lhLogged, pins := hw ▸ h.pins, unpins := ?_ }
  rcases hcur with h0 | hcur
  · rw [hlh, h0] at hun ⊢
    simpa using hun
  · rw [hcur]
    exact hun

section
variable [DecidableEq ι]

theorem Inv.beginOp (h : Inv ld s)
    (hs : Isolation.step ld.geo s.ctl (.beginOp p) = some ctl) : Inv ld { s with ctl := ctl } := by
  obtain ⟨hph, hlh, hc, hh⟩ := Isolation.step_beginOp hs
  have hcur : curTx ctl = curTx s.ctl := by rw [curTx, curTx, hc, hh.epoch]
  exact h.control (inv_step h.ctl _ hs) hlh hh.writes (Or.inr hcur) h.good (hc ▸ h.idle)
    fun q pc hq => h.sub q pc (hph q pc hq)

theorem Inv.endOp (h : Inv ld s)
    (hs : Isolation.step ld.geo s.ctl (.endOp p) = some ctl) : Inv ld { s with ctl := ctl } := by
  obtain ⟨hc, hlh, hw, hcase⟩ := Isolation.step_endOp h.ctl hs
  obtain ⟨hstart, hunp⟩ := h.idle hc
  have hcur : curTx ctl = curTx s.ctl := by
    rcases hcase with ⟨hc', he, _⟩ | ⟨hc', he, _⟩
    · simp [curTx, hc, hc', he]
    · simp [curTx, hc, hc', he]
  refine h.control (inv_step h.ctl _ hs) hlh hw (Or.inr hcur) h.good (fun _ => ⟨hstart, hunp⟩)
    fun q pc hq => ?_
  rcases hcase with ⟨_, _, hno⟩ | ⟨_, _, htest⟩
  · exact absurd ⟨pc, hq⟩ (hno q)
  · rw [htest q pc hq]
    exact ⟨hstart, hunp⟩

end

/-! ## `log_write` -/

theorem pinOf_append : pinOf (lh ++ [b]) 0 = update (pinOf lh 0) b 1 := by
  funext x
  by_cases hx : x = b
  · simp [pinOf, hx]
  · simp [pinOf, hx]

/-- The buffer of a logged block is pinned, by this `log_write` or by an earlier
one of the transaction, and is what the store holds from now on. -/
theorem Inv.logWrite_good (h : Inv ld s) (hunp : s.unpinned = 0) (hk : k ∈ s.cache.live)
    (hheld : (s.cache.tk k).stage = .held) (hb : (s.cache.tk k).blk = b) :
    Good ld.dev (pinOf (if b ∈ s.ctl.lh then s.ctl.lh else s.ctl.lh ++ [b]) s.unpinned)
      (update s.view b (bufOf s.cache k).data)
      (clean (if b ∈ s.ctl.lh then s.cache else bpin s.cache k) k) := by
  subst hb
  have hg := h.good
  rw [hunp] at hg ⊢
  by_cases hm : (s.cache.tk k).blk ∈ s.ctl.lh
  · rw [if_pos hm, if_pos hm]
    apply clean_good hg hk hheld
    simp [pinOf, hm]
  · rw [if_neg hm, if_neg hm, pinOf_append]
    have hp := bpin_good hg hk hheld
    have h0 : pinOf s.ctl.lh 0 (s.cache.tk k).blk = 0 := by simp [pinOf, hm]
    rw [h0] at hp
    have hcl := clean_good hp hk hheld (by
      show update _ (s.cache.tk k).blk 1 (s.cache.tk k).blk ≠ 0
      simp)
    rw [show (bufOf (bpin s.cache k) k).data = (bufOf s.cache k).data from setBuf_refcnt_data _ _ k] at hcl
    exact hcl

theorem Inv.logWrite [DecidableEq ι] (h : Inv ld s) (hk : k ∈ s.cache.live) (hheld : (s.cache.tk k).stage = .held)
    (hb : (s.cache.tk k).blk = b) (hhome : ¬ InLog ld.geo b)
    (hs : Isolation.step ld.geo s.ctl (.logWrite p b) = some ctl) (hn : ctl.panic.isSome = false) : Inv ld { s with
      ctl := ctl
      cache := clean (if b ∈ s.ctl.lh then s.cache else bpin s.cache k) k
      view := update s.view b (bufOf s.cache k).data
      logged := (b, (bufOf s.cache k).data) :: s.logged
      bpins := if b ∈ s.ctl.lh then s.bpins else (s.ctl.epoch, b) :: s.bpins } := by
  obtain ⟨hroom, hin, hph, hcm, he, hlh, o, hw⟩ := Isolation.step_logWrite hs hn
  have hc : s.ctl.committing = false := h.ctl.not_committing hin
  obtain ⟨hstart, hunp⟩ := h.idle hc
  have hcur : curTx ctl = s.ctl.epoch := by simp [curTx, hcm, hc, he]
  have hcur0 : curTx s.ctl = s.ctl.epoch := by simp [curTx, hc]
  have hmem : ∀ x, x ∈ ctl.lh ↔ x = b ∨ x ∈ s.ctl.lh := by
    intro x
    rw [hlh]
    by_cases hm : b ∈ s.ctl.lh
    · rw [if_pos hm]
      refine ⟨Or.inr, ?_⟩
      rintro (rfl | hx)
      · exact hm
      · exact hx
    · rw [if_neg hm, List.mem_append, List.mem_singleton, or_comm]
  -- the block is pinned in this transaction iff it is in the header
  have hpin : (s.ctl.epoch, b) ∈ s.bpins ↔ b ∈ s.ctl.lh := by
    rw [h.pins, h.ctl.lhWritten hc]
  have hbpins : ∀ e x, (e, x) ∈ (if b ∈ s.ctl.lh then s.bpins else (s.ctl.epoch, b) :: s.bpins) ↔
      (e, x) ∈ s.bpins ∨ (e = s.ctl.epoch ∧ x = b) := by
    intro e x
    by_cases hm : b ∈ s.ctl.lh
    · rw [if_pos hm]
      refine ⟨Or.inl, ?_⟩
      rintro (hx | ⟨rfl, rfl⟩)
      · exact hx
      · exact hpin.mpr hm
    · rw [if_neg hm, List.mem_cons, Prod.mk.injEq, or_comm]
  refine { h with ctl := inv_step h.ctl _ hs, good := ?good, nodup := ?nodup, home := ?home,
                  fits := ?fits, idle := fun _ => ⟨hstart, hunp⟩, sub := ?sub, shown := ?shown,
                  loggedHome := ?loggedHome, lhLogged := ?lhLogged,
                  pinsNodup := ?pinsNodup, pins := ?pins, unpins := ?unpins }
  case good =>
    rw [hlh]
    exact h.logWrite_good hunp hk hheld hb
  case nodup =>
    rw [hlh]
    split
    · exact h.nodup
    · next hm => exact List.nodup_append.mpr ⟨h.nodup, List.nodup_singleton b, by
        intro x hx y hy
        rw [List.mem_singleton] at hy
        rintro rfl
        exact hm (hy ▸ hx)⟩
  case home =>
    intro x hx
    rcases (hmem x).mp hx with rfl | hx
    · exact hhome
    · exact h.home x hx
  case fits =>
    rw [hlh]
    split
    · exact h.fits
    · rw [List.length_append, List.length_singleton]
      omega
  case sub =>
    intro q pc hq
    rw [hph] at hq
    exact absurd ⟨pc, hq⟩ (h.ctl.not_committer hc q)
  case shown =>
    intro x hx
    by_cases hxb : x = b
    · rw [hxb, List.lookup_cons_self]
      exact update_self ..
    · rw [List.lookup_cons, beq_false_of_ne hxb]
      exact (update_of_ne hxb _ _).trans (h.shown x hx)
  case loggedHome =>
    intro x hx
    have hxb : x ≠ b := by
      rintro rfl
      exact hhome hx
    rw [List.lookup_cons, beq_false_of_ne hxb]
    exact h.loggedHome x hx
  case lhLogged =>
    intro x hx
    by_cases hxb : x = b
    · rw [hxb, List.lookup_cons_self]
      simp
    · rw [List.lookup_cons, beq_false_of_ne hxb]
      exact h.lhLogged x (((hmem x).mp hx).resolve_left hxb)
  case pinsNodup =>
    split
    · exact h.pinsNodup
    · next hm => exact List.nodup_cons.mpr ⟨fun hx => hm (hpin.mp hx), h.pinsNodup⟩
  case pins =>
    intro e x
    rw [hbpins, h.pins, hw]
    constructor
    · rintro (⟨o', ho⟩ | ⟨rfl, rfl⟩)
      · exact ⟨o', List.mem_cons_of_mem _ ho⟩
      · exact ⟨o, List.mem_cons_self⟩
    · rintro ⟨o', ho⟩
      rcases List.mem_cons.mp ho with ho | ho
      · injection ho with _ ho
        injection ho with h1 h2
        exact Or.inr ⟨h1, h2⟩
      · exact Or.inl ⟨o', ho⟩
  case unpins =>
    intro e x
    show (e, x) ∈ s.bunpins ↔ _
    rw [h.unpins, hbpins, hcur, hcur0, hunp, List.drop_zero, List.drop_zero, hmem]
    constructor
    · rintro ⟨h1, h2⟩
      refine ⟨Or.inl h1, ?_⟩
      rintro ⟨rfl, rfl | hx⟩
      · exact h2 ⟨rfl, hpin.mp h1⟩
      · exact h2 ⟨rfl, hx⟩
    · rintro ⟨h1 | ⟨rfl, rfl⟩, h2⟩
      · exact ⟨h1, fun hx => h2 ⟨hx.1, Or.inr hx.2⟩⟩
      · exact absurd ⟨rfl, Or.inl rfl⟩ h2

/-! ## Steps of `commit()` -/

theorem Inv.turn (h : Inv ld s) (hp : s.ctl.phase p = .commit pc)
    (hview : ∀ b, ¬ InLog ld.geo b → view b = s.view b) (hg : Good ld.dev (pinOf s.ctl.lh s.unpinned) view c)
    (hsub : SubOK ld s.ctl.lh c view sub s.unpinned pc) : Inv ld { s with cache := c, view := view, sub := sub } := by
  refine { h with good := hg, idle := ?idle, sub := ?sub, shown := ?shown }
  case idle =>
    intro hc
    exact absurd ⟨pc, hp⟩ (h.ctl.not_committer hc p)
  case sub =>
    intro q pc' hq
    obtain rfl := h.ctl.unique q p ⟨pc', hq⟩ ⟨pc, hp⟩
    have hpc : pc = pc' := by simpa using hp.symm.trans hq
    exact hpc ▸ hsub
  case shown => exact fun b hnl => (hview b hnl).trans (h.shown b hnl)

theorem Inv.turn' (h : Inv ld s) (hp : s.ctl.phase p = .commit pc)
    (hg : Good ld.dev (pinOf s.ctl.lh s.unpinned) s.view c)
    (hsub : SubOK ld s.ctl.lh c s.view sub s.unpinned pc) : Inv ld { s with cache := c, sub := sub } :=
  h.turn hp (fun _ _ => rfl) hg hsub

section
variable [DecidableEq ι]

theorem Inv.advance (h : Inv ld s) (hp : s.ctl.phase p = .commit pc) (hfin : pc ≠ .finish)
    (hclr : pc ≠ .clear) (hg : Good ld.dev (pinOf s.ctl.lh s.unpinned) s.view c)
    (hsub : SubOK ld s.ctl.lh c s.view .start s.unpinned (nextPc s.ctl.lh pc))
    (hs : advance ld { s with cache := c } p = some s') : Inv ld s' := by
  obtain ⟨ctl, hctl, rfl⟩ := Option.map_eq_some_iff.mp hs
  obtain ⟨hph, hlh, hc, _, hh⟩ := Isolation.step_commit hp hfin hctl
  rw [if_neg hclr] at hlh
  have hcm : s.ctl.committing = true := h.ctl.committer.mpr ⟨p, pc, hp⟩
  have hcur : curTx ctl = curTx s.ctl := by rw [curTx, curTx, hc, hh.epoch]
  refine h.control (inv_step h.ctl _ hctl) hlh hh.writes (Or.inr hcur) hg (fun hf => ?_) fun q pc' hq => ?_
  · exact Bool.noConfusion (hcm.symm.trans (hc.symm.trans hf))
  · rw [hph] at hq
    by_cases hqp : q = p
    · rw [hqp, update_self, Isolation.Phase.commit.injEq] at hq
      exact hq ▸ hsub
    · rw [update_of_ne hqp] at hq
      exact absurd (h.ctl.unique q p ⟨pc', hq⟩ ⟨pc, hp⟩) hqp

theorem Inv.clear (h : Inv ld s) (hp : s.ctl.phase p = .commit .clear)
    (hs : (Coherence.advance ld s p).map (fun s' => { s' with unpinned := 0 }) = some s') : Inv ld s' := by
  obtain ⟨s1, hs1, rfl⟩ := Option.map_eq_some_iff.mp hs
  obtain ⟨ctl, hctl, rfl⟩ := Option.map_eq_some_iff.mp hs1
  obtain ⟨hph, hlh, hc, _, hh⟩ := Isolation.step_commit hp nofun hctl
  rw [if_pos rfl] at hlh
  obtain ⟨hstart, hunp⟩ : s.sub = .start ∧ s.unpinned = s.ctl.lh.length := h.sub p _ hp
  have hcm : s.ctl.committing = true := h.ctl.committer.mpr ⟨p, _, hp⟩
  have hcur : curTx ctl = curTx s.ctl := by rw [curTx, curTx, hc, hh.epoch]
  have hdrop : s.ctl.lh.drop s.unpinned = [] := by rw [hunp, List.drop_length]
  refine { h with ctl := inv_step h.ctl _ hctl, good := ?good, nodup := ?nodup, home := ?home,
                  fits := ?fits, idle := ?idle, sub := ?sub, lhLogged := ?lhLogged, pins := ?pins,
                  unpins := ?unpins }
  case good =>
    have hpin : pinOf ctl.lh 0 = pinOf s.ctl.lh s.unpinned := by
      funext b
      rw [pinOf, pinOf, hlh, hdrop, List.drop_nil]
    rw [hpin]
    exact h.good
  case nodup => rw [hlh]; exact List.nodup_nil
  case home => rw [hlh]; exact nofun
  case fits => rw [hlh]; exact Nat.zero_le _
  case idle =>
    intro hf
    exact Bool.noConfusion (hcm.symm.trans (hc.symm.trans hf))
  case sub =>
    intro q pc' hq
    rw [hph] at hq
    by_cases hqp : q = p
    · rw [hqp, update_self, Isolation.Phase.commit.injEq] at hq
      rw [← hq]
      exact ⟨rfl, trivial⟩
    · rw [update_of_ne hqp] at hq
      exact absurd (h.ctl.unique q p ⟨pc', hq⟩ ⟨_, hp⟩) hqp
  case lhLogged => rw [hlh]; exact nofun
  case pins => rw [hh.writes]; exact h.pins
  case unpins =>
    intro e b
    rw [hlh, hcur, List.drop_nil, ← hdrop]
    exact h.unpins e b

theorem Inv.finish (h : Inv ld s) (hp : s.ctl.phase p = .commit .finish)
    (hs : Coherence.advance ld s p = some s') : Inv ld s' := by
  obtain ⟨ctl, hctl, rfl⟩ := Option.map_eq_some_iff.mp hs
  obtain ⟨hno, hlh, hc, hh⟩ := Isolation.step_finish h.ctl hp hctl
  obtain ⟨hstart, hunp⟩ : s.sub = .start ∧ s.unpinned = 0 := h.sub p _ hp
  have hempty : s.ctl.lh = [] := h.ctl.held p _ hp
  exact h.control (inv_step h.ctl _ hctl) hlh hh.writes (Or.inl hempty) h.good (fun _ => ⟨rfl, hunp⟩)
    fun q pc hq => absurd ⟨pc, hq⟩ (hno q)

end

/-! ## A loop turn -/

/-- `write_log` or `install_trans` at its turn `t`. -/
def turnPc (log : Bool) (t : Nat) : CommitPc := if log then .writeLog t else .install t

theorem SubOK.copyOK (h : SubOK ld lh c view sub n (turnPc log t)) (hy : lh[t]? = some y) :
    CopyOK c view (ld.geo.start + t + 1) y log sub := by
  cases log with
  | true => exact h.2.2 y hy
  | false => exact h.2.2.2.1 y hy

theorem SubOK.turn (h : SubOK ld lh c view sub n (turnPc log t)) (hy : lh[t]? = some y)
    (hc : CopyOK c' view (ld.geo.start + t + 1) y log sub')
    (hd : log = false → unpinDone sub' = unpinDone sub) : SubOK ld lh c' view sub' n (turnPc log t) := by
  have hone : ∀ b, lh[t]? = some b → b = y := fun b hb => by simpa using hb.symm.trans hy
  cases log with
  | true => exact ⟨h.1, h.2.1, fun b hb => hone b hb ▸ hc⟩
  | false =>
    obtain ⟨h1, h2, h3, _, _⟩ := h
    refine ⟨by rw [h1, hd rfl], h2, h3, fun b hb => hone b hb ▸ hc, fun hn => ?_⟩
    rw [hn] at hy
    cases hy

theorem Open.of_bget (hok : CacheOK d pin c) (h : bget d c k none b = some c') : Open c' k b := by
  obtain ⟨_, hl, _, ho, hb, _, hcl⟩ := bget_spec hok h
  exact ⟨hl ▸ Finset.mem_insert_self k _, ho, hb, hcl⟩

theorem Open.restage (h : Open c k b) {st : Stage} (hl : c'.live = c.live)
    (ht : c'.tk k = { c.tk k with stage := st }) : Open c' k b := by
  constructor
  · exact hl ▸ h.live
  · rw [ht]; exact h.owner
  · rw [ht]; exact h.blk
  · rw [ht]; exact h.clean

theorem breadStep_spec (g : Good d pin view c) (hk : k ∈ c.live) (h : breadStep c k = some c') :
    Good d pin view c' ∧ Frame k c c' ∧ c'.disk = c.disk ∧ c'.live = c.live ∧
      ∃ st, c'.tk k = { c.tk k with stage := st } := by
  unfold breadStep at h
  split at h
  · obtain ⟨hl, hd, ht⟩ := acquire_spec h
    exact ⟨acquire_good g hk h, acquire_frame h, hd, hl, _, ht⟩
  · obtain ⟨hl, hd, ht⟩ := fill_spec h
    exact ⟨fill_good g hk h, fill_frame g.ok hk h, hd, hl, _, ht⟩
  · cases h

theorem Stored.of_store (g : Good d pin view c) (ho : Open c k b) (h : store c k v = some c') :
    Good d pin view c' ∧ Frame k c c' ∧ Stored c' k b v := by
  obtain ⟨hs, hl, _, ht, hd⟩ := store_spec h
  refine ⟨store_good g ho.live h, store_frame g.ok ho.live h, hl ▸ ho.live, ?_, ?_, ?_, hd⟩
  · rw [ht]; exact ho.owner
  · rw [ht]; exact ho.blk
  · rw [ht]; exact hs

theorem Stored.bwrite (g : Good d pin view c) (hst : Stored c k b v) (h : BufCache.bwrite c k = some c') :
    Good d pin (update view b v) c' ∧ Frame k c c' ∧ Open c' k b ∧ (c'.tk k).stage = .held ∧
      c'.disk = update c.disk b v := by
  have hg := bwrite_good g hst.live h
  rw [hst.blk, hst.data] at hg
  obtain ⟨hs, hl, hd, ht⟩ := bwrite_spec h
  rw [(g.ok.serves k hst.live).blk, hst.blk, hst.data] at hd
  refine ⟨hg, bwrite_frame h, ⟨hl ▸ hst.live, ?_, ?_, ?_⟩, ?_, hd⟩
  · rw [ht]; exact hst.owner
  · rw [ht]; exact hst.blk
  · rw [ht]
  · rw [ht]; exact hs

theorem Inv.logBlock (h : Inv ld s) (hy : s.ctl.lh[t]? = some y) : InLog ld.geo (ld.geo.start + t + 1) := by
  obtain ⟨hlt, _⟩ := List.getElem?_eq_some_iff.mp hy
  have := h.fits
  constructor <;> omega

theorem Inv.homeBlock (h : Inv ld s) (hy : s.ctl.lh[t]? = some y) : ¬ InLog ld.geo y :=
  h.home y (List.mem_of_getElem? hy)

theorem Copied.update {lg : Geometry} (h : Copied lg lh view n) (hhome : ∀ b ∈ lh, ¬ InLog lg b) {x : Nat}
    (hx : InLog lg x) (hne : ∀ j, j < n → lg.start + j + 1 ≠ x) (v : β) : Copied lg lh (update view x v) n := by
  intro j b hj hb
  have hbx : b ≠ x := by
    rintro rfl
    exact hhome b (List.mem_of_getElem? hb) hx
  rw [update_of_ne (hne j hj), update_of_ne hbx]
  exact h j b hj hb

theorem Inv.writeLog_bwrite (h : Inv ld s) (hp : s.ctl.phase p = .commit (.writeLog t))
    (hy : s.ctl.lh[t]? = some y) (hsub : s.sub = .copied a b)
    (hs : bwriteStep s a (.closing b a) = some s') : Inv ld s' := by
  obtain ⟨hn, hcp, hturn⟩ := h.sub p _ hp
  have hcopy := hturn y hy
  rw [hsub] at hcopy
  obtain ⟨hst, hob, hab⟩ : Stored s.cache a _ (s.view y) ∧ Open s.cache b y ∧ a ≠ b := hcopy
  have hlog := h.logBlock hy
  have hxy : y ≠ ld.geo.start + t + 1 := by
    rintro rfl
    exact h.homeBlock hy hlog
  obtain ⟨c, hc, rfl⟩ := Option.map_eq_some_iff.mp hs
  obtain ⟨hg, hf, hoa, _, _⟩ := hst.bwrite h.good hc
  rw [hst.blk, hst.data]
  refine h.turn hp ?_ hg ⟨hn, ?_, fun b' hb' => ?_⟩
  · intro z hz
    apply update_of_ne
    rintro rfl
    exact hz hlog
  · exact hcp.update h.home hlog (fun j hj => by omega) _
  · obtain rfl : b' = y := by simpa using hb'.symm.trans hy
    refine ⟨⟨b', hob.frame hf hab.symm⟩, ⟨_, hoa⟩, hab.symm, fun _ => ?_⟩
    rw [update_self, update_of_ne hxy]

theorem Inv.install_bwrite (h : Inv ld s) (hp : s.ctl.phase p = .commit (.install t))
    (hy : s.ctl.lh[t]? = some y) (hsub : s.sub = .copied a b)
    (hs : bwriteStep s b (.written a b) = some s') : Inv ld s' := by
  obtain ⟨hn, hle, hcp, hturn, _⟩ := h.sub p _ hp
  have hcopy := hturn y hy
  rw [hsub] at hcopy hn
  obtain ⟨hoa, hst, hab⟩ : Open s.cache a _ ∧ Stored s.cache b y _ ∧ a ≠ b := hcopy
  obtain ⟨hlt, _⟩ := List.getElem?_eq_some_iff.mp hy
  -- the log block holds what the store holds for the home block
  have hsame : s.view (ld.geo.start + t + 1) = s.view y := hcp t y hlt hy
  obtain ⟨c, hc, rfl⟩ := Option.map_eq_some_iff.mp hs
  obtain ⟨hg, hf, hob, hheld, hd⟩ := hst.bwrite h.good hc
  rw [hst.blk, hst.data, hsame, update_eq_self]
  rw [hsame, update_eq_self] at hg
  refine h.turn' hp hg ⟨hn, hle, hcp, fun b' hb' => ?_, fun hnone => ?_⟩
  · obtain rfl : b' = y := by simpa using hb'.symm.trans hy
    refine ⟨rfl, hoa.frame hf hab, hob, hheld, hab, ?_⟩
    rw [hd, update_self, hsame]
  · rw [hnone] at hy
    cases hy

theorem pinOf_succ (hn : lh.Nodup) (hy : lh[t]? = some y) :
    pinOf lh (t + 1) = update (pinOf lh t) y 0 ∧ pinOf lh t y = 1 ∧
      ∀ b, b ∈ lh.drop t ↔ b = y ∨ b ∈ lh.drop (t + 1) := by
  obtain ⟨hlt, hget⟩ := List.getElem?_eq_some_iff.mp hy
  have hdrop : lh.drop t = y :: lh.drop (t + 1) := by rw [List.drop_eq_getElem_cons hlt, hget]
  have hnot : y ∉ lh.drop (t + 1) := by
    have := List.Nodup.sublist (List.drop_sublist t lh) hn
    rw [hdrop] at this
    exact (List.nodup_cons.mp this).1
  refine ⟨?_, ?_, ?_⟩
  · funext b
    by_cases hb : b = y
    · rw [hb, update_self, pinOf, if_neg hnot]
    · rw [update_of_ne hb, pinOf, pinOf, hdrop]
      simp [hb]
  · rw [pinOf, hdrop, if_pos List.mem_cons_self]
  · intro b
    rw [hdrop, List.mem_cons]

theorem Inv.install_bunpin (h : Inv ld s) (hp : s.ctl.phase p = .commit (.install t))
    (hy : s.ctl.lh[t]? = some y) (hsub : s.sub = .written a b) : Inv ld { s with
      cache := bunpin s.cache b
      unpinned := s.unpinned + 1
      bunpins := (s.ctl.epoch - 1, y) :: s.bunpins
      sub := .closing a b } := by
  obtain ⟨hn, hle, hcp, hturn, _⟩ := h.sub p _ hp
  have hcopy := hturn y hy
  rw [hsub] at hcopy hn
  obtain ⟨_, hoa, hob, hheld, hab, hdisk⟩ := hcopy
  replace hn : s.unpinned = t := hn
  obtain ⟨hlt, _⟩ := List.getElem?_eq_some_iff.mp hy
  obtain ⟨hpin', hpin1, hmem⟩ := pinOf_succ h.nodup hy
  have hcm : s.ctl.committing = true := h.ctl.committer.mpr ⟨p, _, hp⟩
  have hcur : curTx s.ctl = s.ctl.epoch - 1 := by rw [curTx, if_pos hcm]
  -- the block was logged in the transaction being committed
  have hpinned : (s.ctl.epoch - 1, y) ∈ s.bpins := by
    have hlast : s.ctl.batches[s.ctl.epoch - 1]? = some s.ctl.lh := by
      rw [← h.ctl.numBatches, ← List.getLast?_eq_getElem?]
      exact h.ctl.held p _ hp
    exact (h.pins _ _).mpr ((h.ctl.batch _ _ hlast y).mp (List.mem_of_getElem? hy))
  have hnew : (s.ctl.epoch - 1, y) ∉ s.bunpins := by
    intro hm
    refine ((h.unpins _ _).mp hm).2 ⟨hcur.symm, ?_⟩
    rw [hn, hmem]
    exact Or.inl rfl
  have hg := h.good
  rw [hn] at hg
  refine { h with good := ?good, idle := ?idle, sub := ?sub, unpinsNodup := ?unpinsNodup,
                  unpins := ?unpins }
  case good =>
    show Good ld.dev (pinOf s.ctl.lh (s.unpinned + 1)) s.view (bunpin s.cache b)
    have hu := bunpin_good hg hob.live hheld (by rw [hob.blk]; exact hpin1) (by rw [hob.blk, hdisk])
    rw [hob.blk] at hu
    rw [hn, hpin']
    exact hu
  case idle => exact fun hf => Bool.noConfusion (hcm.symm.trans hf)
  case sub =>
    intro q pc hq
    obtain rfl := h.ctl.unique q p ⟨pc, hq⟩ ⟨_, hp⟩
    have hpc : CommitPc.install t = pc := by simpa using hp.symm.trans hq
    subst hpc
    refine ⟨by rw [hn]; rfl, hle, hcp, fun b' hb' => ?_, fun hnone => ?_⟩
    · exact ⟨⟨_, hoa.frame bunpin_frame hab⟩, ⟨_, ⟨hob.live, hob.owner, hob.blk, hob.clean⟩⟩, hab, nofun⟩
    · rw [hnone] at hy
      cases hy
  case unpinsNodup => exact List.nodup_cons.mpr ⟨hnew, h.unpinsNodup⟩
  case unpins =>
    intro e b'
    rw [List.mem_cons, Prod.mk.injEq, h.unpins, hcur, hn, hmem]
    have hnot : y ∉ s.ctl.lh.drop (t + 1) := by
      intro hm
      have := congrFun hpin' y
      rw [update_self, pinOf, if_pos hm] at this
      cases this
    constructor
    · rintro (⟨rfl, rfl⟩ | ⟨h1, h2⟩)
      · exact ⟨hpinned, fun hx => hnot hx.2⟩
      · exact ⟨h1, fun hx => h2 ⟨hx.1, Or.inr hx.2⟩⟩
    · rintro ⟨h1, h2⟩
      by_cases hx : e = s.ctl.epoch - 1 ∧ b' = y
      · exact Or.inl hx
      · refine Or.inr ⟨h1, ?_⟩
        rintro ⟨he, rfl | hb'⟩
        · exact hx ⟨he, rfl⟩
        · exact h2 ⟨he, hb'⟩

theorem brelseStep_spec {done : St ι β → Option (St ι β)}
    (g : Good ld.dev (pinOf s.ctl.lh s.unpinned) s.view s.cache) (ho : Open s.cache k b)
    (hs : brelseStep s k done = some s') :
    ∃ c, Good ld.dev (pinOf s.ctl.lh s.unpinned) s.view c ∧ Frame k s.cache c ∧ c.disk = s.cache.disk ∧
      ((Open c k b ∧ s' = { s with cache := c }) ∨ done { s with cache := c } = some s') := by
  unfold brelseStep at hs
  split at hs
  · obtain ⟨c, hc, rfl⟩ := inCache_some hs
    obtain ⟨hl, hd, ht⟩ := unlock_spec hc
    exact ⟨c, unlock_good g ho.live ho.clean hc, unlock_frame hc, hd, Or.inl ⟨ho.restage hl ht, rfl⟩⟩
  · obtain ⟨s1, hs1, hdone⟩ := Option.bind_eq_some_iff.mp hs
    obtain ⟨c, hc, rfl⟩ := inCache_some hs1
    exact ⟨c, unref_good g ho.live hc, unref_frame hc, unref_disk hc, Or.inr hdone⟩

theorem SubOK.nextTurn (h : SubOK ld lh c view sub n (turnPc log t)) (hy : lh[t]? = some y)
    (hsub : sub = .last a) : SubOK ld lh c' view .start n (nextPc lh (turnPc log t)) := by
  obtain ⟨hlt, _⟩ := List.getElem?_eq_some_iff.mp hy
  have hcopy := h.copyOK hy
  rw [hsub] at hcopy
  cases log with
  | true =>
    obtain ⟨h1, h2, _⟩ := h
    show SubOK ld lh c' view .start n (if t < lh.length then .writeLog (t + 1) else .writeHead)
    rw [if_pos hlt]
    refine ⟨h1, fun j b hj hb => ?_, fun _ _ => trivial⟩
    rcases Nat.lt_succ_iff_lt_or_eq.mp hj with hj | rfl
    · exact h2 j b hj hb
    · obtain rfl : b = y := by simpa using hb.symm.trans hy
      exact hcopy.2 rfl
  | false =>
    obtain ⟨h1, h2, h3, _⟩ := h
    show SubOK ld lh c' view .start n (if t < lh.length then .install (t + 1) else .clear)
    rw [if_pos hlt]
    rw [hsub] at h1
    exact ⟨h1, hlt, h3, fun _ _ => trivial, fun _ => rfl⟩

theorem turnPc_ne (log : Bool) (t : Nat) : turnPc log t ≠ .finish ∧ turnPc log t ≠ .clear := by
  cases log <;> exact ⟨nofun, nofun⟩

theorem Inv.copyStep [DecidableEq ι] (h : Inv ld s) (log : Bool) (hp : s.ctl.phase p = .commit (turnPc log t))
    (hy : s.ctl.lh[t]? = some y) (hs : copyStep ld s p k (ld.geo.start + t + 1) y log = some s') : Inv ld s' := by
  have hsub := h.sub p _ hp
  have hcopy := hsub.copyOK hy
  unfold Coherence.copyStep at hs
  split at hs
  case h_1 heq =>
    obtain ⟨c, hc, rfl⟩ := Option.map_eq_some_iff.mp hs
    refine h.turn' hp (bget_good h.good hc) (hsub.turn hy (Open.of_bget h.good.ok hc) ?_)
    intro _
    rw [heq]
    rfl
  case h_2 a heq =>
    rw [heq] at hcopy
    replace hcopy : Open s.cache a _ := hcopy
    split at hs
    · next hheld =>
      obtain ⟨c, hc, rfl⟩ := Option.map_eq_some_iff.mp hs
      have hf := bget_frame h.good.ok hc
      have hak : a ≠ k := by
        rintro rfl
        exact (bget_spec h.good.ok hc).1 hcopy.live
      refine h.turn' hp (bget_good h.good hc) (hsub.turn hy ?_ ?_)
      · exact ⟨hcopy.frame hf hak, by rw [hf.tk a hak, hheld], Open.of_bget h.good.ok hc, hak⟩
      · intro _
        rw [heq]
        rfl
    · obtain ⟨c, hc, rfl⟩ := inCache_some hs
      obtain ⟨hg, _, _, hl, st, ht⟩ := breadStep_spec h.good hcopy.live hc
      refine h.turn' hp hg (hsub.turn hy ?_ fun _ => rfl)
      rw [heq]
      exact hcopy.restage hl ht
  case h_3 a b heq =>
    rw [heq] at hcopy
    obtain ⟨hoa, hheld, hob, hab⟩ := hcopy
    split at hs
    · next hheldb =>
      obtain ⟨c, hc, rfl⟩ := Option.map_eq_some_iff.mp hs
      cases log with
      | true =>
        obtain ⟨hg, hf, hst⟩ := Stored.of_store h.good hoa hc
        rw [h.good.held_data hob.live hheldb hob.clean, hob.blk] at hst
        refine h.turn' hp hg (hsub.turn hy ?_ nofun)
        exact ⟨hst, hob.frame hf hab.symm, hab⟩
      | false =>
        obtain ⟨hg, hf, hst⟩ := Stored.of_store h.good hob hc
        rw [h.good.held_data hoa.live hheld hoa.clean, hoa.blk] at hst
        refine h.turn' hp hg (hsub.turn hy ?_ ?_)
        · exact ⟨hoa.frame hf hab, hst, hab⟩
        · intro _
          rw [heq]
          rfl
    · obtain ⟨c, hc, rfl⟩ := inCache_some hs
      obtain ⟨hg, hf, _, hl, st, ht⟩ := breadStep_spec h.good hob.live hc
      refine h.turn' hp hg (hsub.turn hy ?_ fun _ => rfl)
      rw [heq]
      exact ⟨hoa.frame hf hab, by rw [hf.tk a hab, hheld], hob.restage hl ht, hab⟩
  case h_4 a b heq =>
    cases log with
    | true => exact h.writeLog_bwrite hp hy heq hs
    | false => exact h.install_bwrite hp hy heq hs
  case h_5 a b heq =>
    cases log with
    | true =>
      rw [heq] at hcopy
      cases hcopy.1
    | false =>
      cases hs
      exact h.install_bunpin hp hy heq
  case h_6 a b heq =>
    rw [heq] at hcopy
    obtain ⟨⟨z, hoa⟩, ⟨z', hob⟩, hab, hv⟩ := hcopy
    obtain ⟨c, hg, hf, _, ⟨ho, rfl⟩ | hdone⟩ := brelseStep_spec h.good hoa hs
    · refine h.turn' hp hg (hsub.turn hy ?_ fun _ => rfl)
      rw [heq]
      exact ⟨⟨z, ho⟩, ⟨z', hob.frame hf hab.symm⟩, hab, hv⟩
    · cases hdone
      refine h.turn' hp hg (hsub.turn hy ⟨⟨z', hob.frame hf hab.symm⟩, hv⟩ ?_)
      intro _
      rw [heq]
      rfl
  case h_7 a heq =>
    rw [heq] at hcopy
    obtain ⟨⟨z, hoa⟩, hv⟩ := hcopy
    obtain ⟨c, hg, hf, _, ⟨ho, rfl⟩ | hdone⟩ := brelseStep_spec h.good hoa hs
    · refine h.turn' hp hg (hsub.turn hy ?_ fun _ => rfl)
      rw [heq]
      exact ⟨⟨z, ho⟩, hv⟩
    · exact h.advance hp (turnPc_ne log t).1 (turnPc_ne log t).2 hg (hsub.nextTurn hy heq) hdone
  case h_8 => cases hs

/-! ## The header -/

theorem SubOK.headOK (hpc : pc = .writeHead ∨ pc = .eraseHead) (h : SubOK ld lh c view sub n pc) :
    HeadOK c ld.geo.start sub := by
  rcases hpc with rfl | rfl
  · exact h.2.2
  · exact h.2

theorem SubOK.head (hpc : pc = .writeHead ∨ pc = .eraseHead) (h : SubOK ld lh c view sub n pc)
    (hc : HeadOK c' ld.geo.start sub') : SubOK ld lh c' view sub' n pc := by
  rcases hpc with rfl | rfl
  · exact ⟨h.1, h.2.1, hc⟩
  · exact ⟨h.1, hc⟩

theorem inLog_start (lg : Geometry) : InLog lg lg.start := by
  have := lg.size_pos
  constructor <;> omega

theorem SubOK.headWritten (hpc : pc = .writeHead ∨ pc = .eraseHead) (h : SubOK ld lh c view sub n pc)
    (hhome : ∀ b ∈ lh, ¬ InLog ld.geo b) (v : β) (hc : HeadOK c' ld.geo.start sub') :
    SubOK ld lh c' (update view ld.geo.start v) sub' n pc := by
  rcases hpc with rfl | rfl
  · exact ⟨h.1, h.2.1.update hhome (inLog_start ld.geo) (fun j _ => by omega) v, hc⟩
  · exact ⟨h.1, hc⟩

theorem SubOK.afterHead (hpc : pc = .writeHead ∨ pc = .eraseHead) (h : SubOK ld lh c view sub n pc) :
    SubOK ld lh c' view .start n (nextPc lh pc) := by
  rcases hpc with rfl | rfl
  · exact ⟨h.1, Nat.zero_le _, h.2.1, fun _ _ => trivial, fun _ => rfl⟩
  · exact ⟨rfl, h.1⟩

theorem Inv.writeHeadStep [DecidableEq ι] (h : Inv ld s) (hp : s.ctl.phase p = .commit pc)
    (hpc : pc = .writeHead ∨ pc = .eraseHead) (hs : writeHeadStep ld s p k = some s') : Inv ld s' := by
  have hsub := h.sub p _ hp
  have hhead := hsub.headOK hpc
  have hne : pc ≠ .finish ∧ pc ≠ .clear := by rcases hpc with rfl | rfl <;> exact ⟨nofun, nofun⟩
  unfold Coherence.writeHeadStep at hs
  split at hs
  case h_1 =>
    obtain ⟨c, hc, rfl⟩ := Option.map_eq_some_iff.mp hs
    exact h.turn' hp (bget_good h.good hc) (hsub.head hpc (Open.of_bget h.good.ok hc))
  case h_2 a heq =>
    rw [heq] at hhead
    replace hhead : Open s.cache a _ := hhead
    split at hs
    · obtain ⟨c, hc, rfl⟩ := Option.map_eq_some_iff.mp hs
      obtain ⟨hg, _, hst⟩ := Stored.of_store h.good hhead hc
      exact h.turn' hp hg (hsub.head hpc ⟨_, hst⟩)
    · obtain ⟨c, hc, rfl⟩ := inCache_some hs
      obtain ⟨hg, _, _, hl, st, ht⟩ := breadStep_spec h.good hhead.live hc
      refine h.turn' hp hg (hsub.head hpc ?_)
      rw [heq]
      exact hhead.restage hl ht
  case h_3 a heq =>
    rw [heq] at hhead
    obtain ⟨v, hst⟩ := hhead
    obtain ⟨c, hc, rfl⟩ := Option.map_eq_some_iff.mp hs
    obtain ⟨hg, _, ho, _, _⟩ := hst.bwrite h.good hc
    rw [hst.blk, hst.data]
    refine h.turn hp ?_ hg (hsub.headWritten hpc h.home v ⟨_, ho⟩)
    intro z hz
    apply update_of_ne
    rintro rfl
    exact hz (inLog_start ld.geo)
  case h_4 a heq =>
    rw [heq] at hhead
    obtain ⟨z, ho⟩ := hhead
    obtain ⟨c, hg, _, _, ⟨ho', rfl⟩ | hdone⟩ := brelseStep_spec h.good ho hs
    · refine h.turn' hp hg (hsub.head hpc ?_)
      rw [heq]
      exact ⟨z, ho'⟩
    · exact h.advance hp hne.1 hne.2 hg (hsub.afterHead hpc) hdone
  case h_5 => cases hs

/-! ## Every step keeps the invariant -/

section
variable [DecidableEq ι]

theorem Inv.commitStep (h : Inv ld s) (hs : commitStep ld s p k = some s') : Inv ld s' := by
  unfold Coherence.commitStep at hs
  split at hs
  case h_1 t hp =>
    split at hs
    · next y hy => exact h.copyStep true hp hy hs
    · next hy =>
      obtain ⟨h1, h2, _⟩ := h.sub p _ hp
      refine h.advance hp (turnPc_ne true t).1 (turnPc_ne true t).2 h.good ?_ hs
      rw [nextPc, if_neg (Nat.not_lt.mpr (List.getElem?_eq_none_iff.mp hy))]
      refine ⟨h1, fun j b hj hb => h2 j b ?_ hb, trivial⟩
      exact Nat.lt_of_lt_of_le hj (List.getElem?_eq_none_iff.mp hy)
  case h_2 hp => exact h.writeHeadStep hp (Or.inl rfl) hs
  case h_3 t hp =>
    split at hs
    · next y hy => exact h.copyStep false hp hy hs
    · next hy =>
      obtain ⟨h1, h2, _, _, h5⟩ := h.sub p _ hp
      have hlen := List.getElem?_eq_none_iff.mp hy
      refine h.advance hp (turnPc_ne false t).1 (turnPc_ne false t).2 h.good ?_ hs
      rw [nextPc, if_neg (Nat.not_lt.mpr hlen)]
      refine ⟨rfl, ?_⟩
      rw [h1, h5 hy, Nat.le_antisymm h2 hlen]
      rfl
  case h_4 hp => exact h.clear hp hs
  case h_5 hp => exact h.writeHeadStep hp (Or.inr rfl) hs
  case h_6 pc hwl hwh hin hcl her hp =>
    cases pc with
    | test =>
      obtain ⟨_, h2⟩ := h.sub p _ hp
      refine h.advance hp (by decide) (by decide) h.good ?_ hs
      rw [nextPc]
      split
      · exact ⟨h2, fun _ _ hj => absurd hj (Nat.not_lt_zero _), fun _ _ => trivial⟩
      · exact ⟨rfl, h2⟩
    | finish => exact h.finish hp hs
    | writeLog t => exact absurd rfl (hwl t)
    | writeHead => exact absurd rfl hwh
    | install t => exact absurd rfl (hin t)
    | clear => exact absurd rfl hcl
    | eraseHead => exact absurd rfl her
  case h_7 => cases hs

theorem inv_step (h : Inv ld s) (a : Act ι β) (hs : step ld s a = some s') : Inv ld s' := by
  unfold step at hs
  split at hs
  · cases hs
  · cases a with
    | beginOp p =>
      obtain ⟨ctl, hctl, rfl⟩ := Option.map_eq_some_iff.mp hs
      exact h.beginOp hctl
    | endOp p =>
      obtain ⟨ctl, hctl, rfl⟩ := Option.map_eq_some_iff.mp hs
      exact h.endOp hctl
    | bget p k b =>
      obtain ⟨c, hc, rfl⟩ := inCache_some hs
      obtain ⟨hk, _, hd, _⟩ := bget_spec h.good.ok hc
      exact h.inCache (bget_good h.good hc) (bget_frame h.good.ok hc) hd fun ho => hk ho.1
    | acquire p k =>
      obtain ⟨ho, hs⟩ := Option.ite_none_right_eq_some.mp hs
      obtain ⟨c, hc, rfl⟩ := inCache_some hs
      exact h.inCache (acquire_good h.good ho.1 hc) (acquire_frame hc) (acquire_spec hc).2.1 ho.not_none
    | fill p k =>
      obtain ⟨ho, hs⟩ := Option.ite_none_right_eq_some.mp hs
      obtain ⟨c, hc, rfl⟩ := inCache_some hs
      exact h.inCache (fill_good h.good ho.1 hc) (fill_frame h.good.ok ho.1 hc) (fill_spec hc).2.1
        ho.not_none
    | modify p k v =>
      obtain ⟨ho, hs⟩ := Option.ite_none_right_eq_some.mp hs
      obtain ⟨c, hc, rfl⟩ := inCache_some hs
      exact h.inCache (store_good h.good ho.1.1 hc) (store_frame h.good.ok ho.1.1 hc)
        (store_spec hc).2.2.1 ho.1.not_none
    | logWrite p k =>
      simp only [logWrite] at hs
      obtain ⟨ho, hs⟩ := Option.ite_none_right_eq_some.mp hs
      split at hs
      · cases hs
      · next ctl hctl =>
        split at hs
        · next hn =>
          injection hs with hs
          obtain ⟨pn, rfl⟩ := Isolation.step_logWrite_panic hctl hn
          subst hs
          exact { h with ctl := inv_step h.ctl _ hctl }
        · next hn =>
          cases hs
          exact h.logWrite ho.1.1 ho.2.1 rfl ho.2.2 hctl (by simpa using hn)
    | unlock p k =>
      obtain ⟨ho, hs⟩ := Option.ite_none_right_eq_some.mp hs
      obtain ⟨c, hc, rfl⟩ := inCache_some hs
      exact h.inCache (unlock_good h.good ho.1.1 ho.2 hc) (unlock_frame hc) (unlock_spec hc).2.1
        ho.1.not_none
    | unref p k =>
      obtain ⟨ho, hs⟩ := Option.ite_none_right_eq_some.mp hs
      obtain ⟨c, hc, rfl⟩ := inCache_some hs
      exact h.inCache (unref_good h.good ho.1 hc) (unref_frame hc) (unref_disk hc) ho.not_none
    | commit p k => exact h.commitStep hs

end

/-! ## Boot -/

theorem bread_spec (g : Good ld.dev pin view c) (h : bread ld c k b = some c') :
    Good ld.dev pin view c' ∧ Frame k c c' ∧ k ∉ c.live ∧ Open c' k b := by
  obtain ⟨c1, h1, h⟩ := Option.bind_eq_some_iff.mp h
  obtain ⟨c2, h2, h3⟩ := Option.bind_eq_some_iff.mp h
  have ho1 : Open c1 k b := Open.of_bget g.ok h1
  have g1 := bget_good g h1
  obtain ⟨hl2, _, ht2⟩ := acquire_spec h2
  have ho2 := ho1.restage hl2 ht2
  have g2 := acquire_good g1 ho1.live h2
  obtain ⟨hl3, _, ht3⟩ := fill_spec h3
  have hframe := ((bget_frame g.ok h1).trans (acquire_frame h2)).trans (fill_frame g2.ok ho2.live h3)
  exact ⟨fill_good g2 ho2.live h3, hframe, (bget_spec g.ok h1).1, ho2.restage hl3 ht3⟩

theorem brelse_spec (g : Good ld.dev pin view c) (ho : Open c k b) (h : brelse c k = some c') :
    Good ld.dev pin view c' ∧ ∀ x z, x ≠ k → Open c x z → Open c' x z := by
  obtain ⟨c1, h1, h2⟩ := Option.bind_eq_some_iff.mp h
  obtain ⟨hl, _, ht⟩ := unlock_spec h1
  refine ⟨unref_good (unlock_good g ho.live ho.clean h1) (hl ▸ ho.live) h2, fun x z hx hox => ?_⟩
  exact (hox.frame (unlock_frame h1) hx).frame (unref_frame h2) hx

theorem installTrans_good (bs : List Nat) : ∀ (tail : Nat) (view : Nat → β) (c c' : Cache ι β),
    Good ld.dev (fun _ => 0) view c → installTrans ld tail bs c = some c' →
      ∃ view', Good ld.dev (fun _ => 0) view' c' := by
  induction bs with
  | nil =>
    intro tail view c c' g h
    injection h with h
    exact ⟨view, h ▸ g⟩
  | cons b bs ih =>
    intro tail view c c' g h
    obtain ⟨c1, h1, h⟩ := Option.bind_eq_some_iff.mp h
    obtain ⟨c2, h2, h⟩ := Option.bind_eq_some_iff.mp h
    obtain ⟨c3, h3, h⟩ := Option.bind_eq_some_iff.mp h
    obtain ⟨c4, h4, h⟩ := Option.bind_eq_some_iff.mp h
    obtain ⟨c5, h5, h⟩ := Option.bind_eq_some_iff.mp h
    obtain ⟨c6, h6, h⟩ := Option.bind_eq_some_iff.mp h
    obtain ⟨g1, _, _, o1⟩ := bread_spec g h1
    obtain ⟨g2, f2, _, o2⟩ := bread_spec g1 h2
    obtain ⟨g3, f3, s3⟩ := Stored.of_store g2 o2 h3
    obtain ⟨g4, f4, o4, _⟩ := s3.bwrite g3 h4
    have hne : (0 : Nat) ≠ 1 := by decide
    have o1' := ((o1.frame f2 hne).frame f3 hne).frame f4 hne
    obtain ⟨g5, k5⟩ := brelse_spec g4 o1' h5
    obtain ⟨g6, _⟩ := brelse_spec g5 (k5 1 b hne.symm o4) h6
    exact ih (tail + 1) _ c6 c' g6 h

theorem writeHead_good (g : Good ld.dev (fun _ => 0) view c)
    (h : writeHead ld lh c = some c') : ∃ view', Good ld.dev (fun _ => 0) view' c' := by
  obtain ⟨c1, h1, h⟩ := Option.bind_eq_some_iff.mp h
  obtain ⟨c2, h2, h⟩ := Option.bind_eq_some_iff.mp h
  obtain ⟨c3, h3, h⟩ := Option.bind_eq_some_iff.mp h
  obtain ⟨g1, _, _, o1⟩ := bread_spec g h1
  obtain ⟨g2, _, s2⟩ := Stored.of_store g1 o1 h2
  obtain ⟨g3, _, o3, _⟩ := s2.bwrite g2 h3
  exact ⟨_, (brelse_spec g3 o3 h).1⟩

theorem initlog_good (g : Good ld.dev (fun _ => 0) view c) (h : initlog ld c = some c') :
    Good ld.dev (fun _ => 0) c'.disk c' := by
  obtain ⟨c1, h1, h⟩ := Option.bind_eq_some_iff.mp h
  obtain ⟨c2, h2, h⟩ := Option.bind_eq_some_iff.mp h
  obtain ⟨c3, h3, h⟩ := Option.bind_eq_some_iff.mp h
  obtain ⟨g1, _, _, o1⟩ := bread_spec g h1
  obtain ⟨g2, _⟩ := brelse_spec g1 o1 h2
  obtain ⟨view3, g3⟩ := installTrans_good _ 0 view c2 c3 g2 h3
  obtain ⟨view4, g4⟩ := writeHead_good g3 h
  have hview : view4 = c'.disk := funext fun b => (g4.co.stored b rfl).symm
  exact hview ▸ g4

theorem inv_initial (g : Good ld.dev (fun _ => 0) c.disk c) : Inv ld (initial c) := by
  constructor
  case ctl => exact Isolation.inv_initial _ _
  case good =>
    have hpin : pinOf (initial c).ctl.lh (initial c).unpinned = fun _ => 0 := by
      funext b
      simp [pinOf, initial, Isolation.initial]
    rw [hpin]
    exact g
  all_goals simp [initial, Isolation.initial]

/-! ## The coherent store -/

/-- A pinned block's buffer counts one more than its users, so `bget` never recycles it. -/
theorem Inv.pinned (h : Inv ld s) (hb : b ∈ s.ctl.lh.drop s.unpinned) :
    ∃ i, (s.cache.bufs i).dev = ld.dev ∧ (s.cache.bufs i).blockno = b ∧ (s.cache.bufs i).valid = true ∧
      (s.cache.bufs i).refcnt = (users s.cache i).card + 1 ∧ victim s.cache ≠ some i := by
  have hp : pinOf s.ctl.lh s.unpinned b = 1 := by rw [pinOf, if_pos hb]
  obtain ⟨i, h1, h2, h3⟩ := h.good.ok.pinned b (by rw [hp]; decide)
  refine ⟨i, h1, h2, h3, ?_, fun hv => ?_⟩
  · have hr := h.good.ok.refs i
    rw [h1, if_pos rfl, h2, hp] at hr
    exact hr
  · have h0 := (victim_some h.good.ok hv).2 h1
    rw [h2, hp] at h0
    cases h0

/-- Blocks are unpinned by `install_trans` only, and the header is cleared right after it. -/
theorem Inv.unpinned_in_install (h : Inv ld s) (hu : s.unpinned ≠ 0) :
    ∃ p, (∃ t, s.ctl.phase p = .commit (.install t)) ∨ s.ctl.phase p = .commit .clear := by
  have hc : s.ctl.committing = true := by
    by_contra hc
    exact hu (h.idle (by simpa using hc)).2
  obtain ⟨p, pc, hp⟩ := h.ctl.committer.mp hc
  refine ⟨p, ?_⟩
  have hsub := h.sub p pc hp
  cases pc with
  | test => exact absurd hsub.2 hu
  | writeLog t => exact absurd hsub.1 hu
  | writeHead => exact absurd hsub.1 hu
  | install t => exact Or.inl ⟨t, hp⟩
  | clear => exact Or.inr hp
  | eraseHead => exact absurd hsub.1 hu
  | finish => exact absurd hsub.2 hu

theorem Inv.never_logged (h : Inv ld s) (hb : s.logged.lookup b = none) : s.cache.disk b = s.view b := by
  apply h.good.co.stored
  rw [pinOf, if_neg fun hm => h.lhLogged b (List.mem_of_mem_drop hm) hb]

variable [DecidableEq ι]

theorem inv_reachable (h : Reachable ld s) : Inv ld s := by
  refine h.invariant (Inv ld) ?_ fun s a s' hi _ hs => inv_step hi a hs
  rintro s ⟨disk, data, tk, c, hc, rfl⟩
  exact inv_initial (initlog_good (binit_good ld.dev_ne disk data tk) hc)

/-- **The buffer cache and the log are one coherent store.**  In every reachable state:
no two buffers are assigned to one block; every block of the header that
`install_trans` has not yet unpinned has a valid buffer with one reference more
than its users, which `bget` does not recycle, and nothing is unpinned outside
`install_trans`; in each transaction `log_write` called `bpin` once for each block
logged, `install_trans` calls `bunpin` at most once for it, and exactly once when
the transaction is not the current one any more; and whoever holds a buffer it has
not modified sees the latest logged content of the block, or what the disk holds
if the block was never logged, which for a block outside the log is what it held at boot. -/
theorem cache_log_coherent (ld : LogDev β) (s : St ι β) (h : Reachable ld s) :
    (∀ i j, (s.cache.bufs i).dev ≠ 0 → (s.cache.bufs i).dev = (s.cache.bufs j).dev →
      (s.cache.bufs i).blockno = (s.cache.bufs j).blockno → i = j) ∧
    (∀ b ∈ s.ctl.lh.drop s.unpinned, ∃ i, (s.cache.bufs i).dev = ld.dev ∧
      (s.cache.bufs i).blockno = b ∧ (s.cache.bufs i).valid = true ∧
      (s.cache.bufs i).refcnt = (users s.cache i).card + 1 ∧ victim s.cache ≠ some i) ∧
    (s.unpinned ≠ 0 →
      ∃ p, (∃ t, s.ctl.phase p = .commit (.install t)) ∨ s.ctl.phase p = .commit .clear) ∧
    (s.bpins.Nodup ∧ ∀ e b, (e, b) ∈ s.bpins ↔ ∃ o, (o, e, b) ∈ s.ctl.writes) ∧
    (s.bunpins.Nodup ∧ (∀ e b, (e, b) ∈ s.bunpins → (e, b) ∈ s.bpins) ∧
      ∀ e b, (e, b) ∈ s.bpins → e ≠ curTx s.ctl → (e, b) ∈ s.bunpins) ∧
    (∀ k ∈ s.cache.live, (s.cache.tk k).stage = .held → (s.cache.tk k).dirty = false →
      (bufOf s.cache k).data =
        (s.logged.lookup (s.cache.tk k).blk).getD (s.cache.disk (s.cache.tk k).blk)) ∧
    ∀ b, ¬ InLog ld.geo b → s.logged.lookup b = none → s.cache.disk b = s.boot b := by
  have hi := inv_reachable h
  refine ⟨?_, fun b hb => hi.pinned hb, hi.unpinned_in_install, ⟨hi.pinsNodup, hi.pins⟩, ?_, ?_, ?_⟩
  · intro i j hne he hb
    have hd : (s.cache.bufs i).dev = ld.dev := (hi.good.ok.devs i).resolve_left hne
    exact hi.good.ok.inj i j hd (he.symm.trans hd) hb
  · refine ⟨hi.unpinsNodup, fun e b hm => ((hi.unpins e b).mp hm).1, fun e b hm hne => ?_⟩
    exact (hi.unpins e b).mpr ⟨hm, fun hx => hne hx.1⟩
  · intro k hk hs hd
    rw [hi.good.held_data hk hs hd]
    cases hl : s.logged.lookup (s.cache.tk k).blk with
    | some v =>
      have hnl : ¬ InLog ld.geo (s.cache.tk k).blk := fun hc => by rw [hi.loggedHome _ hc] at hl; cases hl
      rw [hi.shown _ hnl, hl]
      rfl
    | none => exact (hi.never_logged hl).symm
  · intro b hnl hb
    rw [hi.never_logged hb, hi.shown b hnl, hb]
    rfl

/-! ## A transaction of one block -/

/-- A device whose blocks are numbers, with the log in blocks 2 to 31. -/
def demoDev : LogDev Nat :=
  { geo := mkfsLog, dev := 1, dev_ne := by decide,
    encodeHead := fun lh _ => lh.length, decodeHead := fun _ => [] }

def demoCache : Cache Unit Nat :=
  binit (fun _ => 0) (fun _ => 0) fun _ =>
    { owner := none, buf := ⟨0, by decide⟩, blk := 0, stage := .waiting, dirty := false }

/-- Block 50 gets the content 7 in one operation. -/
def demoOp : List (Act Unit Nat) :=
  [.beginOp (), .bget () 9 50, .acquire () 9, .fill () 9, .modify () 9 7, .logWrite () 9, .unlock () 9,
    .unref () 9, .endOp ()]

/-- `n` steps of `commit()`; it has at most two tickets at a time. -/
def demoCommit (n : Nat) : List (Act Unit Nat) := (List.range n).map fun i => .commit () i

def demoRun (acts : List (Act Unit Nat)) : Option (St Unit Nat) :=
  (initlog demoDev demoCache).bind fun c => Run.run (step demoDev) (initial c) acts

theorem demoRun_reachable {acts : List (Act Unit Nat)} {s : St Unit Nat} (h : demoRun acts = some s) :
    Reachable demoDev s := by
  obtain ⟨c, hc, hr⟩ := Option.bind_eq_some_iff.mp h
  exact Run.Reach.of_run (fun _ _ => trivial) acts (.start ⟨_, _, _, c, hc, rfl⟩) hr

/-- The read of block 50 after the commit returns what was logged. -/
theorem cache_log_coherent_reread :
    ∃ s, demoRun (demoOp ++ demoCommit 44 ++ [.bget () 9 50, .acquire () 9, .fill () 9]) = some s ∧
      s.ctl.committing = false ∧ (bufOf s.cache 9).data = 7 := by
  have hsome : (demoRun (demoOp ++ demoCommit 44 ++ [.bget () 9 50, .acquire () 9, .fill () 9])).isSome := by
    decide +kernel
  obtain ⟨s, hs⟩ := Option.isSome_iff_exists.mp hsome
  have hview : (demoRun (demoOp ++ demoCommit 44 ++ [.bget () 9 50, .acquire () 9, .fill () 9])).map
      (fun s => (s.ctl.committing, decide (9 ∈ s.cache.live), (s.cache.tk 9).stage, (s.cache.tk 9).dirty,
        s.logged.lookup (s.cache.tk 9).blk)) = some (false, true, .held, false, some 7) := by decide +kernel
  rw [hs] at hview
  simp only [Option.map_some, Option.some.injEq, Prod.mk.injEq, decide_eq_true_eq] at hview
  obtain ⟨hc, hl, hst, hd, hv⟩ := hview
  refine ⟨s, hs, hc, ?_⟩
  rw [(cache_log_coherent demoDev s (demoRun_reachable hs)).2.2.2.2.2.1 9 hl hst hd, hv]
  rfl

/-- During `install_trans`, after the `bunpin` of block 50 and the `brelse` of its
buffer: the block is still in the header, and its buffer is free to be recycled. -/
theorem header_block_unpinned : ∃ s, demoRun (demoOp ++ demoCommit 34) = some s ∧ Reachable demoDev s ∧ 50 ∈ s.ctl.lh ∧
      ¬ ∃ i, (s.cache.bufs i).dev = demoDev.dev ∧ (s.cache.bufs i).blockno = 50 ∧
        (s.cache.bufs i).refcnt ≥ (users s.cache i).card + 1 := by
  have hsome : (demoRun (demoOp ++ demoCommit 34)).isSome := by decide +kernel
  obtain ⟨s, hs⟩ := Option.isSome_iff_exists.mp hsome
  have hview : (demoRun (demoOp ++ demoCommit 34)).map (fun s => (s.ctl.lh, (List.finRange NBUF).all
      fun i => (s.cache.bufs i).blockno != 50 || (s.cache.bufs i).refcnt == 0)) = some ([50], true) := by
    decide +kernel
  rw [hs] at hview
  simp only [Option.map_some, Option.some.injEq, Prod.mk.injEq, List.all_eq_true] at hview
  obtain ⟨hlh, hfree⟩ := hview
  refine ⟨s, hs, demoRun_reachable hs, by simp [hlh], ?_⟩
  rintro ⟨i, _, hb, hr⟩
  have h0 := hfree i (List.mem_finRange i)
  simp only [hb, bne_self_eq_false, Bool.false_or, beq_iff_eq] at h0
  omega

end Xv6.Log.Coherence
