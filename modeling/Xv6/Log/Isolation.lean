import Mathlib.Data.Finset.Card
import Xv6.Lib.Run
import Xv6.Log.Commit

/-!
# Transactions: `begin_op`, `log_write`, `end_op` under any interleaving

`kernel/log.c` as a step function.  Any type `ι` of processes; each critical
section under `log.lock` is one action, and `commit`, which runs without the
lock, is one action for each of its loop iterations and header writes.  A
process is `asleep` when `begin_op` put it to sleep on `&log` and `woken` when a
`wakeup(&log)` made it runnable again inside `begin_op`'s loop.

Ghost fields record history: every operation has a number, every `log_write` is
recorded with its operation and with the number of commits started before it
(`epoch`), and `batches` holds the header of each commit at its start.
-/

namespace Xv6.Log.Isolation

open Function
open Xv6.Log (Geometry)

variable {lg : Geometry}

inductive Panic
  | tooBig        -- "too big a transaction"
  | outsideTrans  -- "log_write outside of trans"
  | committing    -- "log.committing"
  deriving DecidableEq

/-- Where `commit()` and the tail of `end_op` stand. -/
inductive CommitPc
  | test
  | writeLog (tail : Nat)
  | writeHead
  | install (tail : Nat)
  | clear
  | eraseHead
  | finish
  deriving DecidableEq

inductive Phase
  | idle
  | asleep
  | woken
  | inOp (op : Nat)
  | commit (pc : CommitPc)
  deriving DecidableEq

structure St (ι β : Type) where
  outstanding : Int
  committing : Bool
  lh : List Nat
  /-- Contents of the home blocks' buffers. -/
  buf : Nat → β
  /-- Contents of the log blocks, by position. -/
  logBlk : Nat → β
  panic : Option Panic
  phase : ι → Phase
  nextOp : Nat
  epoch : Nat
  writes : List (Nat × Nat × Nat)
  ended : List Nat
  batches : List (List Nat)

inductive Act (ι β : Type)
  | beginOp (p : ι)
  /-- Store into a held buffer, inside an operation. -/
  | modify (p : ι) (b : Nat) (v : β)
  | logWrite (p : ι) (b : Nat)
  | endOp (p : ι)
  | commit (p : ι)

def Act.actor {ι β : Type} : Act ι β → ι
  | .beginOp p => p
  | .modify p _ _ => p
  | .logWrite p _ => p
  | .endOp p => p
  | .commit p => p

section
variable {ι β : Type} [DecidableEq ι]

def setPhase (s : St ι β) (p : ι) (ph : Phase) : St ι β :=
  { s with phase := update s.phase p ph }

def wakeup (s : St ι β) : St ι β :=
  { s with phase := fun p => if s.phase p = .asleep then .woken else s.phase p }

def beginOp (s : St ι β) (p : ι) : Option (St ι β) :=
  if s.phase p = .idle ∨ s.phase p = .woken then
    if s.committing then some (setPhase s p .asleep)
    else if s.lh.length + (s.outstanding + 1) * MAXOPBLOCKS > LOGSIZE then
      some (setPhase s p .asleep)
    else some { setPhase s p (.inOp s.nextOp) with
      outstanding := s.outstanding + 1
      nextOp := s.nextOp + 1 }
  else none

def modify (s : St ι β) (p : ι) (b : Nat) (v : β) : Option (St ι β) :=
  match s.phase p with
  | .inOp _ => some { s with buf := update s.buf b v }
  | _ => none

def logWrite (lg : Geometry) (s : St ι β) (p : ι) (b : Nat) : Option (St ι β) :=
  match s.phase p with
  | .inOp o =>
    if s.lh.length ≥ LOGSIZE ∨ s.lh.length ≥ lg.size - 1 then some { s with panic := some .tooBig }
    else if s.outstanding < 1 then some { s with panic := some .outsideTrans }
    else some { s with
      lh := if b ∈ s.lh then s.lh else s.lh ++ [b]
      writes := (o, s.epoch, b) :: s.writes }
  | _ => none

def endOp (s : St ι β) (p : ι) : Option (St ι β) :=
  match s.phase p with
  | .inOp o =>
    if s.committing then
      some { s with outstanding := s.outstanding - 1, panic := some .committing }
    else if s.outstanding - 1 = 0 then
      some { setPhase s p (.commit .test) with
        outstanding := s.outstanding - 1
        committing := true
        ended := o :: s.ended
        epoch := s.epoch + 1
        batches := s.batches ++ [s.lh] }
    else
      some { wakeup (setPhase s p .idle) with
        outstanding := s.outstanding - 1
        ended := o :: s.ended }
  | _ => none

/-- One step of `commit()`, and the last critical section of `end_op`. -/
def commitStep (s : St ι β) (p : ι) : Option (St ι β) :=
  match s.phase p with
  | .commit .test =>
    some (setPhase s p (.commit (if s.lh.length > 0 then .writeLog 0 else .finish)))
  | .commit (.writeLog tail) =>
    match s.lh[tail]? with
    | some b => some { setPhase s p (.commit (.writeLog (tail + 1))) with
        logBlk := update s.logBlk tail (s.buf b) }
    | none => some (setPhase s p (.commit .writeHead))
  | .commit .writeHead => some (setPhase s p (.commit (.install 0)))
  | .commit (.install tail) =>
    match s.lh[tail]? with
    | some b => some { setPhase s p (.commit (.install (tail + 1))) with
        buf := update s.buf b (s.logBlk tail) }
    | none => some (setPhase s p (.commit .clear))
  | .commit .clear => some { setPhase s p (.commit .eraseHead) with lh := [] }
  | .commit .eraseHead => some (setPhase s p (.commit .finish))
  | .commit .finish => some { wakeup (setPhase s p .idle) with committing := false }
  | _ => none

def step (lg : Geometry) (s : St ι β) (a : Act ι β) : Option (St ι β) :=
  if s.panic.isSome then none
  else
    match a with
    | .beginOp p => beginOp s p
    | .modify p b v => modify s p b v
    | .logWrite p b => logWrite lg s p b
    | .endOp p => endOp s p
    | .commit p => commitStep s p

def initial (buf logBlk : Nat → β) : St ι β :=
  { outstanding := 0, committing := false, lh := [], buf := buf, logBlk := logBlk, panic := none,
    phase := fun _ => .idle, nextOp := 0, epoch := 0, writes := [], ended := [], batches := [] }

def Initial (s : St ι β) : Prop := ∃ buf logBlk, s = initial buf logBlk

def Reachable (lg : Geometry) (s : St ι β) : Prop :=
  Run.Reach (step lg) (fun _ _ => True) Initial s

/-- `p` is between a returned `begin_op` and its `end_op`. -/
def InOp (s : St ι β) (p : ι) : Prop := ∃ o, s.phase p = .inOp o

/-- `p` is inside `commit()` or the tail of `end_op` after it. -/
def Committer (s : St ι β) (p : ι) : Prop := ∃ pc, s.phase p = .commit pc

/-- Where `commit()` goes next. -/
def nextPc (lh : List Nat) : CommitPc → CommitPc
  | .test => if lh.length > 0 then .writeLog 0 else .finish
  | .writeLog tail => if tail < lh.length then .writeLog (tail + 1) else .writeHead
  | .writeHead => .install 0
  | .install tail => if tail < lh.length then .install (tail + 1) else .clear
  | .clear => .eraseHead
  | .eraseHead => .finish
  | .finish => .finish

/-- What a step does; `turn` is every step of `commit()` but the last. -/
inductive Effect (lg : Geometry) (s : St ι β) : Act ι β → St ι β → Prop
  | sleep {p : ι} : s.phase p = .idle ∨ s.phase p = .woken →
      s.committing = true ∨ s.lh.length + (s.outstanding + 1) * MAXOPBLOCKS > LOGSIZE →
      Effect lg s (.beginOp p) (setPhase s p .asleep)
  | begun {p : ι} : s.phase p = .idle ∨ s.phase p = .woken → s.committing = false →
      ¬ s.lh.length + (s.outstanding + 1) * MAXOPBLOCKS > LOGSIZE →
      Effect lg s (.beginOp p) { setPhase s p (.inOp s.nextOp) with
        outstanding := s.outstanding + 1, nextOp := s.nextOp + 1 }
  | modify {p : ι} {o b : Nat} {v : β} : s.phase p = .inOp o →
      Effect lg s (.modify p b v) { s with buf := update s.buf b v }
  | tooBig {p : ι} {o b : Nat} : s.phase p = .inOp o →
      Effect lg s (.logWrite p b) { s with panic := some .tooBig }
  | outside {p : ι} {o b : Nat} : s.phase p = .inOp o → s.outstanding < 1 →
      Effect lg s (.logWrite p b) { s with panic := some .outsideTrans }
  | logged {p : ι} {o b : Nat} : s.phase p = .inOp o → s.lh.length < lg.size - 1 →
      Effect lg s (.logWrite p b) { s with
        lh := if b ∈ s.lh then s.lh else s.lh ++ [b], writes := (o, s.epoch, b) :: s.writes }
  | committing {p : ι} {o : Nat} : s.phase p = .inOp o → s.committing = true →
      Effect lg s (.endOp p) { s with outstanding := s.outstanding - 1, panic := some .committing }
  | lastEnded {p : ι} {o : Nat} : s.phase p = .inOp o → s.outstanding - 1 = 0 →
      Effect lg s (.endOp p) { setPhase s p (.commit .test) with
        outstanding := s.outstanding - 1, committing := true, ended := o :: s.ended
        epoch := s.epoch + 1, batches := s.batches ++ [s.lh] }
  | ended {p : ι} {o : Nat} : s.phase p = .inOp o → s.outstanding - 1 ≠ 0 →
      Effect lg s (.endOp p) { wakeup (setPhase s p .idle) with
        outstanding := s.outstanding - 1, ended := o :: s.ended }
  | turn {p : ι} {pc pc' : CommitPc} (buf logBlk : Nat → β) : s.phase p = .commit pc → pc ≠ .finish →
      pc' = nextPc s.lh pc → Effect lg s (.commit p) { setPhase s p (.commit pc') with
        lh := if pc = .clear then [] else s.lh, buf := buf, logBlk := logBlk }
  | finish {p : ι} : s.phase p = .commit .finish →
      Effect lg s (.commit p) { wakeup (setPhase s p .idle) with committing := false }

variable {o : Nat} {s' : St ι β} {pc : CommitPc}

theorem step_cases {s : St ι β} {a : Act ι β} (hs : step lg s a = some s') : s.panic = none ∧ Effect lg s a s' := by
  unfold step at hs
  split at hs
  case isTrue => cases hs
  next hn =>
  refine ⟨by simpa using hn, ?_⟩
  cases a with
  | beginOp p =>
    simp only [beginOp] at hs
    split at hs
    case isFalse => cases hs
    next hp =>
    split at hs
    · next hc =>
      cases hs
      exact .sleep hp (.inl hc)
    · next hc =>
      split at hs <;> cases hs
      · next hfull => exact .sleep hp (.inr hfull)
      · next hroom => exact .begun hp (by simpa using hc) hroom
  | modify p b v =>
    simp only [modify] at hs
    split at hs <;> cases hs
    next hp => exact .modify hp
  | logWrite p b =>
    simp only [logWrite] at hs
    split at hs
    case h_2 => cases hs
    next hp =>
    split at hs
    · cases hs
      exact .tooBig hp
    · split at hs <;> cases hs
      · next hout => exact .outside hp hout
      · exact .logged hp (by omega)
  | endOp p =>
    simp only [endOp] at hs
    split at hs
    case h_2 => cases hs
    next hp =>
    split at hs
    · next hc =>
      cases hs
      exact .committing hp hc
    · split at hs <;> cases hs
      · next hout => exact .lastEnded hp hout
      · next hout => exact .ended hp hout
  | commit p =>
    simp only [commitStep] at hs
    split at hs
    case h_8 => cases hs
    case h_7 hp =>
      cases hs
      exact .finish hp
    case h_2 hp | h_4 hp =>
      split at hs <;> cases hs
      · next hb => exact .turn _ _ hp nofun (if_pos (List.getElem?_eq_some_iff.mp hb).1).symm
      · next hb => exact .turn _ _ hp nofun (if_neg (Nat.not_lt.mpr (List.getElem?_eq_none_iff.mp hb))).symm
    all_goals
      next hp =>
      cases hs
      exact .turn _ _ hp nofun rfl

/-! ## The invariant -/

/-- The header while the committer is at `pc`: the batch being committed, until
it is cleared. -/
def Held (lh : List Nat) (batches : List (List Nat)) : CommitPc → Prop
  | .eraseHead => lh = []
  | .finish => lh = []
  | _ => batches.getLast? = some lh

structure Inv (s : St ι β) : Prop where
  noPanic : s.panic ≠ some .committing ∧ s.panic ≠ some .outsideTrans
  counted : ∃ F : Finset ι, (∀ p, p ∈ F ↔ InOp s p) ∧ s.outstanding = F.card
  committer : s.committing = true ↔ ∃ p, Committer s p
  unique : ∀ p q, Committer s p → Committer s q → p = q
  quiet : s.committing = true → ∀ p, ¬ InOp s p
  drained : s.committing = false → (∀ p, ¬ InOp s p) → s.lh = []
  held : ∀ p pc, s.phase p = .commit pc → Held s.lh s.batches pc
  opLive : ∀ p o, s.phase p = .inOp o → o < s.nextOp ∧ o ∉ s.ended
  opInj : ∀ p q o, s.phase p = .inOp o → s.phase q = .inOp o → p = q
  endedOld : ∀ o ∈ s.ended, o < s.nextOp
  written : ∀ o e b, (o, e, b) ∈ s.writes → o < s.nextOp ∧ e ≤ s.epoch
  opNow : ∀ p o e b, s.phase p = .inOp o → (o, e, b) ∈ s.writes → e = s.epoch
  oneEpoch : ∀ o e b e' b', (o, e, b) ∈ s.writes → (o, e', b') ∈ s.writes → e = e'
  pending : ∀ o b, (o, s.epoch, b) ∈ s.writes →
    s.committing = false ∧ (o ∈ s.ended ∨ ∃ p, s.phase p = .inOp o)
  lhWritten : s.committing = false → ∀ b, b ∈ s.lh ↔ ∃ o, (o, s.epoch, b) ∈ s.writes
  numBatches : s.batches.length = s.epoch
  batch : ∀ e l, s.batches[e]? = some l → ∀ b, b ∈ l ↔ ∃ o, (o, e, b) ∈ s.writes
  batchEnded : ∀ o e b, (o, e, b) ∈ s.writes → e < s.epoch → o ∈ s.ended

omit [DecidableEq ι] in
theorem inv_initial (buf logBlk : Nat → β) : Inv (initial buf logBlk : St ι β) := by
  constructor
  case counted => exact ⟨∅, by simp [InOp, initial], rfl⟩
  case numBatches => rfl
  all_goals simp [initial, InOp, Committer]

variable {s : St ι β}

/-- With phase `x`, `q` is in the operation or the commit that it was in. -/
def Alike (s : St ι β) (lh : List Nat) (q : ι) (x : Phase) : Prop :=
  (∀ o, x = .inOp o ↔ s.phase q = .inOp o) ∧ ((∃ pc, x = .commit pc) ↔ Committer s q) ∧
    ∀ pc, x = .commit pc → Held lh s.batches pc

omit [DecidableEq ι] in
theorem Inv.of_phase (h : Inv s) (ph : ι → Phase) (lh : List Nat) (buf logBlk : Nat → β)
    (hph : ∀ q, Alike s lh q (ph q)) (hlh : s.committing = false → lh = s.lh) :
    Inv { s with phase := ph, lh := lh, buf := buf, logBlk := logBlk } := by
  have hop := fun q => (hph q).1
  have hc := fun q => (hph q).2.1
  have hin : ∀ p, InOp { s with phase := ph, lh := lh, buf := buf, logBlk := logBlk } p ↔ InOp s p :=
    fun p => exists_congr fun o => hop p o
  obtain ⟨F, hF, hcard⟩ := h.counted
  refine {
    h with
    counted := ⟨F, fun p => (hF p).trans (hin p).symm, hcard⟩
    committer := h.committer.trans (exists_congr fun p => (hc p).symm)
    unique := fun p q hp hq => h.unique p q ((hc p).mp hp) ((hc q).mp hq)
    quiet := fun hcm p hp => h.quiet hcm p ((hin p).mp hp)
    drained := fun hcm hno => (hlh hcm).trans (h.drained hcm fun p hp => hno p ((hin p).mpr hp))
    held := fun q => (hph q).2.2
    opLive := fun p o hp => h.opLive p o ((hop p o).mp hp)
    opInj := fun p q o hp hq => h.opInj p q o ((hop p o).mp hp) ((hop q o).mp hq)
    opNow := fun p o e b hp => h.opNow p o e b ((hop p o).mp hp)
    pending := fun o b hw =>
      (h.pending o b hw).imp_right fun hx => hx.imp_right fun ⟨p, hp⟩ => ⟨p, (hop p o).mpr hp⟩
    lhWritten := fun hcm => by rw [hlh hcm]; exact h.lhWritten hcm }

omit [DecidableEq ι] in
theorem Inv.not_committer (h : Inv s) (hc : s.committing = false) (p : ι) : ¬ Committer s p := by
  intro hp
  rw [h.committer.mpr ⟨p, hp⟩] at hc
  cases hc

variable {p : ι}

/-- Outside of operations and commits a process goes to sleep or is woken. -/
theorem Inv.aside {x : Phase} (h : Inv s) (hp : s.phase p = .idle ∨ s.phase p = .woken ∨ s.phase p = .asleep)
    (hx : x = .asleep ∨ x = .woken) : Inv (setPhase s p x) := by
  refine h.of_phase _ s.lh s.buf s.logBlk ((forall_update_iff s.phase _).mpr ⟨?_, fun q _ => ?_⟩) fun _ => rfl
  · rcases hp with hp | hp | hp <;> rcases hx with rfl | rfl <;> simp [Alike, Committer, hp]
  · exact ⟨fun _ => Iff.rfl, Iff.rfl, h.held q⟩

theorem Inv.commitMove (h : Inv s) (hp : s.phase p = .commit pc)
    (pc' : CommitPc) (lh : List Nat) (hcl : Held lh s.batches pc') (buf logBlk : Nat → β) :
    Inv { setPhase s p (.commit pc') with lh := lh, buf := buf, logBlk := logBlk } := by
  have hcm : s.committing = true := h.committer.mpr ⟨p, pc, hp⟩
  refine h.of_phase _ lh buf logBlk ((forall_update_iff s.phase _).mpr ⟨?_, fun q hqp => ?_⟩)
    fun hcf => absurd (hcm.symm.trans hcf) nofun
  · simpa [Alike, Committer, hp] using hcl
  · exact ⟨fun _ => Iff.rfl, Iff.rfl, fun pc1 hq => absurd (h.unique q p ⟨pc1, hq⟩ ⟨pc, hp⟩) hqp⟩

omit [DecidableEq ι] in
theorem Inv.wakeup (h : Inv s) : Inv (wakeup s) := by
  refine h.of_phase _ s.lh s.buf s.logBlk (fun q => ?_) fun _ => rfl
  split
  · next hq => simp [Alike, Committer, hq]
  · exact ⟨fun _ => Iff.rfl, Iff.rfl, h.held q⟩

theorem phase_set {q : ι} {ph x : Phase} : (setPhase s p ph).phase q = x ↔ q = p ∧ ph = x ∨ q ≠ p ∧ s.phase q = x := by
  by_cases hq : q = p <;> simp [setPhase, hq]

theorem Inv.begun (h : Inv s) (hp : s.phase p = .idle ∨ s.phase p = .woken) (hc : s.committing = false) :
    Inv { setPhase s p (.inOp s.nextOp) with
      outstanding := s.outstanding + 1, nextOp := s.nextOp + 1 } := by
  have hpn : ¬ InOp s p := by
    rintro ⟨o, ho⟩
    rcases hp with hp | hp <;> rw [hp] at ho <;> cases ho
  have hnc : ∀ q, ¬ ∃ pc, (setPhase s p (.inOp s.nextOp)).phase q = .commit pc := by
    rintro q ⟨pc, hq⟩
    obtain ⟨-, ⟨⟩⟩ | ⟨-, hq⟩ := phase_set.mp hq
    exact h.not_committer hc q ⟨pc, hq⟩
  obtain ⟨F, hF, hcard⟩ := h.counted
  refine {
    h with
    counted := ?counted
    committer := ⟨fun hcm => absurd (hc.symm.trans hcm) (by simp), fun ⟨q, hq⟩ => absurd hq (hnc q)⟩
    unique := fun q r hq => absurd hq (hnc q)
    quiet := fun hcm => absurd (hc.symm.trans hcm) (by simp)
    drained := fun _ hno => absurd ⟨s.nextOp, update_self ..⟩ (hno p)
    held := fun q pc hq => absurd ⟨pc, hq⟩ (hnc q)
    opLive := ?opLive
    opInj := ?opInj
    endedOld := fun o ho => Nat.lt_succ_of_lt (h.endedOld o ho)
    written := fun o e b hw => ⟨Nat.lt_succ_of_lt (h.written o e b hw).1, (h.written o e b hw).2⟩
    opNow := ?opNow
    pending := ?pending }
  case counted =>
    refine ⟨insert p F, fun q => ?_, ?_⟩
    · by_cases hq : q = p <;> simp [InOp, setPhase, hq, hF]
    · rw [Finset.card_insert_of_notMem fun hm => hpn ((hF p).mp hm)]
      simp only [hcard]
      push_cast
      rfl
  case opLive =>
    intro q o hq
    obtain ⟨-, ⟨⟩⟩ | ⟨-, hq⟩ := phase_set.mp hq
    · exact ⟨Nat.lt_succ_self _, fun hm => absurd (h.endedOld _ hm) (Nat.lt_irrefl _)⟩
    · exact ⟨Nat.lt_succ_of_lt (h.opLive q o hq).1, (h.opLive q o hq).2⟩
  case opInj =>
    -- the new operation has a fresh number
    intro q r o hq hr
    obtain ⟨hqp, ⟨⟩⟩ | ⟨-, hq⟩ := phase_set.mp hq <;> obtain ⟨hrp, hro⟩ | ⟨-, hr⟩ := phase_set.mp hr
    · rw [hqp, hrp]
    · exact absurd (h.opLive r _ hr).1 (Nat.lt_irrefl _)
    · cases hro
      exact absurd (h.opLive q _ hq).1 (Nat.lt_irrefl _)
    · exact h.opInj q r o hq hr
  case opNow =>
    intro q o e b hq hw
    obtain ⟨-, ⟨⟩⟩ | ⟨-, hq⟩ := phase_set.mp hq
    · -- the new operation has not written yet
      exact absurd (h.written _ e b hw).1 (Nat.lt_irrefl _)
    · exact h.opNow q o e b hq hw
  case pending =>
    intro o b hw
    refine (h.pending o b hw).imp_right fun hx => hx.imp_right fun ⟨q, hq⟩ => ⟨q, phase_set.mpr (.inr ⟨?_, hq⟩)⟩
    rintro rfl
    exact hpn ⟨o, hq⟩

omit [DecidableEq ι] in
theorem Inv.not_committing (h : Inv s) (hp : InOp s p) : s.committing = false := by
  cases hc : s.committing with
  | false => rfl
  | true => exact absurd hp (h.quiet hc p)

omit [DecidableEq ι] in
theorem Inv.logged (h : Inv s) (hp : s.phase p = .inOp o) (b : Nat) : Inv { s with
      lh := if b ∈ s.lh then s.lh else s.lh ++ [b]
      writes := (o, s.epoch, b) :: s.writes } := by
  have hc := h.not_committing ⟨o, hp⟩
  have hnew : ∀ {x : Nat × Nat × Nat}, x ∈ (o, s.epoch, b) :: s.writes ↔
      x = (o, s.epoch, b) ∨ x ∈ s.writes := List.mem_cons
  have hold : ∀ e, e < s.epoch → ∀ o' b',
      (o', e, b') ∈ (o, s.epoch, b) :: s.writes ↔ (o', e, b') ∈ s.writes := by
    intro e he o' b'
    rw [hnew]
    simp only [Prod.mk.injEq, or_iff_right_iff_imp]
    omega
  refine {
    h with
    drained := fun _ hno => absurd ⟨o, hp⟩ (hno p)
    held := fun q pc hq => absurd ⟨pc, hq⟩ (h.not_committer hc q)
    written := ?written
    opNow := ?opNow
    oneEpoch := ?oneEpoch
    pending := ?pending
    lhWritten := ?lhWritten
    batch := ?batch
    batchEnded := fun o' e b' hw he => h.batchEnded o' e b' ((hold e he o' b').mp hw) he }
  case written =>
    intro o' e b' hw
    rcases hnew.mp hw with hw | hw
    · simp only [Prod.mk.injEq] at hw
      obtain ⟨rfl, rfl, rfl⟩ := hw
      exact ⟨(h.opLive p _ hp).1, Nat.le_refl _⟩
    · exact h.written o' e b' hw
  case opNow =>
    intro q o' e b' hq hw
    rcases hnew.mp hw with hw | hw
    · simp only [Prod.mk.injEq] at hw
      exact hw.2.1
    · exact h.opNow q o' e b' hq hw
  case oneEpoch =>
    -- an operation still open has only written in the current epoch
    intro o' e b' e' b'' hw hw'
    rcases hnew.mp hw with h1 | h1
    · rcases hnew.mp hw' with h2 | h2
      · simp only [Prod.mk.injEq] at h1 h2
        rw [h1.2.1, h2.2.1]
      · simp only [Prod.mk.injEq] at h1
        rw [h1.1] at h2
        rw [h1.2.1, h.opNow p o e' b'' hp h2]
    · rcases hnew.mp hw' with h2 | h2
      · simp only [Prod.mk.injEq] at h2
        rw [h2.1] at h1
        rw [h2.2.1, h.opNow p o e b' hp h1]
      · exact h.oneEpoch o' e b' e' b'' h1 h2
  case pending =>
    intro o' b' hw
    rcases hnew.mp hw with hw | hw
    · simp only [Prod.mk.injEq] at hw
      obtain ⟨rfl, -, rfl⟩ := hw
      exact ⟨hc, Or.inr ⟨p, hp⟩⟩
    · exact h.pending o' b' hw
  case lhWritten =>
    intro _ b'
    have hmem : b' ∈ (if b ∈ s.lh then s.lh else s.lh ++ [b]) ↔ b' ∈ s.lh ∨ b' = b := by
      split
      · next hb => exact ⟨Or.inl, fun hx => hx.elim id fun he => he ▸ hb⟩
      · simp
    show b' ∈ (if b ∈ s.lh then s.lh else s.lh ++ [b]) ↔ _
    rw [hmem, h.lhWritten hc b']
    constructor
    · rintro (⟨o', hw⟩ | rfl)
      · exact ⟨o', List.mem_cons_of_mem _ hw⟩
      · exact ⟨o, List.mem_cons_self⟩
    · rintro ⟨o', hw⟩
      rcases hnew.mp hw with hw | hw
      · simp only [Prod.mk.injEq] at hw
        exact Or.inr hw.2.2
      · exact Or.inl ⟨o', hw⟩
  case batch =>
    intro e l hl b'
    have he : e < s.epoch := by
      rw [← h.numBatches]
      exact (List.getElem?_eq_some_iff.mp hl).1
    rw [h.batch e l hl b']
    exact exists_congr fun o' => (hold e he o' b').symm

theorem Inv.ended (h : Inv s) (hp : s.phase p = .inOp o) (hout : s.outstanding - 1 ≠ 0) :
    Inv { setPhase s p .idle with outstanding := s.outstanding - 1, ended := o :: s.ended } := by
  have hc := h.not_committing ⟨o, hp⟩
  have hin : ∀ q o', (setPhase s p .idle).phase q = .inOp o' ↔ q ≠ p ∧ s.phase q = .inOp o' := by
    simp [phase_set]
  have hnc : ∀ q, ¬ ∃ pc, (setPhase s p .idle).phase q = .commit pc := by
    rintro q ⟨pc, hq⟩
    obtain ⟨-, ⟨⟩⟩ | ⟨-, hq⟩ := phase_set.mp hq
    exact h.not_committer hc q ⟨pc, hq⟩
  obtain ⟨F, hF, hcard⟩ := h.counted
  have hpF : p ∈ F := (hF p).mpr ⟨o, hp⟩
  have hF' : ∀ q, q ∈ F.erase p ↔ ∃ o', (setPhase s p .idle).phase q = .inOp o' := by
    intro q
    rw [Finset.mem_erase, hF q]
    simp [hin, InOp]
  have hcard' : s.outstanding - 1 = (F.erase p).card := by
    rw [Finset.card_erase_of_mem hpF, hcard]
    have := Finset.card_pos.mpr ⟨p, hpF⟩
    omega
  refine {
    h with
    counted := ⟨F.erase p, hF', hcard'⟩
    committer := ⟨fun hcm => absurd (hc.symm.trans hcm) (by simp), fun ⟨q, hq⟩ => absurd hq (hnc q)⟩
    unique := fun q r hq => absurd hq (hnc q)
    quiet := fun hcm => absurd (hc.symm.trans hcm) (by simp)
    drained := ?drained
    held := fun q pc hq => absurd ⟨pc, hq⟩ (hnc q)
    opLive := ?opLive
    opInj := fun q r o' hq hr => h.opInj q r o' ((hin q o').mp hq).2 ((hin r o').mp hr).2
    endedOld := ?endedOld
    opNow := fun q o' e b hq => h.opNow q o' e b ((hin q o').mp hq).2
    pending := ?pending
    batchEnded := fun o' e b hw he => List.mem_cons_of_mem _ (h.batchEnded o' e b hw he) }
  case drained =>
    -- someone else is still in an operation
    intro _ hno
    refine absurd ?_ hout
    rw [hcard', Finset.card_eq_zero.mpr]
    · rfl
    · rw [Finset.eq_empty_iff_forall_notMem]
      intro q hq
      exact hno q ((hF' q).mp hq)
  case opLive =>
    intro q o' hq
    obtain ⟨hqp, hq'⟩ := (hin q o').mp hq
    have hl := h.opLive q o' hq'
    refine ⟨hl.1, fun hm => ?_⟩
    rcases List.mem_cons.mp hm with rfl | hm
    · exact hqp (h.opInj q p o' hq' hp)
    · exact hl.2 hm
  case endedOld =>
    intro o' ho'
    rcases List.mem_cons.mp ho' with rfl | ho'
    · exact (h.opLive p o' hp).1
    · exact h.endedOld o' ho'
  case pending =>
    intro o' b hw
    obtain ⟨h1, h2⟩ := h.pending o' b hw
    refine ⟨h1, ?_⟩
    rcases h2 with h2 | ⟨q, hq⟩
    · exact Or.inl (List.mem_cons_of_mem _ h2)
    · by_cases hqp : q = p
      · subst hqp
        rw [hp] at hq
        injection hq with hq
        exact Or.inl (by rw [hq]; exact List.mem_cons_self)
      · exact Or.inr ⟨q, (hin q o').mpr ⟨hqp, hq⟩⟩

theorem Inv.lastEnded (h : Inv s) (hp : s.phase p = .inOp o) (hout : s.outstanding - 1 = 0) :
    Inv { setPhase s p (.commit .test) with
      outstanding := s.outstanding - 1
      committing := true
      ended := o :: s.ended
      epoch := s.epoch + 1
      batches := s.batches ++ [s.lh] } := by
  have hc := h.not_committing ⟨o, hp⟩
  obtain ⟨F, hF, hcard⟩ := h.counted
  -- `p` was the only one in an operation
  have honly : ∀ q o', s.phase q = .inOp o' → q = p := by
    intro q o' hq
    have hone : F.card = 1 := by omega
    obtain ⟨x, hx⟩ := Finset.card_eq_one.mp hone
    have h1 := (hF q).mpr ⟨o', hq⟩
    have h2 := (hF p).mpr ⟨o, hp⟩
    rw [hx, Finset.mem_singleton] at h1 h2
    rw [h1, h2]
  have hno : ∀ q, ¬ ∃ o', (setPhase s p (.commit .test)).phase q = .inOp o' := by
    rintro q ⟨o', hq⟩
    obtain ⟨-, ⟨⟩⟩ | ⟨hqp, hq⟩ := phase_set.mp hq
    exact hqp (honly q o' hq)
  have hcom : ∀ q pc, (setPhase s p (.commit .test)).phase q = .commit pc → q = p ∧ pc = .test := by
    intro q pc hq
    obtain ⟨hqp, ⟨⟩⟩ | ⟨-, hq⟩ := phase_set.mp hq
    · exact ⟨hqp, rfl⟩
    · exact absurd ⟨pc, hq⟩ (h.not_committer hc q)
  refine {
    h with
    counted := ⟨∅, fun q => iff_of_false (Finset.notMem_empty q) (hno q), by simpa using hout⟩
    committer := ⟨fun _ => ⟨p, _, update_self ..⟩, fun _ => rfl⟩
    unique := fun q r ⟨_, hq⟩ ⟨_, hr⟩ => (hcom q _ hq).1.trans (hcom r _ hr).1.symm
    quiet := fun _ => hno
    drained := fun hcm => absurd hcm (by simp)
    held := ?held
    opLive := fun q o' hq => absurd ⟨o', hq⟩ (hno q)
    opInj := fun q r o' hq => absurd ⟨o', hq⟩ (hno q)
    endedOld := ?endedOld
    written := fun o' e b hw => ⟨(h.written o' e b hw).1, Nat.le_succ_of_le (h.written o' e b hw).2⟩
    opNow := fun q o' e b hq => absurd ⟨o', hq⟩ (hno q)
    pending := fun o' b hw => absurd (h.written o' _ b hw).2 (Nat.not_succ_le_self _)
    lhWritten := fun hcm => absurd hcm (by simp)
    numBatches := by simp [h.numBatches]
    batch := ?batch
    batchEnded := ?batchEnded }
  case held =>
    intro q pc hq
    rw [(hcom q pc hq).2]
    simp [Held, setPhase]
  case endedOld =>
    intro o' ho'
    rcases List.mem_cons.mp ho' with rfl | ho'
    · exact (h.opLive p o' hp).1
    · exact h.endedOld o' ho'
  case batch =>
    intro e l hl b
    simp only [List.getElem?_append, List.getElem?_singleton, h.numBatches] at hl
    split at hl
    · exact h.batch e l hl b
    · split at hl
      · next h1 h2 =>
        injection hl with hl
        obtain rfl : e = s.epoch := by omega
        rw [← hl]
        exact h.lhWritten hc b
      · cases hl
  case batchEnded =>
    intro o' e b hw he
    rcases Nat.lt_succ_iff_lt_or_eq.mp he with he | he
    · exact List.mem_cons_of_mem _ (h.batchEnded o' e b hw he)
    · subst he
      rcases (h.pending o' b hw).2 with hm | ⟨q, hq⟩
      · exact List.mem_cons_of_mem _ hm
      · obtain rfl := honly q o' hq
        rw [hp] at hq
        injection hq with hq
        rw [hq]
        exact List.mem_cons_self

/-- When the committer is done, nobody commits. -/
theorem Inv.alone (h : Inv s) (hp : s.phase p = .commit pc) (q : ι) :
    ¬ ∃ pc, (setPhase s p .idle).phase q = .commit pc := by
  rintro ⟨pc', hq⟩
  obtain ⟨-, ⟨⟩⟩ | ⟨hqp, hq⟩ := phase_set.mp hq
  exact hqp (h.unique q p ⟨pc', hq⟩ ⟨_, hp⟩)

theorem Inv.finished (h : Inv s) (hp : s.phase p = .commit .finish) :
    Inv { setPhase s p .idle with committing := false } := by
  have hc : s.committing = true := h.committer.mpr ⟨p, _, hp⟩
  have hlh : s.lh = [] := h.held p _ hp
  have hno : ∀ q, ¬ ∃ o, (setPhase s p .idle).phase q = .inOp o := by
    rintro q ⟨o, hq⟩
    obtain ⟨-, ⟨⟩⟩ | ⟨-, hq⟩ := phase_set.mp hq
    exact h.quiet hc q ⟨o, hq⟩
  have hnc := h.alone hp
  -- nothing was written since the commit started
  have hnow : ∀ o b, (o, s.epoch, b) ∉ s.writes := by
    intro o b hw
    exact absurd (hc.symm.trans (h.pending o b hw).1) (by simp)
  obtain ⟨F, hF, hcard⟩ := h.counted
  refine {
    h with
    counted := ⟨F, fun q => ?_, hcard⟩
    committer := ⟨fun hcm => absurd hcm (by simp), fun ⟨q, hq⟩ => absurd hq (hnc q)⟩
    unique := fun q r hq => absurd hq (hnc q)
    quiet := fun hcm => absurd hcm (by simp)
    drained := fun _ _ => hlh
    held := fun q pc hq => absurd ⟨pc, hq⟩ (hnc q)
    opLive := fun q o hq => absurd ⟨o, hq⟩ (hno q)
    opInj := fun q r o hq => absurd ⟨o, hq⟩ (hno q)
    opNow := fun q o e b hq => absurd ⟨o, hq⟩ (hno q)
    pending := fun o b hw => absurd hw (hnow o b)
    lhWritten := fun _ b => ?_ }
  · exact iff_of_false (fun hm => h.quiet hc q ((hF q).mp hm)) (hno q)
  · simp [setPhase, hlh, hnow]

theorem Held.next {lh : List Nat} {batches : List (List Nat)} (h : Held lh batches pc)
    (hpc : pc ≠ .finish) : Held (if pc = .clear then [] else lh) batches (nextPc lh pc) := by
  cases pc with
  | test =>
    rw [if_neg nofun, nextPc]
    split
    · exact h
    · exact List.length_eq_zero_iff.mp (by omega)
  | writeLog _ | install _ =>
    rw [if_neg nofun, nextPc]
    split <;> exact h
  | finish => exact absurd rfl hpc
  | writeHead | eraseHead => exact h
  | clear => rfl

theorem inv_step (h : Inv s) (a : Act ι β) (hs : step lg s a = some s') : Inv s' := by
  cases (step_cases hs).2 with
  | sleep hp _ => exact h.aside (hp.imp_right .inl) (.inl rfl)
  | begun hp hc _ => exact h.begun hp hc
  | modify =>
    exact h.of_phase s.phase s.lh _ s.logBlk (fun q => ⟨fun _ => Iff.rfl, Iff.rfl, h.held q⟩) fun _ => rfl
  | tooBig => exact { h with noPanic := by simp }
  | outside hp hout =>
    -- an open operation is counted in `outstanding`
    obtain ⟨F, hF, hcard⟩ := h.counted
    have := Finset.card_pos.mpr ⟨_, (hF _).mpr ⟨_, hp⟩⟩
    omega
  | logged hp _ => exact h.logged hp _
  | committing hp hc => exact absurd ((h.not_committing ⟨_, hp⟩).symm.trans hc) nofun
  | lastEnded hp hout => exact h.lastEnded hp hout
  | ended hp hout => exact (h.ended hp hout).wakeup
  | turn buf logBlk hp hpc hnext =>
    rw [hnext]
    exact h.commitMove hp _ _ ((h.held _ _ hp).next hpc) buf logBlk
  | finish hp => exact (h.finished hp).wakeup

theorem inv_reachable (h : Reachable lg s) : Inv s := by
  refine h.invariant Inv ?_ fun s a s' hi _ hs => inv_step hi a hs
  rintro s ⟨buf, logBlk, rfl⟩
  exact inv_initial buf logBlk

/-! ## Moves of the control part -/

/-- The fields a step of `commit()` never changes. -/
structure SameHistory (s s' : St ι β) : Prop where
  epoch : s'.epoch = s.epoch
  writes : s'.writes = s.writes
  batches : s'.batches = s.batches

theorem step_commit (hp : s.phase p = .commit pc) (hpc : pc ≠ .finish) (h : step lg s (.commit p) = some s') :
    s'.phase = update s.phase p (.commit (nextPc s.lh pc)) ∧
      s'.lh = (if pc = .clear then [] else s.lh) ∧ s'.committing = s.committing ∧ s'.panic = s.panic ∧
      SameHistory s s' := by
  cases (step_cases h).2 with
  | turn buf logBlk hp' _ hnext =>
    cases hp.symm.trans hp'
    rw [hnext]
    exact ⟨rfl, rfl, rfl, rfl, ⟨rfl, rfl, rfl⟩⟩
  | finish hp' =>
    cases hp.symm.trans hp'
    exact absurd rfl hpc

omit [DecidableEq ι] in
theorem wakeup_commit_iff (s : St ι β) (q : ι) (pc : CommitPc) :
    (wakeup s).phase q = .commit pc ↔ s.phase q = .commit pc := by
  by_cases hq : s.phase q = .asleep
  · simp [wakeup, hq]
  · simp [wakeup, hq]

theorem step_finish (hi : Inv s) (hp : s.phase p = .commit .finish) (h : step lg s (.commit p) = some s') :
    (∀ q, ¬ Committer s' q) ∧ s'.lh = s.lh ∧ s'.committing = false ∧ SameHistory s s' := by
  cases (step_cases h).2 with
  | turn _ _ hp' hpc _ =>
    cases hp.symm.trans hp'
    exact absurd rfl hpc
  | finish _ =>
    exact ⟨fun q ⟨pc, hq⟩ => hi.alone hp q ⟨pc, (wakeup_commit_iff _ q pc).mp hq⟩, rfl, rfl, ⟨rfl, rfl, rfl⟩⟩

theorem step_beginOp (h : step lg s (.beginOp p) = some s') :
    (∀ q pc, s'.phase q = .commit pc → s.phase q = .commit pc) ∧ s'.lh = s.lh ∧
      s'.committing = s.committing ∧ SameHistory s s' := by
  cases (step_cases h).2 with
  | sleep =>
    refine ⟨fun q pc hq => ?_, rfl, rfl, ⟨rfl, rfl, rfl⟩⟩
    obtain ⟨-, ⟨⟩⟩ | ⟨-, hq⟩ := phase_set.mp hq
    exact hq
  | begun =>
    refine ⟨fun q pc hq => ?_, rfl, rfl, ⟨rfl, rfl, rfl⟩⟩
    obtain ⟨-, ⟨⟩⟩ | ⟨-, hq⟩ := phase_set.mp hq
    exact hq

theorem step_endOp (hi : Inv s) (h : step lg s (.endOp p) = some s') :
    s.committing = false ∧ s'.lh = s.lh ∧ s'.writes = s.writes ∧
      ((s'.committing = false ∧ s'.epoch = s.epoch ∧ ∀ q, ¬ Committer s' q) ∨
        (s'.committing = true ∧ s'.epoch = s.epoch + 1 ∧ ∀ q pc, s'.phase q = .commit pc → pc = .test)) := by
  cases (step_cases h).2 with
  | committing hp hc => exact absurd ((hi.not_committing ⟨_, hp⟩).symm.trans hc) nofun
  | lastEnded hp _ =>
    have hc := hi.not_committing ⟨_, hp⟩
    refine ⟨hc, rfl, rfl, Or.inr ⟨rfl, rfl, fun q pc hq => ?_⟩⟩
    obtain ⟨-, ⟨⟩⟩ | ⟨-, hq⟩ := phase_set.mp hq
    · rfl
    · exact absurd ⟨pc, hq⟩ (hi.not_committer hc q)
  | ended hp _ =>
    have hc := hi.not_committing ⟨_, hp⟩
    refine ⟨hc, rfl, rfl, Or.inl ⟨hc, rfl, ?_⟩⟩
    rintro q ⟨pc, hq⟩
    obtain ⟨-, ⟨⟩⟩ | ⟨-, hq⟩ := phase_set.mp ((wakeup_commit_iff _ q pc).mp hq)
    exact hi.not_committer hc q ⟨pc, hq⟩

theorem step_logWrite {b : Nat} (h : step lg s (.logWrite p b) = some s') (hn : s'.panic.isSome = false) :
    s.lh.length < lg.size - 1 ∧ InOp s p ∧ s'.phase = s.phase ∧ s'.committing = s.committing ∧
      s'.epoch = s.epoch ∧ s'.lh = (if b ∈ s.lh then s.lh else s.lh ++ [b]) ∧
      ∃ o, s'.writes = (o, s.epoch, b) :: s.writes := by
  cases (step_cases h).2 with
  | tooBig => cases hn
  | outside => cases hn
  | logged hp hroom => exact ⟨hroom, ⟨_, hp⟩, rfl, rfl, rfl, rfl, _, rfl⟩

theorem step_logWrite_panic {b : Nat}
    (h : step lg s (.logWrite p b) = some s') (hn : s'.panic.isSome = true) : ∃ pn, s' = { s with panic := pn } := by
  obtain ⟨h0, he⟩ := step_cases h
  cases he with
  | tooBig => exact ⟨_, rfl⟩
  | outside => exact ⟨_, rfl⟩
  | logged =>
    rw [show _ = none from h0] at hn
    cases hn

/-! ## Isolation -/

theorem committing_frame (h : Inv s) (hc : s.committing = true)
    (a : Act ι β) (hs : step lg s a = some s') (ha : ¬ Committer s a.actor) : s'.lh = s.lh ∧ s'.buf = s.buf := by
  have hno := h.quiet hc
  cases (step_cases hs).2 with
  | sleep => exact ⟨rfl, rfl⟩
  | begun _ hc' => exact absurd (hc.symm.trans hc') nofun
  | modify hp | tooBig hp | outside hp | logged hp | committing hp | lastEnded hp | ended hp =>
    exact absurd ⟨_, hp⟩ (hno _)
  | turn _ _ hp | finish hp => exact absurd ⟨_, hp⟩ ha

/-- **Transaction isolation.**  In every reachable state: while `log.committing`
is set nobody is inside an operation, and only the committer's steps change the
header or a buffer; all `log_write`s of an operation belong to one commit, which
starts after every operation in it has called `end_op`, holds all their blocks
and no others, and has started once no operation is open; and the two panics
never happen. -/
theorem transactions_isolated (lg : Geometry) (s : St ι β) (h : Reachable lg s) :
    (s.committing = true → ∀ p, ¬ InOp s p) ∧
    (∀ a s', step lg s a = some s' → s.committing = true → ¬ Committer s a.actor →
      s'.lh = s.lh ∧ s'.buf = s.buf) ∧
    (∀ p pc, s.phase p = .commit pc → Held s.lh s.batches pc) ∧
    (∀ o e b e' b', (o, e, b) ∈ s.writes → (o, e', b') ∈ s.writes → e = e') ∧
    (∀ o e b, (o, e, b) ∈ s.writes → (∀ p, ¬ InOp s p) → e < s.batches.length) ∧
    (∀ e l, s.batches[e]? = some l →
      (∀ b, b ∈ l ↔ ∃ o, (o, e, b) ∈ s.writes) ∧ ∀ o b, (o, e, b) ∈ s.writes → o ∈ s.ended) ∧
    s.panic ≠ some .committing ∧ s.panic ≠ some .outsideTrans := by
  have hi := inv_reachable h
  refine ⟨hi.quiet, fun a s' hs hc ha => committing_frame hi hc a hs ha, hi.held, hi.oneEpoch, ?_, ?_,
    hi.noPanic.1, hi.noPanic.2⟩
  · intro o e b hw hno
    rw [hi.numBatches]
    rcases Nat.lt_or_eq_of_le (hi.written o e b hw).2 with he | rfl
    · exact he
    · -- a write not yet in a commit: the header would not be empty
      have hc := (hi.pending o b hw).1
      have := (hi.lhWritten hc b).mpr ⟨o, hw⟩
      rw [hi.drained hc hno] at this
      cases this
  · intro e l hl
    have he : e < s.epoch := by
      rw [← hi.numBatches]
      exact (List.getElem?_eq_some_iff.mp hl).1
    exact ⟨hi.batch e l hl, fun o b hw => hi.batchEnded o e b hw he⟩

end

/-- Two operations overlap; the second to end commits the block of the first. -/
theorem transactions_isolated_two_ops :
    ∃ s : St (Fin 2) Nat, Reachable mkfsLog s ∧ s.committing = true ∧ (0, 0, 50) ∈ s.writes ∧
      s.batches[0]? = some [50] ∧ (∀ p, ¬ InOp s p) ∧ 0 ∈ s.ended := by
  let acts : List (Act (Fin 2) Nat) :=
    [.beginOp 0, .beginOp 1, .modify 0 50 7, .logWrite 0 50, .endOp 0, .endOp 1, .commit 1]
  let r := Run.run (step mkfsLog) (initial (fun _ => 0) fun _ => 0) acts
  have hr : Reachable mkfsLog (r.get rfl) :=
    Run.Reach.of_run (fun _ _ => trivial) acts (.start ⟨_, _, rfl⟩) (Option.some_get _).symm
  have h := transactions_isolated mkfsLog _ hr
  exact ⟨r.get rfl, hr, rfl, by decide, rfl, h.1 rfl, (h.2.2.2.2.2.1 0 [50] rfl).2 0 50 (by decide)⟩

end Xv6.Log.Isolation
