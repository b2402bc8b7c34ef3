import Xv6.Log.Crash

/-!
# Histories of commits and crashes

`Xv6.Log.Crash` is about one commit.  Here commits follow each other.  Each runs to its end, or
is cut anywhere by a crash and followed by recoveries, of which only the last is not cut.  The
disk then holds the transactions whose header was written, in their order, and nothing of the
others (`history_durable`).
-/

namespace Xv6.Log

open Store

/-- A transaction: its blocks, and their new contents. -/
structure Tx where
  blocks : List Nat
  data : Nat → Block

def Tx.apply (d : Disk) (t : Tx) : Disk := fun b => if b ∈ t.blocks then t.data b else d b

/-- The transaction that `commit` finds. -/
def State.tx (s : State) : Tx := ⟨s.lh, bread s⟩

/-- The disks that commits from `d0` on leave, with the transactions whose header was written. -/
inductive History (lg : Geometry) (d0 : Disk) : Disk → List Tx → Prop
  | start : History lg d0 d0 []
  /-- All writes of the commit reach the disk. -/
  | commit {ts : List Tx} {s : State} : History lg d0 s.disk ts → Built lg s.lh → s.trace = [] →
      History lg d0 (crashed lg s (commit lg s).trace.length) (ts ++ [s.tx])
  | lost {ts : List Tx} {s : State} {k : Nat} {d : Disk} : History lg d0 s.disk ts → Built lg s.lh → s.trace = [] →
      Reboots (recoverWrites lg) (crashed lg s k) d → ¬ HeadReached lg s k → History lg d0 (recovered lg d) ts
  | kept {ts : List Tx} {s : State} {k : Nat} {d : Disk} : History lg d0 s.disk ts → Built lg s.lh → s.trace = [] →
      Reboots (recoverWrites lg) (crashed lg s k) d → HeadReached lg s k →
      History lg d0 (recovered lg d) (ts ++ [s.tx])

variable {lg : Geometry} {d d0 : Disk} {s : State}

theorem CleanAt.tx (h : HomeEq lg s.disk d0) (hc : CleanAt lg (installed s) d) : CleanAt lg (s.tx.apply d0) d := by
  refine ⟨hc.1, fun b hb => (hc.2 b hb).trans ?_⟩
  show (if b ∈ s.lh then bread s b else s.disk b) = if b ∈ s.lh then bread s b else d0 b
  rw [h b hb]

section
variable (hclean : headN (s.disk lg.start) = 0) (hok : HeadOK lg s.lh) (ht : s.trace = [])
include hclean hok ht

theorem commit_clean : CleanAt lg (installed s) (crashed lg s (commit lg s).trace.length) := by
  rw [crashed, List.take_length]
  rcases Nat.eq_zero_or_pos s.lh.length with hn | hn
  · have hnil : s.lh = [] := List.eq_nil_of_length_eq_zero hn
    rw [commit, if_neg (by omega), ht]
    exact ⟨hclean, fun b _ => by simp [installed, hnil]⟩
  · have hfit : s.lh.length + 1 ≤ lg.size := by have := hok.fits; omega
    obtain ⟨h0, h1, htr⟩ := commit_trace hok ht hn
    rw [htr, applyWrites_append, ← List.singleton_append, applyWrites_append, applyWrites_append]
    exact cleanAt_clear (homeEq_install (committedAt_head hok hfit h0)) h1

end

/-- After every history of commits and crashes the log is empty, and the disk holds exactly the
transactions whose header was written, one after the other. -/
theorem history_durable {lg : Geometry} {d0 d : Disk} {ts : List Tx} (hclean : headN (d0 lg.start) = 0)
    (h : History lg d0 d ts) : headN (d lg.start) = 0 ∧ HomeEq lg d (ts.foldl Tx.apply d0) := by
  show CleanAt lg _ d
  induction h with
  | start => exact ⟨hclean, fun b _ => rfl⟩
  | commit _ hlh ht ih =>
    rw [List.foldl_append]
    exact CleanAt.tx ih.2 (commit_clean ih.1 hlh.headOK ht)
  | lost _ hlh ht hre hn ih =>
    rcases recovered_cases ih.1 hlh.headOK ht hre with ⟨_, hc⟩ | ⟨hr, _⟩
    · exact ⟨hc.1, fun b hb => (hc.2 b hb).trans (ih.2 b hb)⟩
    · exact absurd hr hn
  | kept _ hlh ht hre hr ih =>
    rw [List.foldl_append]
    rcases recovered_cases ih.1 hlh.headOK ht hre with ⟨hn, _⟩ | ⟨_, hc⟩
    · exact absurd hr hn
    · exact CleanAt.tx ih.2 hc

/-- Blocks 50 and 51 get the content 7.  A commit of 8 is cut between the two installs, and is kept; one of 9 is cut
before its header, and is lost. -/
theorem history_durable_crashes : ∃ d ts, History mkfsLog (fun _ _ => 0) d ts ∧ ts.length = 2 ∧
    d 50 = (fun _ => 8) ∧ d 51 = fun _ => 8 := by
  have h1 := History.commit (s := enterCommit (fun _ _ => 0) (fun _ => some fun _ => 7) [50, 51]) .start built_pair rfl
  have h2 := History.kept (s := enterCommit _ (fun _ => some fun _ => 8) [50, 51]) (k := 4) h1 built_pair rfl .refl
    (by decide +kernel)
  have h3 := History.lost (s := enterCommit _ (fun _ => some fun _ => 9) [50, 51]) (k := 1) h2 built_pair rfl .refl
    (by decide +kernel)
  have hd := (history_durable (by decide) h3).2
  exact ⟨_, _, h3, rfl, (hd 50 (by simp [InLog, mkfsLog, LOGSIZE, MAXOPBLOCKS])).trans rfl,
    (hd 51 (by simp [InLog, mkfsLog, LOGSIZE, MAXOPBLOCKS])).trans rfl⟩

end Xv6.Log
