import Xv6.Log.Commit

/-!
# Crash atomicity of the log

`commit` issues its `bwrite`s in four groups: the log blocks, the header (the
commit point), the home blocks, the cleared header.  Cut it anywhere, then cut
any number of recoveries anywhere: the disk is in one of two kinds of state.

* `CleanAt d0 d`: the header says `n = 0` and the home blocks are those of `d0`.
* `CommittedAt lh new d0 d`: the header lists `lh`, the log blocks hold the new
  contents, and each home block is old or new.

Every prefix of a recovery keeps the first kind, and takes the second to
itself or to `CleanAt` of the disk with the whole transaction installed
(`recover_cut_clean`, `recover_cut_committed`); a whole recovery ends in
`CleanAt` (`recover_clean`, `recover_committed`).
-/

namespace Xv6.Log

open Store

/-- The two disks agree on every block outside the log area. -/
def HomeEq (lg : Geometry) (d d' : Disk) : Prop := ∀ b, ¬ InLog lg b → d b = d' b

/-- The disk with every logged block replaced by its cached content. -/
def installed (s : State) : Disk := fun b => if b ∈ s.lh then bread s b else s.disk b

/-- The disk a crash leaves when `commit` is cut after `k` of its `bwrite`s. -/
def crashed (lg : Geometry) (s : State) (k : Nat) : Disk :=
  applyWrites s.disk ((commit lg s).trace.take k)

/-- The first `write_head` is among the first `k` `bwrite`s of `commit`. -/
def HeadReached (lg : Geometry) (s : State) (k : Nat) : Prop :=
  ∃ w ∈ (commit lg s).trace.take k, w.1 = lg.start

instance (lg : Geometry) (s : State) (k : Nat) : Decidable (HeadReached lg s k) :=
  inferInstanceAs (Decidable (∃ w ∈ _, _ = _))

/-- The disk a recovery that runs to completion leaves. -/
def recovered (lg : Geometry) (d : Disk) : Disk := (recoverFromLog lg (boot d)).disk

/-! ## The two kinds of disk -/

def CleanAt (lg : Geometry) (d0 d : Disk) : Prop := headN (d lg.start) = 0 ∧ HomeEq lg d d0

structure CommittedAt (lg : Geometry) (lh : List Nat) (new : Nat → Block) (d0 d : Disk) : Prop where
  head : decodeHead (d lg.start) = lh
  logged : ∀ i (hi : i < lh.length), d (lg.start + 1 + i) = new lh[i]
  other : ∀ b, ¬ InLog lg b → b ∉ lh → d b = d0 b

theorem headN_encodeHead_nil (hb : Block) : headN (encodeHead [] hb) = 0 :=
  headN_encodeHead [] hb (by simp)

variable {lg : Geometry} {lh : List Nat} {new : Nat → Block} {d0 d : Disk}

theorem not_inLog_start_ne {b : Nat} (hb : ¬ InLog lg b) : b ≠ lg.start := by
  intro he
  have := lg.size_pos
  exact hb ⟨by omega, by omega⟩

theorem not_inLog_notMem_logWrites (hfit : lh.length + 1 ≤ lg.size) (new : Nat → Block) {b : Nat} (hb : ¬ InLog lg b) :
    ∀ w ∈ logWrites lg new 0 lh, w.1 ≠ b := by
  intro w hw he
  have := mem_logWrites hw
  exact hb ⟨by omega, by omega⟩

theorem cleanAt_clear (h : HomeEq lg d d0)
    (hb : Block) : CleanAt lg d0 (applyWrites d [(lg.start, encodeHead [] hb)]) := by
  refine ⟨by simp [headN_encodeHead_nil], ?_⟩
  intro b hb'
  rw [applyWrites_of_notMem _ _ _ (by simpa using (not_inLog_start_ne hb').symm)]
  exact h b hb'

theorem committedAt_install
    (hok : HeadOK lg lh) (hfit : lh.length + 1 ≤ lg.size) (h : CommittedAt lg lh new d0 d) (j : Nat) :
    CommittedAt lg lh new d0 (applyWrites d ((installWrites new lh).take j)) := by
  have hmem : ∀ w ∈ (installWrites new lh).take j, w.1 ∈ lh := by
    intro w hw
    obtain ⟨b, hb, rfl⟩ := List.mem_map.mp (List.mem_of_mem_take hw)
    exact hb
  have hin : ∀ x, InLog lg x → ∀ w ∈ (installWrites new lh).take j, w.1 ≠ x := by
    intro x hx w hw he
    exact hok.home w.1 (hmem w hw) (by rw [he]; exact hx)
  refine ⟨?_, ?_, ?_⟩
  · rw [applyWrites_of_notMem _ _ _ (hin lg.start ⟨by omega, by omega⟩)]
    exact h.head
  · intro i hi
    rw [applyWrites_of_notMem _ _ _ (hin (lg.start + 1 + i) ⟨by omega, by omega⟩)]
    exact h.logged i hi
  · intro b hb hnb
    rw [applyWrites_of_notMem]
    · exact h.other b hb hnb
    · intro w hw he
      exact hnb (he ▸ hmem w hw)

theorem homeEq_install (h : CommittedAt lg lh new d0 d) :
    HomeEq lg (applyWrites d (installWrites new lh)) (fun b => if b ∈ lh then new b else d0 b) := by
  intro b hb
  by_cases hm : b ∈ lh
  · simp only [if_pos hm]
    apply applyWrites_of_mem _ new
    · intro w hw
      obtain ⟨c, _, rfl⟩ := List.mem_map.mp hw
      rfl
    · exact ⟨(b, new b), List.mem_map.mpr ⟨b, hm, rfl⟩, rfl⟩
  · simp only [if_neg hm]
    rw [applyWrites_of_notMem]
    · exact h.other b hb hm
    · intro w hw he
      obtain ⟨c, hc, rfl⟩ := List.mem_map.mp hw
      exact hm (he ▸ hc)

/-! ## Recovery -/

theorem decodeHead_of_headN_zero {hb : Block} (h : headN hb = 0) : decodeHead hb = [] := by
  simp [decodeHead, h]

theorem recoverFromLog_wrote {ws : List (Nat × Block)}
    (h : Wrote (readHead lg (boot d)) ws (installTrans lg (readHead lg (boot d)))) :
    recoverWrites lg d = ws ++ [(lg.start, encodeHead [] (applyWrites d ws lg.start))] ∧
      recovered lg d = applyWrites d (recoverWrites lg d) := by
  have hw := writeHead_wrote lg (clearLh (installTrans lg (readHead lg (boot d))))
  rw [clearLh_lh, clearLh_bread, h.bread] at hw
  have ht : recoverWrites lg d = ws ++ [(lg.start, encodeHead [] (applyWrites d ws lg.start))] := by
    rw [recoverWrites, recoverFromLog, hw.trace, clearLh_trace, h.trace]
    rfl
  refine ⟨ht, ?_⟩
  rw [recovered, recoverFromLog, hw.disk, clearLh_disk, h.disk, ht, applyWrites_append]
  rfl

theorem recoverWrites_clean (h : CleanAt lg d0 d) : recoverWrites lg d = [(lg.start, encodeHead [] (d lg.start))] ∧
      recovered lg d = applyWrites d (recoverWrites lg d) := by
  have hlh : (readHead lg (boot d)).lh = [] := decodeHead_of_headN_zero h.1
  have hi : installTrans lg (readHead lg (boot d)) = readHead lg (boot d) := by
    rw [installTrans, hlh]
    rfl
  have hw : Wrote (readHead lg (boot d)) [] (installTrans lg (readHead lg (boot d))) := by
    rw [hi]
    exact Wrote.refl _
  exact recoverFromLog_wrote hw

theorem recoverWrites_committed (hok : HeadOK lg lh) (hfit : lh.length + 1 ≤ lg.size) (h : CommittedAt lg lh new d0 d) :
    recoverWrites lg d = installWrites new lh ++
        [(lg.start, encodeHead [] (applyWrites d (installWrites new lh) lg.start))] ∧
      recovered lg d = applyWrites d (recoverWrites lg d) := by
  have hlh : (readHead lg (boot d)).lh = lh := h.head
  apply recoverFromLog_wrote
  rw [installTrans, hlh]
  apply installTransFrom_wrote lg new lh 0 _ hok.home (by omega)
  intro i hi
  exact h.logged i hi

theorem recover_cut_clean (h : CleanAt lg d0 d)
    (k : Nat) : CleanAt lg d0 (applyWrites d ((recoverWrites lg d).take k)) := by
  rw [(recoverWrites_clean h).1]
  cases k with
  | zero => exact h
  | succ k =>
    rw [List.take_succ_cons, List.take_nil]
    exact cleanAt_clear h.2 _

/-- A recovery of a committed disk, cut: still committed, or fully installed. -/
theorem recover_cut_committed
    (hok : HeadOK lg lh) (hfit : lh.length + 1 ≤ lg.size) (h : CommittedAt lg lh new d0 d) (k : Nat) :
    CommittedAt lg lh new d0 (applyWrites d ((recoverWrites lg d).take k)) ∨
      CleanAt lg (fun b => if b ∈ lh then new b else d0 b)
        (applyWrites d ((recoverWrites lg d).take k)) := by
  rw [(recoverWrites_committed hok hfit h).1]
  by_cases hk : k ≤ (installWrites new lh).length
  · left
    rw [List.take_append_of_le_length hk]
    exact committedAt_install hok hfit h k
  · right
    rw [List.take_of_length_le (by simp; omega), applyWrites_append]
    exact cleanAt_clear (homeEq_install h) _

theorem recover_clean (h : CleanAt lg d0 d) : CleanAt lg d0 (recovered lg d) := by
  rw [(recoverWrites_clean h).2, ← List.take_length (l := recoverWrites lg d)]
  exact recover_cut_clean h _

theorem recover_committed (hok : HeadOK lg lh) (hfit : lh.length + 1 ≤ lg.size) (h : CommittedAt lg lh new d0 d) :
    CleanAt lg (fun b => if b ∈ lh then new b else d0 b) (recovered lg d) := by
  obtain ⟨h1, h2⟩ := recoverWrites_committed hok hfit h
  rw [h2, h1, applyWrites_append]
  exact cleanAt_clear (homeEq_install h) _

theorem reboots_clean {d' : Disk} (h : CleanAt lg d0 d)
    (hr : Reboots (recoverWrites lg) d d') : CleanAt lg d0 (recovered lg d') :=
  recover_clean (hr.invariant (CleanAt lg d0) (fun _ k hd => recover_cut_clean hd k) h)

theorem reboots_committed {d' : Disk}
    (hok : HeadOK lg lh) (hfit : lh.length + 1 ≤ lg.size) (h : CommittedAt lg lh new d0 d)
    (hr : Reboots (recoverWrites lg) d d') :
    CleanAt lg (fun b => if b ∈ lh then new b else d0 b) (recovered lg d') := by
  have hinv := hr.invariant
    (fun e => CommittedAt lg lh new d0 e ∨ CleanAt lg (fun b => if b ∈ lh then new b else d0 b) e)
    (fun e k he => by
      rcases he with he | he
      · exact recover_cut_committed hok hfit he k
      · exact Or.inr (recover_cut_clean he k)) (Or.inl h)
  rcases hinv with he | he
  · exact recover_committed hok hfit he
  · exact recover_clean he

/-! ## Commit -/

theorem commit_trace {s : State} (hok : HeadOK lg s.lh) (ht : s.trace = []) (hn : 0 < s.lh.length) :
    ∃ h0 h1, (commit lg s).trace = logWrites lg (bread s) 0 s.lh ++
      (lg.start, encodeHead s.lh h0) :: (installWrites (bread s) s.lh ++ [(lg.start, encodeHead [] h1)]) := by
  have hfit : s.lh.length + 1 ≤ lg.size := by have := hok.fits; omega
  have h1 : Wrote s _ (writeLog lg s) :=
    writeLogFrom_wrote lg (bread s) s.lh 0 s hok.home (by omega) fun b _ => rfl
  have h2 := h1.trans (writeHead_wrote lg (writeLog lg s))
  rw [h1.lh] at h2
  have h3 : Wrote (writeHead lg (writeLog lg s)) (installWrites (bread s) s.lh)
      (installTrans lg (writeHead lg (writeLog lg s))) := by
    rw [installTrans, h2.lh]
    apply installTransFrom_wrote lg (bread s) s.lh 0 _ hok.home (by omega)
    intro i hi
    -- the header write leaves the log blocks as `write_log` left them
    rw [h2.bread, applyWrites_append, applyWrites_of_notMem _ [_] _ (by simp; omega)]
    exact logWrites_getElem lg (bread s) (bread s) 0 s.lh i hi
  have h4 := writeHead_wrote lg (clearLh (installTrans lg (writeHead lg (writeLog lg s))))
  refine ⟨bread (writeLog lg s) lg.start,
    bread (clearLh (installTrans lg (writeHead lg (writeLog lg s)))) lg.start, ?_⟩
  rw [commit, if_pos hn, h4.trace, clearLh_trace, clearLh_lh, h3.trace, h2.trace, ht]
  simp only [List.nil_append, List.append_assoc, List.cons_append]

theorem committedAt_head (hok : HeadOK lg lh) (hfit : lh.length + 1 ≤ lg.size) (h0 : Block) : CommittedAt lg lh new d0
      (applyWrites (applyWrites d0 (logWrites lg new 0 lh)) [(lg.start, encodeHead lh h0)]) := by
  refine ⟨?_, ?_, ?_⟩
  · simp only [applyWrites_cons, applyWrites_nil, Function.update_self]
    exact decodeHead_encodeHead lh h0 hok.word hok.le_logsize
  · intro i hi
    rw [applyWrites_of_notMem _ [_] _ (by simp; omega)]
    exact logWrites_getElem lg new d0 0 lh i hi
  · intro b hb _
    rw [applyWrites_of_notMem _ [_] _ (by simpa using (not_inLog_start_ne hb).symm),
      applyWrites_of_notMem _ _ _ (not_inLog_notMem_logWrites hfit new hb)]

/-- The disk a cut of `commit` leaves: clean and unchanged before the first
`write_head`, committed or clean with the transaction installed after it. -/
theorem crashed_cases {s : State} (hclean : headN (s.disk lg.start) = 0)
    (hok : HeadOK lg s.lh) (ht : s.trace = []) (hn : 0 < s.lh.length) (k : Nat) :
    (¬ HeadReached lg s k ∧ CleanAt lg s.disk (crashed lg s k)) ∨
      (HeadReached lg s k ∧ (CommittedAt lg s.lh (bread s) s.disk (crashed lg s k) ∨
        CleanAt lg (installed s) (crashed lg s k))) := by
  have hfit : s.lh.length + 1 ≤ lg.size := by have := hok.fits; omega
  obtain ⟨h0, h1, htr⟩ := commit_trace hok ht hn
  have hlen : (logWrites lg (bread s) 0 s.lh).length = s.lh.length := logWrites_length ..
  unfold HeadReached crashed
  rw [htr]
  by_cases hk : k ≤ s.lh.length
  · -- the cut came while the log blocks were being written
    left
    rw [List.take_append_of_le_length (by omega)]
    have hout : ∀ w ∈ (logWrites lg (bread s) 0 s.lh).take k, w.1 ≠ lg.start := by
      intro w hw
      have := mem_logWrites (List.mem_of_mem_take hw)
      omega
    refine ⟨?_, ?_, ?_⟩
    · rintro ⟨w, hw, he⟩
      exact hout w hw he
    · rw [applyWrites_of_notMem _ _ _ hout]
      exact hclean
    · intro b hb
      exact applyWrites_of_notMem _ _ _ fun w hw =>
        not_inLog_notMem_logWrites hfit (bread s) hb w (List.mem_of_mem_take hw)
  · right
    obtain ⟨j, rfl⟩ : ∃ j, k = (logWrites lg (bread s) 0 s.lh).length + (j + 1) :=
      ⟨k - s.lh.length - 1, by omega⟩
    rw [List.take_length_add_append, List.take_succ_cons]
    refine ⟨⟨_, List.mem_append_right _ List.mem_cons_self, rfl⟩, ?_⟩
    have hcom : CommittedAt lg s.lh (bread s) s.disk _ := committedAt_head hok hfit h0
    rw [show ∀ (x : Nat × Block) l, x :: l = [x] ++ l from fun _ _ => rfl, applyWrites_append,
      applyWrites_append]
    by_cases hj : j ≤ (installWrites (bread s) s.lh).length
    · -- the cut came while the home blocks were being written
      left
      rw [List.take_append_of_le_length hj]
      exact committedAt_install hok hfit hcom j
    · right
      rw [List.take_of_length_le (by simp; omega), applyWrites_append]
      exact cleanAt_clear (homeEq_install hcom) _

/-- What recovery leaves after a cut of `commit`: the transaction, exactly if its header was written. -/
theorem recovered_cases {s : State} (hclean : headN (s.disk lg.start) = 0) (hok : HeadOK lg s.lh) (ht : s.trace = [])
    {k : Nat} {d : Disk} (hre : Reboots (recoverWrites lg) (crashed lg s k) d) :
    (¬ HeadReached lg s k ∧ CleanAt lg s.disk (recovered lg d)) ∨
      (HeadReached lg s k ∧ CleanAt lg (installed s) (recovered lg d)) := by
  rcases Nat.eq_zero_or_pos s.lh.length with hn | hn
  · -- `commit` writes nothing
    have hnil : (commit lg s).trace.take k = [] := by rw [commit, if_neg (by omega), ht, List.take_nil]
    refine .inl ⟨?_, reboots_clean ?_ hre⟩
    · rintro ⟨w, hw, _⟩
      rw [hnil] at hw
      cases hw
    · rw [crashed, hnil]
      exact ⟨hclean, fun b _ => rfl⟩
  · have hfit : s.lh.length + 1 ≤ lg.size := by have := hok.fits; omega
    rcases crashed_cases hclean hok ht hn k with ⟨h1, h2⟩ | ⟨h1, h2 | h2⟩
    · exact .inl ⟨h1, reboots_clean h2 hre⟩
    · exact .inr ⟨h1, reboots_committed hok hfit h2 hre⟩
    · exact .inr ⟨h1, reboots_clean h2 hre⟩

/-- **Crash atomicity.**  From a disk whose header says `n = 0` and any header
`log_write` can build, cut `commit` after `k` of its writes, reboot any number of
times with the recovery cut anywhere, then let one recovery finish: the header
says `n = 0` again and the home blocks are those before the transaction or those
after it, the latter exactly when the first `write_head` reached the disk. -/
theorem commit_crash_atomic (lg : Geometry) (D : Disk) (cache : Nat → Option Block) (lh : List Nat)
    (hclean : headN (D lg.start) = 0) (hlh : Built lg lh) (k : Nat) (d : Disk)
    (hre : Reboots (recoverWrites lg) (crashed lg (enterCommit D cache lh) k) d) : headN (recovered lg d lg.start) = 0 ∧
      (HomeEq lg (recovered lg d) D ∨ HomeEq lg (recovered lg d) (installed (enterCommit D cache lh))) ∧
      (HeadReached lg (enterCommit D cache lh) k →
        HomeEq lg (recovered lg d) (installed (enterCommit D cache lh))) ∧
      (¬ HeadReached lg (enterCommit D cache lh) k → HomeEq lg (recovered lg d) D) ∧
      (¬ HomeEq lg (installed (enterCommit D cache lh)) D →
        (HomeEq lg (recovered lg d) (installed (enterCommit D cache lh)) ↔
          HeadReached lg (enterCommit D cache lh) k)) := by
  generalize hs : enterCommit D cache lh = s at hre ⊢
  have ht : s.trace = [] := by rw [← hs]; rfl
  obtain ⟨rfl, rfl⟩ : D = s.disk ∧ lh = s.lh := by rw [← hs]; exact ⟨rfl, rfl⟩
  rcases recovered_cases hclean hlh.headOK ht hre with ⟨hr, hc⟩ | ⟨hr, hc⟩
  · refine ⟨hc.1, Or.inl hc.2, fun h => absurd h hr, fun _ => hc.2, fun hne => ?_⟩
    refine ⟨fun h => absurd (fun b hb => ?_) hne, fun h => absurd h hr⟩
    rw [← h b hb, hc.2 b hb]
  · exact ⟨hc.1, Or.inr hc.2, fun _ => hc.2, fun h => absurd hr h, fun _ => ⟨fun _ => hr, fun _ => hc.2⟩⟩

theorem built_pair : Built mkfsLog [50, 51] := ⟨[50, 51], by simp [InLog, mkfsLog, LOGSIZE, MAXOPBLOCKS], by decide⟩

/-- A transaction of two blocks, cut between their installs, with one recovery cut after its first write: the disk had
one of the two blocks, and has both in the end. -/
theorem commit_crash_atomic_two_blocks :
    let s := enterCommit (fun _ _ => 0) (fun _ => some fun _ => 7) [50, 51]
    let d := applyWrites (crashed mkfsLog s 4) ((recoverWrites mkfsLog (crashed mkfsLog s 4)).take 1)
    (crashed mkfsLog s 4 50 0, crashed mkfsLog s 4 51 0) = (7, 0) ∧ headN (recovered mkfsLog d mkfsLog.start) = 0 ∧
      (recovered mkfsLog d 50 0, recovered mkfsLog d 51 0) = (7, 7) := by
  intro s d
  have hr : Reboots (recoverWrites mkfsLog) (crashed mkfsLog s 4) d := Reboots.cut 1 Reboots.refl
  obtain ⟨hhead, -, hkept, -⟩ := commit_crash_atomic mkfsLog (fun _ _ => 0) _ [50, 51] (by decide) built_pair 4 d hr
  have hhome := hkept (by decide +kernel)
  refine ⟨by decide +kernel, hhead, ?_⟩
  rw [hhome 50 (by simp [InLog, mkfsLog, LOGSIZE, MAXOPBLOCKS]), hhome 51
    (by simp [InLog, mkfsLog, LOGSIZE, MAXOPBLOCKS])]
  rfl

end Xv6.Log
