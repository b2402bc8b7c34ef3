import Xv6.Param
import Xv6.Lib.Writes

/-!
# The log, one thread: `commit` and `recover_from_log`

`kernel/log.c` as seen by the disk.  `State` holds the disk, the buffer cache,
the in-memory header `log.lh` and the list of `bwrite`s issued so far; each
function is the C function run to its end, and a crash is a prefix of `trace`
(`Xv6.Log.Crash`).  The header block is laid out as in the source: `n` in the
first four bytes, `block[i]` in the four bytes at `4 + 4 * i`.

`lh` is the list `log.lh.block[0 .. log.lh.n)`.  Reference counts (`bpin`,
`bunpin`, `brelse`) do not show on the disk; they are in `Xv6.Log.BufCache`.
-/

namespace Xv6.Log

open Store

/-- `log.start` and `log.size`, set once by `initlog`; the header is the first
block of the log area. -/
structure Geometry where
  start : Nat
  size : Nat
  size_pos : 0 < size

/-- The log area of an image built by `mkfs`. -/
def mkfsLog : Geometry := ⟨2, LOGSIZE, by decide⟩

/-- `b` is the header block or one of the log blocks. -/
def InLog (lg : Geometry) (b : Nat) : Prop := lg.start ≤ b ∧ b < lg.start + lg.size

structure State where
  disk : Disk
  /-- The valid buffers. -/
  cache : Nat → Option Block
  lh : List Nat
  /-- The `bwrite`s so far, oldest first. -/
  trace : List (Nat × Block)

/-- The data of the buffer `bread(log.dev, b)` returns. -/
def bread (s : State) (b : Nat) : Block := (s.cache b).getD (s.disk b)

/-- Fill the buffer of block `b` with `data` and `bwrite` it. -/
def bwrite (s : State) (b : Nat) (data : Block) : State :=
  { s with
    disk := Function.update s.disk b data
    cache := Function.update s.cache b (some data)
    trace := s.trace ++ [(b, data)] }

/-! ## The header block -/

def putBlocks (hb : Block) (i : Nat) : List Nat → Block
  | [] => hb
  | b :: bs => putBlocks (Bytes.putLE hb (4 + 4 * i) 4 b) (i + 1) bs

/-- `write_head`'s stores into the header buffer: `n`, then `block[0 .. n)`. -/
def encodeHead (lh : List Nat) (hb : Block) : Block :=
  putBlocks (Bytes.putLE hb 0 4 lh.length) 0 lh

/-- The header's `n`, a C `int`. -/
def headN (hb : Block) : Int := toInt32 (Bytes.getLE hb 0 4)

def headBlock (hb : Block) (i : Nat) : Nat := Bytes.getLE hb (4 + 4 * i) 4

/-- `read_head`'s loop: `block[0 .. n)`, nothing when `n` is negative. -/
def decodeHead (hb : Block) : List Nat := (List.range (headN hb).toNat).map (headBlock hb)

/-! ## Commit and recovery -/

section
variable (lg : Geometry)

def readHead (s : State) : State := { s with lh := decodeHead (bread s lg.start) }

def writeHead (s : State) : State := bwrite s lg.start (encodeHead s.lh (bread s lg.start))

/-- The loop of `write_log` from `tail` on: cached block to log block. -/
def writeLogFrom (tail : Nat) : List Nat → State → State
  | [], s => s
  | b :: bs, s => writeLogFrom (tail + 1) bs (bwrite s (lg.start + tail + 1) (bread s b))

def writeLog (s : State) : State := writeLogFrom lg 0 s.lh s

/-- The loop of `install_trans` from `tail` on: log block to home block. -/
def installTransFrom (tail : Nat) : List Nat → State → State
  | [], s => s
  | b :: bs, s => installTransFrom (tail + 1) bs (bwrite s b (bread s (lg.start + tail + 1)))

def installTrans (s : State) : State := installTransFrom lg 0 s.lh s

def clearLh (s : State) : State := { s with lh := [] }

def commit (s : State) : State :=
  if s.lh.length > 0 then
    writeHead lg (clearLh (installTrans lg (writeHead lg (writeLog lg s))))
  else s

def recoverFromLog (s : State) : State :=
  writeHead lg (clearLh (installTrans lg (readHead lg s)))

/-- The state `commit` starts in: disk `d`, the valid buffers and the header. -/
def enterCommit (d : Disk) (cache : Nat → Option Block) (lh : List Nat) : State :=
  { disk := d, cache := cache, lh := lh, trace := [] }

/-- The state `initlog` finds on a reboot: nothing but the disk survives. -/
def boot (d : Disk) : State := { disk := d, cache := fun _ => none, lh := [], trace := [] }

/-- The `bwrite`s of a recovery that finds disk `d`. -/
def recoverWrites (d : Disk) : List (Nat × Block) := (recoverFromLog lg (boot d)).trace

/-- `log_write` on block `b` inside a transaction: `none` is the panic
"too big a transaction". -/
def logWrite (lh : List Nat) (b : Nat) : Option (List Nat) :=
  if lh.length ≥ LOGSIZE ∨ lh.length ≥ lg.size - 1 then none
  else if b ∈ lh then some lh
  else some (lh ++ [b])

/-- `lh` is built from the empty header by `log_write`s of home blocks
(32-bit block numbers outside the log area). -/
def Built (lh : List Nat) : Prop :=
  ∃ bs : List Nat, (∀ b ∈ bs, ¬ InLog lg b ∧ b < 2 ^ 32) ∧ bs.foldlM (logWrite lg) [] = some lh

end

/-! ## What `log_write` builds -/

structure HeadOK (lg : Geometry) (lh : List Nat) : Prop where
  nodup : lh.Nodup
  home : ∀ b ∈ lh, ¬ InLog lg b
  word : ∀ b ∈ lh, b < 2 ^ 32
  le_logsize : lh.length ≤ LOGSIZE
  fits : lh.length = 0 ∨ lh.length + 1 ≤ lg.size

variable {lg : Geometry}

theorem logWrite_headOK {lh lh' : List Nat} {b : Nat} (h : HeadOK lg lh)
    (hb : ¬ InLog lg b ∧ b < 2 ^ 32) (hw : logWrite lg lh b = some lh') : HeadOK lg lh' := by
  unfold logWrite at hw
  split at hw
  · cases hw
  · next hroom =>
    split at hw
    · cases hw
      exact h
    · next hnew =>
      cases hw
      refine ⟨?_, ?_, ?_, ?_, ?_⟩
      · rw [List.nodup_append]
        refine ⟨h.nodup, List.nodup_singleton b, ?_⟩
        intro a ha c hc hac
        rw [List.mem_singleton] at hc
        exact hnew (by rw [← hc, ← hac]; exact ha)
      · intro c hc
        rcases List.mem_append.mp hc with hc | hc
        · exact h.home c hc
        · rw [List.mem_singleton] at hc
          rw [hc]
          exact hb.1
      · intro c hc
        rcases List.mem_append.mp hc with hc | hc
        · exact h.word c hc
        · rw [List.mem_singleton] at hc
          rw [hc]
          exact hb.2
      · simp only [List.length_append, List.length_singleton]
        omega
      · simp only [List.length_append, List.length_singleton]
        omega

theorem foldlM_logWrite_headOK (bs : List Nat) : ∀ lh lh', HeadOK lg lh → (∀ b ∈ bs, ¬ InLog lg b ∧ b < 2 ^ 32) →
      bs.foldlM (logWrite lg) lh = some lh' → HeadOK lg lh' := by
  induction bs with
  | nil =>
    intro lh lh' h _ hf
    simp only [List.foldlM_nil, Option.pure_def, Option.some.injEq] at hf
    rw [← hf]
    exact h
  | cons b bs ih =>
    intro lh lh' h hbs hf
    rw [List.foldlM_cons] at hf
    obtain ⟨lh1, h1, h2⟩ := Option.bind_eq_some_iff.mp hf
    exact ih lh1 lh' (logWrite_headOK h (hbs b List.mem_cons_self) h1)
      (fun c hc => hbs c (List.mem_cons_of_mem _ hc)) h2

theorem Built.headOK {lh : List Nat} (h : Built lg lh) : HeadOK lg lh := by
  obtain ⟨bs, hbs, hf⟩ := h
  exact foldlM_logWrite_headOK bs [] lh
    ⟨List.nodup_nil, by simp, by simp, by simp, by simp⟩ hbs hf

/-! ## Reading a header back -/

theorem putBlocks_outside (hb : Block) (i : Nat) (bs : List Nat) (j : Nat)
    (h : j < 4 + 4 * i ∨ 4 + 4 * (i + bs.length) ≤ j) : putBlocks hb i bs j = hb j := by
  induction bs generalizing hb i with
  | nil => rfl
  | cons b bs ih =>
    simp only [List.length_cons] at h
    rw [putBlocks, ih _ _ (by omega), Bytes.putLE_of_outside _ _ _ _ _ (by omega)]

theorem headBlock_putBlocks (hb : Block) (i : Nat) (bs : List Nat) (hw : ∀ b ∈ bs, b < 2 ^ 32)
    (j : Nat) (hj : j < bs.length) : headBlock (putBlocks hb i bs) (i + j) = bs[j] := by
  induction bs generalizing hb i j with
  | nil => simp at hj
  | cons b bs ih =>
    have hw' : ∀ c ∈ bs, c < 2 ^ 32 := fun c hc => hw c (List.mem_cons_of_mem _ hc)
    cases j with
    | zero =>
      have hb' : b < 256 ^ 4 := by have := hw b List.mem_cons_self; omega
      simp only [headBlock, putBlocks, Nat.add_zero, List.getElem_cons_zero]
      rw [Bytes.getLE_congr fun k h1 h2 => putBlocks_outside _ (i + 1) bs k (by omega)]
      exact Bytes.getLE_putLE_of_lt _ _ _ _ hb'
    | succ j =>
      rw [putBlocks, show i + (j + 1) = i + 1 + j by omega, List.getElem_cons_succ]
      exact ih _ _ hw' j (by simpa using hj)

theorem headN_encodeHead (lh : List Nat) (hb : Block) (hl : lh.length ≤ LOGSIZE) :
    headN (encodeHead lh hb) = lh.length := by
  have hl' : lh.length < 2 ^ 31 := by unfold LOGSIZE MAXOPBLOCKS at hl; omega
  unfold headN encodeHead
  rw [Bytes.getLE_congr fun k h1 h2 => putBlocks_outside _ 0 lh k (by omega),
    Bytes.getLE_putLE_of_lt _ _ _ _ (by omega), toInt32_of_lt _ hl']

theorem decodeHead_encodeHead (lh : List Nat) (hb : Block) (hw : ∀ b ∈ lh, b < 2 ^ 32)
    (hl : lh.length ≤ LOGSIZE) : decodeHead (encodeHead lh hb) = lh := by
  unfold decodeHead
  rw [headN_encodeHead lh hb hl, Int.toNat_natCast]
  apply List.ext_getElem
  · simp
  · intro j h1 h2
    have := headBlock_putBlocks (Bytes.putLE hb 0 4 lh.length) 0 lh hw j h2
    rw [Nat.zero_add] at this
    simpa [encodeHead] using this

/-! ## Each phase as a list of writes -/

/-- From `s` to `s'` exactly the writes `ws` were issued, and the header kept. -/
structure Wrote (s : State) (ws : List (Nat × Block)) (s' : State) : Prop where
  trace : s'.trace = s.trace ++ ws
  disk : s'.disk = applyWrites s.disk ws
  bread : bread s' = applyWrites (bread s) ws
  lh : s'.lh = s.lh

theorem Wrote.refl (s : State) : Wrote s [] s := ⟨by simp, rfl, rfl, rfl⟩

theorem Wrote.trans {s s' s'' : State} {ws vs : List (Nat × Block)} (h : Wrote s ws s')
    (h' : Wrote s' vs s'') : Wrote s (ws ++ vs) s'' :=
  ⟨by rw [h'.trace, h.trace, List.append_assoc], by rw [h'.disk, h.disk, applyWrites_append],
    by rw [h'.bread, h.bread, applyWrites_append], by rw [h'.lh, h.lh]⟩

theorem bwrite_wrote (s : State) (b : Nat) (data : Block) : Wrote s [(b, data)] (bwrite s b data) := by
  refine ⟨rfl, rfl, ?_, rfl⟩
  funext x
  by_cases hx : x = b
  · subst hx
    simp [bread, bwrite]
  · simp [bread, bwrite, hx]

@[simp] theorem clearLh_trace (s : State) : (clearLh s).trace = s.trace := rfl

@[simp] theorem clearLh_disk (s : State) : (clearLh s).disk = s.disk := rfl

@[simp] theorem clearLh_lh (s : State) : (clearLh s).lh = [] := rfl

@[simp] theorem clearLh_bread (s : State) : bread (clearLh s) = bread s := rfl

theorem writeHead_wrote (lg : Geometry) (s : State) :
    Wrote s [(lg.start, encodeHead s.lh (bread s lg.start))] (writeHead lg s) :=
  bwrite_wrote s lg.start _

/-- The writes of `write_log`: the new contents, to successive log blocks. -/
def logWrites (lg : Geometry) (new : Nat → Block) (tail : Nat) : List Nat → List (Nat × Block)
  | [] => []
  | b :: bs => (lg.start + tail + 1, new b) :: logWrites lg new (tail + 1) bs

/-- The writes of `install_trans`: the new contents, to the home blocks. -/
def installWrites (new : Nat → Block) (bs : List Nat) : List (Nat × Block) :=
  bs.map fun b => (b, new b)

theorem logWrites_length (lg : Geometry) (new : Nat → Block) (tail : Nat) (bs : List Nat) :
    (logWrites lg new tail bs).length = bs.length := by
  induction bs generalizing tail with
  | nil => rfl
  | cons b bs ih => simp [logWrites, ih]

theorem mem_logWrites {new : Nat → Block} {tail : Nat} {bs : List Nat}
    {w : Nat × Block} (h : w ∈ logWrites lg new tail bs) :
    lg.start + tail < w.1 ∧ w.1 ≤ lg.start + tail + bs.length := by
  induction bs generalizing tail with
  | nil => simp [logWrites] at h
  | cons b bs ih =>
    rw [logWrites] at h
    rcases List.mem_cons.mp h with rfl | h
    · simp only [List.length_cons]
      omega
    · have := ih h
      simp only [List.length_cons]
      omega

theorem logWrites_getElem (lg : Geometry) (new : Nat → Block) (d : Disk) (tail : Nat)
    (bs : List Nat) (i : Nat) (hi : i < bs.length) :
    applyWrites d (logWrites lg new tail bs) (lg.start + tail + 1 + i) = new bs[i] := by
  induction bs generalizing d tail i with
  | nil => simp at hi
  | cons b bs ih =>
    rw [logWrites, applyWrites_cons]
    cases i with
    | zero =>
      rw [applyWrites_of_notMem _ _ _ fun w hw => by have := mem_logWrites hw; omega]
      simp
    | succ i =>
      rw [show lg.start + tail + 1 + (i + 1) = lg.start + (tail + 1) + 1 + i by omega,
        List.getElem_cons_succ]
      exact ih _ _ i (by simpa using hi)

theorem writeLogFrom_wrote (lg : Geometry) (new : Nat → Block) (bs : List Nat) :
    ∀ tail s, (∀ b ∈ bs, ¬ InLog lg b) → tail + bs.length + 1 ≤ lg.size →
      (∀ b ∈ bs, bread s b = new b) →
      Wrote s (logWrites lg new tail bs) (writeLogFrom lg tail bs s) := by
  induction bs with
  | nil => intro tail s _ _ _; exact Wrote.refl s
  | cons b bs ih =>
    intro tail s hhome hfit hnew
    simp only [List.length_cons] at hfit
    have hstep := bwrite_wrote s (lg.start + tail + 1) (bread s b)
    rw [hnew b List.mem_cons_self] at hstep
    rw [writeLogFrom, logWrites, hnew b List.mem_cons_self]
    refine hstep.trans (ih (tail + 1) _ (fun c hc => hhome c (List.mem_cons_of_mem _ hc))
      (by omega) fun c hc => ?_)
    -- a home block is not the log block just written
    have hne : c ≠ lg.start + tail + 1 := by
      intro he
      exact hhome c (List.mem_cons_of_mem _ hc) ⟨by omega, by omega⟩
    rw [hstep.bread, applyWrites_of_notMem _ _ _ (by simpa using hne.symm)]
    exact hnew c (List.mem_cons_of_mem _ hc)

theorem installTransFrom_wrote (lg : Geometry) (new : Nat → Block) (bs : List Nat) :
    ∀ tail s, (∀ b ∈ bs, ¬ InLog lg b) → tail + bs.length + 1 ≤ lg.size →
      (∀ i (hi : i < bs.length), bread s (lg.start + tail + 1 + i) = new bs[i]) →
      Wrote s (installWrites new bs) (installTransFrom lg tail bs s) := by
  induction bs with
  | nil => intro tail s _ _ _; exact Wrote.refl s
  | cons b bs ih =>
    intro tail s hhome hfit hlog
    simp only [List.length_cons] at hfit
    have hb : bread s (lg.start + tail + 1) = new b := hlog 0 (by simp)
    have hstep := bwrite_wrote s b (new b)
    rw [installTransFrom, hb]
    refine hstep.trans (ih (tail + 1) _ (fun c hc => hhome c (List.mem_cons_of_mem _ hc))
      (by omega) fun i hi => ?_)
    -- the home block just written is not a log block
    have hne : b ≠ lg.start + (tail + 1) + 1 + i := by
      intro he
      exact hhome b List.mem_cons_self ⟨by omega, by omega⟩
    rw [hstep.bread, applyWrites_of_notMem _ _ _ (by simpa using hne)]
    have := hlog (i + 1) (by simpa using hi)
    rw [List.getElem_cons_succ] at this
    rw [← this]
    congr 1
    omega

end Xv6.Log
