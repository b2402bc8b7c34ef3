import Xv6.Lib.Ring

/-!
# The console's input buffer

`consoleintr` and `consoleread` of `kernel/console.c`.  `cons.r`, `cons.w` and
`cons.e` are 32-bit indexes into a ring of 128 bytes: the bytes from `r` to `w` are
for readers, those from `w` to `e` are a line that can still be edited.

`Line` is what the buffer stands for, two lists of bytes, and `Rep` connects them.
`consoleread` holds `cons.lock` but while it sleeps, so it runs in segments; one
segment (`readLoop`) ends with a return or with a sleep.
-/

namespace Xv6.Console

open Function Ring

/-! ## `kernel/console.c` -/

def INPUT_BUF_SIZE : Nat := 128

/-- Indexes are of type `uint`, and computed modulo this number.  The definitions and lemmas below are for any
modulus `U` that is a multiple of the size of the buffer. -/
def U32 : Nat := 2 ^ 32

/-- `C('P')`, `C('U')`, `C('H')`, `C('D')` and the other characters of the switch. -/
def ctrlP : UInt8 := 16
def ctrlU : UInt8 := 21
def ctrlH : UInt8 := 8
def ctrlD : UInt8 := 4
def delete : UInt8 := 127
def newline : UInt8 := 10
def carriageReturn : UInt8 := 13

structure Cons where
  buf : Nat → UInt8
  r : Nat
  w : Nat
  e : Nat

section
variable (U : Nat)

/-- `e - 1` -/
def pred (e : Nat) : Nat := (e + U - 1) % U

/-- The loop of "kill line"; it ends at `cons.w` at the latest. -/
def killLoop (buf : Nat → UInt8) (w : Nat) : Nat → Nat → Nat
  | 0, e => e
  | fuel + 1, e => if e ≠ w ∧ buf (pred U e % INPUT_BUF_SIZE) ≠ newline then killLoop buf w fuel (pred U e) else e

/-- `cons.buf[cons.e++ % INPUT_BUF_SIZE] = c` -/
def Cons.push (s : Cons) (c : UInt8) : Cons :=
  { s with buf := update s.buf (s.e % INPUT_BUF_SIZE) c, e := (s.e + 1) % U }

/-- `consoleintr`: the buffer, and whether it calls `wakeup(&cons.r)`. -/
def consoleintr (c : UInt8) (s : Cons) : Cons × Bool :=
  if c = ctrlP then (s, false)
  else if c = ctrlU then ({ s with e := killLoop U s.buf s.w (count U s.w s.e) s.e }, false)
  else if c = ctrlH ∨ c = delete then (if s.e ≠ s.w then { s with e := pred U s.e } else s, false)
  else if c ≠ 0 ∧ count U s.r s.e < INPUT_BUF_SIZE then
    let c := if c = carriageReturn then newline else c
    let s := s.push U c
    if c = newline ∨ c = ctrlD ∨ count U s.r s.e = INPUT_BUF_SIZE then ({ s with w := s.e }, true) else (s, false)
  else (s, false)

/-- How a segment of `consoleread` ends. -/
inductive Stop
  | ret
  | sleep
  /-- `return -1`, because the process was killed -/
  | killed
  deriving DecidableEq

/-- The loop of `consoleread` up to its end or to a `sleep`: the buffer, the bytes copied to the user, and `n`. -/
def readLoop (killed : Bool) (target : Nat) : Nat → Cons → List UInt8 → Cons × List UInt8 × Nat × Stop
  | 0, s, got => (s, got, 0, .ret)
  | n + 1, s, got =>
    if s.r = s.w then (s, got, n + 1, if killed then .killed else .sleep)
    else
      let c := s.buf (s.r % INPUT_BUF_SIZE)
      let s := { s with r := (s.r + 1) % U }
      if c = ctrlD then
        -- save ^D for the next read if this one has bytes
        ((if n + 1 < target then { s with r := pred U s.r } else s), got, n + 1, .ret)
      else if c = newline then (s, got ++ [c], n, .ret)
      else readLoop killed target n s (got ++ [c])

/-! ## Lines -/

/-- The bytes for readers, and the line being edited. -/
structure Line where
  ready : List UInt8
  edit : List UInt8

def Cons.ready (s : Cons) : List UInt8 := items INPUT_BUF_SIZE U s.buf s.r s.w

def Cons.edit (s : Cons) : List UInt8 := items INPUT_BUF_SIZE U s.buf s.w s.e

/-- The bytes committed between two buffers: what `cons.w` passed. -/
def advance (s s' : Cons) : List UInt8 := items INPUT_BUF_SIZE U s'.buf s.w s'.w

/-- The buffer `s` holds the line `l`. -/
structure Rep (s : Cons) (l : Line) : Prop where
  dvd : INPUT_BUF_SIZE ∣ U
  big : INPUT_BUF_SIZE + 1 < U
  r_lt : s.r < U
  w_lt : s.w < U
  e_lt : s.e < U
  ready : s.ready U = l.ready
  edit : s.edit U = l.edit
  room : l.ready.length + l.edit.length ≤ INPUT_BUF_SIZE
  full : l.ready.length + l.edit.length = INPUT_BUF_SIZE → l.edit = []

end

section
variable {U : Nat} {s : Cons} {l : Line}

section
variable (h : Rep U s l)
include h

theorem Rep.pos : 0 < U := Nat.zero_lt_of_lt h.big

theorem Rep.pred_lt (e : Nat) : pred U e < U := Nat.mod_lt _ h.pos

theorem Rep.count_ready : count U s.r s.w = l.ready.length := by
  rw [← h.ready, Cons.ready, items_length]

theorem Rep.count_edit : count U s.w s.e = l.edit.length := by
  rw [← h.edit, Cons.edit, items_length]

theorem Rep.small : count U s.r s.w + count U s.w s.e < U := by
  rw [h.count_ready, h.count_edit]
  exact Nat.lt_of_le_of_lt h.room (Nat.lt_of_succ_lt h.big)

theorem Rep.count_all : count U s.r s.e = l.ready.length + l.edit.length := by
  rw [count_add h.r_lt h.w_lt h.e_lt h.small, h.count_ready, h.count_edit]

theorem Rep.eq_iff : s.e = s.w ↔ l.edit = [] := by
  rw [← List.length_eq_zero_iff, ← h.count_edit]
  constructor
  · intro he
    rw [he, count_self h.w_lt]
  · intro h0
    have hadd := add_count_mod h.w_lt h.e_lt
    rw [h0, Nat.add_zero, Nat.mod_eq_of_lt h.w_lt] at hadd
    exact hadd.symm

theorem Rep.empty_iff : s.r = s.w ↔ l.ready = [] := by
  rw [← List.length_eq_zero_iff, ← h.count_ready]
  constructor
  · intro hr
    rw [hr, count_self h.w_lt]
  · intro h0
    have hadd := add_count_mod h.r_lt h.w_lt
    rwa [h0, Nat.add_zero, Nat.mod_eq_of_lt h.r_lt] at hadd

theorem Rep.bounds : count U s.r s.w ≤ count U s.r s.e ∧
    count U s.r s.e ≤ INPUT_BUF_SIZE ∧ (count U s.r s.e = INPUT_BUF_SIZE → s.w = s.e) := by
  rw [h.count_ready, h.count_all]
  exact ⟨Nat.le_add_right _ _, h.room, fun hfull => (h.eq_iff.mpr (h.full hfull)).symm⟩

/-! ## `consoleintr` -/

theorem Rep.erase_last (hne : s.e ≠ s.w) :
    ∃ kept c, l.edit = kept ++ [c] ∧ Rep U { s with e := pred U s.e } ⟨l.ready, kept⟩ := by
  obtain ⟨kept, hkept⟩ : ∃ kept, items INPUT_BUF_SIZE U s.buf s.w (pred U s.e) = kept := ⟨_, rfl⟩
  have hedit : l.edit = kept ++ [s.buf (pred U s.e % INPUT_BUF_SIZE)] := by
    rw [← h.edit, Cons.edit, ← hkept, pred]
    exact items_unpush h.dvd h.w_lt h.e_lt (Ne.symm hne)
  have hlen : l.ready.length + (kept.length + 1) ≤ INPUT_BUF_SIZE := by
    have := h.room
    rwa [hedit, List.length_append] at this
  obtain ⟨e, he⟩ : ∃ e, pred U s.e = e := ⟨_, rfl⟩
  have helt : e < U := he ▸ h.pred_lt _
  rw [he] at hkept ⊢
  refine ⟨kept, _, hedit, h.dvd, h.big, h.r_lt, h.w_lt, helt, h.ready, hkept, Nat.le_of_succ_le hlen, fun hfull => ?_⟩
  exact absurd hlen (by simp only at hfull; omega)

end

theorem Rep.killLoop (fuel : Nat) : ∀ {s : Cons} {l : Line}, Rep U s l →
    ∃ kept gone, l.edit = kept ++ gone ∧ Rep U { s with e := killLoop U s.buf s.w fuel s.e } ⟨l.ready, kept⟩ := by
  induction fuel with
  | zero =>
    intro s l h
    exact ⟨l.edit, [], (List.append_nil _).symm, h⟩
  | succ fuel ih =>
    intro s l h
    rw [Console.killLoop]
    by_cases hgo : s.e ≠ s.w ∧ s.buf (pred U s.e % INPUT_BUF_SIZE) ≠ newline
    · rw [if_pos hgo]
      obtain ⟨kept, c, hedit, h1⟩ := h.erase_last hgo.1
      obtain ⟨kept', gone, hk, h2⟩ := ih h1
      exact ⟨kept', gone ++ [c], by rw [hedit, ← List.append_assoc, ← hk], h2⟩
    · rw [if_neg hgo]
      exact ⟨l.edit, [], (List.append_nil _).symm, h⟩

theorem Rep.push (h : Rep U s l) (hroom : count U s.r s.e < INPUT_BUF_SIZE) (c : UInt8) :
    (s.push U c).ready U = l.ready ∧ (s.push U c).edit U = l.edit ++ [c] ∧ (s.push U c).e < U := by
  have hroom' := h.count_all ▸ hroom
  have hslot : s.e % INPUT_BUF_SIZE = (s.r + count U s.r s.e) % INPUT_BUF_SIZE :=
    (slot_hi h.dvd h.r_lt h.e_lt).symm
  refine ⟨?_, ?_, Nat.mod_lt _ h.pos⟩
  · rw [← h.ready]
    show items INPUT_BUF_SIZE U (update s.buf (s.e % INPUT_BUF_SIZE) c) s.r s.w = _
    rw [hslot]
    exact items_store_ahead h.bounds.1 hroom c
  · rw [← h.edit]
    have hedit : count U s.w s.e < INPUT_BUF_SIZE := by
      rw [h.count_edit]
      omega
    show items INPUT_BUF_SIZE U (update s.buf (s.e % INPUT_BUF_SIZE) c) s.w ((s.e + 1) % U) = _
    rw [items_push h.dvd h.w_lt h.e_lt (Nat.lt_of_le_of_lt hedit (Nat.lt_of_succ_lt h.big)),
      items_store h.dvd h.w_lt h.e_lt hedit, update_self]
    rfl

theorem consoleintr_spec (h : Rep U s l) (c : UInt8) : ∃ edit', Rep U (consoleintr U c s).1
    ⟨l.ready ++ advance U s (consoleintr U c s).1, edit'⟩ ∧ (consoleintr U c s).1.r = s.r := by
  -- nothing is committed while `cons.w` stays
  have hstay : ∀ {s' : Cons} {edit' : List UInt8}, s'.w = s.w → Rep U s' ⟨l.ready, edit'⟩ →
      Rep U s' ⟨l.ready ++ advance U s s', edit'⟩ := by
    intro s' edit' hw h'
    have hnone : advance U s s' = [] := by
      rw [advance, hw, items, count_self h.w_lt]
      rfl
    rw [hnone, List.append_nil]
    exact h'
  unfold consoleintr
  by_cases hp : c = ctrlP
  · rw [if_pos hp]
    exact ⟨l.edit, hstay rfl h, rfl⟩
  rw [if_neg hp]
  by_cases hu : c = ctrlU
  · rw [if_pos hu]
    obtain ⟨kept, -, -, h'⟩ := h.killLoop (count U s.w s.e)
    exact ⟨kept, hstay rfl h', rfl⟩
  rw [if_neg hu]
  by_cases hh : c = ctrlH ∨ c = delete
  · rw [if_pos hh]
    by_cases hne : s.e ≠ s.w
    · obtain ⟨kept, -, -, h'⟩ := h.erase_last hne
      simp only [if_pos hne]
      exact ⟨kept, hstay rfl h', trivial⟩
    · simp only [if_neg hne]
      exact ⟨l.edit, hstay rfl h, trivial⟩
  rw [if_neg hh]
  by_cases hroom : c ≠ 0 ∧ count U s.r s.e < INPUT_BUF_SIZE
  swap
  · rw [if_neg hroom]
    exact ⟨l.edit, hstay rfl h, rfl⟩
  rw [if_pos hroom]
  obtain ⟨c', hc'⟩ : ∃ c', (if c = carriageReturn then newline else c) = c' := ⟨_, rfl⟩
  obtain ⟨hready, hedit, he⟩ := h.push hroom.2 c'
  have hlen := h.count_all ▸ hroom.2
  have hedit_len : (l.edit ++ [c']).length = l.edit.length + 1 := by simp
  have hcw : count U s.w (s.push U c').e = l.edit.length + 1 := by
    rw [← hedit_len, ← hedit, Cons.edit, items_length]
    rfl
  have hsmall : count U s.r s.w + count U s.w (s.push U c').e < U := by
    rw [h.count_ready, hcw]
    have := h.big
    omega
  have hcr : count U s.r (s.push U c').e = l.ready.length + (l.edit.length + 1) := by
    rw [count_add h.r_lt h.w_lt he hsmall, h.count_ready, hcw]
  simp only [hc']
  by_cases hcommit : c' = newline ∨ c' = ctrlD ∨ count U (s.push U c').r (s.push U c').e = INPUT_BUF_SIZE
  · rw [if_pos hcommit]
    refine ⟨[], ⟨h.dvd, h.big, h.r_lt, he, he, ?_, ?_, ?_, fun _ => rfl⟩, rfl⟩
    · -- the bytes for readers and the edited line, with the new byte
      have happ : items INPUT_BUF_SIZE U (s.push U c').buf s.r (s.push U c').e =
          (s.push U c').ready U ++ (s.push U c').edit U := items_append h.dvd h.r_lt h.w_lt he hsmall
      refine happ.trans ?_
      rw [hready]
      rfl
    · show items INPUT_BUF_SIZE U (s.push U c').buf (s.push U c').e (s.push U c').e = []
      rw [items, count_self he]
      rfl
    · show (l.ready ++ (s.push U c').edit U).length + 0 ≤ INPUT_BUF_SIZE
      rw [hedit, List.length_append, hedit_len]
      omega
  · rw [if_neg hcommit]
    refine ⟨l.edit ++ [c'], hstay rfl ⟨h.dvd, h.big, h.r_lt, h.w_lt, he, hready, hedit, ?_, ?_⟩, rfl⟩
    · show l.ready.length + (l.edit ++ [c']).length ≤ INPUT_BUF_SIZE
      omega
    · intro hfull
      refine absurd (.inr (.inr ?_)) hcommit
      show count U s.r (s.push U c').e = INPUT_BUF_SIZE
      rw [hcr, ← hedit_len]
      exact hfull

theorem consoleintr_erase (h : Rep U s l) {c : UInt8} (hc : c = ctrlH ∨ c = delete ∨ c = ctrlU) :
    (consoleintr U c s).1.buf = s.buf ∧ (consoleintr U c s).1.r = s.r ∧ (consoleintr U c s).1.w = s.w ∧
      ∃ gone, s.edit U = (consoleintr U c s).1.edit U ++ gone := by
  have hdone : ∀ {e : Nat} {kept gone : List UInt8}, l.edit = kept ++ gone → Rep U { s with e := e } ⟨l.ready, kept⟩ →
      ∃ gone, s.edit U = Cons.edit U { s with e := e } ++ gone := by
    intro e kept gone hk h'
    exact ⟨gone, by rw [h.edit, hk, h'.edit]⟩
  unfold consoleintr
  by_cases hu : c = ctrlU
  · subst hu
    rw [if_neg (by decide), if_pos rfl]
    obtain ⟨kept, gone, hk, h'⟩ := h.killLoop (count U s.w s.e)
    exact ⟨rfl, rfl, rfl, hdone hk h'⟩
  · have hh : c = ctrlH ∨ c = delete := by
      rcases hc with hc | hc | hc
      · exact .inl hc
      · exact .inr hc
      · exact absurd hc hu
    have hp : c ≠ ctrlP := by
      rcases hh with rfl | rfl <;> decide
    rw [if_neg hp, if_neg hu, if_pos hh]
    by_cases hne : s.e ≠ s.w
    · obtain ⟨kept, x, hk, h'⟩ := h.erase_last hne
      simp only [if_pos hne]
      exact ⟨trivial, trivial, trivial, hdone hk h'⟩
    · simp only [if_neg hne]
      exact ⟨trivial, trivial, trivial, [], (List.append_nil _).symm⟩

/-! ## `consoleread` -/

theorem Rep.pop (h : Rep U s l) (hne : s.r ≠ s.w) : ∃ c ready', l.ready = c :: ready' ∧
    s.buf (s.r % INPUT_BUF_SIZE) = c ∧ Rep U { s with r := (s.r + 1) % U } ⟨ready', l.edit⟩ := by
  have hpop : l.ready = _ := h.ready.symm.trans (items_pop h.dvd h.r_lt h.w_lt hne)
  have hroom := h.room
  rw [hpop, List.length_cons] at hroom
  refine ⟨_, _, hpop, rfl, h.dvd, h.big, Nat.mod_lt _ h.pos, h.w_lt, h.e_lt, rfl, h.edit, ?_, fun hfull => ?_⟩
  · exact Nat.le_trans (Nat.add_le_add_right (Nat.le_succ _) _) hroom
  · exact absurd hroom (by simp only at hfull; omega)

theorem Rep.pred_succ (h : Rep U s l) : pred U ((s.r + 1) % U) = s.r := by
  have hr := h.r_lt
  rw [pred, pred_mod (Nat.mod_lt _ h.pos), succ_mod hr]
  by_cases hw : s.r + 1 = U
  · rw [if_pos hw, if_pos rfl]
    omega
  · rw [if_neg hw, if_neg (Nat.succ_ne_zero _), Nat.add_sub_cancel]

theorem Rep.items_cons (h : Rep U s l) {r' : Nat} (hr' : r' < U)
    (hsmall : count U ((s.r + 1) % U) r' ≤ INPUT_BUF_SIZE) : items INPUT_BUF_SIZE U s.buf s.r r' =
      s.buf (s.r % INPUT_BUF_SIZE) :: items INPUT_BUF_SIZE U s.buf ((s.r + 1) % U) r' := by
  have hzero : count U s.r s.r = 0 := count_self h.r_lt
  have hbig := h.big
  have hone : count U s.r ((s.r + 1) % U) = 1 := by
    rw [count_push h.r_lt h.r_lt (by omega), hzero]
  have hfirst : items INPUT_BUF_SIZE U s.buf s.r ((s.r + 1) % U) = [s.buf (s.r % INPUT_BUF_SIZE)] := by
    rw [items_push h.dvd h.r_lt h.r_lt (by omega), items, hzero]
    rfl
  have hsum : count U s.r ((s.r + 1) % U) + count U ((s.r + 1) % U) r' < U := by omega
  rw [items_append h.dvd h.r_lt (Nat.mod_lt _ h.pos) hr' hsum, hfirst]
  rfl

/-- How a segment that copied `data` ends, with `n` bytes to go: `tail` are the bytes it took besides, and `ready`
those it left. -/
inductive Ends (killed : Bool) (target : Nat) (data : List UInt8) : Nat → List UInt8 → List UInt8 → Stop → Prop
  | full (ready : List UInt8) : Ends killed target data 0 [] ready .ret
  | line (n : Nat) (ready : List UInt8) (h : data.getLast? = some newline) : Ends killed target data n [] ready .ret
  /-- a ^D that is left for the next read -/
  | saved (n : Nat) (ready : List UInt8) (h0 : 0 < n) (h : n < target) :
      Ends killed target data n [] (ctrlD :: ready) .ret
  | eof (n : Nat) (ready : List UInt8) (h0 : 0 < n) (h : target ≤ n) : Ends killed target data n [ctrlD] ready .ret
  | sleep (n : Nat) (h0 : 0 < n) (h : newline ∉ data) : Ends killed target data n [] [] .sleep
  | killed (n : Nat) (h0 : 0 < n) (h : killed = true) : Ends killed target data n [] [] .killed

theorem Ends.cons {killed : Bool} {target n : Nat} {data tail ready : List UInt8} {stop : Stop} {c : UInt8}
    (h : Ends killed target data n tail ready stop) (hc : c ≠ newline) :
    Ends killed target (c :: data) n tail ready stop := by
  cases h with
  | full => exact .full ready
  | line _ _ h =>
    refine .line n ready ?_
    cases data with
    | nil => cases h
    | cons d ds => exact h
  | saved _ ready h0 h => exact .saved n ready h0 h
  | eof _ _ h0 h => exact .eof n ready h0 h
  | sleep _ h0 h =>
    refine .sleep n h0 ?_
    rw [List.mem_cons]
    rintro (hd | hd)
    · exact hc hd.symm
    · exact h hd
  | killed _ h0 h => exact .killed n h0 h

theorem readLoop_spec (killed : Bool) (target n : Nat) : ∀ {s : Cons} {l : Line} (got : List UInt8), Rep U s l →
    ∃ data tail ready' r' n' stop, readLoop U killed target n s got = ({ s with r := r' }, got ++ data, n', stop) ∧
      Rep U { s with r := r' } ⟨ready', l.edit⟩ ∧ l.ready = data ++ tail ++ ready' ∧
      items INPUT_BUF_SIZE U s.buf s.r r' = data ++ tail ∧ n' + data.length = n ∧ ctrlD ∉ data ∧
      newline ∉ data.dropLast ∧ Ends killed target data n' tail ready' stop := by
  have hnone : ∀ {s : Cons} {l : Line}, Rep U s l → items INPUT_BUF_SIZE U s.buf s.r s.r = [] := by
    intro s l h
    rw [items, count_self h.r_lt]
    rfl
  induction n with
  | zero =>
    intro s l got h
    refine ⟨[], [], l.ready, s.r, 0, .ret, ?_, h, rfl, hnone h, rfl, by simp, by simp, .full _⟩
    rw [readLoop, List.append_nil]
  | succ n ih =>
    intro s l got h
    rw [readLoop]
    by_cases hr : s.r = s.w
    · rw [if_pos hr]
      have hempty := h.empty_iff.mp hr
      obtain ⟨stop, hstop⟩ : ∃ stop, (if killed then Stop.killed else .sleep) = stop := ⟨_, rfl⟩
      refine ⟨[], [], [], s.r, n + 1, stop, ?_, hempty ▸ h, hempty, hnone h, rfl, by simp, by simp, ?_⟩
      · rw [hstop, List.append_nil]
      · cases hk : killed with
        | false =>
          rw [hk] at hstop
          exact hstop ▸ .sleep (n + 1) (Nat.succ_pos n) (by simp)
        | true =>
          rw [hk] at hstop
          exact hstop ▸ .killed (n + 1) (Nat.succ_pos n) rfl
    rw [if_neg hr]
    obtain ⟨c, ready', hready, hc, h1⟩ := h.pop hr
    simp only [hc]
    have hback := h.pred_succ
    obtain ⟨r1, hr1⟩ : ∃ r1, (s.r + 1) % U = r1 := ⟨_, rfl⟩
    have hcount : count U r1 s.w ≤ INPUT_BUF_SIZE := by
      have hroom := h1.room
      rw [hr1] at h1
      rw [h1.count_ready]
      exact Nat.le_trans (Nat.le_add_right _ _) hroom
    have hitems : ∀ {r'}, r' < U → count U r1 r' ≤ INPUT_BUF_SIZE → items INPUT_BUF_SIZE U s.buf s.r r' =
        c :: items INPUT_BUF_SIZE U s.buf r1 r' := by
      intro r' hlt hle
      have := h.items_cons hlt (hr1.symm ▸ hle)
      rwa [hc, hr1] at this
    rw [hr1] at h1 hback ⊢
    have hone : items INPUT_BUF_SIZE U s.buf s.r r1 = [c] := by
      have hlt : r1 < U := h1.r_lt
      have hself : count U r1 r1 = 0 := count_self hlt
      rw [hitems hlt (by omega), items, hself]
      rfl
    by_cases hd : c = ctrlD
    · rw [if_pos hd]
      by_cases hsave : n + 1 < target
      · rw [if_pos hsave, hback]
        refine ⟨[], [], ctrlD :: ready', s.r, n + 1, .ret, ?_, ?_, hd ▸ hready, hnone h, rfl, by simp, by simp,
          .saved _ _ (Nat.succ_pos n) hsave⟩
        · rw [List.append_nil]
        · rw [← hd, ← hready]
          exact h
      · rw [if_neg hsave]
        refine ⟨[], [ctrlD], ready', r1, n + 1, .ret, ?_, h1, hd ▸ hready, hd ▸ hone, rfl, by simp, by simp,
          .eof _ _ (Nat.succ_pos n) (Nat.le_of_not_lt hsave)⟩
        rw [List.append_nil]
    rw [if_neg hd]
    by_cases hl : c = newline
    · rw [if_pos hl]
      refine ⟨[c], [], ready', r1, n, .ret, rfl, h1, hready, hone, rfl, ?_, by simp, .line _ _ (by rw [hl]; rfl)⟩
      simpa using Ne.symm hd
    rw [if_neg hl]
    obtain ⟨data, tail, ready2, r2, n2, stop, hrun, h2, hready2, hitems2, hn2, hnd, hnl, hends⟩ := ih (got ++ [c]) h1
    have hlen : count U r1 r2 ≤ INPUT_BUF_SIZE := by
      have hl2 := congrArg List.length hitems2
      rw [items_length] at hl2
      have hr2 := congrArg List.length hready2
      have := h1.room
      simp only [List.length_append] at hl2 hr2 this
      omega
    refine ⟨c :: data, tail, ready2, r2, n2, stop, ?_, h2, ?_, ?_, ?_, ?_, ?_, hends.cons hl⟩
    · rw [hrun, List.append_assoc]
      rfl
    · rw [hready]
      exact congrArg (c :: ·) hready2
    · rw [hitems h2.r_lt hlen]
      exact congrArg (c :: ·) hitems2
    · rw [List.length_cons]
      omega
    · rw [List.mem_cons]
      rintro (hc' | hc')
      · exact hd hc'.symm
      · exact hnd hc'
    · cases data with
      | nil => simp
      | cons d ds =>
        rw [List.dropLast_cons_cons, List.mem_cons]
        rintro (hc' | hc')
        · exact hl hc'.symm
        · exact hnl hc'

end

end Xv6.Console
