import Xv6.Console.Buffer
import Xv6.Lib.Run

/-!
# Readers of the console

Any number of processes in `consoleread`, and the interrupt handler.  A step is one
stay inside `cons.lock`: an interrupt, or a segment of a read.  A reader that waits
goes on when it is awake; `wakeup(&cons.r)` wakes all of them, and so does `kill`
its process.

The system also records what happened: the bytes that were committed, the bytes that
readers took from the buffer and the call that took each, and for each call the bytes
it copied to the user and its result.
-/

namespace Xv6.Console

open Function Ring

/-- A call of `consoleread`. -/
structure Call where
  pid : Nat
  /-- `n`, or 0 if it is negative -/
  target : Nat
  /-- the bytes copied to the user -/
  got : List UInt8
  result : Option Int

/-- A process that sleeps in a call, or was woken up. -/
structure Reader where
  call : Nat
  asleep : Bool
  n : Nat

structure Sys where
  cons : Cons
  reader : Nat → Option Reader
  killed : Nat → Bool
  committed : List UInt8
  obtained : List (Nat × UInt8)
  calls : Nat → Call
  count : Nat

inductive Event
  | intr (c : UInt8)
  | kill (p : Nat)
  | read (p : Nat) (n : Int)
  | resume (p : Nat)

section
variable (U : Nat)

/-- A segment of call `id` of process `p`, with `n` bytes to go. -/
def segment (s : Sys) (p id n : Nat) : Sys :=
  let c := s.calls id
  let o := readLoop U (s.killed p) c.target n s.cons c.got
  { s with
    cons := o.1
    obtained := s.obtained ++ (items INPUT_BUF_SIZE U s.cons.buf s.cons.r o.1.r).map fun b => (id, b)
    reader := update s.reader p (if o.2.2.2 = .sleep then some ⟨id, true, o.2.2.1⟩ else none)
    calls := update s.calls id
      { c with
        got := o.2.1
        result := if o.2.2.2 = .sleep then none else if o.2.2.2 = .killed then some (-1)
          else some ((c.target : Int) - o.2.2.1) } }

def wake (r : Option Reader) : Option Reader := r.map fun x => { x with asleep := false }

def step (s : Sys) : Event → Option Sys
  | .intr c =>
    some { s with
      cons := (consoleintr U c s.cons).1
      committed := s.committed ++ advance U s.cons (consoleintr U c s.cons).1
      reader := fun p => if (consoleintr U c s.cons).2 then wake (s.reader p) else s.reader p }
  | .kill p =>
    some { s with
      killed := update s.killed p true
      reader := update s.reader p (wake (s.reader p)) }
  | .read p n =>
    if (s.reader p).isSome then none
    else
      some (segment U { s with calls := update s.calls s.count ⟨p, n.toNat, [], none⟩, count := s.count + 1 }
        p s.count n.toNat)
  | .resume p =>
    match s.reader p with
    | none => none
    | some x => if x.asleep then none else some (segment U s p x.call x.n)

/-- No byte typed yet; the indexes are equal. -/
structure Initial (s : Sys) : Prop where
  r_lt : s.cons.r < U
  w_eq : s.cons.w = s.cons.r
  e_eq : s.cons.e = s.cons.r
  reader : ∀ p, s.reader p = none
  committed : s.committed = []
  obtained : s.obtained = []
  count : s.count = 0

def Reachable : Sys → Prop := Run.Reach (step U) (fun _ _ => True) (Initial U)

end

/-! ## The invariant -/

/-- The bytes that call `id` took from the buffer. -/
def taken (s : Sys) (id : Nat) : List UInt8 := (s.obtained.filter fun x => x.1 = id).map fun x => x.2

/-- A call returned 0 although it asked for bytes. -/
def Call.IsEof (c : Call) : Prop := c.result = some 0 ∧ 0 < c.target

instance (c : Call) : Decidable c.IsEof := inferInstanceAs (Decidable (_ ∧ _))

/-- A call took the bytes it gave to the user, or one ^D. -/
structure CallOk (s : Sys) (id : Nat) : Prop where
  taken : taken s id = (s.calls id).got ++ if (s.calls id).IsEof then [ctrlD] else []
  no_eof : ctrlD ∉ (s.calls id).got
  line : newline ∉ (s.calls id).got.dropLast
  len : (s.calls id).got.length ≤ (s.calls id).target
  result : ∀ r, (s.calls id).result = some r →
    (r = -1 ∧ s.killed (s.calls id).pid = true) ∨ r = (s.calls id).got.length

/-- Call `id` of process `p` has not returned, with `n` bytes to go. -/
structure Waits (s : Sys) (p id n : Nat) : Prop where
  lt : id < s.count
  pid : (s.calls id).pid = p
  result : (s.calls id).result = none
  left : n + (s.calls id).got.length = (s.calls id).target
  line : newline ∉ (s.calls id).got

structure Inv (U : Nat) (s : Sys) (l : Line) : Prop where
  rep : Rep U s.cons l
  bytes : s.committed = (s.obtained.map fun x => x.2) ++ l.ready
  fresh : ∀ x ∈ s.obtained, x.1 < s.count
  waits : ∀ p x, s.reader p = some x → Waits s p x.call x.n
  calls : ∀ id < s.count, CallOk s id

/-- A call that has not returned has got no newline, and fewer bytes than it asked for. -/
def Pending (s : Sys) (id : Nat) : Prop :=
  (s.calls id).result = none → newline ∉ (s.calls id).got ∧ (s.calls id).got.length < (s.calls id).target

/-- How a call that returns has ended. -/
inductive Returned (U : Nat) (s : Sys) (id : Nat) : Prop
  | killed (h : (s.calls id).result = some (-1)) (hk : s.killed (s.calls id).pid = true)
  | full (h : (s.calls id).got.length = (s.calls id).target)
  | line (h : (s.calls id).got.getLast? = some newline)
  /-- at a ^D that stays for the next read -/
  | saved (h0 : (s.calls id).got ≠ []) (h : (s.cons.ready U).head? = some ctrlD)
  /-- at a ^D that it took -/
  | eof (h0 : (s.calls id).IsEof) (h : s.obtained.getLast? = some (id, ctrlD))

section
variable {U : Nat} {s : Sys} {l : Line} {p id n : Nat}

theorem taken_append (o : List (Nat × UInt8)) (bs : List UInt8) (id id' : Nat) :
    ((o ++ bs.map fun b => (id, b)).filter fun x => x.1 = id').map (fun x => x.2) =
      ((o.filter fun x => x.1 = id').map fun x => x.2) ++ if id = id' then bs else [] := by
  rw [List.filter_append, List.map_append]
  congr 1
  by_cases h : id = id'
  · rw [if_pos h, List.filter_eq_self.mpr, List.map_map]
    · exact List.map_id bs
    · intro x hx
      obtain ⟨b, -, rfl⟩ := List.mem_map.mp hx
      exact decide_eq_true h
  · rw [if_neg h, List.filter_eq_nil_iff.mpr]
    · rfl
    · intro x hx
      obtain ⟨b, -, rfl⟩ := List.mem_map.mp hx
      simpa using h

theorem newline_dropLast {got data : List UInt8} (hg : newline ∉ got) (hd : newline ∉ data.dropLast) :
    newline ∉ (got ++ data).dropLast := by
  cases data with
  | nil =>
    rw [List.append_nil]
    exact fun h => hg (List.dropLast_subset _ h)
  | cons c data =>
    rw [List.dropLast_append_of_ne_nil (List.cons_ne_nil _ _), List.mem_append]
    exact not_or.mpr ⟨hg, hd⟩

/-- A segment: the bytes it took and how it ended. -/
structure Seg (U : Nat) (s s' : Sys) (l l' : Line) (p id n : Nat) (data tail : List UInt8) (n' : Nat) (stop : Stop) :
    Prop where
  rep : Rep U s'.cons l'
  ready : l.ready = data ++ tail ++ l'.ready
  left : n' + data.length = n
  no_eof : ctrlD ∉ data
  line : newline ∉ data.dropLast
  ends : Ends (s.killed p) (s.calls id).target data n' tail l'.ready stop
  frame : s'.committed = s.committed ∧ s'.killed = s.killed ∧ s'.count = s.count ∧ s'.cons.w = s.cons.w
  obtained : s'.obtained = s.obtained ++ (data ++ tail).map fun b => (id, b)
  reader : s'.reader = update s.reader p (if stop = .sleep then some ⟨id, true, n'⟩ else none)
  calls : s'.calls = update s.calls id
    { s.calls id with
      got := (s.calls id).got ++ data
      result := if stop = .sleep then none else if stop = .killed then some (-1)
        else some (((s.calls id).target : Int) - n') }

theorem segment_seg (h : Rep U s.cons l) (p id n : Nat) :
    ∃ l' data tail n' stop, Seg U s (segment U s p id n) l l' p id n data tail n' stop := by
  obtain ⟨data, tail, ready', r', n', stop, heq, hrep, hready, hitems, hn, hD, hN, hends⟩ :=
    readLoop_spec (s.killed p) (s.calls id).target n (s.calls id).got h
  refine ⟨⟨ready', l.edit⟩, data, tail, n', stop, ?_⟩
  unfold segment
  simp only [heq, hitems]
  exact ⟨hrep, hready, hn, hD, hN, hends, ⟨rfl, rfl, rfl, rfl⟩, rfl, rfl, rfl⟩

section
variable {s' : Sys} {l' : Line} {data tail : List UInt8} {n' : Nat} {stop : Stop}
  (g : Seg U s s' l l' p id n data tail n' stop)
include g

theorem Seg.call_self : s'.calls id = { s.calls id with
      got := (s.calls id).got ++ data
      result := if stop = .sleep then none else if stop = .killed then some (-1)
        else some (((s.calls id).target : Int) - n') } := by
  rw [g.calls, update_self]

theorem Seg.call_of_ne {id' : Nat} (hne : id' ≠ id) : s'.calls id' = s.calls id' := by
  rw [g.calls, update_of_ne hne]

theorem Seg.taken (id' : Nat) : taken s' id' = taken s id' ++ if id = id' then data ++ tail else [] := by
  rw [Console.taken, g.obtained, taken_append]
  rfl

theorem Seg.length (hw : Waits s p id n) : (s'.calls id).got.length = (s.calls id).got.length + data.length ∧
      n' + (s'.calls id).got.length = (s.calls id).target := by
  have hlen : (s'.calls id).got.length = (s.calls id).got.length + data.length := by
    rw [g.call_self]
    exact List.length_append
  have h1 := hw.left
  have h2 := g.left
  exact ⟨hlen, by omega⟩

theorem Seg.tail_eq (hw : Waits s p id n) : tail = if (s'.calls id).IsEof then [ctrlD] else [] := by
  have hlen := g.length hw
  have hnot : ∀ {r : Option Int}, (s'.calls id).result = r → (r = some 0 → (s'.calls id).target = 0) →
      [] = if (s'.calls id).IsEof then [ctrlD] else [] := by
    intro r hr h0
    refine (if_neg fun he => ?_).symm
    have := h0 (hr.symm.trans he.1)
    exact absurd he.2 (by omega)
  have htarget : (s'.calls id).target = (s.calls id).target := by rw [g.call_self]
  have hres := congrArg Call.result g.call_self
  have hends := g.ends
  generalize l'.ready = ready at hends
  cases hends with
  | full =>
    refine hnot hres fun h0 => ?_
    have := Option.some.inj h0
    omega
  | line _ _ hl =>
    refine hnot hres fun h0 => ?_
    have h1 := Option.some.inj h0
    have hpos : 0 < data.length := by
      cases data with
      | nil => cases hl
      | cons c data => exact Nat.succ_pos _
    omega
  | saved _ _ h0 hlt =>
    refine hnot hres fun h1 => ?_
    have := Option.some.inj h1
    omega
  | eof _ _ h0 hle =>
    refine (if_pos ⟨?_, by omega⟩).symm
    rw [hres]
    exact congrArg some (by omega)
  | sleep => exact hnot hres nofun
  | killed => exact hnot hres nofun

theorem Seg.callOk (hw : Waits s p id n) (hc : CallOk s id) : CallOk s' id := by
  have hlen := g.length hw
  have hcall := g.call_self
  have hgot : (s'.calls id).got = (s.calls id).got ++ data := by rw [hcall]
  have hnot : ¬ (s.calls id).IsEof := fun he => by
    have := hw.result.symm.trans he.1
    cases this
  constructor
  case taken =>
    rw [g.taken, if_pos rfl, hc.taken, if_neg hnot, List.append_nil, ← g.tail_eq hw, hgot, List.append_assoc]
  case no_eof =>
    rw [hgot, List.mem_append]
    exact not_or.mpr ⟨hc.no_eof, g.no_eof⟩
  case line =>
    rw [hgot]
    exact newline_dropLast hw.line g.line
  case len =>
    have htarget : (s'.calls id).target = (s.calls id).target := by rw [hcall]
    omega
  case result =>
    intro r hr
    rw [g.frame.2.1, hcall]
    rw [hcall] at hr
    rw [show (s.calls id).pid = p from hw.pid]
    have hret : some (((s.calls id).target : Int) - n') = some r → r = ((s.calls id).got ++ data).length := by
      intro h
      have := Option.some.inj h
      rw [hgot] at hlen
      omega
    have hends := g.ends
    generalize l'.ready = ready at hends
    cases hends with
    | full => exact .inr (hret hr)
    | line => exact .inr (hret hr)
    | saved => exact .inr (hret hr)
    | eof => exact .inr (hret hr)
    | sleep => cases hr
    | killed _ _ hk => exact .inl ⟨(Option.some.inj hr).symm, hk⟩

theorem Seg.pending (hw : Waits s p id n) : Pending s' id := by
  have hlen := g.length hw
  have hcall := g.call_self
  intro hr
  rw [hcall] at hr ⊢
  have hends := g.ends
  generalize l'.ready = ready at hends
  cases hends with
  | sleep _ h0 hn =>
    refine ⟨fun hm => (List.mem_append.mp hm).elim hw.line hn, ?_⟩
    rw [hcall] at hlen
    show ((s.calls id).got ++ data).length < (s.calls id).target
    simp only at hlen
    omega
  | full => cases hr
  | line => cases hr
  | saved => cases hr
  | eof => cases hr
  | killed => cases hr

theorem Seg.inv (h : Inv U s l) (hw : Waits s p id n) : Inv U s' l' := by
  obtain ⟨hcom, hkill, hcount, -⟩ := g.frame
  constructor
  case rep => exact g.rep
  case bytes =>
    rw [hcom, h.bytes, g.obtained, g.ready]
    simp
  case fresh =>
    intro x hx
    rw [hcount]
    rw [g.obtained, List.mem_append] at hx
    rcases hx with hx | hx
    · exact h.fresh x hx
    · obtain ⟨b, -, rfl⟩ := List.mem_map.mp hx
      exact hw.lt
  case waits =>
    intro q x hx
    rw [g.reader] at hx
    by_cases hq : q = p
    · subst hq
      rw [update_self] at hx
      by_cases hstop : stop = .sleep
      · rw [if_pos hstop] at hx
        cases hx
        have hlen := g.length hw
        have hcall := g.call_self
        refine ⟨hcount ▸ hw.lt, ?_, ?_, ?_, ?_⟩
        · rw [hcall]
          exact hw.pid
        · rw [hcall]
          exact if_pos hstop
        · have htarget : (s'.calls id).target = (s.calls id).target := by rw [hcall]
          show n' + (s'.calls id).got.length = (s'.calls id).target
          omega
        · refine (g.pending hw ?_).1
          rw [hcall]
          exact if_pos hstop
      · rw [if_neg hstop] at hx
        cases hx
    · rw [update_of_ne hq] at hx
      have hwq := h.waits q x hx
      have hne : x.call ≠ id := fun he => hq (hwq.pid.symm.trans (he ▸ hw.pid))
      have hcall := g.call_of_ne hne
      exact ⟨hcount ▸ hwq.lt, by rw [hcall]; exact hwq.pid, by rw [hcall]; exact hwq.result,
        by rw [hcall]; exact hwq.left, by rw [hcall]; exact hwq.line⟩
  case calls =>
    intro id' hid
    rw [hcount] at hid
    by_cases he : id' = id
    · subst he
      exact g.callOk hw (h.calls _ hid)
    · have hc := h.calls id' hid
      have hcall := g.call_of_ne he
      have htaken : Console.taken s' id' = Console.taken s id' := by
        rw [g.taken, if_neg (Ne.symm he), List.append_nil]
      exact ⟨by rw [htaken, hcall]; exact hc.taken, by rw [hcall]; exact hc.no_eof, by rw [hcall]; exact hc.line,
        by rw [hcall]; exact hc.len, by rw [hcall, hkill]; exact hc.result⟩

theorem Seg.returned (hw : Waits s p id n) (hr : (s'.calls id).result ≠ none) : Returned U s' id := by
  have hlen := g.length hw
  have htail := g.tail_eq hw
  have hcall := g.call_self
  have hob := g.obtained
  have hpid : s'.killed (s'.calls id).pid = s.killed p := by
    rw [g.frame.2.1, hcall]
    exact congrArg s.killed hw.pid
  have hrep := g.rep
  have htarget : (s'.calls id).target = (s.calls id).target := by rw [hcall]
  have hends := g.ends
  generalize hready : l'.ready = ready at hends
  cases hends with
  | full => exact .full (by omega)
  | line _ _ hl =>
    refine .line ?_
    rw [hcall]
    show ((s.calls id).got ++ data).getLast? = some newline
    rw [List.getLast?_append, hl]
    rfl
  | saved _ ready h0 hlt =>
    refine .saved ?_ ?_
    · intro hnil
      rw [hnil, List.length_nil] at hlen
      omega
    · rw [hrep.ready, hready]
      rfl
  | eof =>
    refine .eof ?_ ?_
    · by_contra hne
      rw [if_neg hne] at htail
      cases htail
    · rw [hob, List.map_append, ← List.append_assoc, List.getLast?_append]
      rfl
  | sleep =>
    rw [hcall] at hr
    exact absurd rfl hr
  | killed _ _ hk =>
    refine .killed ?_ (hpid.trans hk)
    rw [hcall]
    rfl

theorem Seg.starts_at_eof (hw : Waits s p id n) (hgot : (s.calls id).got = []) (h0 : 0 < (s.calls id).target)
    (hready : l.ready.head? = some ctrlD) : (s'.calls id).IsEof ∧ l.ready = ctrlD :: l'.ready := by
  have hleft := hw.left
  have htail := g.tail_eq hw
  rw [hgot, List.length_nil] at hleft
  rcases g with ⟨-, hsplit, hn, hno, -, hends, -, -, -, -⟩
  have hdata : data = [] := by
    cases data with
    | nil => rfl
    | cons c data =>
      rw [hsplit] at hready
      cases Option.some.inj hready
      exact absurd List.mem_cons_self hno
  subst hdata
  rw [List.length_nil] at hn
  rw [hsplit] at hready
  generalize hr' : l'.ready = ready at hends hready
  cases hends with
  | full => omega
  | line _ _ hl => cases hl
  | saved => omega
  | eof =>
    refine ⟨?_, by rw [hsplit, hr']; rfl⟩
    by_contra hne
    rw [if_neg hne] at htail
    cases htail
  | sleep => cases hready
  | killed => cases hready

end

end

/-! ## Every step -/

/-- The call that a step works on. -/
def Event.call (s : Sys) : Event → Option Nat
  | .read _ _ => some s.count
  | .resume p => (s.reader p).map fun x => x.call
  | _ => none

section
variable {U : Nat} {s s' : Sys} {l : Line}

/-- What a step does with the call it works on. -/
structure StepOk (U : Nat) (s s' : Sys) (e : Event) : Prop where
  committed : s'.committed = s.committed ++ advance U s.cons s'.cons
  returned : ∀ id < s'.count, (s'.calls id).result ≠ none → (s.count ≤ id ∨ (s.calls id).result = none) →
    Returned U s' id
  eof : ∀ id, e.call s = some id → 0 < (s'.calls id).target → (s.count ≤ id ∨ (s.calls id).got = []) →
    (s.cons.ready U).head? = some ctrlD → (s'.calls id).IsEof ∧ s.cons.ready U = ctrlD :: s'.cons.ready U

def Good (U : Nat) (s : Sys) (l : Line) : Prop := Inv U s l ∧ ∀ id < s.count, Pending s id

theorem good_intr (h : Good U s l) (c : UInt8) (hs : step U s (.intr c) = some s') :
    (∃ l', Good U s' l') ∧ StepOk U s s' (.intr c) := by
  obtain ⟨h, hp⟩ := h
  injection hs with hs
  obtain ⟨edit', hrep, -⟩ := consoleintr_spec h.rep c
  subst hs
  refine ⟨⟨_, ⟨hrep, ?_, h.fresh, ?_, fun id hid => ?_⟩, hp⟩, rfl, ?_, nofun⟩
  · show s.committed ++ _ = _
    rw [h.bytes, List.append_assoc]
  · intro p x hx
    -- a wakeup changes who sleeps, not who waits
    have hwait : ∃ y, s.reader p = some y ∧ y.call = x.call ∧ y.n = x.n := by
      replace hx : (if (consoleintr U c s.cons).2 then wake (s.reader p) else s.reader p) = some x := hx
      split at hx
      · obtain ⟨y, hy, rfl⟩ := Option.map_eq_some_iff.mp hx
        exact ⟨y, hy, rfl, rfl⟩
      · exact ⟨x, hx, rfl, rfl⟩
    obtain ⟨y, hy, hc, hn⟩ := hwait
    rw [← hc, ← hn]
    have hw := h.waits p y hy
    exact ⟨hw.lt, hw.pid, hw.result, hw.left, hw.line⟩
  · have hc := h.calls id hid
    exact ⟨hc.taken, hc.no_eof, hc.line, hc.len, hc.result⟩
  · intro id hid hr hnew
    rcases hnew with hnew | hnew
    · exact absurd hid (Nat.not_lt.mpr hnew)
    · exact absurd hnew hr

theorem good_kill (h : Good U s l) (p : Nat) (hs : step U s (.kill p) = some s') :
    (∃ l', Good U s' l') ∧ StepOk U s s' (.kill p) := by
  obtain ⟨h, hp⟩ := h
  cases hs
  refine ⟨⟨l, ⟨h.rep, h.bytes, h.fresh, ?_, fun id hid => ?_⟩, hp⟩, ?_, ?_, nofun⟩
  · intro q x hx
    have hwait : ∃ y, s.reader q = some y ∧ y.call = x.call ∧ y.n = x.n := by
      replace hx : update s.reader p (wake (s.reader p)) q = some x := hx
      by_cases hq : q = p
      · subst hq
        rw [update_self] at hx
        obtain ⟨y, hy, rfl⟩ := Option.map_eq_some_iff.mp hx
        exact ⟨y, hy, rfl, rfl⟩
      · rw [update_of_ne hq] at hx
        exact ⟨x, hx, rfl, rfl⟩
    obtain ⟨y, hy, hc, hn⟩ := hwait
    rw [← hc, ← hn]
    have hw := h.waits q y hy
    exact ⟨hw.lt, hw.pid, hw.result, hw.left, hw.line⟩
  · have hc := h.calls id hid
    refine ⟨hc.taken, hc.no_eof, hc.line, hc.len, fun r hr => (hc.result r hr).imp_left ?_⟩
    rintro ⟨h1, h2⟩
    refine ⟨h1, ?_⟩
    show update s.killed p true (s.calls id).pid = true
    by_cases hq : (s.calls id).pid = p
    · rw [hq, update_self]
    · rw [update_of_ne hq]
      exact h2
  · show s.committed = s.committed ++ items INPUT_BUF_SIZE U s.cons.buf s.cons.w s.cons.w
    rw [items, count_self h.rep.w_lt]
    exact (List.append_nil _).symm
  · intro id hid hr hnew
    rcases hnew with hnew | hnew
    · exact absurd hid (Nat.not_lt.mpr hnew)
    · exact absurd hnew hr

theorem good_segment (h : Inv U s l) {p id n : Nat} (hp : ∀ id' < s.count, id' ≠ id → Pending s id')
    (hw : Waits s p id n) : ∃ l', Good U (segment U s p id n) l' ∧
      (segment U s p id n).committed = s.committed ++ advance U s.cons (segment U s p id n).cons ∧
      (∀ id' < (segment U s p id n).count, ((segment U s p id n).calls id').result ≠ none →
        (s.calls id').result = none → Returned U (segment U s p id n) id') ∧
      ((s.calls id).got = [] → 0 < (s.calls id).target → (s.cons.ready U).head? = some ctrlD →
        ((segment U s p id n).calls id).IsEof ∧ s.cons.ready U = ctrlD :: (segment U s p id n).cons.ready U) := by
  obtain ⟨l', data, tail, n', stop, g⟩ := segment_seg h.rep p id n
  refine ⟨l', ⟨g.inv h hw, fun id' hid => ?_⟩, ?_, fun id' _ hr hnew => ?_, fun hgot h0 hready => ?_⟩
  · by_cases he : id' = id
    · subst he
      exact g.pending hw
    · rw [Pending, g.call_of_ne he]
      exact hp id' (g.frame.2.2.1 ▸ hid) he
  · rw [g.frame.1, advance, g.frame.2.2.2, items, count_self h.rep.w_lt]
    exact (List.append_nil _).symm
  · by_cases he : id' = id
    · subst he
      exact g.returned hw hr
    · rw [g.call_of_ne he] at hr
      exact absurd hnew hr
  · rw [h.rep.ready] at hready ⊢
    rw [g.rep.ready]
    exact g.starts_at_eof hw hgot h0 hready

theorem good_read (h : Good U s l) (p : Nat) (n : Int) (hs : step U s (.read p n) = some s') :
    (∃ l', Good U s' l') ∧ StepOk U s s' (.read p n) := by
  obtain ⟨h, hp⟩ := h
  simp only [step] at hs
  split at hs
  · cases hs
  injection hs with hs
  obtain ⟨s0, hs0⟩ : ∃ s0 : Sys, s0 = { s with
      calls := update s.calls s.count ⟨p, n.toNat, [], none⟩, count := s.count + 1 } := ⟨_, rfl⟩
  rw [← hs0] at hs
  have hcount : s0.count = s.count + 1 := by rw [hs0]
  have hnew : s0.calls s.count = ⟨p, n.toNat, [], none⟩ := by
    rw [hs0]
    exact update_self ..
  have hold : ∀ {id}, id ≠ s.count → s0.calls id = s.calls id := by
    intro id hne
    rw [hs0]
    exact update_of_ne hne _ _
  have hcons : s0.cons = s.cons := by rw [hs0]
  have hob : s0.obtained = s.obtained := by rw [hs0]
  have hkilled : s0.killed = s.killed := by rw [hs0]
  have hw : Waits s0 p s.count n.toNat := by
    refine ⟨by omega, ?_, ?_, ?_, ?_⟩ <;> rw [hnew]
    · rfl
    · exact List.not_mem_nil
  have hi : Inv U s0 l := by
    constructor
    case rep => exact hcons ▸ h.rep
    case bytes =>
      rw [hob, hs0]
      exact h.bytes
    case fresh =>
      intro x hx
      rw [hob] at hx
      exact hcount ▸ Nat.lt_succ_of_lt (h.fresh x hx)
    case waits =>
      intro q x hx
      rw [hs0] at hx
      have hwq := h.waits q x hx
      have hc := hold (Nat.ne_of_lt hwq.lt)
      exact ⟨hcount ▸ Nat.lt_succ_of_lt hwq.lt, by rw [hc]; exact hwq.pid, by rw [hc]; exact hwq.result,
        by rw [hc]; exact hwq.left, by rw [hc]; exact hwq.line⟩
    case calls =>
      intro id hid
      rw [hcount] at hid
      by_cases he : id = s.count
      · subst he
        have hnone : taken s0 s.count = [] := by
          rw [taken, hob, List.filter_eq_nil_iff.mpr]
          · rfl
          · intro x hx
            simpa using Nat.ne_of_lt (h.fresh x hx)
        refine ⟨?_, ?_, ?_, ?_, ?_⟩ <;> rw [hnew]
        · rw [hnone]
          rfl
        · exact List.not_mem_nil
        · exact List.not_mem_nil
        · exact Nat.zero_le _
        · exact nofun
      · have hc := h.calls id (by omega)
        refine ⟨?_, ?_, ?_, ?_, ?_⟩ <;> rw [hold he]
        · rw [taken, hob]
          exact hc.taken
        · exact hc.no_eof
        · exact hc.line
        · exact hc.len
        · rw [hkilled]
          exact hc.result
  have hpend : ∀ id' < s0.count, id' ≠ s.count → Pending s0 id' := by
    intro id' hid hne
    rw [Pending, hold hne]
    exact hp id' (by omega)
  obtain ⟨l', hgood, hcom, hret, heof⟩ := good_segment hi hpend hw
  rw [hs] at hgood hcom hret heof
  refine ⟨⟨l', hgood⟩, ?_, ?_, ?_⟩
  · rw [hcom, hs0]
  · intro id hid hr hnone
    refine hret id hid hr ?_
    by_cases he : id = s.count
    · rw [he, hnew]
    · have hcount' : s'.count = s0.count := by rw [← hs, segment]
      rw [hold he]
      exact hnone.resolve_left (by omega)
  · intro id hid h0 _ hready
    cases Option.some.inj hid
    rw [hnew, hcons] at heof
    refine heof rfl ?_ hready
    have htarget : (s'.calls s.count).target = (s0.calls s.count).target := by
      rw [← hs, segment]
      simp
    rw [htarget, hnew] at h0
    exact h0

theorem good_resume (h : Good U s l) (p : Nat) (hs : step U s (.resume p) = some s') :
    (∃ l', Good U s' l') ∧ StepOk U s s' (.resume p) := by
  obtain ⟨h, hp⟩ := h
  simp only [step] at hs
  split at hs
  · cases hs
  next x hx =>
  split at hs
  · cases hs
  injection hs with hs
  have hw := h.waits p x hx
  obtain ⟨l', hgood, hcom, hret, heof⟩ := good_segment h (fun id hid _ => hp id hid) hw
  rw [hs] at hgood hcom hret heof
  have hcount : s'.count = s.count := by rw [← hs, segment]
  refine ⟨⟨l', hgood⟩, hcom, fun id hid hr hnew => hret id hid hr (hnew.resolve_left (by omega)), ?_⟩
  intro id hid h0 hgot hready
  have hid' : x.call = id := by
    rw [Event.call, hx] at hid
    exact Option.some.inj hid
  subst hid'
  have hlt := hw.lt
  refine heof (hgot.resolve_left (by omega)) ?_ hready
  have htarget : (s'.calls x.call).target = (s.calls x.call).target := by
    rw [← hs, segment]
    simp
  rwa [htarget] at h0

theorem good_step (h : Good U s l) (e : Event) (hs : step U s e = some s') :
    (∃ l', Good U s' l') ∧ StepOk U s s' e := by
  cases e with
  | intr c => exact good_intr h c hs
  | kill p => exact good_kill h p hs
  | read p n => exact good_read h p n hs
  | resume p => exact good_resume h p hs

theorem good_initial (hdvd : INPUT_BUF_SIZE ∣ U) (hbig : INPUT_BUF_SIZE + 1 < U) (h : Initial U s) :
    Good U s ⟨[], []⟩ := by
  have hnone : ∀ {id}, ¬ id < s.count := fun {id} => by
    rw [h.count]
    exact Nat.not_lt_zero id
  have hempty : ∀ i < U, items INPUT_BUF_SIZE U s.cons.buf i i = [] := by
    intro i hi
    rw [items, count_self hi]
    rfl
  refine ⟨⟨⟨hdvd, hbig, h.r_lt, h.w_eq ▸ h.r_lt, h.e_eq ▸ h.r_lt, ?_, ?_, Nat.zero_le _, fun _ => rfl⟩, ?_, ?_, ?_, ?_⟩,
    ?_⟩
  · rw [Cons.ready, h.w_eq]
    exact hempty _ h.r_lt
  · rw [Cons.edit, h.w_eq, h.e_eq]
    exact hempty _ h.r_lt
  · rw [h.committed, h.obtained]
    rfl
  · rw [h.obtained]
    exact fun x hx => absurd hx List.not_mem_nil
  · intro p x hx
    rw [h.reader] at hx
    cases hx
  · exact fun id hid => absurd hid hnone
  · exact fun id hid => absurd hid hnone

theorem good_reachable (hdvd : INPUT_BUF_SIZE ∣ U) (hbig : INPUT_BUF_SIZE + 1 < U) (h : Reachable U s) :
    ∃ l, Good U s l :=
  h.invariant (fun s => ∃ l, Good U s l) (fun _ hi => ⟨_, good_initial hdvd hbig hi⟩)
    fun _ e _ hg _ hs => (good_step hg.choose_spec e hs).1

end

/-- **The line discipline of the console**, for every interleaving of interrupts and reads, with indexes that wrap
around.  The indexes are in order, and a full buffer is committed as a whole; backspace and kill-line remove bytes
from the end of the edited line; what was committed is what readers obtained, in this order, and what is ready for
them.  A call takes the bytes it gives to the user, at most `n`, and nothing after a newline, or it takes one ^D and
returns 0.  Each step commits what `cons.w` passes; a call that returns in it has its bytes, a line, or has met a ^D;
and a call that starts at a ^D takes it. -/
theorem console_line_discipline (s : Sys) (h : Reachable U32 s) :
    (count U32 s.cons.r s.cons.w ≤ count U32 s.cons.r s.cons.e ∧
      count U32 s.cons.r s.cons.e ≤ INPUT_BUF_SIZE ∧
      (count U32 s.cons.r s.cons.e = INPUT_BUF_SIZE → s.cons.w = s.cons.e)) ∧
    (∀ c, c = ctrlH ∨ c = delete ∨ c = ctrlU →
      (consoleintr U32 c s.cons).1.buf = s.cons.buf ∧ (consoleintr U32 c s.cons).1.r = s.cons.r ∧
      (consoleintr U32 c s.cons).1.w = s.cons.w ∧
      ∃ gone, s.cons.edit U32 = (consoleintr U32 c s.cons).1.edit U32 ++ gone) ∧
    s.committed = (s.obtained.map fun x => x.2) ++ s.cons.ready U32 ∧
    (∀ id < s.count, CallOk s id ∧ Pending s id) ∧
    ∀ e s', step U32 s e = some s' → StepOk U32 s s' e := by
  obtain ⟨l, hg⟩ := good_reachable (by decide) (by decide) h
  have hi := hg.1
  refine ⟨hi.rep.bounds, fun c hc => consoleintr_erase hi.rep hc, ?_, fun id hid => ⟨hi.calls id hid, hg.2 id hid⟩,
    fun e s' hs => (good_step hg e hs).2⟩
  rw [hi.rep.ready]
  exact hi.bytes

/-- No input yet, and the next index wraps around. -/
def atWrap : Sys :=
  { cons := ⟨fun _ => 0, 2 ^ 32 - 1, 2 ^ 32 - 1, 2 ^ 32 - 1⟩
    reader := fun _ => none
    killed := fun _ => false
    committed := []
    obtained := []
    calls := fun _ => ⟨0, 0, [], none⟩
    count := 0 }

/-- A reader waits, a line is typed with a correction, and the reader gets it. -/
theorem console_line_discipline_wrap : ∃ s, Run.run (step U32) atWrap
      [.read 7 80, .intr 97, .intr 98, .intr ctrlH, .intr carriageReturn, .resume 7] = some s ∧
    s.cons.r = 1 ∧ (s.calls 0).result = some 2 ∧ s.committed = (s.obtained.map fun x => x.2) ++ s.cons.ready U32 := by
  obtain ⟨es, hes⟩ : ∃ es : List Event, es =
    [.read 7 80, .intr 97, .intr 98, .intr ctrlH, .intr carriageReturn, .resume 7] := ⟨_, rfl⟩
  have hv : (Run.run (step U32) atWrap es).map (fun s => (s.cons.r, (s.calls 0).result)) = some (1, some 2) := by
    rw [hes]
    decide +kernel
  obtain ⟨s, hs, hv⟩ := Option.map_eq_some_iff.mp hv
  rw [Prod.mk.injEq] at hv
  have hreach : Reachable U32 s := by
    refine Run.Reach.of_run (fun _ _ => trivial) es (.start ?_) hs
    exact ⟨by decide, rfl, rfl, fun _ => rfl, rfl, rfl, rfl⟩
  exact ⟨s, hes ▸ hs, hv.1, hv.2, (console_line_discipline s hreach).2.2.1⟩

end Xv6.Console
