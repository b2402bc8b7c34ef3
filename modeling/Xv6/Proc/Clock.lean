import Xv6.Proc.Kernel

/-!
# `sys_sleep` and the clock

A call of `sys_sleep(n)` against any clock: interrupts come between any two of its
operations, and `sleep` returns whenever it likes.  A test of the condition is a read of
`ticks`; the first read is that of `ticks0`.  The first test with `n` interrupts since the
entry is the last, and no return comes before it, exactly if at every test the unsigned
comparison agrees with the number of interrupts (`sys_sleep_waits`): so for `n` not negative,
fewer than `2 ^ 32` interrupts and none before `ticks0` is read.  For a negative `n` the
process sleeps (`sys_sleep_negative`).
-/

namespace Xv6.Proc

open Cpus

/-- What an operation can answer after `c` clock interrupts, if the counter was `t0` on entry
and the process is not killed. -/
def Sees (t0 : UInt32) (c : Nat) {β : Type} (o : Op β) (b : β) : Prop :=
  match o with
  | .ticks => b = t0 + UInt32.ofNat c
  | .killed _ _ => b = false
  | _ => True

/-- The reads of `ticks`, each by the number of interrupts before it. -/
def reads (l : List Nat) (c : Nat) {β : Type} (o : Op β) : List Nat :=
  match o with
  | .ticks => l ++ [c]
  | _ => l

/-- The call `q` has come to `p` after `c` interrupts. -/
inductive Reach (t0 : UInt32) (q : K Int) : Nat → List Nat → K Int → Prop
  | start : Reach t0 q 0 [] q
  | clockintr {c l p} (h : Reach t0 q c l p) : Reach t0 q (c + 1) l p
  | op {c l} {β : Type} {o : Op β} {k b} (h : Reach t0 q c l (.op o k)) (hb : Sees t0 c o b) :
      Reach t0 q c (reads l c o) (k b)
  | loop {c l} {β γ : Type} {body : γ → K (γ ⊕ β)} {x k} (h : Reach t0 q c l (.loop body x k)) :
      Reach t0 q c l (unroll body x k)

def leave : K Int := .op (.release .ticks) fun _ => .ret 0

/-- The body of the loop of `sys_sleep` where the condition holds. -/
def waiting : K (Unit ⊕ Int) := do
  let p ← me
  if ← killed p true then
    release .ticks
    pure (.inr (-1))
  else
    sleep .ticks .ticks
    pure (.inl ())

def sleepLoop (ticks0 n : UInt32) : K Int :=
  iterate (fun _ : Unit => do
    if (← perform .ticks) - ticks0 < n then waiting
    else
      release .ticks
      pure (.inr 0)) ()

theorem sysSleep_eq (n : UInt32) :
    sysSleep n = .op (.acquire .ticks) fun _ => .op .ticks fun ticks0 => sleepLoop ticks0 n :=
  rfl

/-- The body once more, and back to the loop. -/
def turn (ticks0 n : UInt32) : K Int := waiting >>= fun r =>
  match r with
  | .inl _ => sleepLoop ticks0 n
  | .inr b => .ret b

theorem sleepLoop_turn {ticks0 n : UInt32} {β γ : Type} {body : γ → K (γ ⊕ β)} {x : γ} {k : β → K Int}
    (h : .loop body x k = sleepLoop ticks0 n) :
    unroll body x k = .op .ticks fun t => if t - ticks0 < n then turn ticks0 n else leave := by
  cases h
  refine congrArg (Prog.op Op.ticks) (funext fun t => ?_)
  by_cases ht : t - ticks0 < n
  · rw [if_pos ht]
    show Prog.bind (if _ then _ else _) _ = _
    rw [if_pos ht]
    exact congrArg (waiting >>= ·) (funext fun r => by cases r <;> rfl)
  · rw [if_neg ht]
    show Prog.bind (if _ then _ else _) _ = _
    rw [if_neg ht]
    rfl

/-- `p` neither tests nor returns before it is back at `q`. -/
def Quiet {α : Type} (q : K α) : K α → Prop
  | .ret _ => False
  | .op o k => (∀ l c, reads l c o = l) ∧ ∀ b t0 c, Sees t0 c o b → Quiet q (k b)
  | .loop body x k => .loop body x k = q

theorem Quiet.step {α β : Type} {q : K α} {o : Op β} {k : β → K α} (hr : ∀ l c, reads l c o = l)
    (hk : ∀ b, Quiet q (k b)) : Quiet q (.op o k) :=
  ⟨hr, fun b _ _ _ => hk b⟩

theorem quiet_me {α : Type} {q : K α} {f : Pr → K α} (hf : ∀ p, Quiet q (f p)) : Quiet q (me >>= f) := by
  refine Quiet.step (fun _ _ => rfl) fun b => ?_
  cases b with
  | some p => exact hf p
  | none => exact Quiet.step (fun _ _ => rfl) fun _ => hf initproc

theorem quiet_turn (ticks0 n : UInt32) : Quiet (sleepLoop ticks0 n) (turn ticks0 n) := by
  unfold turn waiting
  rw [bind_assoc]
  refine quiet_me fun p => Quiet.step (fun _ _ => rfl) fun _ => ?_
  refine ⟨fun _ _ => rfl, fun b _ _ hb => ?_⟩
  cases show b = false from hb
  refine Quiet.step (fun _ _ => rfl) fun _ => ?_
  show Quiet _ ((do sleep .ticks .ticks; pure (Sum.inl ())) >>= _)
  unfold sleep
  rw [bind_assoc, bind_assoc]
  refine quiet_me fun p => ?_
  iterate 9 refine Quiet.step (fun _ _ => rfl) fun _ => ?_
  rfl

/-! ## Where a call is -/

/-- The condition of the loop, read after `c0` and `x` interrupts. -/
def Early (t0 n : UInt32) (c0 x : Nat) : Prop := t0 + UInt32.ofNat x - (t0 + UInt32.ofNat c0) < n

inductive Stage (t0 n : UInt32) (c : Nat) : List Nat → K Int → Prop
  | entry {p} (hp : p = sysSleep n ∨ p = .op .ticks fun ticks0 => sleepLoop ticks0 n) : Stage t0 n c [] p
  | waits {c0 ts p} (h0 : c0 ≤ c) (hge : ∀ x ∈ ts, c0 ≤ x) (hts : ∀ x ∈ ts, Early t0 n c0 x)
      (hp : Quiet (sleepLoop (t0 + UInt32.ofNat c0) n) p ∨ p = .op .ticks fun t =>
        if t - (t0 + UInt32.ofNat c0) < n then turn (t0 + UInt32.ofNat c0) n else leave) :
      Stage t0 n c (c0 :: ts) p
  | leaves {c0 ts x p} (hge : ∀ y ∈ ts ++ [x], c0 ≤ y) (hts : ∀ y ∈ ts, Early t0 n c0 y)
      (hx : ¬ Early t0 n c0 x) (hp : p = leave ∨ p = .ret 0) : Stage t0 n c (c0 :: (ts ++ [x])) p

section
variable {t0 n : UInt32} {c : Nat} {l : List Nat} {p : K Int}

theorem Stage.later (h : Stage t0 n c l p) : Stage t0 n (c + 1) l p := by
  cases h with
  | entry hp => exact .entry hp
  | waits h0 hge hts hp => exact .waits (Nat.le_succ_of_le h0) hge hts hp
  | leaves hge hts hx hp => exact .leaves hge hts hx hp

theorem Stage.op {β : Type} {o : Op β} {k : β → K Int} {b : β} (h : Stage t0 n c l (.op o k))
    (hb : Sees t0 c o b) : Stage t0 n c (reads l c o) (k b) := by
  cases h with
  | entry hp =>
    rw [sysSleep_eq] at hp
    rcases hp with hp | hp
    · cases hp
      exact .entry (Or.inr rfl)
    · cases hp
      cases show b = _ from hb
      exact .waits le_rfl (by simp) (by simp) (Or.inl rfl)
  | @waits c0 ts _ h0 hge hts hp =>
    rcases hp with ⟨hr, hk⟩ | hp
    · rw [hr]
      exact .waits h0 hge hts (Or.inl (hk b t0 c hb))
    -- a test: it ends the call or another sleep begins
    · cases hp
      cases show b = _ from hb
      have hge' : ∀ x ∈ ts ++ [c], c0 ≤ x := by
        intro x hx
        rcases List.mem_append.1 hx with hx | hx
        · exact hge x hx
        · rwa [List.mem_singleton.1 hx]
      by_cases he : Early t0 n c0 c
      · refine .waits h0 hge' (fun x hx => ?_) (Or.inl ?_)
        · rcases List.mem_append.1 hx with hx | hx
          · exact hts x hx
          · rwa [List.mem_singleton.1 hx]
        · show Quiet _ (ite _ _ _)
          rw [if_pos (show _ < n from he)]
          exact quiet_turn _ _
      · exact .leaves hge' hts he (Or.inl (if_neg he))
  | leaves hge hts hx hp =>
    rcases hp with hp | hp
    · cases hp
      exact .leaves hge hts hx (Or.inr rfl)
    · cases hp

theorem Stage.loop {β γ : Type} {body : γ → K (γ ⊕ β)} {x : γ} {k : β → K Int}
    (h : Stage t0 n c l (.loop body x k)) : Stage t0 n c l (unroll body x k) := by
  cases h with
  | entry hp =>
    rw [sysSleep_eq] at hp
    rcases hp with hp | hp <;> cases hp
  | waits h0 hge hts hp =>
    rcases hp with hp | hp
    · exact .waits h0 hge hts (Or.inr (sleepLoop_turn hp))
    · cases hp
  | leaves hge hts hx hp => rcases hp with hp | hp <;> cases hp

theorem Stage.first_le (h : Stage t0 n c l p) {c0 : Nat} {ts : List Nat} (hl : l = c0 :: ts) : ∀ x ∈ ts, c0 ≤ x := by
  cases h <;> cases hl <;> assumption

theorem Reach.stage (h : Reach t0 (sysSleep n) c l p) : Stage t0 n c l p := by
  induction h with
  | start => exact .entry (Or.inl rfl)
  | clockintr _ ih => exact ih.later
  | op _ hb ih => exact ih.op hb
  | loop _ ih => exact ih.loop

end

/-! ## The wait -/

/-- At a test after `x` interrupts the time is over. -/
def Due (n : Int32) (x : Nat) : Prop := max n.toInt 0 ≤ (x : Int)

instance (n : Int32) (x : Nat) : Decidable (Due n x) := inferInstanceAs (Decidable (_ ≤ _))

/-- The call leaves its loop for a return of 0, and only after a test at which the time is over; and such a test is the
last, with only the release of the lock before the return. -/
structure Prompt (n : Int32) (l : List Nat) (p : K Int) : Prop where
  zero : ∀ r, p = .ret r → r = 0
  not_before : p = leave ∨ p = .ret 0 → ∃ c0 ts x, l = c0 :: (ts ++ [x]) ∧ Due n x
  at_once : ∀ c0 ts x rest, l = c0 :: (ts ++ x :: rest) → Due n x → rest = [] ∧ (p = leave ∨ p = .ret 0)

theorem early_iff {t0 : UInt32} {n : Int32} {c0 x : Nat} (hx : c0 ≤ x) :
    Early t0 n.toUInt32 c0 x ↔ (x - c0) % 2 ^ 32 < (n.toInt % 2 ^ 32).toNat := by
  have hnat : (n.toInt % 2 ^ 32).toNat = n.toUInt32.toNat := by
    have h : n.toInt = n.toUInt32.toBitVec.toInt := rfl
    have hlt := n.toUInt32.toBitVec.isLt
    rw [h, BitVec.toInt_eq_toNat_cond, ← UInt32.toNat_toBitVec]
    split <;> omega
  rw [Early, hnat, UInt32.lt_iff_toNat_lt, UInt32.toNat_sub, UInt32.toNat_add, UInt32.toNat_add,
    UInt32.toNat_ofNat', UInt32.toNat_ofNat']
  omega

theorem test_not_leaving {k : UInt32 → K Int} : ¬(Prog.op .ticks k = leave ∨ Prog.op .ticks k = .ret 0) := by
  rintro (h | h)
  · have hreads : [0] = [] := congrArg (fun p : K Int =>
      Prog.casesOn (motive := fun _ _ => List Nat) p (fun _ => []) (fun o _ => reads [] 0 o) fun _ _ _ => []) h
    cases hreads
  · cases h

theorem Quiet.not_leaving {q p : K Int} (h : Quiet q p) : ¬(p = leave ∨ p = .ret 0) := by
  rintro (rfl | rfl)
  · exact h.2 () 0 0 trivial
  · exact h

theorem Reach.prompt_iff {t0 : UInt32} {n : Int32} {c : Nat} {l : List Nat} {p : K Int}
    (h : Reach t0 (sysSleep n.toUInt32) c l p) :
    Prompt n l p ↔ ∀ c0 ts, l = c0 :: ts → ∀ x ∈ ts, (Early t0 n.toUInt32 c0 x ↔ ¬Due n x) := by
  cases h.stage with
  | entry hp =>
    rw [sysSleep_eq] at hp
    refine iff_of_true ⟨fun r hr => ?_, fun hr => ?_, fun _ _ _ _ hl' => by cases hl'⟩ fun _ _ hl => by cases hl
    · rcases hp with rfl | rfl <;> cases hr
    · rcases hp with rfl | rfl
      · rcases hr with hr | hr <;> cases hr
      · exact absurd hr test_not_leaving
  | @waits c0 ts _ h0 hge hts hp =>
    have hstay : ¬(p = leave ∨ p = .ret 0) := by
      rcases hp with hp | rfl
      · exact hp.not_leaving
      · exact test_not_leaving
    have hret : ∀ r, p ≠ .ret r := by
      rintro r rfl
      rcases hp with hp | hp
      · exact hp
      · cases hp
    refine ⟨fun hpr c1 us hl x hx => ?_, fun hagree => ⟨fun r hr => absurd hr (hret r), fun hr => absurd hr hstay, ?_⟩⟩
    · cases hl
      refine iff_of_true (hts x hx) fun hd => ?_
      obtain ⟨us, rest, hus⟩ := List.append_of_mem hx
      exact hstay (hpr.at_once c0 us x rest (by rw [hus]) hd).2
    · intro c1 us x rest hl hd
      cases hl
      have hx : x ∈ us ++ x :: rest := by simp
      exact absurd hd ((hagree _ _ rfl x hx).1 (hts x hx))
  | @leaves c0 ts y _ hge hts hy hp =>
    refine ⟨fun hpr c1 us hl x hx => ?_, fun hagree => ⟨fun r hr => ?_, fun _ => ?_, fun c1 us x rest hl hd =>
      ⟨?_, hp⟩⟩⟩
    · cases hl
      rcases List.mem_append.1 hx with hx | hx
      · refine iff_of_true (hts x hx) fun hd => ?_
        obtain ⟨us, rest, hus⟩ := List.append_of_mem hx
        have hrest := (hpr.at_once c0 us x (rest ++ [y]) (by rw [hus]; simp) hd).1
        simp at hrest
      · cases List.mem_singleton.1 hx
        obtain ⟨c1, us, z, hl, hd⟩ := hpr.not_before hp
        obtain rfl := List.singleton_inj.1 (List.append_inj' (List.cons.inj hl).2 rfl).2
        exact iff_of_false hy (not_not.2 hd)
    · subst hr
      rcases hp with hp | hp <;> cases hp
      rfl
    · exact ⟨c0, ts, y, rfl, not_not.1 fun hd => hy ((hagree _ _ rfl y (by simp)).2 hd)⟩
    · obtain ⟨rfl, htests⟩ := List.cons.inj hl
      rcases List.eq_nil_or_concat rest with rfl | ⟨rest', z, rfl⟩
      · rfl
      have hsplit : ts ++ [y] = (us ++ x :: rest') ++ [z] := by simpa using htests
      have hx : x ∈ ts := by simp [(List.append_inj' hsplit rfl).1]
      exact absurd hd ((hagree _ _ rfl x (by simp [hx])).1 (hts x hx))

/-- A sleep waits for its ticks and no longer exactly if, at every test so far, the difference of the two counters is as
far from `n` as the interrupts since the entry are. -/
theorem sys_sleep_waits (t0 : UInt32) (n : Int32) {c : Nat} {l : List Nat} {p : K Int}
    (h : Reach t0 (sysSleep n.toUInt32) c l p) :
    (Prompt n l p ↔ ∀ c0 ts, l = c0 :: ts → ∀ x ∈ ts,
      ((x - c0) % 2 ^ 32 < (n.toInt % 2 ^ 32).toNat ↔ (x : Int) < max n.toInt 0)) ∧
    (0 ≤ n.toInt → l.headD 0 = 0 → (∀ x ∈ l, x < 2 ^ 32) → Prompt n l p) := by
  have hiff : Prompt n l p ↔ ∀ c0 ts, l = c0 :: ts → ∀ x ∈ ts,
      ((x - c0) % 2 ^ 32 < (n.toInt % 2 ^ 32).toNat ↔ (x : Int) < max n.toInt 0) := by
    rw [h.prompt_iff]
    refine forall₅_congr fun c0 ts hl x hx => ?_
    rw [early_iff (h.stage.first_le hl x hx), Due, not_le]
  refine ⟨hiff, fun hn h0 hlt => hiff.mpr fun c0 ts hl x hx => ?_⟩
  subst hl
  obtain rfl : c0 = 0 := h0
  have hx := hlt x (List.mem_cons_of_mem _ hx)
  have hmax := Int32.toInt_lt n
  rw [Nat.sub_zero, Nat.mod_eq_of_lt hx, max_eq_left hn]
  omega

theorem reach_test (t0 n : UInt32) (c : Nat) : Reach t0 (sysSleep n) c [0, c]
    (if t0 + UInt32.ofNat c - (t0 + UInt32.ofNat 0) < n then turn (t0 + UInt32.ofNat 0) n else leave) := by
  have hheld : Reach t0 (sysSleep n) 0 [] (.op .ticks fun ticks0 => sleepLoop ticks0 n) :=
    .op (b := ()) .start trivial
  have hread : Reach t0 (sysSleep n) 0 [0] (sleepLoop (t0 + UInt32.ofNat 0) n) := hheld.op rfl
  have hwait : Reach t0 (sysSleep n) c [0] (sleepLoop (t0 + UInt32.ofNat 0) n) := by
    induction c with
    | zero => exact hread
    | succ c ih => exact ih.clockintr
  have hturn := Reach.loop hwait
  rw [sleepLoop_turn rfl] at hturn
  exact hturn.op rfl

/-- One tick, from a counter that wraps during the sleep. -/
theorem sys_sleep_waits_wrapping : ∃ c l p, Reach (-1) (sysSleep (1 : Int32).toUInt32) c l p ∧
    l = [0, 1] ∧ p = leave ∧ Prompt 1 l p := by
  refine ⟨1, _, _, reach_test (-1) _ 1, rfl, if_neg (by decide),
    (sys_sleep_waits (-1) 1 (reach_test (-1) _ 1)).2 (by decide) rfl (by decide)⟩

/-- `sleep(-1)` does not return at its first test: the process goes to sleep. -/
theorem sys_sleep_negative :
    ∃ p, Reach 0 (sysSleep (-1 : Int32).toUInt32) 0 [0, 0] p ∧ Due (-1) 0 ∧ ¬ Prompt (-1) [0, 0] p := by
  refine ⟨_, reach_test 0 _ 0, by decide, fun hp => ?_⟩
  have hq := quiet_turn (0 + UInt32.ofNat 0) (-1 : Int32).toUInt32
  rw [if_pos (by decide)] at hp
  exact hq.not_leaving (hp.at_once 0 [] 0 [] rfl (by decide)).2

end Xv6.Proc
