import Mathlib.Data.List.Chain
import Mathlib.Data.List.Perm.Basic
import Xv6.Lib.Run
import Xv6.Param

/-!
# The list of buffers

`kernel/bio.c` keeps its buffers in a circular list through `prev` and `next`, with
`bcache.head` in it.  Each critical section under `bcache.lock` is one action.

Along the list every buffer is `Linked` to the one behind it, in both directions, which
taking a buffer out and putting it in front keep.  Ghost fields count the gets and pins
that are outstanding and say when `refcnt` last dropped to 0.
-/

namespace Xv6.Log.BufList

open Function (update update_self update_of_ne)

section
variable {α : Type} [DecidableEq α] {f : α → α} {a z : α} {l : List α}

/-- The loop `for(b = ...; b != z; b = f(b))`, with `n` turns at most. -/
def follow (f : α → α) (z : α) : Nat → α → List α
  | 0, _ => []
  | n + 1, b => if b = z then [] else b :: follow f z n (f b)

theorem follow_chain (h : (a :: (l ++ [z])).IsChain fun x y => f x = y) (hz : z ∉ l) {n : Nat} (hn : l.length < n) :
    follow f z n (f a) = l := by
  induction l generalizing a n with
  | nil =>
    cases n with
    | zero => cases hn
    | succ n => exact if_pos (List.isChain_cons_cons.mp h).1
  | cons b l ih =>
    cases n with
    | zero => cases hn
    | succ n =>
      obtain ⟨hb, h⟩ := List.isChain_cons_cons.mp h
      have hbz : b ≠ z := fun he => hz (he ▸ List.mem_cons_self)
      rw [follow, hb, if_neg hbz, ih h (fun hm => hz (List.mem_cons_of_mem _ hm)) (Nat.lt_of_succ_lt_succ hn)]

end

/-! ## `kernel/bio.c` -/

/-- `bcache.head`; the buffers are `0 .. NBUF - 1`. -/
def head : Nat := NBUF

structure St where
  next : Nat → Nat
  prev : Nat → Nat
  dev : Nat → Nat
  blockno : Nat → Nat
  valid : Nat → Bool
  /-- A `uint`. -/
  refcnt : Nat → Nat
  gets : Nat → Nat
  pins : Nat → Nat
  /-- When `refcnt` last dropped to 0, or 0. -/
  freed : Nat → Nat
  clock : Nat

/-- The four assignments that put `b` behind `bcache.head`. -/
def St.pushFront (s : St) (b : Nat) : St :=
  let s := { s with next := update s.next b (s.next head) }
  let s := { s with prev := update s.prev b head }
  let s := { s with prev := update s.prev (s.next head) b }
  { s with next := update s.next head b }

def bss : St :=
  { next := fun _ => 0, prev := fun _ => 0, dev := fun _ => 0, blockno := fun _ => 0, valid := fun _ => false
    refcnt := fun _ => 0, gets := fun _ => 0, pins := fun _ => 0, freed := fun _ => 0, clock := 0 }

def binit (s : St) : St :=
  (List.range NBUF).foldl St.pushFront
    { s with prev := update s.prev head head, next := update s.next head head }

/-- The loops of `bget`, from `bcache.head.next` and from `bcache.head.prev`. -/
def forwards (s : St) : List Nat := follow s.next head (NBUF + 1) (s.next head)

def backwards (s : St) : List Nat := follow s.prev head (NBUF + 1) (s.prev head)

def cached (s : St) (dev blockno : Nat) : Option Nat :=
  (forwards s).find? fun b => s.dev b = dev ∧ s.blockno b = blockno

def unused (s : St) : Option Nat :=
  (backwards s).find? fun b => s.refcnt b = 0

/-- `bget` without `acquiresleep`; `none` is its panic. -/
def bget (s : St) (dev blockno : Nat) : Option St :=
  match cached s dev blockno with
  | some b => some { s with
      refcnt := update s.refcnt b ((s.refcnt b + 1) % 2 ^ 32), gets := update s.gets b (s.gets b + 1) }
  | none => (unused s).map fun b => { s with
      dev := update s.dev b dev, blockno := update s.blockno b blockno, valid := update s.valid b false
      refcnt := update s.refcnt b 1, gets := update s.gets b (s.gets b + 1) }

def brelse (s : St) (b : Nat) : St :=
  let s := { s with
    refcnt := update s.refcnt b ((s.refcnt b + (2 ^ 32 - 1)) % 2 ^ 32), gets := update s.gets b (s.gets b - 1) }
  if s.refcnt b = 0 then
    let s := { s with prev := update s.prev (s.next b) (s.prev b) }
    let s := { s with next := update s.next (s.prev b) (s.next b) }
    { s.pushFront b with freed := update s.freed b (s.clock + 1), clock := s.clock + 1 }
  else s

def bpin (s : St) (b : Nat) : St :=
  { s with refcnt := update s.refcnt b ((s.refcnt b + 1) % 2 ^ 32), pins := update s.pins b (s.pins b + 1) }

def bunpin (s : St) (b : Nat) : St :=
  { s with refcnt := update s.refcnt b ((s.refcnt b + (2 ^ 32 - 1)) % 2 ^ 32), pins := update s.pins b (s.pins b - 1) }

inductive Act
  | bget (dev blockno : Nat)
  | brelse (b : Nat)
  | bpin (b : Nat)
  | bunpin (b : Nat)

/-- A get is released once, and a pin taken back once. -/
def step (s : St) : Act → Option St
  | .bget dev blockno => bget s dev blockno
  | .brelse b => if b < NBUF ∧ 0 < s.gets b then some (brelse s b) else none
  | .bpin b => if b < NBUF then some (bpin s b) else none
  | .bunpin b => if b < NBUF ∧ 0 < s.pins b then some (bunpin s b) else none

/-- `bunpin` does not bring `refcnt` to 0. -/
def Unpin (s : St) : Act → Prop
  | .bunpin b => s.refcnt b ≠ 1
  | _ => True

instance (s : St) : ∀ a, Decidable (Unpin s a)
  | .bunpin b => inferInstanceAs (Decidable (s.refcnt b ≠ 1))
  | .bget _ _ | .brelse _ | .bpin _ => inferInstanceAs (Decidable True)

/-- One get or pin more can be counted in `refcnt`. -/
def Fits (s : St) : Prop := ∀ b < NBUF, s.gets b + s.pins b + 1 < 2 ^ 32

instance (s : St) : Decidable (Fits s) := inferInstanceAs (Decidable (∀ b < NBUF, s.gets b + s.pins b + 1 < 2 ^ 32))

def Initial (s : St) : Prop := s = binit bss

/-! ## The invariant -/

/-- `y` is behind `x`. -/
def Linked (s : St) (x y : Nat) : Prop := s.next x = y ∧ s.prev y = x

instance (s : St) (x y : Nat) : Decidable (Linked s x y) := inferInstanceAs (Decidable (_ ∧ _))

def Ring (s : St) (l : List Nat) : Prop := (head :: (l ++ [head])).IsChain (Linked s)

structure Inv (s : St) (l : List Nat) : Prop where
  ring : Ring s l
  perm : l.Perm (List.range NBUF)
  counts : ∀ b < NBUF, s.refcnt b = s.gets b + s.pins b
  past : ∀ b, s.freed b ≤ s.clock
  lru : l.Pairwise fun a b => s.refcnt a = 0 → s.refcnt b = 0 → s.freed b ≤ s.freed a

variable {s s' : St} {l l₁ l₂ : List Nat} {b : Nat}

theorem Ring.pushFront (h : Ring s l) (hn : (head :: b :: l).Nodup) : Ring (s.pushFront b) (b :: l) := by
  obtain ⟨n, m, hm⟩ : ∃ n m, l ++ [head] = n :: m := List.exists_cons_of_ne_nil (by simp)
  have hnd : (b :: n :: m).Nodup := by
    rw [← hm]
    exact (((List.perm_append_singleton head l).cons b).trans (.swap ..)).nodup_iff.mpr hn
  have hb : head ≠ b := fun he => (List.nodup_cons.mp hn).1 (he ▸ List.mem_cons_self)
  obtain ⟨hbm, hnd⟩ := List.nodup_cons.mp hnd
  have hnm := (List.nodup_cons.mp hnd).1
  have hbn : b ≠ n := fun he => hbm (he ▸ List.mem_cons_self)
  rw [Ring, hm] at h
  rw [Ring, List.cons_append, hm]
  obtain ⟨⟨hnext, hprev⟩, hrest⟩ := List.isChain_cons_cons.mp h
  refine .cons_cons ?_ (.cons_cons ?_ (hrest.imp_of_mem_tail_imp fun x y hx hy hxy => ?_))
  · simp [Linked, St.pushFront, hb, hbn, hnext]
  · simp [Linked, St.pushFront, hb, hb.symm, hnext]
  · -- only the head itself is in front of `n`
    have hyn : y ≠ n := fun he => hnm (he ▸ hy)
    have hxh : x ≠ head := fun he => hyn (hxy.1.symm.trans (he ▸ hnext))
    have hxb : x ≠ b := fun he => hbm (he ▸ hx)
    have hyb : y ≠ b := fun he => hbm (he ▸ List.mem_of_mem_tail hy)
    simpa [Linked, St.pushFront, hb, hnext, hyn, hxh, hxb, hyb] using hxy

theorem Ring.unlink (h : Ring s (l₁ ++ b :: l₂)) (hn : (head :: b :: (l₁ ++ l₂)).Nodup) :
    Ring { s with prev := update s.prev (s.next b) (s.prev b), next := update s.next (s.prev b) (s.next b) }
    (l₁ ++ l₂) := by
  obtain ⟨n, m, hm⟩ : ∃ n m, l₂ ++ [head] = n :: m := List.exists_cons_of_ne_nil (by simp)
  obtain ⟨k, p, hk⟩ := (head :: l₁).eq_nil_or_concat'.resolve_left nofun
  have hsplit : ∀ u, head :: (l₁ ++ (u ++ l₂) ++ [head]) = k ++ p :: (u ++ n :: m) := by
    intro u
    rw [← hm, List.append_cons k, ← hk]
    simp
  simp only [List.nodup_cons, List.mem_cons, List.mem_append, not_or] at hn
  have hbk : b ∉ k ++ [p] := by
    rw [← hk]
    simp [hn, Ne.symm hn.1.1]
  have hbm : b ∉ n :: m := by
    rw [← hm]
    simp [hn, Ne.symm hn.1.1]
  rw [Ring, show head :: (l₁ ++ b :: l₂ ++ [head]) = _ from hsplit [b]] at h
  rw [Ring, show head :: (l₁ ++ l₂ ++ [head]) = _ from hsplit []]
  obtain ⟨hfront, ⟨hp1, hp2⟩, hrest⟩ := List.isChain_append_cons_cons.mp h
  obtain ⟨⟨hn1, hn2⟩, hrest⟩ := List.isChain_cons_cons.mp hrest
  rw [hn1, hp2]
  -- only `b` is behind `p` and in front of `n`
  have hkeep : ∀ {u : List Nat}, b ∉ u → u.IsChain (Linked s) →
      u.IsChain (Linked { s with prev := update s.prev n p, next := update s.next p n }) := by
    refine fun hb hu => hu.imp_of_mem_imp fun x y hx hy hxy => ?_
    have hxp : x ≠ p := fun he => hb (hp1 ▸ he ▸ hxy.1 ▸ hy)
    have hyn : y ≠ n := fun he => hb (hn2 ▸ he ▸ hxy.2 ▸ hx)
    simpa [Linked, hxp, hyn] using hxy
  exact List.isChain_append_cons_cons.mpr ⟨hkeep hbk hfront, by simp [Linked], hkeep hbm hrest⟩

theorem Inv.nodup (h : Inv s l) : (head :: l).Nodup := by
  refine List.nodup_cons.mpr ⟨fun hm => ?_, h.perm.nodup_iff.mpr List.nodup_range⟩
  exact Nat.lt_irrefl _ (List.mem_range.mp (h.perm.mem_iff.mp hm))

theorem Inv.mem (h : Inv s l) : b ∈ l ↔ b < NBUF := h.perm.mem_iff.trans List.mem_range

theorem Inv.recount (h : Inv s l) (hp : (s'.next, s'.prev, s'.freed, s'.clock) = (s.next, s.prev, s.freed, s.clock))
    {n : Nat} (hr : s'.refcnt = update s.refcnt b n) (ho : ∀ x ≠ b, s'.gets x + s'.pins x = s.gets x + s.pins x)
    (hn : n = s'.gets b + s'.pins b) (h0 : n = 0 → s.refcnt b = 0) : Inv s' l := by
  simp only [Prod.mk.injEq] at hp
  obtain ⟨h1, h2, h3, h4⟩ := hp
  have hz : ∀ x, s'.refcnt x = 0 → s.refcnt x = 0 := by
    intro x hx
    by_cases hxb : x = b
    · subst hxb
      rw [hr, update_self] at hx
      exact h0 hx
    · rwa [hr, update_of_ne hxb] at hx
  refine ⟨h.ring.imp fun _ _ hxy => ⟨h1 ▸ hxy.1, h2 ▸ hxy.2⟩, h.perm, fun x hx => ?_, fun x => ?_,
    h.lru.imp fun hR ha hb => ?_⟩
  · by_cases hxb : x = b
    · rw [hxb, hr, update_self, hn]
    · rw [hr, update_of_ne hxb, h.counts x hx, ho x hxb]
  · rw [h3, h4]
    exact h.past x
  · rw [h3]
    exact hR (hz _ ha) (hz _ hb)

theorem Inv.freed (h : Inv s (l₁ ++ b :: l₂)) (hr : s.gets b + s.pins b = 1) (hg : 0 < s.gets b) :
    Inv (brelse s b) (b :: (l₁ ++ l₂)) := by
  have hb : b < NBUF := h.mem.mp (by simp)
  have hz : (s.refcnt b + (2 ^ 32 - 1)) % 2 ^ 32 = 0 := by
    rw [h.counts b hb, hr]
    rfl
  have hself : update s.prev (s.next b) (s.prev b) b = s.prev b := by
    simp [update]
  have hperm : (b :: (l₁ ++ l₂)).Perm (l₁ ++ b :: l₂) := List.perm_middle.symm
  have hnd : (head :: b :: (l₁ ++ l₂)).Nodup := (hperm.cons head).nodup_iff.mpr h.nodup
  have hne : ∀ x ∈ l₁ ++ l₂, x ≠ b := fun x hx he => (List.nodup_cons.mp (List.nodup_cons.mp hnd).2).1 (he ▸ hx)
  have hring := (h.ring.unlink hnd).pushFront hnd
  unfold brelse
  simp only [update_self, hz, if_true, hself]
  refine ⟨hring, hperm.trans h.perm, fun x hx => ?_, fun x => ?_, List.pairwise_cons.mpr ⟨fun x hx _ _ => ?_, ?_⟩⟩
  · by_cases hxb : x = b
    · subst hxb
      simp [St.pushFront]
      omega
    · simpa [St.pushFront, hxb] using h.counts x hx
  · by_cases hxb : x = b
    · simp [hxb]
    · simpa [hxb] using Nat.le_succ_of_le (h.past x)
  · simpa [hne x hx, St.pushFront] using Nat.le_succ_of_le (h.past x)
  · refine (h.lru.sublist (by simp)).imp_of_mem fun ha hc hR => ?_
    simpa [hne _ ha, hne _ hc, St.pushFront] using hR

theorem Inv.forwards (h : Inv s l) : forwards s = l :=
  follow_chain (h.ring.imp fun _ _ hxy => hxy.1) (List.nodup_cons.mp h.nodup).1
    (by rw [h.perm.length_eq, List.length_range]; omega)

theorem Inv.backwards (h : Inv s l) : backwards s = l.reverse := by
  have hring : (head :: (l.reverse ++ [head])).IsChain fun x y => s.prev x = y := by
    have := List.isChain_reverse.mpr (h.ring.imp fun _ _ hxy => hxy.2)
    simpa using this
  refine follow_chain hring (fun hm => (List.nodup_cons.mp h.nodup).1 (List.mem_reverse.mp hm)) ?_
  rw [List.length_reverse, h.perm.length_eq, List.length_range]
  omega

theorem Inv.unused (h : Inv s l) (hb : unused s = some b) :
    b < NBUF ∧ s.refcnt b = 0 ∧ ∀ c < NBUF, s.refcnt c = 0 → s.freed b ≤ s.freed c := by
  rw [BufList.unused, h.backwards, List.find?_eq_some_iff_append] at hb
  obtain ⟨h0, as, bs, hl, has⟩ := hb
  have hrefs : s.refcnt b = 0 := by simpa using h0
  have hlru := List.pairwise_reverse.mpr h.lru
  rw [hl] at hlru
  refine ⟨h.mem.mp (List.mem_reverse.mp (by simp [hl])), hrefs, fun c hc hc0 => ?_⟩
  have hcl : c ∈ as ++ b :: bs := by rw [← hl, List.mem_reverse, h.mem]; exact hc
  rcases List.mem_append.mp hcl with hca | hcb
  · exact absurd hc0 (by simpa using has c hca)
  · rcases List.mem_cons.mp hcb with rfl | hcb
    · exact le_rfl
    · exact (List.pairwise_cons.mp (List.pairwise_append.mp hlru).2.1).1 c hcb hc0 hrefs

theorem inv_step (h : Inv s l) {a : Act} (hok : Unpin s a ∧ Fits s) (hs : step s a = some s') : ∃ l', Inv s' l' := by
  have hfit : ∀ b < NBUF, s.refcnt b = s.gets b + s.pins b ∧ s.gets b + s.pins b + 1 < 2 ^ 32 :=
    fun b hb => ⟨h.counts b hb, hok.2 b hb⟩
  cases a with
  | bget dev blockno =>
    simp only [step, bget] at hs
    split at hs
    · next b hb =>
      cases hs
      rw [cached, h.forwards] at hb
      have hb := hfit b (h.mem.mp (List.mem_of_find?_eq_some hb))
      exact ⟨l, h.recount rfl rfl (fun x hx => by simp [hx]) (by simp; omega) (by omega)⟩
    · obtain ⟨b, hb, rfl⟩ := Option.map_eq_some_iff.mp hs
      obtain ⟨hlt, h0, _⟩ := h.unused hb
      have hb := hfit b hlt
      exact ⟨l, h.recount rfl rfl (fun x hx => by simp [hx]) (by simp; omega) nofun⟩
  | brelse b =>
    simp only [step] at hs
    split at hs <;> cases hs
    next hb =>
    have hc := hfit b hb.1
    by_cases hone : s.gets b + s.pins b = 1
    · obtain ⟨l₁, l₂, rfl⟩ := List.append_of_mem (h.mem.mpr hb.1)
      exact ⟨_, h.freed hone hb.2⟩
    · refine ⟨l, ?_⟩
      simp only [brelse, update_self]
      rw [if_neg (by omega)]
      exact h.recount rfl rfl (fun x hx => by simp [hx]) (by simp; omega) (by omega)
  | bpin b =>
    simp only [step] at hs
    split at hs <;> cases hs
    next hb =>
    have hc := hfit b hb
    exact ⟨l, h.recount rfl rfl (fun x hx => by simp [hx, bpin]) (by simp [bpin]; omega) (by omega)⟩
  | bunpin b =>
    simp only [step] at hs
    split at hs <;> cases hs
    next hb =>
    have hc := hfit b hb.1
    have hone : s.refcnt b ≠ 1 := hok.1
    exact ⟨l, h.recount rfl rfl (fun x hx => by simp [hx, bunpin]) (by simp [bunpin]; omega) (by omega)⟩

theorem inv_binit : Inv (binit bss) (List.range NBUF).reverse where
  ring := by
    rw [Ring]
    decide +kernel
  perm := List.reverse_perm _
  counts _ _ := rfl
  past _ := le_rfl
  lru := List.pairwise_of_forall fun _ _ _ _ => le_rfl

/-! ## Least recently used -/

structure LruList (s : St) : Prop where
  /-- Each buffer is visited once. -/
  visits : (forwards s).Perm (List.range NBUF)
  reverse : backwards s = (forwards s).reverse
  counts : ∀ b < NBUF, s.refcnt b = s.gets b + s.pins b
  recycled : ∀ b, unused s = some b → b < NBUF ∧ s.refcnt b = 0 ∧ ∀ c < NBUF, s.refcnt c = 0 → s.freed b ≤ s.freed c

/-- **The buffers are a least recently used list**, after every run in which `bunpin`
does not bring `refcnt` to 0 and no buffer has `2 ^ 32` gets and pins. -/
theorem buffer_list_lru (s : St) (h : Run.Reach step (fun s a => Unpin s a ∧ Fits s) Initial s) : LruList s := by
  obtain ⟨l, hi⟩ : ∃ l, Inv s l := by
    refine h.invariant (fun s => ∃ l, Inv s l) ?_ fun s a s' ⟨l, hI⟩ hok hs => inv_step hI hok hs
    rintro s rfl
    exact ⟨_, inv_binit⟩
  refine ⟨?_, ?_, hi.counts, fun b hb => hi.unused hb⟩
  · rw [hi.forwards]
    exact hi.perm
  · rw [hi.forwards, hi.backwards]

/-- The first buffer is released and goes to the front; the next one is recycled first. -/
theorem buffer_list_lru_released : ∃ s, Run.Reach step (fun s a => Unpin s a ∧ Fits s) Initial s ∧
    s.next head = 0 ∧ unused s = some 1 ∧ s.freed 1 ≤ s.freed 0 := by
  have hview : (Run.runOk step (fun s a => Unpin s a ∧ Fits s) (binit bss) [.bget 1 7, .brelse 0]).map
      (fun s => (s.next head, unused s, s.refcnt 0)) = some (0, some 1, 0) := by
    decide +kernel
  obtain ⟨s, hs, hv⟩ := Option.map_eq_some_iff.mp hview
  simp only [Prod.mk.injEq] at hv
  have hr : Run.Reach step (fun s a => Unpin s a ∧ Fits s) Initial s := Run.Reach.of_runOk _ (.start rfl) hs
  exact ⟨s, hr, hv.1, hv.2.1, ((buffer_list_lru s hr).recycled 1 hv.2.1).2.2 0 (by decide) hv.2.2⟩

/-- A `uint` cannot count `2 ^ 32` pins. -/
theorem refcnt_wraps : ∃ s, Run.Reach step Unpin Initial s ∧ s.pins 0 = 2 ^ 32 ∧ s.refcnt 0 = 0 := by
  have hn : ∀ n, ∃ s, Run.Reach step Unpin Initial s ∧ s.pins 0 = n ∧ s.refcnt 0 = n % 2 ^ 32 := by
    intro n
    induction n with
    | zero => exact ⟨_, .start rfl, rfl, rfl⟩
    | succ n ih =>
      obtain ⟨s, hs, hp, hr⟩ := ih
      refine ⟨bpin s 0, hs.next (.bpin 0) trivial rfl, ?_, ?_⟩
      · simp [bpin, hp]
      · simp [bpin, hr]
  exact hn (2 ^ 32)

end Xv6.Log.BufList
