import Mathlib.Data.Finset.Card
import Mathlib.Tactic.Set
import Xv6.Lib.Run
import Xv6.Param

/-!
# The inode table

`iget`, `idup`, `ilock`, `iunlock`, `iput` and `ialloc` of `kernel/fs.c` as steps
that any number of processes interleave.  Each critical section under
`itable.lock` is one step, and so is each access to an inode whose sleep-lock is
held.  The table is read by inode number: `ent i` is the table entry of inode
`i`, unused when its `ref` is 0, and `slots` counts the entries in use.

A reference is a `Ticket`.  `ialloc` opens a ticket that is `claimed` (the inode
is marked on the disk, the table does not know it yet) and then `fresh` (in the
table, never locked since); `iget` and `idup` open `idle` ones; a ticket is
`locked` between `ilock` and `iunlock`.  `iput` of the last reference to an
unlinked inode goes through `freeing` (its first critical section decided to
free) and `freed` (the inode is free on the disk, the entry still counts the
reference).
-/

namespace Xv6.Fs

open Function (update_self update_of_ne)

/-- An inode on the disk.  `data` is what the blocks hold, and the device numbers. -/
structure Dinode (δ : Type) where
  type : Nat
  nlink : Int
  blocks : List Nat
  data : δ

/-- What an inode's content is for `ialloc`, which clears it, and for `itrunc`. -/
class Content (δ : Type) where
  zero : δ
  trunc : δ → δ

namespace Itable

inductive Panic
  | igetNoInodes  -- "iget: no inodes"
  | ilockNoType   -- "ilock: no type"
  deriving DecidableEq

inductive Stage
  | claimed
  | fresh
  | idle
  | locked
  | freeing
  | freed
  deriving DecidableEq

structure Ticket where
  inum : Nat
  stage : Stage

/-- A table entry: `mem` is the cached copy, `lock` the ticket that has the sleep-lock. -/
structure Entry (δ : Type) where
  ref : Int
  valid : Bool
  mem : Dinode δ
  lock : Option Nat

structure St (δ : Type) where
  dino : Nat → Dinode δ
  ent : Nat → Entry δ
  slots : Nat
  /-- The blocks marked in the bitmap. -/
  used : Finset Nat
  live : Finset Nat
  tk : Nat → Ticket
  panic : Option Panic

section
variable {δ : Type} [Content δ]

/-! ## `kernel/fs.c` -/

def setEnt (s : St δ) (i : Nat) (e : Entry δ) : St δ := { s with ent := Function.update s.ent i e }

def setDino (s : St δ) (i : Nat) (d : Dinode δ) : St δ := { s with dino := Function.update s.dino i d }

def openTk (s : St δ) (k i : Nat) (st : Stage) : St δ :=
  { s with live := insert k s.live, tk := Function.update s.tk k ⟨i, st⟩ }

def setStage (s : St δ) (k : Nat) (st : Stage) : St δ :=
  { s with tk := Function.update s.tk k ⟨(s.tk k).inum, st⟩ }

/-- The entry ticket `k` refers to. -/
def entOf (s : St δ) (k : Nat) : Entry δ := s.ent (s.tk k).inum

/-- The critical section of `iget`: count one more reference to inode `i`,
recycling an unused entry if it has none; `none` when all are in use. -/
def hold (s : St δ) (i : Nat) : Option (St δ) :=
  if 0 < (s.ent i).ref then some (setEnt s i { s.ent i with ref := (s.ent i).ref + 1 })
  else if s.slots = NINODE then none
  else some { setEnt s i { s.ent i with ref := 1, valid := false } with slots := s.slots + 1 }

/-- `hold` for ticket `k`, which is in stage `st` afterwards. -/
def holdAs (s : St δ) (k i : Nat) (st : Stage) : St δ :=
  match hold s i with
  | some s' => openTk s' k i st
  | none => { s with panic := some .igetNoInodes }

def iget (s : St δ) (k i : Nat) : Option (St δ) :=
  if k ∈ s.live then none else some (holdAs s k i .idle)

/-- `ialloc`'s loop finds inode `i` free and marks it allocated on the disk. -/
def claim (s : St δ) (k i ty : Nat) : Option (St δ) :=
  if k ∉ s.live ∧ ty ≠ 0 ∧ (s.dino i).type = 0 then
    some (openTk (setDino s i { type := ty, nlink := 0, blocks := [], data := Content.zero }) k i .claimed)
  else none

/-- The `iget` at the end of `ialloc`. -/
def ialloced (s : St δ) (k : Nat) : Option (St δ) :=
  if k ∈ s.live ∧ (s.tk k).stage = .claimed then some (holdAs s k (s.tk k).inum .fresh) else none

def idup (s : St δ) (k k' : Nat) : Option (St δ) :=
  if k ∈ s.live ∧ k' ∉ s.live ∧
      ((s.tk k).stage = .idle ∨ (s.tk k).stage = .fresh ∨ (s.tk k).stage = .locked) then
    some (openTk (setEnt s (s.tk k).inum { entOf s k with ref := (entOf s k).ref + 1 }) k' (s.tk k).inum .idle)
  else none

/-- `ilock`: waits for the sleep-lock, then reads the inode if it has to. -/
def ilock (s : St δ) (k : Nat) : Option (St δ) :=
  if k ∈ s.live ∧ ((s.tk k).stage = .idle ∨ (s.tk k).stage = .fresh) ∧ (entOf s k).lock = none then
    if (entOf s k).valid then
      some (setStage (setEnt s (s.tk k).inum { entOf s k with lock := some k }) k .locked)
    else if (s.dino (s.tk k).inum).type = 0 then some { s with panic := some .ilockNoType }
    else some (setStage (setEnt s (s.tk k).inum
      { entOf s k with lock := some k, valid := true, mem := s.dino (s.tk k).inum }) k .locked)
  else none

/-- Change a locked inode and `iupdate` it. -/
def update (s : St δ) (k : Nat) (d : Dinode δ) : St δ :=
  setDino (setEnt s (s.tk k).inum { entOf s k with mem := d }) (s.tk k).inum d

def store (s : St δ) (k : Nat) (nlink : Int) (data : δ) : Option (St δ) :=
  if k ∈ s.live ∧ (s.tk k).stage = .locked then
    some (update s k { (entOf s k).mem with nlink := nlink, data := data })
  else none

/-- `bmap` adds the free block `b` to a locked inode, and `iupdate`. -/
def grow (s : St δ) (k b : Nat) : Option (St δ) :=
  if k ∈ s.live ∧ (s.tk k).stage = .locked ∧ b ∉ s.used then
    some { update s k { (entOf s k).mem with blocks := b :: (entOf s k).mem.blocks } with
      used := insert b s.used }
  else none

def truncated (d : Dinode δ) : Dinode δ := { d with blocks := [], data := Content.trunc d.data }

def itrunc (s : St δ) (k : Nat) : Option (St δ) :=
  if k ∈ s.live ∧ (s.tk k).stage = .locked then
    some { update s k (truncated (entOf s k).mem) with
      used := s.used.filter fun b => b ∉ (entOf s k).mem.blocks }
  else none

def iunlock (s : St δ) (k : Nat) : Option (St δ) :=
  if k ∈ s.live ∧ (s.tk k).stage = .locked then
    some (setStage (setEnt s (s.tk k).inum { entOf s k with lock := none }) k .idle)
  else none

def drop (s : St δ) (k : Nat) : St δ :=
  { setEnt s (s.tk k).inum { entOf s k with ref := (entOf s k).ref - 1 } with
    live := s.live.erase k
    slots := if (entOf s k).ref - 1 = 0 then s.slots - 1 else s.slots }

/-- The first critical section of `iput`: decide to free, or drop the reference. -/
def iput (s : St δ) (k : Nat) : Option (St δ) :=
  if k ∈ s.live ∧ ((s.tk k).stage = .idle ∨ (s.tk k).stage = .fresh) then
    if (entOf s k).ref = 1 ∧ (entOf s k).valid ∧ (entOf s k).mem.nlink = 0 then
      if (entOf s k).lock = none then
        some (setStage (setEnt s (s.tk k).inum { entOf s k with lock := some k }) k .freeing)
      else none
    else some (drop s k)
  else none

/-- `iput` between its critical sections: truncate, mark the inode free, unlock. -/
def iputFree (s : St δ) (k : Nat) : Option (St δ) :=
  if k ∈ s.live ∧ (s.tk k).stage = .freeing then
    some { setStage (setDino (setEnt s (s.tk k).inum
        { entOf s k with
          mem := { truncated (entOf s k).mem with type := 0 }, valid := false, lock := none })
        (s.tk k).inum { truncated (entOf s k).mem with type := 0 }) k .freed with
      used := s.used.filter fun b => b ∉ (entOf s k).mem.blocks }
  else none

def iputLast (s : St δ) (k : Nat) : Option (St δ) :=
  if k ∈ s.live ∧ (s.tk k).stage = .freed then some (drop s k) else none

inductive Act (δ : Type)
  | iget (k i : Nat)
  | claim (k i ty : Nat)
  | ialloced (k : Nat)
  | idup (k k' : Nat)
  | ilock (k : Nat)
  | store (k : Nat) (nlink : Int) (data : δ)
  | grow (k b : Nat)
  | itrunc (k : Nat)
  | iunlock (k : Nat)
  | iput (k : Nat)
  | iputFree (k : Nat)
  | iputLast (k : Nat)

def step (s : St δ) (a : Act δ) : Option (St δ) :=
  if s.panic.isSome then none
  else
    match a with
    | .iget k i => iget s k i
    | .claim k i ty => claim s k i ty
    | .ialloced k => ialloced s k
    | .idup k k' => idup s k k'
    | .ilock k => ilock s k
    | .store k n d => store s k n d
    | .grow k b => grow s k b
    | .itrunc k => itrunc s k
    | .iunlock k => iunlock s k
    | .iput k => iput s k
    | .iputFree k => iputFree s k
    | .iputLast k => iputLast s k

/-! ## The invariant -/

/-- The references the table counts for inode `i`. -/
def refs (s : St δ) (i : Nat) : Finset Nat :=
  s.live.filter fun k => (s.tk k).inum = i ∧ (s.tk k).stage ≠ .claimed

/-- The steps that keep unlinked inodes from being lost: `ialloc` takes no inode
whose table entry is referenced, nobody looks up an inode that an `ialloc` has
marked and not yet put into the table, link counts do not get negative, and
`ialloc`'s caller locks the inode before it drops it. -/
def Ok (s : St δ) : Act δ → Prop
  | .iget _ i => ∀ k ∈ s.live, (s.tk k).stage = .claimed → (s.tk k).inum ≠ i
  | .claim _ i _ => (s.ent i).ref = 0
  | .store _ n _ => 0 ≤ n
  | .iput k => (s.tk k).stage ≠ .fresh
  | _ => True

instance (s : St δ) (a : Act δ) : Decidable (Ok s a) :=
  match a with
  | .iget _ i => inferInstanceAs (Decidable (∀ k ∈ s.live, (s.tk k).stage = .claimed → (s.tk k).inum ≠ i))
  | .claim _ i _ => inferInstanceAs (Decidable ((s.ent i).ref = 0))
  | .store _ n _ => inferInstanceAs (Decidable (0 ≤ n))
  | .iput k => inferInstanceAs (Decidable ((s.tk k).stage ≠ .fresh))
  | .ialloced _ | .idup _ _ | .ilock _ | .grow _ _ | .itrunc _ | .iunlock _ | .iputFree _ | .iputLast _ =>
    inferInstanceAs (Decidable True)

/-- What holds in every run: entries count their tickets, locks have one owner, and
a valid entry that is referenced equals its inode on the disk. -/
structure Base (s : St δ) : Prop where
  count : ∀ i, (s.ent i).ref = (refs s i).card
  lock : ∀ i k, (s.ent i).lock = some k ↔
    k ∈ s.live ∧ (s.tk k).inum = i ∧ ((s.tk k).stage = .locked ∨ (s.tk k).stage = .freeing)
  valid : ∀ i, (refs s i).Nonempty → (s.ent i).valid = true →
    (s.ent i).mem = s.dino i ∧ (s.dino i).type ≠ 0
  lockedValid : ∀ k ∈ s.live, (s.tk k).stage = .locked ∨ (s.tk k).stage = .freeing →
    (entOf s k).valid = true

structure Inv (s : St δ) : Prop extends Base s where
  claimed : ∀ k ∈ s.live, (s.tk k).stage = .claimed →
    (s.dino (s.tk k).inum).type ≠ 0 ∧ refs s (s.tk k).inum = ∅ ∧
      ∀ k' ∈ s.live, (s.tk k').stage = .claimed → (s.tk k').inum = (s.tk k).inum → k' = k
  freed : ∀ k ∈ s.live, (s.tk k).stage = .freed → (s.dino (s.tk k).inum).type = 0
  free : ∀ i, (s.dino i).type = 0 → (s.dino i).blocks = []
  nonneg : ∀ i, 0 ≤ (s.dino i).nlink
  lost : ∀ i, (s.dino i).type ≠ 0 → (s.dino i).nlink = 0 →
    (∃ k ∈ s.live, (s.tk k).inum = i ∧ ((s.tk k).stage = .claimed ∨ (s.tk k).stage = .fresh)) ∨
      ((refs s i).Nonempty ∧ (s.ent i).valid = true)
  bitmap : ∀ b, b ∈ s.used ↔ ∃ i, b ∈ (s.dino i).blocks
  disjoint : ∀ b i j, b ∈ (s.dino i).blocks → b ∈ (s.dino j).blocks → i = j

section
variable {s s' : St δ} {k i : Nat}

section
omit [Content δ]

theorem mem_refs : k ∈ refs s i ↔ k ∈ s.live ∧ (s.tk k).inum = i ∧ (s.tk k).stage ≠ .claimed := Finset.mem_filter

theorem Base.ref_pos (h : Base s) : 0 < (s.ent i).ref ↔ (refs s i).Nonempty := by
  rw [h.count, ← Finset.card_pos]
  exact Int.natCast_pos

theorem Base.ref_zero (h : Base s) (h0 : ¬ 0 < (s.ent i).ref) : (s.ent i).ref = 0 ∧ refs s i = ∅ := by
  have he : refs s i = ∅ := Finset.not_nonempty_iff_eq_empty.mp fun hn => h0 (h.ref_pos.mpr hn)
  refine ⟨?_, he⟩
  rw [h.count, he]
  rfl

theorem Base.owner (h : Base s) {x : Nat} (hl : (s.ent i).lock = some x) : x ∈ refs s i ∧ (s.ent i).valid = true := by
  obtain ⟨hx, hi, hst⟩ := (h.lock i x).mp hl
  refine ⟨mem_refs.mpr ⟨hx, hi, ?_⟩, ?_⟩
  · rcases hst with hst | hst <;> rw [hst] <;> decide
  · rw [← hi]
    exact h.lockedValid x hx hst

theorem Base.only_lock (h : Base s) (hk : k ∈ s.live) (hi : (s.tk k).inum = i)
    (hl : (s.tk k).stage = .locked ∨ (s.tk k).stage = .freeing) {x : Nat} (hx : x ∈ s.live)
    (hxi : (s.tk x).inum = i) (hxl : (s.tk x).stage = .locked ∨ (s.tk x).stage = .freeing) : x = k := by
  have h1 := (h.lock i k).mpr ⟨hk, hi, hl⟩
  have h2 := (h.lock i x).mpr ⟨hx, hxi, hxl⟩
  exact Option.some.inj (h2.symm.trans h1)

theorem Base.owned (h : Base s) (hk : k ∈ s.live) (hl : (s.tk k).stage = .locked ∨ (s.tk k).stage = .freeing) :
    (entOf s k).valid = true ∧ (entOf s k).mem = s.dino (s.tk k).inum ∧ (s.dino (s.tk k).inum).type ≠ 0 := by
  obtain ⟨hm, hv⟩ := h.owner ((h.lock _ k).mpr ⟨hk, rfl, hl⟩)
  exact ⟨hv, h.valid _ ⟨k, hm⟩ hv⟩

theorem Base.locked (h : Base s) (hk : k ∈ s.live) (hl : (s.tk k).stage = .locked) :
    (entOf s k).valid = true ∧ (entOf s k).mem = s.dino (s.tk k).inum :=
  (h.owned hk (Or.inl hl)).imp_right And.left

/-! ### One ticket and one inode -/

/-- `s'` is `s` up to the ticket `k` and the inode `i`, which is the ticket's. -/
structure Local (s s' : St δ) (k i : Nat) : Prop where
  ent : ∀ j, j ≠ i → s'.ent j = s.ent j
  dino : ∀ j, j ≠ i → s'.dino j = s.dino j
  tk : ∀ x, x ≠ k → s'.tk x = s.tk x
  live : ∀ x, x ≠ k → (x ∈ s'.live ↔ x ∈ s.live)
  was : k ∈ s.live → (s.tk k).inum = i
  now : k ∈ s'.live → (s'.tk k).inum = i

theorem Local.refs_of_ne (l : Local s s' k i) {j : Nat} (hj : j ≠ i) : refs s' j = refs s j := by
  ext x
  rw [mem_refs, mem_refs]
  by_cases hx : x = k
  · subst hx
    exact iff_of_false (fun hc => hj (hc.2.1.symm.trans (l.now hc.1)))
      fun hc => hj (hc.2.1.symm.trans (l.was hc.1))
  · rw [l.live x hx, l.tk x hx]

theorem Local.refs_counted (l : Local s s' k i) (hk : k ∈ s'.live) (hst : (s'.tk k).stage ≠ .claimed) :
    refs s' i = insert k (refs s i) := by
  ext x
  rw [Finset.mem_insert, mem_refs, mem_refs]
  by_cases hx : x = k
  · subst hx
    exact iff_of_true ⟨hk, l.now hk, hst⟩ (Or.inl rfl)
  · rw [l.live x hx, l.tk x hx, or_iff_right hx]

theorem Local.refs_uncounted (l : Local s s' k i) (hk : k ∈ s'.live → (s'.tk k).stage = .claimed) :
    refs s' i = (refs s i).erase k := by
  ext x
  rw [Finset.mem_erase, mem_refs, mem_refs]
  by_cases hx : x = k
  · subst hx
    exact iff_of_false (fun hc => hc.2.2 (hk hc.1)) fun hc => hc.1 rfl
  · rw [l.live x hx, l.tk x hx, and_iff_right hx]

theorem Base.change (h : Base s) (l : Local s s' k i) (hcount : (s'.ent i).ref = (refs s' i).card)
    (hself : (s'.ent i).lock = some k ↔
      k ∈ s'.live ∧ ((s'.tk k).stage = .locked ∨ (s'.tk k).stage = .freeing))
    (hother : ∀ x, x ≠ k → ((s'.ent i).lock = some x ↔ (s.ent i).lock = some x))
    (hvalid : (refs s' i).Nonempty → (s'.ent i).valid = true →
      (s'.ent i).mem = s'.dino i ∧ (s'.dino i).type ≠ 0)
    (hloaded : ∀ x, (s'.ent i).lock = some x → (s'.ent i).valid = true) : Base s' := by
  have hlock : ∀ j x, (s'.ent j).lock = some x ↔ x ∈ s'.live ∧ (s'.tk x).inum = j ∧
      ((s'.tk x).stage = .locked ∨ (s'.tk x).stage = .freeing) := by
    intro j x
    by_cases hx : x = k
    · subst hx
      by_cases hj : j = i
      · subst hj
        rw [hself]
        exact and_congr_right fun hk => (and_iff_right (l.now hk)).symm
      · rw [l.ent j hj, h.lock]
        exact iff_of_false (fun hc => hj (hc.2.1.symm.trans (l.was hc.1)))
          fun hc => hj (hc.2.1.symm.trans (l.now hc.1))
    · rw [l.live x hx, l.tk x hx, ← h.lock]
      by_cases hj : j = i
      · subst hj
        exact hother x hx
      · rw [l.ent j hj]
  constructor
  case count =>
    intro j
    by_cases hj : j = i
    · rw [hj]
      exact hcount
    · rw [l.ent j hj, l.refs_of_ne hj]
      exact h.count j
  case lock => exact hlock
  case valid =>
    intro j
    by_cases hj : j = i
    · rw [hj]
      exact hvalid
    · rw [l.ent j hj, l.refs_of_ne hj, l.dino j hj]
      exact h.valid j
  case lockedValid =>
    intro x hx hxs
    by_cases hj : (s'.tk x).inum = i
    · rw [entOf, hj]
      exact hloaded x ((hlock i x).mpr ⟨hx, hj, hxs⟩)
    · have hxk : x ≠ k := by
        rintro rfl
        exact hj (l.now hx)
      rw [entOf, l.ent _ hj, l.tk x hxk]
      rw [l.tk x hxk] at hxs
      exact h.lockedValid x ((l.live x hxk).mp hx) hxs

theorem Inv.change (h : Inv s) (l : Local s s' k i) (hb : Base s')
    (hclaimed : ∀ x ∈ s'.live, (s'.tk x).inum = i → (s'.tk x).stage = .claimed →
      x = k ∧ (s'.dino i).type ≠ 0 ∧ refs s' i = ∅)
    (hfreed : ∀ x ∈ s'.live, (s'.tk x).inum = i → (s'.tk x).stage = .freed → (s'.dino i).type = 0)
    (hfree : (s'.dino i).type = 0 → (s'.dino i).blocks = []) (hnonneg : 0 ≤ (s'.dino i).nlink)
    (hlost : (s'.dino i).type ≠ 0 → (s'.dino i).nlink = 0 →
      (∃ x ∈ s'.live, (s'.tk x).inum = i ∧ ((s'.tk x).stage = .claimed ∨ (s'.tk x).stage = .fresh)) ∨
        ((refs s' i).Nonempty ∧ (s'.ent i).valid = true)) (hbitmap : ∀ b, b ∈ s'.used ↔ ∃ j, b ∈ (s'.dino j).blocks)
    (hdisjoint : ∀ b j, j ≠ i → b ∈ (s'.dino i).blocks → b ∉ (s.dino j).blocks) : Inv s' := by
  -- a ticket for another inode is not `k`
  have hne : ∀ {x}, x ∈ s'.live → (s'.tk x).inum ≠ i → x ≠ k := by
    rintro x hx hxi rfl
    exact hxi (l.now hx)
  refine { toBase := hb, claimed := ?claimed, freed := ?freed, free := ?free, nonneg := ?nonneg,
           lost := ?lost, bitmap := hbitmap, disjoint := ?disjoint }
  case claimed =>
    intro x hx hxs
    by_cases hxi : (s'.tk x).inum = i
    · obtain ⟨hxk, ht, he⟩ := hclaimed x hx hxi hxs
      rw [hxi]
      exact ⟨ht, he, fun y hy hys hyi => (hclaimed y hy hyi hys).1.trans hxk.symm⟩
    · have hxk := hne hx hxi
      rw [l.dino _ hxi, l.refs_of_ne hxi]
      rw [l.tk x hxk] at hxs hxi ⊢
      obtain ⟨h1, h2, h3⟩ := h.claimed x ((l.live x hxk).mp hx) hxs
      refine ⟨h1, h2, fun y hy hys hyi => ?_⟩
      have hyk : y ≠ k := by
        rintro rfl
        exact hxi (hyi.symm.trans (l.now hy))
      rw [l.tk y hyk] at hys hyi
      exact h3 y ((l.live y hyk).mp hy) hys hyi
  case freed =>
    intro x hx hxs
    by_cases hxi : (s'.tk x).inum = i
    · rw [hxi]
      exact hfreed x hx hxi hxs
    · have hxk := hne hx hxi
      rw [l.dino _ hxi]
      rw [l.tk x hxk] at hxs ⊢
      exact h.freed x ((l.live x hxk).mp hx) hxs
  case free =>
    intro j
    by_cases hj : j = i
    · rw [hj]
      exact hfree
    · rw [l.dino j hj]
      exact h.free j
  case nonneg =>
    intro j
    by_cases hj : j = i
    · rw [hj]
      exact hnonneg
    · rw [l.dino j hj]
      exact h.nonneg j
  case lost =>
    intro j
    by_cases hj : j = i
    · rw [hj]
      exact hlost
    · rw [l.dino j hj, l.refs_of_ne hj, l.ent j hj]
      intro ht h0
      rcases h.lost j ht h0 with ⟨x, hx, hxj, hxs⟩ | hv
      · have hxk : x ≠ k := by
          rintro rfl
          exact hj (hxj.symm.trans (l.was hx))
        refine Or.inl ⟨x, (l.live x hxk).mpr hx, ?_⟩
        rw [l.tk x hxk]
        exact ⟨hxj, hxs⟩
      · exact Or.inr hv
  case disjoint =>
    intro b j j' hj hj'
    by_cases hji : j = i
    · by_contra hne
      rw [hji] at hj hne
      rw [l.dino j' (Ne.symm hne)] at hj'
      exact hdisjoint b j' (Ne.symm hne) hj hj'
    · by_cases hji' : j' = i
      · rw [hji'] at hj'
        rw [l.dino j hji] at hj
        exact absurd hj (hdisjoint b j hji hj')
      · rw [l.dino j hji] at hj
        rw [l.dino j' hji'] at hj'
        exact h.disjoint b j j' hj hj'

theorem Inv.change_table (h : Inv s) (l : Local s s' k i) (hb : Base s') (hd : s'.dino = s.dino)
    (hu : s'.used = s.used) (hclaimed : ∀ x ∈ s'.live, (s'.tk x).inum = i → (s'.tk x).stage ≠ .claimed)
    (hfreed : k ∈ s'.live → (s'.tk k).stage = .freed → (s.dino i).type = 0)
    (hlost : (s.dino i).type ≠ 0 → (s.dino i).nlink = 0 →
      (∃ x ∈ s'.live, (s'.tk x).inum = i ∧ ((s'.tk x).stage = .claimed ∨ (s'.tk x).stage = .fresh)) ∨
        ((refs s' i).Nonempty ∧ (s'.ent i).valid = true)) : Inv s' := by
  refine h.change l hb (fun x hx hxi hxs => absurd hxs (hclaimed x hx hxi)) ?_ ?_ ?_ ?_ ?_ ?_
  · intro x hx hxi hxs
    rw [hd]
    by_cases hxk : x = k
    · subst hxk
      exact hfreed hx hxs
    · rw [l.tk x hxk] at hxi hxs
      rw [← hxi]
      exact h.freed x ((l.live x hxk).mp hx) hxs
  · rw [hd]
    exact h.free i
  · rw [hd]
    exact h.nonneg i
  · rw [hd]
    exact hlost
  · rw [hd, hu]
    exact h.bitmap
  · rw [hd]
    exact fun b j hj hb hb' => hj (h.disjoint b j i hb' hb)

theorem Inv.not_claimed (h : Inv s) (hk : k ∈ refs s i) {x : Nat} (hx : x ∈ s.live) (hi : (s.tk x).inum = i) :
    (s.tk x).stage ≠ .claimed := by
  intro hst
  have he := (h.claimed x hx hst).2.1
  rw [hi] at he
  rw [he] at hk
  cases hk

/-! ### A new reference -/

theorem hold_cases (h : Base s) (hs : hold s i = some s') :
    ∃ v n, s' = { setEnt s i { s.ent i with ref := (s.ent i).ref + 1, valid := v } with slots := n } ∧
      ((v = (s.ent i).valid ∧ (refs s i).Nonempty) ∨ (v = false ∧ refs s i = ∅)) := by
  unfold hold at hs
  split at hs
  · next hpos =>
    injection hs with hs
    exact ⟨(s.ent i).valid, s.slots, hs.symm, Or.inl ⟨rfl, h.ref_pos.mp hpos⟩⟩
  · next hpos =>
    obtain ⟨h0, he⟩ := h.ref_zero hpos
    split at hs
    · cases hs
    · injection hs with hs
      refine ⟨false, s.slots + 1, ?_, Or.inr ⟨rfl, he⟩⟩
      rw [h0]
      exact hs.symm

theorem local_held {v : Bool} {n : Nat} {st : Stage} (hk : k ∈ s.live → (s.tk k).inum = i) :
    Local s (openTk { setEnt s i { s.ent i with ref := (s.ent i).ref + 1, valid := v } with slots := n } k i st)
      k i where
  ent j hj := update_of_ne hj _ _
  dino _ _ := rfl
  tk x hx := update_of_ne hx _ _
  live x hx := Finset.mem_insert.trans (or_iff_right hx)
  was := hk
  now _ := by simp [openTk]

/-- One more counted reference: by `iget` or `idup` (`idle`), or by `ialloc` for
the inode it marked (`fresh`). -/
theorem Base.held (h : Base s) {v : Bool} {n : Nat} {st : Stage}
    (hv : (v = (s.ent i).valid ∧ (refs s i).Nonempty) ∨ (v = false ∧ refs s i = ∅)) (hst : (st = .idle ∧ k ∉ s.live) ∨
      (st = .fresh ∧ k ∈ s.live ∧ (s.tk k).inum = i ∧ (s.tk k).stage = .claimed)) :
    Base (openTk { setEnt s i { s.ent i with ref := (s.ent i).ref + 1, valid := v } with slots := n }
      k i st) := by
  have hk : k ∈ s.live → (s.tk k).inum = i ∧ (s.tk k).stage = .claimed := by
    rcases hst with ⟨_, hn⟩ | ⟨_, _, hc⟩
    · exact fun hk => absurd hk hn
    · exact fun _ => hc
  have hst' : st = .idle ∨ st = .fresh := hst.imp And.left And.left
  have l := @local_held δ s k i v n st fun hl => (hk hl).1
  generalize hs' : openTk { setEnt s i { s.ent i with ref := (s.ent i).ref + 1, valid := v } with slots := n }
    k i st = s' at l ⊢
  have henti : s'.ent i = { s.ent i with ref := (s.ent i).ref + 1, valid := v } := by
    rw [← hs']
    exact update_self ..
  have htkk : s'.tk k = ⟨i, st⟩ := by
    rw [← hs']
    exact update_self ..
  have hlive : k ∈ s'.live := by
    rw [← hs']
    exact Finset.mem_insert_self ..
  have hrefs := l.refs_counted hlive (by rw [htkk]; rcases hst' with rfl | rfl <;> exact nofun)
  have hknew : k ∉ refs s i := fun hm => (mem_refs.mp hm).2.2 (hk (mem_refs.mp hm).1).2
  refine h.change l ?_ ?_ ?_ ?_ ?_
  · rw [hrefs, henti, Finset.card_insert_of_notMem hknew]
    show (s.ent i).ref + 1 = _
    rw [h.count]
    rfl
  · rw [henti, htkk]
    refine iff_of_false (fun hl => hknew (h.owner hl).1) ?_
    rintro ⟨_, hc | hc⟩ <;> rcases hst' with rfl | rfl <;> cases hc
  · rw [henti]
    exact fun _ _ => Iff.rfl
  · rw [henti, ← hs']
    rcases hv with ⟨rfl, hne⟩ | ⟨rfl, _⟩
    · exact fun _ => h.valid i hne
    · exact nofun
  · rw [henti]
    intro x hx
    obtain ⟨hm, hva⟩ := h.owner hx
    rcases hv with ⟨rfl, _⟩ | ⟨_, he⟩
    · exact hva
    · rw [he] at hm
      cases hm

theorem Inv.held (h : Inv s) {v : Bool} {n : Nat} {st : Stage}
    (hv : (v = (s.ent i).valid ∧ (refs s i).Nonempty) ∨ (v = false ∧ refs s i = ∅)) (hst : (st = .idle ∧ k ∉ s.live) ∨
      (st = .fresh ∧ k ∈ s.live ∧ (s.tk k).inum = i ∧ (s.tk k).stage = .claimed))
    (hcl : ∀ j ∈ s.live, j ≠ k → (s.tk j).stage = .claimed → (s.tk j).inum ≠ i) :
    Inv (openTk { setEnt s i { s.ent i with ref := (s.ent i).ref + 1, valid := v } with slots := n }
      k i st) := by
  have hb := h.toBase.held (n := n) hv hst
  have hst' : st = .idle ∨ st = .fresh := hst.imp And.left And.left
  have l := @local_held δ s k i v n st (by rcases hst with h | h <;> tauto)
  have htkk : ((openTk { setEnt s i { s.ent i with ref := (s.ent i).ref + 1, valid := v } with slots := n }
    k i st).tk k) = ⟨i, st⟩ := update_self ..
  have hns : ∀ st', st' ≠ .idle → st' ≠ .fresh → st ≠ st' := by
    rintro st' h1 h2 rfl
    exact hst'.elim h1 h2
  refine h.change_table l hb rfl rfl ?_ ?_ ?_
  · intro x hx hxi
    by_cases hxk : x = k
    · rw [hxk, htkk]
      exact hns _ nofun nofun
    · rw [l.tk x hxk] at hxi ⊢
      exact fun hc => hcl x ((l.live x hxk).mp hx) hxk hc hxi
  · rw [htkk]
    exact fun _ hc => absurd hc (hns _ nofun nofun)
  · intro ht h0
    rcases h.lost i ht h0 with ⟨x, hx, hxi, hxs⟩ | ⟨hne, hva⟩
    · by_cases hxk : x = k
      · subst hxk
        rcases hst with ⟨_, hn⟩ | ⟨rfl, _, hi, _⟩
        · exact absurd hx hn
        · refine Or.inl ⟨x, Finset.mem_insert_self x _, ?_⟩
          rw [htkk]
          exact ⟨rfl, Or.inr rfl⟩
      · refine Or.inl ⟨x, (l.live x hxk).mpr hx, ?_⟩
        rw [l.tk x hxk]
        exact ⟨hxi, hxs⟩
    · refine Or.inr ⟨⟨k, mem_refs.mpr ⟨Finset.mem_insert_self .., ?_⟩⟩, ?_⟩
      · rw [htkk]
        exact ⟨rfl, hns _ nofun nofun⟩
      · rcases hv with ⟨rfl, _⟩ | ⟨_, he⟩
        · show (Function.update s.ent i _ i).valid = true
          rw [update_self]
          exact hva
        · rw [he] at hne
          exact absurd hne Finset.not_nonempty_empty

/-! ### Locking -/

theorem setStage_tk_self (st : Stage) : (setStage s k st).tk k = ⟨(s.tk k).inum, st⟩ :=
  update_self ..

theorem setStage_tk_of_ne (st : Stage) {x : Nat} (hx : x ≠ k) : (setStage s k st).tk x = s.tk x :=
  update_of_ne hx _ _

theorem local_restage (hi : (s.tk k).inum = i) (E : Entry δ) (st : Stage) :
    Local s (setStage (setEnt s i E) k st) k i where
  ent j hj := update_of_ne hj _ _
  dino _ _ := rfl
  tk x hx := setStage_tk_of_ne st hx
  live _ _ := Iff.rfl
  was _ := hi
  now _ := by
    rw [setStage_tk_self]
    exact hi

section
variable {E : Entry δ} {st : Stage} (hk : k ∈ s.live) (hi : (s.tk k).inum = i)
  (hold : (s.tk k).stage ≠ .claimed ∧ (s.tk k).stage ≠ .freed)
  (hst : (E.lock = some k ∧ (st = .locked ∨ st = .freeing)) ∨ (E.lock = none ∧ st = .idle))
  (hfree : (s.ent i).lock = none ∨ (s.ent i).lock = some k) (href : E.ref = (s.ent i).ref)
  (hmono : (s.ent i).valid = true → E.valid = true)
  (hvalid : E.valid = true → E.mem = s.dino i ∧ (s.dino i).type ≠ 0)
  (hloaded : (s.tk k).stage = .fresh ∨ st ≠ .idle → E.valid = true)
include hk hi hold hst

theorem refs_restage : refs (setStage (setEnt s i E) k st) i = refs s i := by
  rw [(local_restage hi E st).refs_counted hk]
  · exact Finset.insert_eq_of_mem (mem_refs.mpr ⟨hk, hi, hold.1⟩)
  · rw [setStage_tk_self]
    rcases hst with ⟨_, rfl | rfl⟩ | ⟨_, rfl⟩ <;> exact nofun

include hfree href hvalid hloaded

theorem Base.restage (h : Base s) : Base (setStage (setEnt s i E) k st) := by
  have henti : (setStage (setEnt s i E) k st).ent i = E := update_self ..
  refine h.change (local_restage hi E st) ?_ ?_ ?_ ?_ ?_
  · rw [refs_restage hk hi hold hst, henti, href]
    exact h.count i
  · rw [henti, setStage_tk_self]
    rcases hst with ⟨hl, hs⟩ | ⟨hl, rfl⟩
    · rw [hl]
      exact iff_of_true rfl ⟨hk, hs⟩
    · rw [hl]
      refine iff_of_false nofun ?_
      rintro ⟨_, hs | hs⟩ <;> cases hs
  · intro x hx
    have hne : some k ≠ some x := fun he => hx (Option.some.inj he).symm
    rw [henti]
    refine iff_of_false ?_ ?_
    · rcases hst with ⟨hl, _⟩ | ⟨hl, _⟩ <;> rw [hl]
      · exact hne
      · exact nofun
    · rcases hfree with hf | hf <;> rw [hf]
      · exact nofun
      · exact hne
  · rw [henti]
    exact fun _ => hvalid
  · rw [henti]
    intro x hx
    rcases hst with ⟨_, rfl | rfl⟩ | ⟨hl, _⟩
    · exact hloaded (Or.inr nofun)
    · exact hloaded (Or.inr nofun)
    · rw [hl] at hx
      cases hx

include hmono

theorem Inv.restage (h : Inv s) : Inv (setStage (setEnt s i E) k st) := by
  have l := local_restage hi E st
  have henti : (setStage (setEnt s i E) k st).ent i = E := update_self ..
  have hst' : st ≠ .claimed ∧ st ≠ .freed := by
    rcases hst with ⟨_, rfl | rfl⟩ | ⟨_, rfl⟩ <;> exact ⟨nofun, nofun⟩
  have hkmem : k ∈ refs s i := mem_refs.mpr ⟨hk, hi, hold.1⟩
  refine h.change_table l (h.toBase.restage hk hi hold hst hfree href hvalid hloaded) rfl rfl ?_ ?_ ?_
  · intro x hx hxi
    by_cases hxk : x = k
    · rw [hxk, setStage_tk_self]
      exact hst'.1
    · rw [l.tk x hxk] at hxi ⊢
      exact h.not_claimed hkmem hx hxi
  · rw [setStage_tk_self]
    exact fun _ hc => absurd hc hst'.2
  · intro ht h0
    rw [refs_restage hk hi hold hst, henti]
    rcases h.lost i ht h0 with ⟨x, hx, hxi, hxs⟩ | ⟨hne, hva⟩
    · by_cases hxk : x = k
      · -- an allocated inode leaves the stage `fresh` only by being locked
        subst hxk
        exact Or.inr ⟨⟨x, hkmem⟩, hloaded (Or.inl (hxs.resolve_left hold.1))⟩
      · refine Or.inl ⟨x, hx, ?_⟩
        rw [l.tk x hxk]
        exact ⟨hxi, hxs⟩
    · exact Or.inr ⟨hne, hmono hva⟩

end

/-! ### Changing a locked inode -/

theorem local_updated (D : Dinode δ) (used : Finset Nat) :
    Local s { update s k D with used := used } k (s.tk k).inum where
  ent _ hj := update_of_ne hj _ _
  dino _ hj := update_of_ne hj _ _
  tk _ _ := rfl
  live _ _ := Iff.rfl
  was _ := rfl
  now _ := rfl

section
variable {D : Dinode δ} {u : Finset Nat} (hk : k ∈ s.live) (hl : (s.tk k).stage = .locked)
  (htype : D.type = (s.dino (s.tk k).inum).type)
include hk hl htype

theorem Base.updated (h : Base s) : Base { update s k D with used := u } := by
  obtain ⟨hva, _, ht⟩ := h.owned hk (Or.inl hl)
  have henti : ({ update s k D with used := u } : St δ).ent (s.tk k).inum = { entOf s k with mem := D } :=
    update_self ..
  have hdin : ({ update s k D with used := u } : St δ).dino (s.tk k).inum = D := update_self ..
  refine h.change (local_updated D u) ?_ ?_ ?_ ?_ ?_
  · rw [henti]
    exact h.count _
  · rw [henti]
    exact iff_of_true ((h.lock _ k).mpr ⟨hk, rfl, Or.inl hl⟩) ⟨hk, Or.inl hl⟩
  · rw [henti]
    exact fun _ _ => Iff.rfl
  · rw [henti, hdin, htype]
    exact fun _ _ => ⟨rfl, ht⟩
  · rw [henti]
    exact fun _ _ => hva

theorem Inv.updated (h : Inv s) (hn : 0 ≤ D.nlink)
    (hbit : ∀ b, b ∈ u ↔ ∃ j, b ∈ (Function.update s.dino (s.tk k).inum D j).blocks)
    (hdis : ∀ b j, b ∈ D.blocks → b ∈ (s.dino j).blocks → j = (s.tk k).inum) : Inv { update s k D with used := u } := by
  obtain ⟨hva, _, ht⟩ := h.owned hk (Or.inl hl)
  have hkmem : k ∈ refs s (s.tk k).inum := (h.owner ((h.lock _ k).mpr ⟨hk, rfl, Or.inl hl⟩)).1
  have henti : ({ update s k D with used := u } : St δ).ent (s.tk k).inum = { entOf s k with mem := D } :=
    update_self ..
  have hdin : ({ update s k D with used := u } : St δ).dino (s.tk k).inum = D := update_self ..
  rw [← htype] at ht
  refine h.change (local_updated D u) (h.toBase.updated hk hl htype) ?_ ?_ ?_ ?_ ?_ hbit ?_
  · exact fun x hx hxi hxs => absurd hxs (h.not_claimed hkmem hx hxi)
  · intro x hx hxi hxs
    have h0 := h.freed x hx hxs
    rw [show (s.tk x).inum = (s.tk k).inum from hxi, ← htype] at h0
    exact absurd h0 ht
  · rw [hdin]
    exact fun h0 => absurd h0 ht
  · rw [hdin]
    exact hn
  · rw [henti]
    exact fun _ _ => Or.inr ⟨⟨k, hkmem⟩, hva⟩
  · rw [hdin]
    exact fun b j hj hb hb' => hj (hdis b j hb hb')

end

theorem Inv.bitmap_filter (h : Inv s) (i : Nat) {D : Dinode δ} (hD : D.blocks = []) (b : Nat) :
    (b ∈ s.used.filter fun b => b ∉ (s.dino i).blocks) ↔
      ∃ j, b ∈ (Function.update s.dino i D j).blocks := by
  rw [Finset.mem_filter, h.bitmap]
  constructor
  · rintro ⟨⟨j, hj⟩, hn⟩
    have hji : j ≠ i := by
      rintro rfl
      exact hn hj
    exact ⟨j, by rw [update_of_ne hji]; exact hj⟩
  · rintro ⟨j, hj⟩
    by_cases hji : j = i
    · rw [hji, update_self, hD] at hj
      cases hj
    · rw [update_of_ne hji] at hj
      exact ⟨⟨j, hj⟩, fun hi => hji (h.disjoint b j i hj hi)⟩

/-! ### `iput` -/

theorem local_freed (E : Entry δ) (D : Dinode δ) (u : Finset Nat) :
    Local s { setStage (setDino (setEnt s (s.tk k).inum E) (s.tk k).inum D) k .freed with used := u }
      k (s.tk k).inum where
  ent _ hj := update_of_ne hj _ _
  dino _ hj := update_of_ne hj _ _
  tk x hx := update_of_ne hx _ _
  live _ _ := Iff.rfl
  was _ := rfl
  now _ := by simp [setStage, setDino, setEnt]

section
variable {D : Dinode δ} {u : Finset Nat} (hk : k ∈ s.live) (hst : (s.tk k).stage = .freeing)
include hk hst

theorem Base.freed (h : Base s) :
    Base { setStage (setDino (setEnt s (s.tk k).inum { entOf s k with mem := D, valid := false, lock := none })
      (s.tk k).inum D) k .freed with used := u } := by
  have hlk := (h.lock _ k).mpr ⟨hk, rfl, Or.inr hst⟩
  have l := local_freed (s := s) (k := k) { entOf s k with mem := D, valid := false, lock := none } D u
  have htkk := setStage_tk_self (s := setDino (setEnt s (s.tk k).inum
    { entOf s k with mem := D, valid := false, lock := none }) (s.tk k).inum D) (k := k) .freed
  generalize hs' : { setStage (setDino (setEnt s (s.tk k).inum
    { entOf s k with mem := D, valid := false, lock := none }) (s.tk k).inum D) k .freed with
    used := u } = s' at l ⊢
  replace htkk : (s'.tk k).stage = .freed := by
    rw [← hs']
    exact congrArg Ticket.stage htkk
  have henti : s'.ent (s.tk k).inum = { entOf s k with mem := D, valid := false, lock := none } := by
    rw [← hs']
    exact update_self ..
  have hrefs : refs s' (s.tk k).inum = refs s (s.tk k).inum := by
    rw [l.refs_counted (by rw [← hs']; exact hk) (by rw [htkk]; decide)]
    exact Finset.insert_eq_of_mem (h.owner hlk).1
  refine h.change l ?_ ?_ ?_ ?_ ?_
  · rw [hrefs, henti]
    exact h.count _
  · rw [henti, htkk]
    refine iff_of_false nofun ?_
    rintro ⟨_, hc | hc⟩ <;> cases hc
  · intro x hx
    rw [henti, hlk]
    exact iff_of_false nofun fun he => hx (Option.some.inj he).symm
  · rw [henti]
    exact fun _ => nofun
  · rw [henti]
    exact fun _ => nofun

theorem Inv.iputFreed (h : Inv s) (hDt : D.type = 0) (hDb : D.blocks = []) (hDn : 0 ≤ D.nlink) :
    Inv { setStage (setDino (setEnt s (s.tk k).inum { entOf s k with mem := D, valid := false, lock := none })
      (s.tk k).inum D) k .freed with used := s.used.filter fun b => b ∉ (s.dino (s.tk k).inum).blocks } := by
  have hkmem := (h.owner ((h.lock _ k).mpr ⟨hk, rfl, Or.inr hst⟩)).1
  have hb := h.toBase.freed (D := D) (u := s.used.filter fun b => b ∉ (s.dino (s.tk k).inum).blocks) hk hst
  have l := local_freed (s := s) (k := k) { entOf s k with mem := D, valid := false, lock := none } D
    (s.used.filter fun b => b ∉ (s.dino (s.tk k).inum).blocks)
  have hdin : Function.update s.dino (s.tk k).inum D (s.tk k).inum = D := update_self ..
  have hnone : (Function.update s.dino (s.tk k).inum D (s.tk k).inum).blocks = [] := by rw [hdin, hDb]
  refine h.change l hb ?_ ?_ ?_ ?_ ?_ (h.bitmap_filter _ hDb) ?_
  · intro x hx hxi hxs
    by_cases hxk : x = k
    · rw [hxk] at hxs
      cases (congrArg Ticket.stage (setStage_tk_self _)).symm.trans hxs
    · rw [l.tk x hxk] at hxi hxs
      exact absurd hxs (h.not_claimed hkmem hx hxi)
  · exact fun _ _ _ _ => (congrArg Dinode.type hdin).trans hDt
  · exact fun _ => hnone
  · exact hDn.trans_eq (congrArg Dinode.nlink hdin).symm
  · exact fun ht => absurd ((congrArg Dinode.type hdin).trans hDt) ht
  · intro b _ _ hb
    replace hb : b ∈ (Function.update s.dino (s.tk k).inum D (s.tk k).inum).blocks := hb
    rw [hnone] at hb
    cases hb

end

theorem local_drop : Local s (drop s k) k (s.tk k).inum where
  ent _ hj := update_of_ne hj _ _
  dino _ _ := rfl
  tk _ _ := rfl
  live _ hx := Finset.mem_erase.trans (and_iff_right hx)
  was _ := rfl
  now _ := rfl

theorem refs_drop : refs (drop s k) (s.tk k).inum = (refs s (s.tk k).inum).erase k :=
  local_drop.refs_uncounted fun hk => absurd hk (Finset.notMem_erase k s.live)

theorem Base.dropped (h : Base s) (hk : k ∈ s.live)
    (hst : (s.tk k).stage = .idle ∨ (s.tk k).stage = .fresh ∨ (s.tk k).stage = .freed) : Base (drop s k) := by
  have hkmem : k ∈ refs s (s.tk k).inum := by
    refine mem_refs.mpr ⟨hk, rfl, ?_⟩
    rcases hst with hs | hs | hs <;> rw [hs] <;> decide
  have henti : (drop s k).ent (s.tk k).inum = { entOf s k with ref := (entOf s k).ref - 1 } :=
    update_self ..
  refine h.change local_drop ?_ ?_ ?_ ?_ ?_
  · rw [refs_drop, henti, Finset.card_erase_of_mem hkmem]
    have hpos := Finset.card_pos.mpr ⟨k, hkmem⟩
    have := h.count (s.tk k).inum
    show (s.ent (s.tk k).inum).ref - 1 = _
    omega
  · rw [henti]
    refine iff_of_false (fun hl => ?_) fun hc => Finset.notMem_erase k s.live hc.1
    obtain ⟨_, _, hc⟩ := (h.lock _ k).mp hl
    rcases hst with hs | hs | hs <;> rw [hs] at hc <;> rcases hc with hc | hc <;> cases hc
  · rw [henti]
    exact fun _ _ => Iff.rfl
  · rw [henti]
    exact fun _ => h.valid _ ⟨k, hkmem⟩
  · rw [henti]
    exact fun x hx => (h.owner hx).2

theorem Inv.dropped (h : Inv s) (hk : k ∈ s.live) (hst : (s.tk k).stage = .idle ∨ (s.tk k).stage = .freed)
    (hlast : (entOf s k).ref = 1 → (s.dino (s.tk k).inum).type ≠ 0 → (s.dino (s.tk k).inum).nlink = 0 →
      (entOf s k).valid = false) : Inv (drop s k) := by
  have hns : (s.tk k).stage ≠ .claimed ∧ (s.tk k).stage ≠ .fresh := by
    rcases hst with hs | hs <;> rw [hs] <;> exact ⟨nofun, nofun⟩
  have hkmem : k ∈ refs s (s.tk k).inum := mem_refs.mpr ⟨hk, rfl, hns.1⟩
  have hva : ((drop s k).ent (s.tk k).inum).valid = (entOf s k).valid := by
    show (Function.update s.ent _ _ _).valid = _
    rw [update_self]
  refine h.change_table local_drop (h.toBase.dropped hk (hst.imp_right Or.inr)) rfl rfl ?_ ?_ ?_
  · exact fun x hx => h.not_claimed hkmem (Finset.mem_of_mem_erase hx)
  · exact fun hk' => absurd hk' (Finset.notMem_erase k s.live)
  · intro ht h0
    rw [refs_drop, hva]
    rcases h.lost _ ht h0 with ⟨x, hx, hxi, hxs⟩ | ⟨hne, hv⟩
    · refine Or.inl ⟨x, Finset.mem_erase.mpr ⟨?_, hx⟩, hxi, hxs⟩
      rintro rfl
      exact hxs.elim hns.1 hns.2
    · refine Or.inr ⟨?_, hv⟩
      -- more than one reference, or the inode would not be valid
      by_contra hemp
      have he := Finset.card_erase_of_mem hkmem
      rw [Finset.not_nonempty_iff_eq_empty.mp hemp, Finset.card_empty] at he
      have hpos := Finset.card_pos.mpr ⟨k, hkmem⟩
      have hf := hlast (by rw [entOf, h.count]; omega) ht h0
      rw [entOf, hv] at hf
      cases hf

/-! ### `ialloc` -/

theorem local_claim (D : Dinode δ) (hk : k ∉ s.live) : Local s (openTk (setDino s i D) k i .claimed) k i where
  ent _ _ := rfl
  dino j hj := update_of_ne hj _ _
  tk x hx := update_of_ne hx _ _
  live x hx := Finset.mem_insert.trans (or_iff_right hx)
  was hl := absurd hl hk
  now _ := by simp [openTk]

theorem refs_claim (D : Dinode δ) (hk : k ∉ s.live) : refs (openTk (setDino s i D) k i .claimed) i = refs s i := by
  rw [(local_claim D hk).refs_uncounted fun _ => by simp [openTk]]
  exact Finset.erase_eq_of_notMem fun hm => hk (mem_refs.mp hm).1

theorem Base.claimed (h : Base s) (D : Dinode δ) (hk : k ∉ s.live) (hfree : (s.dino i).type = 0) :
    Base (openTk (setDino s i D) k i .claimed) := by
  refine h.change (local_claim D hk) ?_ ?_ (fun _ _ => Iff.rfl) ?_ fun _ hl => (h.owner hl).2
  · rw [refs_claim D hk]
    exact h.count i
  · refine iff_of_false (fun hl => hk (mem_refs.mp (h.owner hl).1).1) ?_
    rw [show (openTk (setDino s i D) k i .claimed).tk k = ⟨i, .claimed⟩ from update_self ..]
    rintro ⟨_, hc | hc⟩ <;> cases hc
  · -- a free inode has no valid entry
    rw [refs_claim D hk]
    exact fun hne hva => absurd hfree (h.valid i hne hva).2

theorem Inv.ialloc_claimed (h : Inv s) {D : Dinode δ} (hk : k ∉ s.live) (hfree : (s.dino i).type = 0)
    (hok : (s.ent i).ref = 0) (ht : D.type ≠ 0) (hn : D.nlink = 0) (hDb : D.blocks = []) :
    Inv (openTk (setDino s i D) k i .claimed) := by
  have l := local_claim (i := i) D hk
  have hempty : refs s i = ∅ := (h.ref_zero (by omega)).2
  have hdin : (openTk (setDino s i D) k i .claimed).dino i = D := update_self ..
  have htkk : (openTk (setDino s i D) k i .claimed).tk k = ⟨i, .claimed⟩ := update_self ..
  refine h.change l (h.toBase.claimed D hk hfree) ?_ ?_ ?_ ?_ ?_ ?_ ?_
  · intro x hx hxi hxs
    rw [hdin, refs_claim D hk]
    refine ⟨?_, ht, hempty⟩
    -- another `ialloc` would have marked the inode
    by_contra hxk
    rw [l.tk x hxk] at hxi hxs
    have h1 := (h.claimed x ((l.live x hxk).mp hx) hxs).1
    rw [hxi] at h1
    exact h1 hfree
  · intro x hx hxi hxs
    exfalso
    have hxk : x ≠ k := by
      rintro rfl
      rw [htkk] at hxs
      cases hxs
    rw [l.tk x hxk] at hxi hxs
    have hm : x ∈ refs s i := mem_refs.mpr ⟨(l.live x hxk).mp hx, hxi, by rw [hxs]; decide⟩
    rw [hempty] at hm
    cases hm
  · rw [hdin]
    exact fun _ => hDb
  · rw [hdin, hn]
  · refine fun _ _ => Or.inl ⟨k, Finset.mem_insert_self .., ?_⟩
    rw [htkk]
    exact ⟨rfl, Or.inl rfl⟩
  · intro b
    have hb := h.bitmap_filter i hDb b
    rw [h.free i hfree] at hb
    refine Iff.trans ?_ hb
    simp [openTk, setDino]
  · rw [hdin, hDb]
    exact fun _ _ _ => nofun

end

/-! ## Every step -/

/-- The effect of a step that does not panic, with its guard. -/
inductive Effect (s : St δ) : Act δ → St δ → Prop
  | hold (k i : Nat) (v : Bool) (n : Nat) (hk : k ∉ s.live)
      (hv : (v = (s.ent i).valid ∧ (refs s i).Nonempty) ∨ (v = false ∧ refs s i = ∅)) :
      Effect s (.iget k i)
        (openTk { setEnt s i { s.ent i with ref := (s.ent i).ref + 1, valid := v } with slots := n } k i .idle)
  | claim (k i ty : Nat) (hk : k ∉ s.live) (hty : ty ≠ 0) (hfree : (s.dino i).type = 0) :
      Effect s (.claim k i ty)
        (openTk (setDino s i { type := ty, nlink := 0, blocks := [], data := Content.zero }) k i .claimed)
  | ialloced (k i : Nat) (v : Bool) (n : Nat) (hk : k ∈ s.live) (hst : s.tk k = ⟨i, .claimed⟩)
      (hv : (v = (s.ent i).valid ∧ (refs s i).Nonempty) ∨ (v = false ∧ refs s i = ∅)) :
      Effect s (.ialloced k)
        (openTk { setEnt s i { s.ent i with ref := (s.ent i).ref + 1, valid := v } with slots := n } k i .fresh)
  | idup (k k' : Nat) (hk : k ∈ s.live) (hk' : k' ∉ s.live)
      (hst : (s.tk k).stage = .idle ∨ (s.tk k).stage = .fresh ∨ (s.tk k).stage = .locked) :
      Effect s (.idup k k')
        (openTk (setEnt s (s.tk k).inum { entOf s k with ref := (entOf s k).ref + 1 }) k' (s.tk k).inum .idle)
  | ilock (k : Nat) (hk : k ∈ s.live) (hst : (s.tk k).stage = .idle ∨ (s.tk k).stage = .fresh)
      (hl : (entOf s k).lock = none) (m : Dinode δ)
      (hm : ((entOf s k).valid = true ∧ m = (entOf s k).mem) ∨
        ((s.dino (s.tk k).inum).type ≠ 0 ∧ m = s.dino (s.tk k).inum)) :
      Effect s (.ilock k)
        (setStage (setEnt s (s.tk k).inum { entOf s k with lock := some k, valid := true, mem := m }) k .locked)
  | store (k : Nat) (n : Int) (d : δ) (hk : k ∈ s.live) (hl : (s.tk k).stage = .locked) :
      Effect s (.store k n d) (update s k { (entOf s k).mem with nlink := n, data := d })
  | grow (k b : Nat) (hk : k ∈ s.live) (hl : (s.tk k).stage = .locked) :
      Effect s (.grow k b)
        { update s k { (entOf s k).mem with blocks := b :: (entOf s k).mem.blocks } with used := insert b s.used }
  | itrunc (k : Nat) (hk : k ∈ s.live) (hl : (s.tk k).stage = .locked) :
      Effect s (.itrunc k)
        { update s k (truncated (entOf s k).mem) with used := s.used.filter fun b => b ∉ (entOf s k).mem.blocks }
  | iunlock (k : Nat) (hk : k ∈ s.live) (hl : (s.tk k).stage = .locked) :
      Effect s (.iunlock k) (setStage (setEnt s (s.tk k).inum { entOf s k with lock := none }) k .idle)
  | iputDrop (k : Nat) (hk : k ∈ s.live) (hst : (s.tk k).stage = .idle ∨ (s.tk k).stage = .fresh) :
      Effect s (.iput k) (drop s k)
  | iputDecide (k : Nat) (hk : k ∈ s.live) (hst : (s.tk k).stage = .idle ∨ (s.tk k).stage = .fresh)
      (href : (entOf s k).ref = 1) (hv : (entOf s k).valid = true) (hn : (entOf s k).mem.nlink = 0)
      (hl : (entOf s k).lock = none) :
      Effect s (.iput k) (setStage (setEnt s (s.tk k).inum { entOf s k with lock := some k }) k .freeing)
  | iputFree (k : Nat) (hk : k ∈ s.live) (hst : (s.tk k).stage = .freeing) :
      Effect s (.iputFree k)
        { setStage (setDino (setEnt s (s.tk k).inum
            { entOf s k with
              mem := { truncated (entOf s k).mem with type := 0 }, valid := false, lock := none })
            (s.tk k).inum { truncated (entOf s k).mem with type := 0 }) k .freed with
          used := s.used.filter fun b => b ∉ (entOf s k).mem.blocks }
  | iputLast (k : Nat) (hk : k ∈ s.live) (hst : (s.tk k).stage = .freed) : Effect s (.iputLast k) (drop s k)

omit [Content δ] in
theorem holdAs_cases (h : Base s) (st : Stage) : holdAs s k i st = { s with panic := some .igetNoInodes } ∨
    ∃ v n, holdAs s k i st =
        openTk { setEnt s i { s.ent i with ref := (s.ent i).ref + 1, valid := v } with slots := n } k i st ∧
      ((v = (s.ent i).valid ∧ (refs s i).Nonempty) ∨ (v = false ∧ refs s i = ∅)) := by
  unfold holdAs
  split
  · next s1 hs1 =>
    obtain ⟨v, n, rfl, hv⟩ := hold_cases h hs1
    exact Or.inr ⟨v, n, rfl, hv⟩
  · exact Or.inl rfl

/-- Every step panics or is one of these effects. -/
theorem step_cases (h : Base s) {a : Act δ} (hs : step s a = some s') :
    (∃ p, s' = { s with panic := some p }) ∨ Effect s a s' := by
  unfold step at hs
  split at hs
  · cases hs
  · cases a with
    | iget k i =>
      simp only [iget] at hs
      split at hs
      · cases hs
      · next hk =>
        cases hs
        rcases holdAs_cases h .idle with he | ⟨v, n, he, hv⟩ <;> rw [he]
        · exact Or.inl ⟨_, rfl⟩
        · exact Or.inr (.hold k i v n hk hv)
    | claim k i ty =>
      obtain ⟨hc, ⟨⟩⟩ := Option.ite_none_right_eq_some.mp hs
      exact Or.inr (.claim k i ty hc.1 hc.2.1 hc.2.2)
    | ialloced k =>
      obtain ⟨hc, ⟨⟩⟩ := Option.ite_none_right_eq_some.mp hs
      rcases holdAs_cases h .fresh with he | ⟨v, n, he, hv⟩ <;> rw [he]
      · exact Or.inl ⟨_, rfl⟩
      · exact Or.inr (.ialloced k _ v n hc.1 (by rw [← hc.2]) hv)
    | idup k k' =>
      obtain ⟨hc, ⟨⟩⟩ := Option.ite_none_right_eq_some.mp hs
      exact Or.inr (.idup k k' hc.1 hc.2.1 hc.2.2)
    | ilock k =>
      simp only [ilock] at hs
      split at hs
      · next hc =>
        split at hs
        · next hv =>
          cases hs
          have he := Effect.ilock k hc.1 hc.2.1 hc.2.2 (entOf s k).mem (Or.inl ⟨hv, rfl⟩)
          rw [← hv] at he
          exact Or.inr he
        · split at hs
          · cases hs
            exact Or.inl ⟨_, rfl⟩
          · next ht =>
            cases hs
            exact Or.inr (.ilock k hc.1 hc.2.1 hc.2.2 _ (Or.inr ⟨ht, rfl⟩))
      · cases hs
    | store k n d =>
      obtain ⟨hc, ⟨⟩⟩ := Option.ite_none_right_eq_some.mp hs
      exact Or.inr (.store k n d hc.1 hc.2)
    | grow k b =>
      obtain ⟨hc, ⟨⟩⟩ := Option.ite_none_right_eq_some.mp hs
      exact Or.inr (.grow k b hc.1 hc.2.1)
    | itrunc k =>
      obtain ⟨hc, ⟨⟩⟩ := Option.ite_none_right_eq_some.mp hs
      exact Or.inr (.itrunc k hc.1 hc.2)
    | iunlock k =>
      obtain ⟨hc, ⟨⟩⟩ := Option.ite_none_right_eq_some.mp hs
      exact Or.inr (.iunlock k hc.1 hc.2)
    | iput k =>
      simp only [iput] at hs
      split at hs
      · next hc =>
        split at hs
        · next hf =>
          obtain ⟨hl, ⟨⟩⟩ := Option.ite_none_right_eq_some.mp hs
          exact Or.inr (.iputDecide k hc.1 hc.2 hf.1 hf.2.1 hf.2.2 hl)
        · cases hs
          exact Or.inr (.iputDrop k hc.1 hc.2)
      · cases hs
    | iputFree k =>
      obtain ⟨hc, ⟨⟩⟩ := Option.ite_none_right_eq_some.mp hs
      exact Or.inr (.iputFree k hc.1 hc.2)
    | iputLast k =>
      obtain ⟨hc, ⟨⟩⟩ := Option.ite_none_right_eq_some.mp hs
      exact Or.inr (.iputLast k hc.1 hc.2)

theorem step_effect (h : Base s) {a : Act δ} (hs : step s a = some s') (hp : s'.panic = none) : Effect s a s' := by
  rcases step_cases h hs with ⟨p, rfl⟩ | e
  · cases hp
  · exact e

omit [Content δ] in
theorem counted {st t : Stage} (hk : k ∈ s.live) (hst : (s.tk k).stage = st ∨ (s.tk k).stage = t)
    (h1 : st ≠ .claimed ∧ st ≠ .freed) (h2 : t ≠ .claimed ∧ t ≠ .freed) :
    ((s.tk k).stage ≠ .claimed ∧ (s.tk k).stage ≠ .freed) ∧ k ∈ refs s (s.tk k).inum := by
  have hns : (s.tk k).stage ≠ .claimed ∧ (s.tk k).stage ≠ .freed := by
    rcases hst with hst | hst <;> rw [hst]
    · exact h1
    · exact h2
  exact ⟨hns, mem_refs.mpr ⟨hk, rfl, hns.1⟩⟩

theorem base_step (h : Base s) (a : Act δ) (hs : step s a = some s') : Base s' := by
  rcases step_cases h hs with ⟨p, rfl⟩ | e
  · exact { h with }
  cases e with
  | hold k i v n hk hv => exact h.held hv (Or.inl ⟨rfl, hk⟩)
  | claim k i ty hk _ hfree => exact h.claimed _ hk hfree
  | ialloced k i v n hk hst hv => exact h.held hv (Or.inr ⟨rfl, hk, by rw [hst]; exact ⟨rfl, rfl⟩⟩)
  | idup k k' hk hk' hst =>
    have hns : (s.tk k).stage ≠ .claimed := by
      rcases hst with hst | hst | hst <;> rw [hst] <;> decide
    exact h.held (n := s.slots) (Or.inl ⟨rfl, ⟨k, mem_refs.mpr ⟨hk, rfl, hns⟩⟩⟩) (Or.inl ⟨rfl, hk'⟩)
  | ilock k hk hst hl m hm =>
    obtain ⟨hns, hmem⟩ := counted hk hst ⟨nofun, nofun⟩ ⟨nofun, nofun⟩
    refine h.restage hk rfl hns (Or.inl ⟨rfl, Or.inl rfl⟩) (Or.inl hl) rfl (fun _ => ?_) fun _ => rfl
    rcases hm with ⟨hv, rfl⟩ | ⟨ht, rfl⟩
    · exact h.valid _ ⟨k, hmem⟩ hv
    · exact ⟨rfl, ht⟩
  | store k n d hk hl => exact h.updated (u := s.used) hk hl (by rw [(h.locked hk hl).2])
  | grow k b hk hl => exact h.updated hk hl (by rw [(h.locked hk hl).2])
  | itrunc k hk hl => exact h.updated hk hl (by rw [(h.locked hk hl).2]; rfl)
  | iunlock k hk hl =>
    obtain ⟨hns, hmem⟩ := counted hk (Or.inl hl) ⟨nofun, nofun⟩ (t := .idle) ⟨nofun, nofun⟩
    exact h.restage hk rfl hns (Or.inr ⟨rfl, rfl⟩) (Or.inr ((h.lock _ k).mpr ⟨hk, rfl, Or.inl hl⟩)) rfl
      (h.valid _ ⟨k, hmem⟩) fun _ => (h.locked hk hl).1
  | iputDrop k hk hst => exact h.dropped hk (hst.imp_right Or.inl)
  | iputDecide k hk hst href hv hn hl =>
    obtain ⟨hns, hmem⟩ := counted hk hst ⟨nofun, nofun⟩ ⟨nofun, nofun⟩
    exact h.restage hk rfl hns (Or.inl ⟨rfl, Or.inr rfl⟩) (Or.inl hl) rfl (h.valid _ ⟨k, hmem⟩) fun _ => hv
  | iputFree k hk hst => exact h.freed hk hst
  | iputLast k hk hst => exact h.dropped hk (Or.inr (Or.inr hst))

omit [Content δ] in
theorem Inv.bitmap_insert (h : Inv s) {b : Nat} (x : Nat) : x ∈ insert b s.used ↔
      ∃ j, x ∈ (Function.update s.dino i { s.dino i with blocks := b :: (s.dino i).blocks } j).blocks := by
  rw [Finset.mem_insert, h.bitmap]
  constructor
  · rintro (rfl | ⟨j, hj⟩)
    · exact ⟨i, by rw [update_self]; exact List.mem_cons_self⟩
    · refine ⟨j, ?_⟩
      by_cases hji : j = i
      · rw [hji, update_self]
        exact List.mem_cons_of_mem _ (hji ▸ hj)
      · rw [update_of_ne hji]
        exact hj
  · rintro ⟨j, hj⟩
    by_cases hji : j = i
    · rw [hji, update_self] at hj
      exact (List.mem_cons.mp hj).imp id fun hj => ⟨_, hj⟩
    · rw [update_of_ne hji] at hj
      exact Or.inr ⟨j, hj⟩

theorem inv_step (h : Inv s) (a : Act δ) (hok : Ok s a) (hs : step s a = some s') : Inv s' := by
  rcases step_cases h.toBase hs with ⟨p, rfl⟩ | e
  · exact { h with }
  cases e with
  | hold k i v n hk hv => exact h.held hv (Or.inl ⟨rfl, hk⟩) fun j hj _ hc => hok j hj hc
  | claim k i ty hk hty hfree => exact h.ialloc_claimed hk hfree hok hty rfl rfl
  | ialloced k i v n hk hst hv =>
    have hc : (s.tk k).stage = .claimed := by rw [hst]
    have hi : (s.tk k).inum = i := by rw [hst]
    refine h.held hv (Or.inr ⟨rfl, hk, hi, hc⟩) fun j hj hjk hjs hji => ?_
    exact hjk ((h.claimed k hk hc).2.2 j hj hjs (hji.trans hi.symm))
  | idup k k' hk hk' hst =>
    have hns : (s.tk k).stage ≠ .claimed := by
      rcases hst with hst | hst | hst <;> rw [hst] <;> decide
    have hmem : k ∈ refs s (s.tk k).inum := mem_refs.mpr ⟨hk, rfl, hns⟩
    refine h.held (n := s.slots) (Or.inl ⟨rfl, ⟨k, hmem⟩⟩) (Or.inl ⟨rfl, hk'⟩) ?_
    exact fun j hj _ hjs hji => h.not_claimed hmem hj hji hjs
  | ilock k hk hst hl m hm =>
    obtain ⟨hns, hmem⟩ := counted hk hst ⟨nofun, nofun⟩ ⟨nofun, nofun⟩
    refine h.restage hk rfl hns (Or.inl ⟨rfl, Or.inl rfl⟩) (Or.inl hl) rfl (fun _ => rfl) (fun _ => ?_)
      fun _ => rfl
    rcases hm with ⟨hv, rfl⟩ | ⟨ht, rfl⟩
    · exact h.valid _ ⟨k, hmem⟩ hv
    · exact ⟨rfl, ht⟩
  | store k n d hk hl =>
    rw [(h.locked hk hl).2]
    refine h.updated (u := s.used) hk hl rfl hok (fun b => ?_) fun b j hb hj => h.disjoint b j _ hj hb
    rw [h.bitmap]
    refine exists_congr fun j => ?_
    by_cases hj : j = (s.tk k).inum
    · rw [hj, update_self]
    · rw [update_of_ne hj]
  | grow k b hk hl =>
    have hb : b ∉ s.used := by
      intro hb
      simp [step, grow, hb] at hs
    rw [(h.locked hk hl).2]
    refine h.updated hk hl rfl (h.nonneg _) h.bitmap_insert fun x j hx hj => ?_
    rcases List.mem_cons.mp hx with rfl | hx
    · exact absurd ((h.bitmap x).mpr ⟨j, hj⟩) hb
    · exact h.disjoint x j _ hj hx
  | itrunc k hk hl =>
    rw [(h.locked hk hl).2]
    refine h.updated hk hl rfl (h.nonneg _) (fun b => h.bitmap_filter _ rfl b) ?_
    exact fun b j hb => absurd hb List.not_mem_nil
  | iunlock k hk hl =>
    obtain ⟨hns, hmem⟩ := counted hk (Or.inl hl) ⟨nofun, nofun⟩ (t := .idle) ⟨nofun, nofun⟩
    exact h.restage hk rfl hns (Or.inr ⟨rfl, rfl⟩) (Or.inr ((h.lock _ k).mpr ⟨hk, rfl, Or.inl hl⟩)) rfl id
      (h.valid _ ⟨k, hmem⟩) fun _ => (h.locked hk hl).1
  | iputDrop k hk hst =>
    replace hst : (s.tk k).stage = .idle := hst.resolve_right hok
    obtain ⟨_, hmem⟩ := counted hk (Or.inl hst) ⟨nofun, nofun⟩ (t := .idle) ⟨nofun, nofun⟩
    refine h.dropped hk (Or.inl hst) fun h1 _ h0 => ?_
    -- `iput` would have freed a valid inode
    by_contra hv
    rw [Bool.not_eq_false] at hv
    have hn : (entOf s k).mem.nlink = 0 := by rw [entOf, (h.valid _ ⟨k, hmem⟩ hv).1, h0]
    have hlive : s.live.erase k = s.live := by
      unfold step at hs
      split at hs
      · cases hs
      · simp only [iput] at hs
        rw [if_pos ⟨hk, Or.inl hst⟩, if_pos ⟨h1, hv, hn⟩] at hs
        split at hs
        · injection hs with hs
          exact (congrArg St.live hs).symm
        · cases hs
    exact Finset.erase_eq_self.mp hlive hk
  | iputDecide k hk hst href hv hn hl =>
    obtain ⟨hns, hmem⟩ := counted hk hst ⟨nofun, nofun⟩ ⟨nofun, nofun⟩
    exact h.restage hk rfl hns (Or.inl ⟨rfl, Or.inr rfl⟩) (Or.inl hl) rfl id (h.valid _ ⟨k, hmem⟩)
      fun _ => hv
  | iputFree k hk hst =>
    rw [(h.owned hk (Or.inr hst)).2.1]
    exact h.iputFreed hk hst rfl rfl (h.nonneg _)
  | iputLast k hk hst =>
    exact h.dropped hk (Or.inr hst) fun _ ht _ => absurd (h.freed k hk hst) ht

/-! ## The last reference -/

omit [Content δ] in
theorem setEnt_ref_le {E : Entry δ} (hE : (s.ent i).ref ≤ E.ref) (j : Nat) :
    (s.ent j).ref ≤ (Function.update s.ent i E j).ref := by
  by_cases hj : j = i
  · rw [hj, update_self]
    exact hE
  · rw [update_of_ne hj]

theorem step_ref (h : Base s) (a : Act δ) (hs : step s a = some s') :
    (∃ k ∈ s.live, (s.tk k).stage ≠ .claimed ∧ s' = drop s k) ∨ ∀ j, (s.ent j).ref ≤ (s'.ent j).ref := by
  rcases step_cases h hs with ⟨p, rfl⟩ | e
  · exact Or.inr fun _ => Int.le_refl _
  cases e with
  | hold | ialloced | idup => exact Or.inr (setEnt_ref_le (Int.le.intro 1 rfl))
  | claim => exact Or.inr fun _ => Int.le_refl _
  | ilock | store | grow | itrunc | iunlock | iputDecide | iputFree =>
    exact Or.inr (setEnt_ref_le (Int.le_refl _))
  | iputDrop k hk hst => exact Or.inl ⟨k, hk, by rcases hst with h | h <;> rw [h] <;> exact nofun, rfl⟩
  | iputLast k hk hst => exact Or.inl ⟨k, hk, by rw [hst]; exact nofun, rfl⟩

end

/-- An image with no reference to any inode, in which the allocated inodes are
linked and the bitmap marks their blocks, each once. -/
structure Initial (s : St δ) : Prop where
  empty : s.live = ∅
  unused : ∀ i, (s.ent i).ref = 0 ∧ (s.ent i).lock = none
  linked : ∀ i, (s.dino i).type ≠ 0 → 1 ≤ (s.dino i).nlink
  nonneg : ∀ i, 0 ≤ (s.dino i).nlink
  free : ∀ i, (s.dino i).type = 0 → (s.dino i).blocks = []
  bitmap : ∀ b, b ∈ s.used ↔ ∃ i, b ∈ (s.dino i).blocks
  disjoint : ∀ b i j, b ∈ (s.dino i).blocks → b ∈ (s.dino j).blocks → i = j

omit [Content δ] in
theorem base_empty {s : St δ} (h : s.live = ∅) (h0 : ∀ i, (s.ent i).ref = 0 ∧ (s.ent i).lock = none) : Base s := by
  have hrefs : ∀ i, refs s i = ∅ := by
    intro i
    rw [refs, h]
    rfl
  have hnone : ∀ {k}, k ∉ s.live := by
    intro k hk
    rw [h] at hk
    cases hk
  constructor
  case count => exact fun i => by rw [(h0 i).1, hrefs]; rfl
  case lock => exact fun i k => by rw [(h0 i).2]; exact iff_of_false nofun fun hc => hnone hc.1
  case valid => exact fun i hne => absurd hne (by rw [hrefs]; exact Finset.not_nonempty_empty)
  case lockedValid => exact fun k hk => absurd hk hnone

omit [Content δ] in
theorem inv_initial {s : St δ} (h : Initial s) : Inv s := by
  have hnone : ∀ {k}, k ∉ s.live := by
    intro k hk
    rw [h.empty] at hk
    cases hk
  constructor
  case toBase => exact base_empty h.empty h.unused
  case claimed => exact fun k hk => absurd hk hnone
  case freed => exact fun k hk => absurd hk hnone
  case free => exact h.free
  case nonneg => exact h.nonneg
  case lost =>
    intro i ht h0
    have := h.linked i ht
    omega
  case bitmap => exact h.bitmap
  case disjoint => exact h.disjoint

def OkReachable (s : St δ) : Prop := Run.Reach step Ok Initial s

theorem inv_reachable {s : St δ} (h : OkReachable s) : Inv s :=
  h.invariant Inv (fun _ => inv_initial) fun _ a _ hi hok hs => inv_step hi a hok hs

/-- **Unlinked inodes are freed with their last reference**, in runs whose steps are
all `Ok`: when the count of an entry gets to 0, the inode is linked, or it is
free and every block marked in the bitmap belongs to another inode. -/
theorem last_reference_frees (s s' : St δ) (h : OkReachable s) (a : Act δ) (hok : Ok s a)
    (hs : step s a = some s') (i : Nat) (hpos : 0 < (s.ent i).ref) (hzero : (s'.ent i).ref = 0) :
    1 ≤ (s'.dino i).nlink ∨
      ((s'.dino i).type = 0 ∧ (s'.dino i).blocks = [] ∧
        ∀ b ∈ s'.used, ∃ j, j ≠ i ∧ b ∈ (s'.dino j).blocks) := by
  have hi := inv_reachable h
  have hi' := inv_step hi a hok hs
  by_cases ht : (s'.dino i).type = 0
  · refine Or.inr ⟨ht, hi'.free i ht, fun b hb => ?_⟩
    obtain ⟨j, hj⟩ := (hi'.bitmap b).mp hb
    refine ⟨j, ?_, hj⟩
    rintro rfl
    rw [hi'.free j ht] at hj
    cases hj
  · left
    by_contra hlt
    have hn := hi'.nonneg i
    have hempty : refs s' i = ∅ := (hi'.ref_zero (by omega)).2
    rcases hi'.lost i ht (by omega) with ⟨k, hk, hki, hks⟩ | ⟨hne, _⟩
    · -- a fresh reference would be counted, and a claimed inode was not in the table before
      rcases hks with hks | hks
      · rcases step_ref hi.toBase a hs with ⟨x, _, _, rfl⟩ | hle
        · have hemp := (hi.claimed k (Finset.mem_of_mem_erase hk) hks).2.1
          rw [show (s.tk k).inum = i from hki] at hemp
          rw [hi.ref_pos, hemp] at hpos
          exact Finset.not_nonempty_empty hpos
        · have := hle i
          omega
      · have hm : k ∈ refs s' i := mem_refs.mpr ⟨hk, hki, by rw [hks]; decide⟩
        rw [hempty] at hm
        cases hm
    · rw [hempty] at hne
      exact Finset.not_nonempty_empty hne

end

/-! ## Two processes and one inode -/

instance : Content Unit := ⟨(), fun _ => ()⟩

/-- The root directory and four files; the inodes before the last file are in use. -/
def fiveInodes : St Unit :=
  { dino := fun i => if 1 ≤ i ∧ i ≤ 5 then ⟨if i = 1 then 1 else 2, 1, [55 + i], ()⟩ else ⟨0, 0, [], ()⟩
    ent := fun _ => ⟨0, false, ⟨0, 0, [], ()⟩, none⟩
    slots := 0
    used := {56, 57, 58, 59, 60}
    live := ∅
    tk := fun _ => ⟨0, .idle⟩
    panic := none }

theorem fiveInodes_initial : Initial fiveInodes := by
  have hb : ∀ b i, b ∈ (fiveInodes.dino i).blocks ↔ (1 ≤ i ∧ i ≤ 5) ∧ b = 55 + i := by
    intro b i
    by_cases hi : 1 ≤ i ∧ i ≤ 5 <;> simp [fiveInodes, hi]
  constructor
  case empty => rfl
  case unused => exact fun _ => ⟨rfl, rfl⟩
  case linked =>
    intro i ht
    by_cases hi : 1 ≤ i ∧ i ≤ 5
    · simp [fiveInodes, hi]
    · simp [fiveInodes, hi] at ht
  case nonneg =>
    intro i
    by_cases hi : 1 ≤ i ∧ i ≤ 5 <;> simp [fiveInodes, hi]
  case free =>
    intro i ht
    by_cases hi : 1 ≤ i ∧ i ≤ 5
    · by_cases h1 : i = 1 <;> simp [fiveInodes, hi, h1] at ht
    · simp [fiveInodes, hi]
  case bitmap =>
    intro b
    simp only [hb]
    simp only [fiveInodes, Finset.mem_insert, Finset.mem_singleton]
    exact ⟨fun h => ⟨b - 55, by omega⟩, fun ⟨i, h⟩ => by omega⟩
  case disjoint =>
    intro b i j hi hj
    have := ((hb b i).mp hi).2
    have := ((hb b j).mp hj).2
    omega

/-- `unlink` of the file, up to the middle of its last `iput`: the inode is free
on the disk, and the table still counts the reference. -/
def unlinkFile : List (Act Unit) :=
  [.iget 0 5, .ilock 0, .store 0 0 (), .iunlock 0, .iput 0, .iputFree 0]

/-- The last reference to the unlinked file, dropped by the end of `iput`. -/
theorem last_reference_frees_unlinked :
    ∃ s s', Run.runOk step Ok fiveInodes unlinkFile = some s ∧ step s (.iputLast 0) = some s' ∧
      (s'.ent 5).ref = 0 ∧ (s'.dino 5).type = 0 ∧ (s'.dino 5).blocks = [] := by
  have hsome : ((Run.runOk step Ok fiveInodes unlinkFile).bind fun s => step s (.iputLast 0)).isSome := by
    decide +kernel
  obtain ⟨s', hs'⟩ := Option.isSome_iff_exists.mp hsome
  obtain ⟨s, hs, hlast⟩ := Option.bind_eq_some_iff.mp hs'
  have hv : (Run.runOk step Ok fiveInodes unlinkFile).map (fun s => (s.ent 5).ref) = some 1 := by decide +kernel
  have hv' : ((Run.runOk step Ok fiveInodes unlinkFile).bind fun s => step s (.iputLast 0)).map
      (fun s => ((s.ent 5).ref, (s.dino 5).nlink)) = some (0, 0) := by decide +kernel
  rw [hs, Option.map_some, Option.some.injEq] at hv
  rw [hs', Option.map_some, Option.some.injEq, Prod.mk.injEq] at hv'
  have hreach : OkReachable s := Run.Reach.of_runOk unlinkFile (.start fiveInodes_initial) hs
  rcases last_reference_frees s s' hreach (.iputLast 0) trivial hlast 5 (by omega) hv'.1 with h | h
  · omega
  · exact ⟨s, s', hs, hlast, hv'.1, h.1, h.2.1⟩

/-- The window of `iput`: while one process is between freeing inode 5 on the disk
and dropping its reference, another one creates a file, gets the same inode, and
gives it up again because its name cannot be added (`create`'s `fail`).  The
second process's `iput` sees two references and frees nothing, and the first
one's drop is the last: the inode stays allocated with no name and no reference. -/
theorem unlinked_inode_lost :
    ∃ s s' : St Unit, Run.Reach step (fun _ _ => True) Initial s ∧ step s (.iputLast 0) = some s' ∧
      (∀ i ∈ [1, 2, 3, 4], (s.dino i).type ≠ 0) ∧ 0 < (s.ent 5).ref ∧
      (s'.ent 5).ref = 0 ∧ (s'.dino 5).nlink = 0 ∧ (s'.dino 5).type = 2 := by
  obtain ⟨acts, hacts⟩ : ∃ acts : List (Act Unit), acts = unlinkFile ++
    [.claim 1 5 2, .ialloced 1, .ilock 1, .store 1 1 (), .store 1 0 (), .iunlock 1, .iput 1] := ⟨_, rfl⟩
  have hsome : ((Run.run step fiveInodes acts).bind fun s => step s (.iputLast 0)).isSome := by
    rw [hacts]
    decide +kernel
  obtain ⟨s', hs'⟩ := Option.isSome_iff_exists.mp hsome
  obtain ⟨s, hs, hlast⟩ := Option.bind_eq_some_iff.mp hs'
  have hv : (Run.run step fiveInodes acts).map (fun s => ((s.ent 5).ref, [1, 2, 3, 4].all fun i =>
    (s.dino i).type ≠ 0)) =
      some (1, true) := by
    rw [hacts]
    decide +kernel
  have hv' : ((Run.run step fiveInodes acts).bind fun s => step s (.iputLast 0)).map
      (fun s => ((s.ent 5).ref, (s.dino 5).nlink, (s.dino 5).type)) = some (0, 0, 2) := by
    rw [hacts]
    decide +kernel
  rw [hs, Option.map_some, Option.some.injEq, Prod.mk.injEq] at hv
  rw [hs', Option.map_some, Option.some.injEq] at hv'
  simp only [Prod.mk.injEq] at hv'
  refine ⟨s, s', ?_, hlast, by simpa using hv.2, by omega, hv'⟩
  exact Run.Reach.of_run (fun _ _ => trivial) acts (.start fiveInodes_initial) hs

end Itable

end Xv6.Fs
