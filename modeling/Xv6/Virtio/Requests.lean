import Xv6.Virtio.Protocol

/-!
# Requests of the disk driver, over whole runs

The invariant of `Protocol` is kept by all moves of the system, so it holds in
every state that is reached, whatever the processes, the interrupts and the
device do.  From it: what is in flight, what happens to the rings and to
`b->disk` in one step, when `virtio_disk_rw` returns, and who sleeps.
-/

namespace Xv6.Virtio

open Function
open Monitor (Next code)
open Pool (Owns)

section
variable {ι β : Type} {m m' : Mem ι β} {l : Option ι} {c : ι → Option (Code β)} {p q : ι} {k : Code β}

/-! ## Every reachable state -/

theorem Initial.inv (h : Initial m) : Inv m none fun _ => none := by
  obtain ⟨h1, h2, h3, h4⟩ := h.idx
  have hnone : inFlight m = [] := by
    simp [inFlight, untaken, unread, Ring.items, Ring.count, h1, h2, h3, h4, h.device.1, h.device.2]
  exact
    { inner := fun p k hp => by cases hp
      owner := fun p k cl hp => by cases hp
      owns :=
        { range := fun p i hi => (List.not_mem_nil hi).elim
          nodup := fun _ => List.nodup_nil
          apart := fun p q i hi => (List.not_mem_nil hi).elim
          free := fun i hi => iff_of_true (h.free i hi) fun _ => List.not_mem_nil }
      req := fun p k hp => by cases hp
      nodup := by rw [hnone]; exact List.nodup_nil
      flight := fun i hi => by rw [hnone] at hi; cases hi
      busy := fun p cl idx hp => by cases hp
      bounds := by rw [h1, h2, h3, h4]; decide
      panic := Or.inl h.panicked }

theorem Inv.acquire (h : Inv m none c) : Inv m (some p) c := { h with
  inner q k hq hk := by cases h.inner q k hq hk }

/-! ## Statements and the device -/

variable {n : Next (Code β) (Chan β)}

/-- Entries leave the two rings at the front, and come in at the end. -/
def Queued (m m' : Mem ι β) : Prop := Ring.Fifo (untaken m) (untaken m') ∧ Ring.Fifo (unread m) (unread m')

def rings (m : Mem ι β) := (m.ring, m.availIdx, m.lastAvail, m.usedRing, m.usedIdx, m.seenIdx)

theorem Queued.same (h : rings m' = rings m) : Queued m m' := by
  simp only [rings, Prod.mk.injEq] at h
  obtain ⟨h1, h2, h3, h4, h5, h6⟩ := h
  refine ⟨Or.inl ?_, Or.inl ?_⟩
  · rw [untaken, untaken, h1, h2, h3]
  · rw [unread, unread, h4, h5, h6]

/-- The statement writes an index or a slot of the rings. -/
def Code.turns : Code β → Bool
  | .publish _ _ | .bump _ _ | .advance => true
  | _ => false

/-- What a statement does to the rings and to what sleepers wait for. -/
structure Moves (m : Mem ι β) (k : Code β) (m' : Mem ι β) (n : Next (Code β) (Chan β)) : Prop where
  /-- Whoever frees a descriptor wakes those that wait for descriptors. -/
  free : Pool.count NUM m'.free ≤ Pool.count NUM m.free ∨ ∃ k', n = .wake .free k'
  /-- Only `virtio_disk_intr` clears `b->disk`, and it wakes those that wait for `b`. -/
  disk : ∀ b, m.disk b = true → m'.disk b = true ∨ ∃ id k', k = .used id ∧ m.info id = some b ∧ n = .wake (.buf b) k'
  queued : k.turns = true ∨ Queued m m'
  sleep : ∀ ch k', n = .sleep ch k' → m' = m ∧
    ((∃ cl, k = .rollback cl [] ∧ ch = .free) ∨ ∃ cl idx, k = .wait cl idx ∧ ch = .buf cl.b ∧ m.disk cl.b = true)

theorem Moves.same (h : rings m' = rings m) (hf : (m'.free, m'.disk) = (m.free, m.disk))
    (hn : ∀ ch k', n ≠ .sleep ch k') : Moves m k m' n := by
  obtain ⟨hfree, hdisk⟩ := Prod.mk.inj hf
  refine ⟨Or.inl ?_, fun b hb => Or.inl ?_, Or.inr (.same h), fun ch k' hc => absurd hc (hn ch k')⟩
  · rw [hfree]
  · rw [hdisk, hb]

theorem thenFree_moves {i : Nat} {here next : Code β} (hb : thenFree m i here next = (m', n)) : Moves m k m' n := by
  unfold thenFree freeDesc at hb
  split_ifs at hb <;> cases hb
  · exact .same rfl rfl nofun
  · exact .same rfl rfl nofun
  · exact ⟨Or.inr ⟨_, rfl⟩, fun _ => Or.inl, Or.inr (.same rfl), nofun⟩

section
variable [DecidableEq β]

theorem body_moves (hb : body m k = (m', n)) : Moves m k m' n := by
  cases k with
  | alloc cl got =>
    simp only [body, allocDesc] at hb
    split at hb
    · cases hb
      exact .same rfl rfl (by rintro _ _ ⟨⟩)
    · split at hb
      · next i m1 hall =>
        cases hb
        obtain ⟨i, _, he⟩ := Option.map_eq_some_iff.mp hall
        cases he
        exact ⟨Or.inl (Pool.count_take i), fun _ => Or.inl, Or.inr (.same rfl), by rintro _ _ ⟨⟩⟩
      · cases hb
        exact .same rfl rfl (by rintro _ _ ⟨⟩)
  | rollback cl todo =>
    cases todo with
    | nil =>
      cases hb
      refine ⟨Or.inl le_rfl, fun _ => Or.inl, Or.inr (.same rfl), ?_⟩
      rintro _ _ ⟨⟩
      exact ⟨rfl, Or.inl ⟨cl, rfl, rfl⟩⟩
    | cons j todo => exact thenFree_moves hb
  | format cl idx todo =>
    cases todo with
    | nil =>
      cases hb
      exact .same rfl rfl (by rintro _ _ ⟨⟩)
    | cons x todo =>
      cases hb
      cases x with
      | disk b' =>
        refine ⟨Or.inl le_rfl, fun b hb => Or.inl ?_, Or.inr (.same rfl), by rintro _ _ ⟨⟩⟩
        by_cases hbb : b = b'
        · subst hbb
          exact update_self ..
        · exact (update_of_ne hbb _ _).trans hb
      | _ => exact .same rfl rfl (by rintro _ _ ⟨⟩)
  | wait cl idx =>
    simp only [body] at hb
    split at hb <;> cases hb
    · next hd =>
      refine ⟨Or.inl le_rfl, fun _ => Or.inl, Or.inr (.same rfl), ?_⟩
      rintro _ _ ⟨⟩
      exact ⟨rfl, Or.inr ⟨cl, idx, rfl, rfl, hd⟩⟩
    · exact .same rfl rfl (by rintro _ _ ⟨⟩)
  | chain cl idx i => exact thenFree_moves hb
  | used id =>
    simp only [body] at hb
    split at hb
    · cases hb
      exact .same rfl rfl (by rintro _ _ ⟨⟩)
    · split at hb <;> cases hb
      · exact .same rfl rfl (by rintro _ _ ⟨⟩)
      · next b' hinfo =>
        refine ⟨Or.inl le_rfl, fun b hb => ?_, Or.inr (.same rfl), by rintro _ _ ⟨⟩⟩
        by_cases hbb : b = b'
        · subst hbb
          exact Or.inr ⟨id, .advance, rfl, hinfo, rfl⟩
        · exact Or.inl ((update_of_ne hbb _ _).trans hb)
  | publish | bump | advance =>
    cases hb
    exact ⟨Or.inl le_rfl, fun _ => Or.inl, Or.inl rfl, by rintro _ _ ⟨⟩⟩
  | _ =>
    cases hb
    exact .same rfl rfl (by rintro _ _ ⟨⟩)

theorem Inv.body_queued (h : Inv m (some p) c) (hp : c p = some k) (hb : Virtio.body m k = (m', n)) : Queued m m' := by
  refine (body_moves hb).queued.elim (fun hk => ?_) id
  cases k with
  | publish cl idx =>
    have hstore := h.untaken_store hp
    cases hb
    exact ⟨Or.inl hstore, Or.inl rfl⟩
  | bump cl idx =>
    have hpush := h.untaken_push hp
    cases hb
    exact ⟨Or.inr (Or.inl ⟨_, hpush⟩), Or.inl rfl⟩
  | advance =>
    have hpop := front_cons h.bounds.2.2.1 h.bounds.2.1 (h.req p _ hp)
    cases hb
    exact ⟨Or.inl rfl, Or.inr (Or.inr ⟨_, hpop⟩)⟩
  | _ => cases hk

theorem device_frame {e : Device} (hm : device m e = some m') : m'.free = m.free ∧ m'.disk = m.disk := by
  unfold device at hm
  split at hm
  · split at hm <;> cases hm
    exact ⟨rfl, rfl⟩
  · split at hm
    · split at hm <;> cases hm <;> exact ⟨rfl, rfl⟩
    · cases hm
  · split at hm <;> cases hm
    exact ⟨rfl, rfl⟩

theorem Inv.device_queued (h : Inv m l c) {e : Device} (hm : Virtio.device m e = some m') : Queued m m' := by
  cases e with
  | take =>
    simp only [Virtio.device] at hm
    split at hm
    · cases hm
    · next hne =>
      cases hm
      exact ⟨Or.inr (Or.inr ⟨_, Ring.items_pop NUM_dvd h.bounds.2.2.2 h.bounds.1 hne⟩), Or.inl rfl⟩
  | perform i st =>
    simp only [Virtio.device] at hm
    split at hm
    · split at hm <;> cases hm <;> exact .same rfl
    · cases hm
  | append i =>
    obtain ⟨hi, ⟨⟩⟩ := Option.ite_none_right_eq_some.mp hm
    exact ⟨Or.inl rfl, Or.inr (Or.inl ⟨i, h.unread_push hi⟩)⟩

end

/-! ## Chains -/

/-- The descriptors that the device finds from `h`. -/
def chain (m : Mem ι β) (h : Nat) : List Nat := [h, (m.desc h).next, (m.desc (m.desc h).next).next]

/-- The chain of a head on its way is the one that its process holds. -/
theorem Inv.chain_eq (h : Inv m l c) {cl : Call β} {idx : Idx} (hp : c p = some (.wait cl idx)) :
    Virtio.chain m idx.i0 = idx.list := by
  have h0 : m.desc idx.i0 = _ := (h.req p _ hp).1 (.desc idx.i0 (headDesc idx)) (by simp [stores])
    (fun hc => by cases hc)
  have h1 : m.desc idx.i1 = _ := (h.req p _ hp).1 (.desc idx.i1 (dataDesc cl idx)) (by simp [stores])
    (fun hc => by cases hc)
  simp [Virtio.chain, h0, h1, headDesc, dataDesc, Idx.list]

theorem Inv.chain_held (h : Inv m l c) {i : Nat} (hi : i ∈ inFlight m) : ∃ p, Virtio.chain m i = heldBy c p := by
  obtain ⟨p, cl, idx, hp, rfl⟩ := h.flight i hi
  exact ⟨p, by rw [h.chain_eq hp, heldBy_of hp]; rfl⟩

/-- `virtio_disk_intr` clears `b->disk` for the request that the device has performed. -/
theorem Inv.used_performed (h : Inv m l c) {id : Nat} (hp : c p = some (.used id)) {b : β} (hb : m.info id = some b) :
    ∃ q cl idx, c q = some (.wait cl idx) ∧ cl.b = b ∧ idx.i0 ∈ unread m ∧ Performed m cl := by
  obtain ⟨rfl, hne⟩ := h.req p _ hp
  have hread : front m ∈ unread m := by
    rw [front_cons h.bounds.2.2.1 h.bounds.2.1 hne]
    exact List.mem_cons_self
  obtain ⟨q, cl, idx, hq, hqi⟩ := h.flight (front m) (by simp [inFlight, hread])
  obtain ⟨hst, hdone⟩ := h.req q _ hq
  have hinfo : m.info idx.i0 = some cl.b := hst (.info idx.i0 cl.b) (by simp [stores]) (fun hc => by cases hc)
  rw [hqi, hb] at hinfo
  refine ⟨q, cl, idx, hq, (Option.some.inj hinfo).symm, hqi ▸ hread, ?_⟩
  -- a head is on its way only once
  have hnd := h.nodup
  rw [inFlight, List.nodup_append, List.nodup_append, List.nodup_append] at hnd
  obtain ⟨_, ⟨_, _, hpend⟩, htake⟩ := hnd
  refine hdone (fun hc => ?_) fun hc => ?_
  · exact htake _ hc _ (by simp [hread]) hqi
  · exact hpend _ hc _ (by simp [hread]) hqi

/-! ## Sections -/

def Code.first : Code β → Bool
  | .alloc _ [] | .intr => true
  | _ => false

variable [DecidableEq ι]

theorem Inv.enter (h : Inv m l c) (hp : c p = none) (hk : k.first = true) (hown : ∀ cl, k.call = some cl →
    m.owner cl.b = some p) :
    Inv m l (update c p (some k)) := by
  have hq : ∀ {q : ι} {k' : Code β}, update c p (some k) q = some k' → q ≠ p ∧ c q = some k' ∨ q = p ∧ k' = k := by
    intro q k' hq
    by_cases hqp : q = p
    · subst hqp
      rw [update_self] at hq
      exact Or.inr ⟨rfl, (Option.some.inj hq).symm⟩
    · rw [update_of_ne hqp] at hq
      exact Or.inl ⟨hqp, hq⟩
  have hne : ∀ {q : ι} {k' : Code β}, c q = some k' → q ≠ p := by
    rintro q k' hc rfl
    rw [hp] at hc
    cases hc
  have hheld : heldBy (update c p (some k)) = heldBy c := by
    rw [heldBy_update]
    refine update_eq_self_iff.mpr ?_
    rw [heldBy, hp]
    unfold Code.first at hk
    split at hk <;> first | rfl | cases hk
  have hadv : Advancing (update c p (some k)) ↔ Advancing c := by
    constructor
    · rintro ⟨q, hc⟩
      rcases hq hc with ⟨_, hc⟩ | ⟨_, rfl⟩
      · exact ⟨q, hc⟩
      · cases hk
    · rintro ⟨q, hc⟩
      exact ⟨q, (update_of_ne (hne hc) _ _).trans hc⟩
  refine ⟨fun q k' hc hin => ?_, fun q k' cl hc hcl => ?_, hheld ▸ h.owns, fun q k' hc => ?_, h.nodup, fun i hi => ?_,
    fun q cl idx hc => ?_, h.bounds, h.panic⟩
  · rcases hq hc with ⟨_, hc⟩ | ⟨_, rfl⟩
    · exact h.inner q k' hc hin
    · unfold Code.first at hk
      split at hk <;> first | cases hin | cases hk
  · rcases hq hc with ⟨_, hc⟩ | ⟨rfl, rfl⟩
    · exact h.owner q k' cl hc hcl
    · exact hown cl hcl
  · rcases hq hc with ⟨_, hc⟩ | ⟨_, rfl⟩
    · exact h.req q k' hc
    · unfold Code.first at hk
      split at hk <;> first | exact Nat.zero_le _ | trivial
  · obtain ⟨q, cl, idx, hc, hi⟩ := h.flight i hi
    exact ⟨q, cl, idx, (update_of_ne (hne hc) _ _).trans hc, hi⟩
  · rcases hq hc with ⟨_, hc⟩ | ⟨_, rfl⟩
    · rw [h.busy q cl idx hc, hadv]
    · cases hk

theorem start_frame {n : Start β} (hm : start m p n = some (m', k)) : m' = m := by
  unfold start at hm
  split at hm
  · split at hm <;> cases hm
    rfl
  · cases hm
    rfl

variable [DecidableEq β]

theorem Inv.bufLock (h : Inv m l c) (hp : c p = none) {a : BufLock β} (hm : bufLock m p a = some m') : Inv m' l c := by
  have hkeep : ∀ {b : β} {x : Option ι}, (∀ q k cl, c q = some k → k.call = some cl → cl.b ≠ b) →
      Inv { m with owner := update m.owner b x } l c := fun hother =>
    { h with
      owner := fun q k cl hq hk => (update_of_ne (hother q k cl hq hk) _ _).trans (h.owner q k cl hq hk)
      req := fun q k hq => by cases k <;> exact h.req q _ hq }
  cases a with
  | lock b =>
    obtain ⟨hfree, ⟨⟩⟩ := Option.ite_none_right_eq_some.mp hm
    refine hkeep fun q k cl hq hk he => ?_
    have := h.owner q k cl hq hk
    rw [he, hfree] at this
    cases this
  | unlock b =>
    obtain ⟨hmine, ⟨⟩⟩ := Option.ite_none_right_eq_some.mp hm
    refine hkeep fun q k cl hq hk he => ?_
    have := h.owner q k cl hq hk
    rw [he, hmine] at this
    cases this
    rw [hp] at hq
    cases hq

theorem rule (procs : List ι) : Monitor.Rule (sys (β := β) procs) Initial Inv where
  init m h := h.inv
  acquire m c p k h _ := h.acquire
  enter m l c p n m' k _ h hp hs := by
    cases n with
    | intr =>
      cases hs
      exact h.enter hp rfl fun cl hc => by cases hc
    | rw cl =>
      simp only [sys, start] at hs
      obtain ⟨hown, ⟨⟩⟩ := Option.ite_none_right_eq_some.mp hs
      exact h.enter hp rfl fun cl' hc => by cases hc; exact hown
  idle m l c p a m' _ h hp hs := h.bufLock hp hs
  env m l c e m' _ h hs := h.device hs
  body m c p k m' n _ h hp hs := h.body hp (Option.some.inj hs)

/-! ## Sleepers -/

/-- What a process that sleeps on the channel waits for: the end of this. -/
def Waiting (m : Mem ι β) : Chan β → Prop
  | .free => Pool.count NUM m.free < 3
  | .buf b => m.disk b = true

theorem bufLock_frame {a : BufLock β} (hm : bufLock m p a = some m') : ∃ f, m' = { m with owner := f } := by
  unfold bufLock at hm
  split at hm <;> split at hm <;> cases hm <;> exact ⟨_, rfl⟩

theorem waits (procs : List ι) : Monitor.Waits (sys (β := β) procs) Inv Waiting where
  sleep m c p k m' ch k' _ h hp hs := by
    obtain ⟨rfl, ⟨cl, rfl, rfl⟩ | ⟨cl, idx, rfl, rfl, hd⟩⟩ := (body_moves (Option.some.inj hs)).sleep ch k' rfl
    · exact h.req p _ hp
    · exact hd
  body m c p k m' n ch _ h hp hs hW hn := by
    have hb := body_moves (Option.some.inj hs)
    cases ch with
    | free =>
      refine hb.free.elim (fun hle => lt_of_le_of_lt hle hW) ?_
      rintro ⟨k', rfl⟩
      exact absurd rfl (hn k')
    | buf b =>
      refine (hb.disk b hW).resolve_right ?_
      rintro ⟨id, k', _, _, rfl⟩
      exact hn k' rfl
  enter m l c p n m' k ch _ hs hW := by rwa [start_frame hs]
  idle m l c p a m' ch _ hs hW := by
    obtain ⟨f, rfl⟩ := bufLock_frame hs
    cases ch <;> exact hW
  env m l c e m' ch _ hs hW := by
    obtain ⟨hf, hd⟩ := device_frame hs
    cases ch with
    | free => exact lt_of_eq_of_lt (congrArg _ hf) hW
    | buf b => exact (congrFun hd b).trans hW

/-! ## The protocol -/

/-- What the protocol guarantees in a state, and in every step from it. -/
structure Safe (procs : List ι) (s : State ι β) : Prop where
  /-- A head is on its way once. -/
  once : (inFlight s.shared).Nodup
  /-- The chain of a head on its way has three descriptors, none of them free. -/
  chains : ∀ h ∈ inFlight s.shared, (chain s.shared h).Nodup ∧ ∀ i ∈ chain s.shared h, i < NUM ∧ s.shared.free i = false
  disjoint : ∀ h ∈ inFlight s.shared, ∀ h' ∈ inFlight s.shared, h ≠ h' → (chain s.shared h).Disjoint (chain s.shared h')
  /-- The same for all descriptors that a call of `virtio_disk_rw` has, published or not. -/
  held : ∀ p, (heldBy (code s) p).Nodup ∧ ∀ i ∈ heldBy (code s) p, i < NUM ∧ s.shared.free i = false
  apart : ∀ p q, p ≠ q → (heldBy (code s) p).Disjoint (heldBy (code s) q)
  /-- No step overwrites an untaken avail slot or an unread used slot. -/
  queued : ∀ a s', Monitor.step (sys procs) s a = some s' → Queued s.shared s'.shared
  /-- `b->disk` is cleared when the device has completed the request for `b`. -/
  cleared : ∀ a s' b, Monitor.step (sys procs) s a = some s' → s.shared.disk b = true → s'.shared.disk b = false →
    ∃ p cl idx, code s p = some (.wait cl idx) ∧ cl.b = b ∧ idx.i0 ∈ unread s.shared ∧ Performed s.shared cl
  /-- `virtio_disk_rw` returns when the device has performed its request. -/
  returns : ∀ p cl, code s p = some (.ret cl) → Performed s.shared cl
  panics : s.shared.panicked ≠ some .freeDesc1 ∧ s.shared.panicked ≠ some .freeDesc2
  /-- Nobody sleeps on `&disk.free[0]` while three descriptors are free. -/
  sleepers : s.lock = none → ∀ p k, s.point p = .sleeping .free k → Pool.count NUM s.shared.free < 3

/-- **The request protocol**, for every interleaving of the processes that call
`virtio_disk_rw`, of `virtio_disk_intr` and of the device. -/
theorem request_protocol {procs : List ι} (hall : ∀ p, p ∈ procs) {s : State ι β} (hr : Reachable procs s) :
    Safe procs s := by
  obtain ⟨l, _, h⟩ := ((rule procs).reach hr).inv
  have hheld : ∀ p, (heldBy (code s) p).Nodup ∧ ∀ i ∈ heldBy (code s) p, i < NUM ∧ s.shared.free i = false :=
    fun p => ⟨h.owns.nodup p, fun i hi => ⟨h.owns.range p i hi, h.owns.not_free hi⟩⟩
  have hapart : ∀ p q, p ≠ q → (heldBy (code s) p).Disjoint (heldBy (code s) q) :=
    fun p q hne i hp hq => hne (h.owns.apart p q i hp hq)
  refine
    { once := h.nodup
      chains := fun i hi => ?chains
      disjoint := fun i hi j hj hne => ?disjoint
      held := hheld
      apart := hapart
      queued := fun a s' hs => ?queued
      cleared := fun a s' b hs hb hb' => ?cleared
      returns := fun p cl hp => h.req p _ hp
      panics := ?panics
      sleepers := fun hl p k hp => (waits procs).sleeping (rule procs) hall hr hl hp }
  case chains =>
    obtain ⟨p, hp⟩ := h.chain_held hi
    rw [hp]
    exact hheld p
  case disjoint =>
    obtain ⟨p, a, idx, hp, rfl⟩ := h.flight i hi
    obtain ⟨q, b, idx', hq, rfl⟩ := h.flight j hj
    have hpq : p ≠ q := by
      rintro rfl
      rw [hp] at hq
      cases hq
      exact hne rfl
    have := hapart p q hpq
    rwa [heldBy_of hp, heldBy_of hq, Code.held, Code.held, ← h.chain_eq hp, ← h.chain_eq hq] at this
  case queued =>
    refine (rule procs).changes hr hs (.same rfl) (fun p n m k hm => ?_) (fun p b m hm => ?_)
      (fun l e m hI hm => hI.device_queued hm) fun p k m n hI hp hb => hI.body_queued hp (Option.some.inj hb)
    · rw [start_frame hm]
      exact .same rfl
    · obtain ⟨f, rfl⟩ := bufLock_frame hm
      exact .same rfl
  case cleared =>
    -- what a step that clears `b->disk` needs
    let R : Mem ι β → Mem ι β → Prop := fun m m' => m.disk b = true → m'.disk b = false →
      ∃ p cl idx, code s p = some (.wait cl idx) ∧ cl.b = b ∧ idx.i0 ∈ unread m ∧ Performed m cl
    have hsame : ∀ {m m' : Mem ι β}, m'.disk = m.disk → R m m' := by
      intro m m' he h1 h2
      rw [he, h1] at h2
      cases h2
    refine (rule procs).changes (R := R) hr hs (hsame rfl) (fun p n m k hm => ?_) (fun p b m hm => ?_)
      (fun l e m _ hm => hsame (device_frame hm).2) (fun p k m n hI hp hm => ?_) hb hb'
    · exact hsame (by rw [start_frame hm])
    · obtain ⟨f, rfl⟩ := bufLock_frame hm
      exact hsame rfl
    · intro h1 h2
      rcases (body_moves (Option.some.inj hm)).disk b h1 with h3 | ⟨id, k', rfl, hinfo, _⟩
      · rw [h2] at h3
        cases h3
      · exact hI.used_performed hp hinfo
  case panics =>
    rcases h.panic with he | he <;> rw [he] <;> decide

end

/-- Two processes and one buffer; nothing has happened yet. -/
def quietDisk : State (Fin 2) (Fin 1) where
  shared :=
    { desc := fun _ => .zero, ring := fun _ => 0, availIdx := 0, usedRing := fun _ => 0, usedIdx := 0,
      free := fun _ => true
      seenIdx := 0, info := fun _ => none, status := fun _ => 0, ops := fun _ => ⟨false, 0⟩, disk := fun _ => false
      owner := fun _ => none, lastAvail := 0, pending := [], finished := [], result := fun _ => none, panicked := none }
  lock := none
  point _ := .rest

/-- Process 0 locks the buffer, calls `virtio_disk_rw` and runs up to `while(b->disk == 1)`;
the device takes the request. -/
def oneRequest : List (Monitor.Move (Fin 2) (Start (Fin 1)) (BufLock (Fin 1)) Device) :=
  [.idle 0 (.lock 0), .enter 0 (.rw ⟨0, true, 33⟩)] ++ List.replicate 15 (.go 0) ++ [.env .take]

theorem request_protocol_taken : ∃ s : State (Fin 2) (Fin 1), s.shared.pending = [0] ∧ Safe [0, 1] s := by
  have hrun : ((Run.run (Monitor.step (sys [0, 1])) quietDisk oneRequest).map fun s => s.shared.pending) =
    some [0] := by
    decide
  obtain ⟨s, hs, hp⟩ := Option.map_eq_some_iff.mp hrun
  have hinit : Initial quietDisk.shared := ⟨fun _ _ => rfl, ⟨rfl, rfl, rfl, rfl⟩, ⟨rfl, rfl⟩, fun _ => rfl, rfl⟩
  have hr : Reachable [0, 1] s := Run.Reach.of_run (fun _ _ => trivial) oneRequest
    (.start ⟨hinit, rfl, fun _ => rfl⟩) hs
  exact ⟨s, hp, request_protocol (by decide) hr⟩

end Xv6.Virtio
