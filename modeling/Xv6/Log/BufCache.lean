import Mathlib.Data.Finset.Card
import Xv6.Param

/-!
# The buffer cache

`kernel/bio.c`.  `Cache` holds the `NBUF` buffers, the list of them from most to
least recently used, and the disk.  Every use of a buffer, from the critical
section of `bget` that counts it to the one of `brelse` that uncounts it, is a
`Ticket`: `waiting` in `acquiresleep`, `locked` (the buffer's sleep-lock is
taken, `bread` has not returned yet), `held`, or `released` (between
`releasesleep` and the last critical section of `brelse`).  `live` is the set of
ticket numbers in use.  A ticket is `dirty` from a store into the buffer to the
`log_write` or `bwrite` that follows it.

`CacheOK d pin c` is the invariant of the reference counts, where `pin b` is the
number of `bpin`s of block `b` not yet undone; `Coherent d pin view c` says that
clean buffers and the disk blocks that are not pinned hold `view`.
-/

namespace Xv6.Log.BufCache

open Function

variable {i : Fin NBUF}

structure Buf (β : Type) where
  dev : Nat
  blockno : Nat
  valid : Bool
  refcnt : Int
  /-- The sleep-lock. -/
  locked : Bool
  data : β

inductive Stage
  | waiting
  | locked
  | held
  | released
  deriving DecidableEq

structure Ticket (ι : Type) where
  /-- The process, or `none` for `commit()`. -/
  owner : Option ι
  buf : Fin NBUF
  blk : Nat
  stage : Stage
  dirty : Bool

structure Cache (ι β : Type) where
  bufs : Fin NBUF → Buf β
  lru : List (Fin NBUF)
  disk : Nat → β
  live : Finset Nat
  tk : Nat → Ticket ι

section
variable {ι β : Type}

def setBuf (c : Cache ι β) (i : Fin NBUF) (b : Buf β) : Cache ι β :=
  { c with bufs := update c.bufs i b }

/-- The buffer ticket `k` is for. -/
def bufOf (c : Cache ι β) (k : Nat) : Buf β := c.bufs (c.tk k).buf

def put (c : Cache ι β) (k : Nat) (b : Buf β) (t : Ticket ι) : Cache ι β :=
  { setBuf c (c.tk k).buf b with tk := update c.tk k t }

/-! ## `kernel/bio.c` -/

def lookup (d : Nat) (c : Cache ι β) (b : Nat) : Option (Fin NBUF) :=
  c.lru.find? fun i => decide ((c.bufs i).dev = d ∧ (c.bufs i).blockno = b)

/-- `bget`'s second loop: the least recently used unused buffer. -/
def victim (c : Cache ι β) : Option (Fin NBUF) :=
  c.lru.reverse.find? fun i => decide ((c.bufs i).refcnt = 0)

/-- Open ticket `k` on buffer `i`. -/
def openTk (c : Cache ι β) (k : Nat) (o : Option ι) (b : Nat) (i : Fin NBUF) : Cache ι β :=
  { c with
    live := insert k c.live
    tk := update c.tk k { owner := o, buf := i, blk := b, stage := .waiting, dirty := false } }

/-- The critical section of `bget`, which opens the unused ticket `k`; it is also
`none` on the panic "bget: no buffers". -/
def bget (d : Nat) (c : Cache ι β) (k : Nat) (o : Option ι) (b : Nat) : Option (Cache ι β) :=
  if k ∈ c.live then none
  else
    match lookup d c b with
    | some i => some (openTk (setBuf c i { c.bufs i with refcnt := (c.bufs i).refcnt + 1 }) k o b i)
    | none =>
      match victim c with
      | some i => some (openTk
          (setBuf c i { c.bufs i with dev := d, blockno := b, valid := false, refcnt := 1 }) k o b i)
      | none => none

def acquire (c : Cache ι β) (k : Nat) : Option (Cache ι β) :=
  if (c.tk k).stage = .waiting ∧ (bufOf c k).locked = false then
    some (put c k { bufOf c k with locked := true } { c.tk k with stage := .locked })
  else none

/-- The end of `bread`: read the block unless the buffer is valid. -/
def fill (c : Cache ι β) (k : Nat) : Option (Cache ι β) :=
  if (c.tk k).stage = .locked then
    some (put c k
      (if (bufOf c k).valid then bufOf c k
       else { bufOf c k with data := c.disk (bufOf c k).blockno, valid := true })
      { c.tk k with stage := .held })
  else none

/-- Store into a held buffer. -/
def store (c : Cache ι β) (k : Nat) (v : β) : Option (Cache ι β) :=
  if (c.tk k).stage = .held then
    some (put c k { bufOf c k with data := v } { c.tk k with dirty := true })
  else none

/-- The modification of a held buffer has been handed to the log. -/
def clean (c : Cache ι β) (k : Nat) : Cache ι β :=
  put c k (bufOf c k) { c.tk k with dirty := false }

def bwrite (c : Cache ι β) (k : Nat) : Option (Cache ι β) :=
  if (c.tk k).stage = .held then
    some { clean c k with disk := update c.disk (bufOf c k).blockno (bufOf c k).data }
  else none

/-- `brelse` up to `releasesleep`. -/
def unlock (c : Cache ι β) (k : Nat) : Option (Cache ι β) :=
  if (c.tk k).stage = .held then
    some (put c k { bufOf c k with locked := false } { c.tk k with stage := .released })
  else none

def unref (c : Cache ι β) (k : Nat) : Option (Cache ι β) :=
  if (c.tk k).stage = .released then
    some { setBuf c (c.tk k).buf { bufOf c k with refcnt := (bufOf c k).refcnt - 1 } with
      live := c.live.erase k
      lru := if (bufOf c k).refcnt - 1 = 0 then (c.tk k).buf :: c.lru.erase (c.tk k).buf else c.lru }
  else none

def bpin (c : Cache ι β) (k : Nat) : Cache ι β :=
  setBuf c (c.tk k).buf { bufOf c k with refcnt := (bufOf c k).refcnt + 1 }

def bunpin (c : Cache ι β) (k : Nat) : Cache ι β :=
  setBuf c (c.tk k).buf { bufOf c k with refcnt := (bufOf c k).refcnt - 1 }

/-- After `binit`: every buffer unused, with `dev = 0` and `blockno = 0`. -/
def binit (disk : Nat → β) (data : Fin NBUF → β) (tk : Nat → Ticket ι) : Cache ι β :=
  { bufs := fun i => { dev := 0, blockno := 0, valid := false, refcnt := 0, locked := false, data := data i }
    lru := (List.finRange NBUF).reverse
    disk := disk
    live := ∅
    tk := tk }

/-! ## Reference counts -/

/-- The tickets on buffer `i`: holders, waiters, and those on their way out. -/
def users (c : Cache ι β) (i : Fin NBUF) : Finset Nat := c.live.filter fun k => (c.tk k).buf = i

/-- Ticket `k` owns the sleep-lock of its buffer. -/
def Locks (c : Cache ι β) (k : Nat) : Prop := (c.tk k).stage = .locked ∨ (c.tk k).stage = .held

variable {d : Nat} {c : Cache ι β}

theorem mem_users {k : Nat} : k ∈ users c i ↔ k ∈ c.live ∧ (c.tk k).buf = i := Finset.mem_filter

/-- The buffer of a ticket is the one that it needs. -/
structure Serves (d : Nat) (T : Ticket ι) (B : Buf β) : Prop where
  dev : B.dev = d
  blk : B.blockno = T.blk
  locked : T.stage = .locked ∨ T.stage = .held → B.locked = true
  valid : T.stage = .held → B.valid = true
  dirty : T.dirty = true → T.stage = .held

structure CacheOK (d : Nat) (pin : Nat → Nat) (c : Cache ι β) : Prop where
  lruAll : ∀ i, i ∈ c.lru
  devs : ∀ i, (c.bufs i).dev = 0 ∨ (c.bufs i).dev = d
  inj : ∀ i j, (c.bufs i).dev = d → (c.bufs j).dev = d → (c.bufs i).blockno = (c.bufs j).blockno → i = j
  serves : ∀ k ∈ c.live, Serves d (c.tk k) (bufOf c k)
  refs : ∀ i, (c.bufs i).refcnt =
    (users c i).card + (if (c.bufs i).dev = d then pin (c.bufs i).blockno else 0 : Nat)
  pinned : ∀ b, pin b ≠ 0 → ∃ i, (c.bufs i).dev = d ∧ (c.bufs i).blockno = b ∧ (c.bufs i).valid = true
  excl : ∀ k ∈ c.live, ∀ k' ∈ c.live, (c.tk k).buf = (c.tk k').buf → Locks c k → Locks c k' → k = k'

structure Coherent (d : Nat) (pin : Nat → Nat) (view : Nat → β) (c : Cache ι β) : Prop where
  cached : ∀ i, (c.bufs i).dev = d → (c.bufs i).valid = true →
    (∀ k ∈ c.live, (c.tk k).buf = i → (c.tk k).dirty = false) →
    (c.bufs i).data = view (c.bufs i).blockno
  stored : ∀ b, pin b = 0 → c.disk b = view b

structure Good (d : Nat) (pin : Nat → Nat) (view : Nat → β) (c : Cache ι β) : Prop where
  ok : CacheOK d pin c
  co : Coherent d pin view c

theorem binit_cacheOK (hd : d ≠ 0) (disk : Nat → β) (data : Fin NBUF → β)
    (tk : Nat → Ticket ι) : CacheOK d (fun _ => 0) (binit disk data tk) := by
  constructor
  case lruAll => intro i; simp [binit]
  case devs => exact fun _ => Or.inl rfl
  case inj => intro i j h; exact absurd h.symm hd
  case refs =>
    intro i
    have hu : users (binit disk data tk) i = ∅ := Finset.filter_empty _
    rw [hu, ite_self]
    rfl
  all_goals simp [binit]

theorem binit_good (hd : d ≠ 0) (disk : Nat → β) (data : Fin NBUF → β)
    (tk : Nat → Ticket ι) : Good d (fun _ => 0) disk (binit disk data tk) :=
  ⟨binit_cacheOK hd disk data tk, fun _ h => absurd h.symm hd, fun _ _ => rfl⟩

/-! ## `bget` -/

theorem lookup_some {b : Nat} (h : lookup d c b = some i) : (c.bufs i).dev = d ∧ (c.bufs i).blockno = b := by
  simpa using List.find?_some h

theorem lookup_none {b : Nat} {pin : Nat → Nat} (hok : CacheOK d pin c)
    (h : lookup d c b = none) (i : Fin NBUF) : ¬ ((c.bufs i).dev = d ∧ (c.bufs i).blockno = b) := by
  simpa using List.find?_eq_none.mp h i (hok.lruAll i)

theorem victim_some {pin : Nat → Nat} (hok : CacheOK d pin c) (h : victim c = some i) :
    (∀ k ∈ c.live, (c.tk k).buf ≠ i) ∧ ((c.bufs i).dev = d → pin (c.bufs i).blockno = 0) := by
  have h0 : (c.bufs i).refcnt = 0 := by simpa using List.find?_some h
  have hr := hok.refs i
  rw [h0] at hr
  have hcard : (users c i).card = 0 := by omega
  refine ⟨fun k hk he => ?_, fun hdev => ?_⟩
  · have hm : k ∈ users c i := mem_users.mpr ⟨hk, he⟩
    rw [Finset.card_eq_zero.mp hcard] at hm
    cases hm
  · rw [if_pos hdev] at hr
    omega

section
variable {d : Nat} {pin : Nat → Nat} {view : Nat → β} {c c' : Cache ι β} {k b : Nat} {o : Option ι}

theorem users_openTk (hk : k ∉ c.live) (B : Buf β) (j : Fin NBUF) :
    users (openTk (setBuf c i B) k o b i) j = if i = j then insert k (users c j) else users c j := by
  ext x
  by_cases hx : x = k
  · subst hx
    by_cases hij : i = j
    · simp [mem_users, openTk, hij]
    · simp [mem_users, openTk, hij, hk]
  · by_cases hij : i = j
    · simp [mem_users, openTk, setBuf, hij, hx]
    · simp [mem_users, openTk, setBuf, hij, hx]

/-- What `bget` did: it counted a new ticket on the buffer of the block, which it
recycled from an unused one if there was none. -/
theorem bget_cases (hok : CacheOK d pin c) (h : bget d c k o b = some c') :
    k ∉ c.live ∧ ∃ i B, c' = openTk (setBuf c i B) k o b i ∧ B.dev = d ∧ B.blockno = b ∧
      B.locked = (c.bufs i).locked ∧
      (((c.bufs i).dev = d ∧ (c.bufs i).blockno = b ∧ B.valid = (c.bufs i).valid ∧
          B.data = (c.bufs i).data ∧ B.refcnt = (c.bufs i).refcnt + 1) ∨
        ((∀ j, ¬ ((c.bufs j).dev = d ∧ (c.bufs j).blockno = b)) ∧ (∀ j ∈ c.live, (c.tk j).buf ≠ i) ∧
          ((c.bufs i).dev = d → pin (c.bufs i).blockno = 0) ∧ B.valid = false ∧ B.refcnt = 1)) := by
  unfold bget at h
  split at h
  case isTrue => cases h
  case isFalse hk =>
  refine ⟨hk, ?_⟩
  split at h
  case h_1 i hi =>
    obtain ⟨h1, h2⟩ := lookup_some hi
    injection h with h
    exact ⟨i, _, h.symm, h1, h2, rfl, Or.inl ⟨h1, h2, rfl, rfl, rfl⟩⟩
  case h_2 hn =>
    split at h
    case h_1 i hi =>
      obtain ⟨h1, h2⟩ := victim_some hok hi
      injection h with h
      exact ⟨i, _, h.symm, rfl, rfl, rfl, Or.inr ⟨lookup_none hok hn, h1, h2, rfl, rfl⟩⟩
    case h_2 => cases h

theorem openTk_tk_self (i : Fin NBUF) : (openTk c k o b i).tk k =
    { owner := o, buf := i, blk := b, stage := .waiting, dirty := false } := update_self ..

variable {x : Nat} {B : Buf β} {T : Ticket ι}

theorem openTk_tk_of_ne (i : Fin NBUF) (hx : x ≠ k) : (openTk c k o b i).tk x = c.tk x :=
  update_of_ne hx _ _

theorem openTk_live (hk : k ∉ c.live) (hx : x ∈ (openTk c k o b i).live) : x = k ∨ (x ≠ k ∧ x ∈ c.live) := by
  rcases Finset.mem_insert.mp hx with rfl | hold
  · exact Or.inl rfl
  · refine Or.inr ⟨?_, hold⟩
    rintro rfl
    exact hk hold

theorem bget_cacheOK (hok : CacheOK d pin c) (h : bget d c k o b = some c') : CacheOK d pin c' := by
  obtain ⟨hk, i, B, rfl, hdev, hno, hlock, hB⟩ := bget_cases hok h
  -- the tickets that were on the buffer before name the same block
  have hold : ∀ x ∈ c.live, (c.tk x).buf = i → (c.tk x).blk = b ∧ B.valid = (c.bufs i).valid := by
    intro x hx hi
    rcases hB with ⟨_, hb, hv, _⟩ | ⟨_, hnone, _⟩
    · have hn := (hok.serves x hx).blk
      rw [bufOf, hi, hb] at hn
      exact ⟨hn.symm, hv⟩
    · exact absurd hi (hnone x hx)
  have hbuf : ∀ j, j ≠ i → (openTk (setBuf c i B) k o b i).bufs j = c.bufs j :=
    fun j hj => update_of_ne hj _ _
  have hbufi : (openTk (setBuf c i B) k o b i).bufs i = B := update_self ..
  have htk : ∀ x, x ≠ k → (openTk (setBuf c i B) k o b i).tk x = c.tk x :=
    fun x hx => openTk_tk_of_ne i hx
  have hself : (openTk (setBuf c i B) k o b i).tk k = _ := openTk_tk_self i
  have hnolock : ¬ Locks (openTk (setBuf c i B) k o b i) k := by
    rw [Locks, hself]
    simp
  constructor
  case lruAll => exact hok.lruAll
  case devs =>
    intro j
    by_cases hji : j = i
    · rw [hji, hbufi]
      exact Or.inr hdev
    · rw [hbuf j hji]
      exact hok.devs j
  case inj =>
    -- no other buffer is assigned to the block
    have honly : ∀ j, (c.bufs j).dev = d → (c.bufs j).blockno = b → j = i := by
      intro j hj hjb
      rcases hB with ⟨h1, h2, _⟩ | ⟨hno', _⟩
      · exact hok.inj j i hj h1 (hjb.trans h2.symm)
      · exact absurd ⟨hj, hjb⟩ (hno' j)
    intro j j' hj hj' he
    by_cases hji : j = i
    · by_cases hji' : j' = i
      · rw [hji, hji']
      · rw [hbuf j' hji'] at hj' he
        rw [hji, hbufi, hno] at he
        rw [hji, honly j' hj' he.symm]
    · rw [hbuf j hji] at hj he
      by_cases hji' : j' = i
      · rw [hji', hbufi, hno] at he
        rw [hji', honly j hj he]
      · rw [hbuf j' hji'] at hj' he
        exact hok.inj j j' hj hj' he
  case serves =>
    intro x hx
    rcases openTk_live (by exact hk) hx with rfl | ⟨hxk, hx⟩
    · rw [bufOf, hself, hbufi]
      exact ⟨hdev, hno, by simp, by simp, by simp⟩
    · have hs := hok.serves x hx
      rw [bufOf, htk x hxk]
      by_cases hxi : (c.tk x).buf = i
      · obtain ⟨hblk, hv⟩ := hold x hx hxi
        rw [bufOf, hxi] at hs
        rw [hxi, hbufi]
        exact ⟨hdev, hno.trans hblk.symm, fun hl => hlock.trans (hs.locked hl), fun hst => hv.trans
          (hs.valid hst), hs.dirty⟩
      · rw [hbuf _ hxi]
        exact hs
  case refs =>
    intro j
    rw [users_openTk hk]
    by_cases hji : j = i
    · subst hji
      have hnew : k ∉ users c j := fun hm => hk (mem_users.mp hm).1
      rw [hbufi, if_pos rfl, Finset.card_insert_of_notMem hnew, hdev, if_pos rfl, hno]
      have hr := hok.refs j
      rcases hB with ⟨h1, h2, _, _, h5⟩ | ⟨hno', hnone, _, _, h5⟩
      · rw [h1, if_pos rfl, h2] at hr
        push_cast
        omega
      · have hp : pin b = 0 := by
          by_contra hp
          obtain ⟨j', h1, h2, _⟩ := hok.pinned b hp
          exact hno' j' ⟨h1, h2⟩
        have hu : users c j = ∅ :=
          Finset.eq_empty_of_forall_notMem fun x hx => hnone x (mem_users.mp hx).1 (mem_users.mp hx).2
        rw [hu, hp, h5]
        rfl
    · rw [hbuf j hji, if_neg (Ne.symm hji)]
      exact hok.refs j
  case pinned =>
    intro b' hb'
    obtain ⟨j, h1, h2, h3⟩ := hok.pinned b' hb'
    by_cases hji : j = i
    · subst hji
      rcases hB with ⟨_, hb, hv, _⟩ | ⟨_, _, hp, _⟩
      · refine ⟨j, ?_⟩
        rw [hbufi]
        exact ⟨hdev, by rw [hno, ← hb, h2], by rw [hv, h3]⟩
      · rw [← h2] at hb'
        exact absurd (hp h1) hb'
    · refine ⟨j, ?_⟩
      rw [hbuf j hji]
      exact ⟨h1, h2, h3⟩
  case excl =>
    intro x hx y hy he hlx hly
    rcases openTk_live (by exact hk) hx with rfl | ⟨hxk, hx⟩
    · exact absurd hlx hnolock
    rcases openTk_live (by exact hk) hy with rfl | ⟨hyk, hy⟩
    · exact absurd hly hnolock
    rw [Locks, htk x hxk] at hlx
    rw [Locks, htk y hyk] at hly
    rw [htk x hxk, htk y hyk] at he
    exact hok.excl x hx y hy he hlx hly

theorem bget_coherent (hok : CacheOK d pin c) (hco : Coherent d pin view c)
    (h : bget d c k o b = some c') : Coherent d pin view c' := by
  obtain ⟨hk, i, B, rfl, hdev, hno, _, hB⟩ := bget_cases hok h
  refine ⟨fun j hj hv hcl => ?_, hco.stored⟩
  have hcl' : ∀ x ∈ c.live, (c.tk x).buf = j → (c.tk x).dirty = false := by
    intro x hx hxj
    have hxk : x ≠ k := fun he => hk (he ▸ hx)
    have hd := hcl x (Finset.mem_insert_of_mem hx)
    rw [openTk_tk_of_ne i hxk] at hd
    exact hd hxj
  by_cases hji : j = i
  · subst hji
    have hbuf : (openTk (setBuf c j B) k o b j).bufs j = B := update_self ..
    rw [hbuf] at hv ⊢
    rcases hB with ⟨h1, h2, h3, h4, _⟩ | ⟨_, _, _, hf, _⟩
    · have hold := hco.cached j h1 (h3.symm.trans hv) hcl'
      rw [h2] at hold
      rw [h4, hno, hold]
    · rw [hf] at hv
      cases hv
  · have hbuf : (openTk (setBuf c i B) k o b i).bufs j = c.bufs j := update_of_ne hji _ _
    rw [hbuf] at hj hv ⊢
    exact hco.cached j hj hv hcl'

theorem bget_good (g : Good d pin view c) (h : bget d c k o b = some c') : Good d pin view c' :=
  ⟨bget_cacheOK g.ok h, bget_coherent g.ok g.co h⟩

/-! ## Operations on an open ticket -/

theorem put_bufs_self (B : Buf β) (T : Ticket ι) : (put c k B T).bufs (c.tk k).buf = B :=
  update_self ..

theorem put_bufs_of_ne (B : Buf β) (T : Ticket ι) (hi : i ≠ (c.tk k).buf) :
    (put c k B T).bufs i = c.bufs i := update_of_ne hi _ _

theorem put_tk_self (B : Buf β) (T : Ticket ι) : (put c k B T).tk k = T := update_self ..

theorem put_tk_of_ne (B : Buf β) (T : Ticket ι) (hx : x ≠ k) : (put c k B T).tk x = c.tk x :=
  update_of_ne hx _ _

theorem put_users (B : Buf β) (T : Ticket ι) (hT : T.buf = (c.tk k).buf) (i : Fin NBUF) :
    users (put c k B T) i = users c i := by
  ext x
  rw [mem_users, mem_users]
  by_cases hx : x = k
  · subst hx
    rw [put_tk_self, hT]
    rfl
  · rw [put_tk_of_ne B T hx]
    rfl

theorem put_tk_buf (B : Buf β) (T : Ticket ι) (hT : T.buf = (c.tk k).buf) (x : Nat) :
    ((put c k B T).tk x).buf = (c.tk x).buf := by
  by_cases hx : x = k
  · rw [hx, put_tk_self, hT]
  · rw [put_tk_of_ne B T hx]

theorem put_cacheOK (hok : CacheOK d pin c) (hdev : B.dev = (bufOf c k).dev) (hno : B.blockno = (bufOf c k).blockno)
    (href : B.refcnt = (bufOf c k).refcnt) (hval : (bufOf c k).valid = true → B.valid = true)
    (hT : T.buf = (c.tk k).buf) (hblk : T.blk = (c.tk k).blk)
    (hother : ∀ x ∈ c.live, x ≠ k → (c.tk x).buf = (c.tk k).buf → ¬ Locks c x)
    (hlock : T.stage = .locked ∨ T.stage = .held → B.locked = true)
    (hheld : T.stage = .held → B.valid = true) (hdirty : T.dirty = true → T.stage = .held) :
    CacheOK d pin (put c k B T) := by
  have hfield : ∀ i, ((put c k B T).bufs i).dev = (c.bufs i).dev ∧
      ((put c k B T).bufs i).blockno = (c.bufs i).blockno ∧
      ((put c k B T).bufs i).refcnt = (c.bufs i).refcnt ∧
      ((c.bufs i).valid = true → ((put c k B T).bufs i).valid = true) := by
    intro i
    by_cases hi : i = (c.tk k).buf
    · subst hi
      rw [put_bufs_self]
      exact ⟨hdev, hno, href, hval⟩
    · rw [put_bufs_of_ne B T hi]
      exact ⟨rfl, rfl, rfl, id⟩
  have hbufOf : ∀ x, bufOf (put c k B T) x = (put c k B T).bufs (c.tk x).buf := by
    intro x
    rw [bufOf, put_tk_buf B T hT]
  constructor
  case lruAll => exact hok.lruAll
  case devs =>
    intro i
    rw [(hfield i).1]
    exact hok.devs i
  case inj =>
    intro i j hi hj he
    rw [(hfield i).1] at hi
    rw [(hfield j).1] at hj
    rw [(hfield i).2.1, (hfield j).2.1] at he
    exact hok.inj i j hi hj he
  case serves =>
    intro x hx
    have hs := hok.serves x hx
    rw [hbufOf]
    by_cases hxk : x = k
    · subst hxk
      rw [put_tk_self, put_bufs_self]
      exact ⟨hdev.trans hs.dev, hno.trans (hs.blk.trans hblk.symm), hlock, hheld, hdirty⟩
    · rw [put_tk_of_ne B T hxk]
      refine ⟨(hfield _).1.trans hs.dev, (hfield _).2.1.trans hs.blk, fun hl => ?_,
        fun hst => (hfield _).2.2.2 (hs.valid hst), hs.dirty⟩
      rw [put_bufs_of_ne B T fun he => hother x hx hxk he hl]
      exact hs.locked hl
  case refs =>
    intro i
    rw [(hfield i).1, (hfield i).2.1, (hfield i).2.2.1, put_users B T hT]
    exact hok.refs i
  case pinned =>
    intro b hb
    obtain ⟨i, h1, h2, h3⟩ := hok.pinned b hb
    refine ⟨i, ?_, ?_, (hfield i).2.2.2 h3⟩
    · rw [(hfield i).1, h1]
    · rw [(hfield i).2.1, h2]
  case excl =>
    intro x hx y hy he hlx hly
    rw [put_tk_buf B T hT, put_tk_buf B T hT] at he
    by_cases hxk : x = k
    · by_cases hyk : y = k
      · rw [hxk, hyk]
      · rw [Locks, put_tk_of_ne B T hyk] at hly
        exact absurd hly (hother y hy hyk (by rw [← he, hxk]))
    · rw [Locks, put_tk_of_ne B T hxk] at hlx
      by_cases hyk : y = k
      · exact absurd hlx (hother x hx hxk (by rw [he, hyk]))
      · rw [Locks, put_tk_of_ne B T hyk] at hly
        exact hok.excl x hx y hy he hlx hly

/-- A change of the buffer keeps the store coherent when the buffer is dirty
afterwards or holds what the view has for the block. -/
theorem put_coherent (hco : Coherent d pin view c) (hk : k ∈ c.live)
    (hT : T.buf = (c.tk k).buf) (hdata : B.dev = d → B.valid = true → T.dirty = false → B.data = view B.blockno) :
    Coherent d pin view (put c k B T) := by
  refine ⟨fun i hi hv hcl => ?_, hco.stored⟩
  by_cases hi' : i = (c.tk k).buf
  · subst hi'
    rw [put_bufs_self] at hi hv ⊢
    have hd := hcl k hk
    rw [put_tk_self] at hd
    exact hdata hi hv (hd hT)
  · rw [put_bufs_of_ne B T hi'] at hi hv ⊢
    refine hco.cached i hi hv fun x hx hxi => ?_
    have hxk : x ≠ k := by
      rintro rfl
      exact hi' hxi.symm
    have hd := hcl x hx
    rw [put_tk_of_ne B T hxk] at hd
    exact hd hxi

theorem CacheOK.clean (hok : CacheOK d pin c) (hk : k ∈ c.live) (hs : (c.tk k).stage ≠ .held) :
    (c.tk k).dirty = false :=
  Bool.eq_false_iff.mpr fun hd => hs ((hok.serves k hk).dirty hd)

theorem CacheOK.others_unlocked (hok : CacheOK d pin c) (hk : k ∈ c.live) (hl : Locks c k) :
    ∀ x ∈ c.live, x ≠ k → (c.tk x).buf = (c.tk k).buf → ¬ Locks c x :=
  fun x hx hxk he hlx => hxk (hok.excl x hx k hk he hlx hl)

section
variable (g : Good d pin view c) (hk : k ∈ c.live)
include g hk

/-- A valid buffer that no other ticket has locked and this one has not modified
holds the view's content of its block. -/
theorem Good.data_eq (hother : ∀ x ∈ c.live, x ≠ k → (c.tk x).buf = (c.tk k).buf → ¬ Locks c x)
    (hd : (c.tk k).dirty = false) (hv : (bufOf c k).valid = true) : (bufOf c k).data = view (bufOf c k).blockno := by
  apply g.co.cached _ (g.ok.serves k hk).dev hv
  intro x hx he
  by_cases hxk : x = k
  · rw [hxk, hd]
  · exact g.ok.clean hx fun hs => hother x hx hxk he (Or.inr hs)

theorem Good.held_data (hs : (c.tk k).stage = .held)
    (hd : (c.tk k).dirty = false) : (bufOf c k).data = view (c.tk k).blk := by
  rw [← (g.ok.serves k hk).blk]
  exact g.data_eq hk (g.ok.others_unlocked hk (Or.inr hs)) hd ((g.ok.serves k hk).valid hs)

theorem acquire_good (h : acquire c k = some c') : Good d pin view c' := by
  obtain ⟨hc, rfl⟩ := Option.ite_some_none_eq_some.mp h
  have hother : ∀ x ∈ c.live, x ≠ k → (c.tk x).buf = (c.tk k).buf → ¬ Locks c x := by
    intro x hx _ he hl
    have := (g.ok.serves x hx).locked hl
    rw [bufOf, he] at this
    exact Bool.noConfusion (this.symm.trans hc.2)
  have hclean := g.ok.clean hk (by rw [hc.1]; decide)
  constructor
  · refine put_cacheOK g.ok rfl rfl rfl id rfl rfl hother ?_ ?_ ?_
    · exact fun _ => rfl
    · exact nofun
    · exact fun hd => Bool.noConfusion (hclean.symm.trans hd)
  · exact put_coherent g.co hk rfl fun _ hv _ => g.data_eq hk hother hclean hv

/-- A buffer is read from the disk only when its block is not pinned. -/
theorem Good.disk_eq (hv : (bufOf c k).valid = false) : c.disk (bufOf c k).blockno = view (bufOf c k).blockno := by
  apply g.co.stored
  by_contra hp
  obtain ⟨i, h1, h2, h3⟩ := g.ok.pinned _ hp
  have hi : i = (c.tk k).buf := g.ok.inj i _ h1 (g.ok.serves k hk).dev h2
  rw [bufOf, ← hi, h3] at hv
  cases hv

theorem fill_good (h : fill c k = some c') : Good d pin view c' := by
  obtain ⟨hs, rfl⟩ := Option.ite_some_none_eq_some.mp h
  have hother := g.ok.others_unlocked hk (Or.inl hs)
  have hclean := g.ok.clean hk (by rw [hs]; decide)
  have hl : (bufOf c k).locked = true := (g.ok.serves k hk).locked (Or.inl hs)
  by_cases hv : (bufOf c k).valid = true
  · rw [if_pos hv]
    constructor
    · exact put_cacheOK g.ok rfl rfl rfl id rfl rfl hother (fun _ => hl) (fun _ => hv) fun _ => rfl
    · exact put_coherent g.co hk rfl fun _ hv _ => g.data_eq hk hother hclean hv
  · rw [if_neg hv]
    constructor
    · exact put_cacheOK g.ok rfl rfl rfl (fun _ => rfl) rfl rfl hother (fun _ => hl) (fun _ => rfl)
        fun _ => rfl
    · exact put_coherent g.co hk rfl fun _ _ _ => g.disk_eq hk (by simpa using hv)

theorem store_good {v : β} (h : store c k v = some c') : Good d pin view c' := by
  obtain ⟨hs, rfl⟩ := Option.ite_some_none_eq_some.mp h
  constructor
  · exact put_cacheOK g.ok rfl rfl rfl id rfl rfl (g.ok.others_unlocked hk (Or.inr hs))
      (fun _ => (g.ok.serves k hk).locked (Or.inr hs)) (fun _ => (g.ok.serves k hk).valid hs) fun _ => hs
  · exact put_coherent g.co hk rfl fun _ _ hd => nomatch hd

theorem clean_cached (hs : (c.tk k).stage = .held) : CacheOK d pin (clean c k) ∧
      ∀ i, ((clean c k).bufs i).dev = d → ((clean c k).bufs i).valid = true →
        (∀ x ∈ c.live, ((clean c k).tk x).buf = i → ((clean c k).tk x).dirty = false) →
        ((clean c k).bufs i).data =
          update view (c.tk k).blk (bufOf c k).data ((clean c k).bufs i).blockno := by
  constructor
  · exact put_cacheOK g.ok rfl rfl rfl id rfl rfl (g.ok.others_unlocked hk (Or.inr hs))
      (fun _ => (g.ok.serves k hk).locked (Or.inr hs)) (fun _ => (g.ok.serves k hk).valid hs) fun _ => hs
  · intro i hi hv hcl
    have hn := g.ok.serves k hk
    by_cases hi' : i = (c.tk k).buf
    · subst hi'
      rw [clean, put_bufs_self, hn.2, update_self]
    · rw [clean, put_bufs_of_ne _ _ hi'] at hi hv ⊢
      have hb : (c.bufs i).blockno ≠ (c.tk k).blk := by
        intro he
        exact hi' (g.ok.inj i _ hi hn.1 (he.trans hn.2.symm))
      rw [update_of_ne hb]
      apply g.co.cached i hi hv
      intro x hx hxi
      have hxk : x ≠ k := by
        rintro rfl
        exact hi' hxi.symm
      have hd := hcl x hx
      rw [clean, put_tk_of_ne _ _ hxk] at hd
      exact hd hxi

theorem clean_good (hs : (c.tk k).stage = .held) (hp : pin (c.tk k).blk ≠ 0) :
    Good d pin (update view (c.tk k).blk (bufOf c k).data) (clean c k) := by
  obtain ⟨hok, hca⟩ := clean_cached g hk hs
  refine ⟨hok, hca, fun b hb => ?_⟩
  have hbk : b ≠ (c.tk k).blk := by
    rintro rfl
    exact hp hb
  rw [update_of_ne hbk]
  exact g.co.stored b hb

theorem bwrite_good (h : bwrite c k = some c') : Good d pin (update view (c.tk k).blk (bufOf c k).data) c' := by
  obtain ⟨hs, rfl⟩ := Option.ite_some_none_eq_some.mp h
  obtain ⟨hok, hca⟩ := clean_cached g hk hs
  refine ⟨{ hok with }, hca, fun b hb => ?_⟩
  show update c.disk (bufOf c k).blockno (bufOf c k).data b = _
  rw [(g.ok.serves k hk).blk]
  by_cases hbk : b = (c.tk k).blk
  · rw [hbk, update_self, update_self]
  · rw [update_of_ne hbk, update_of_ne hbk]
    exact g.co.stored b hb

theorem unlock_good (hd : (c.tk k).dirty = false) (h : unlock c k = some c') : Good d pin view c' := by
  obtain ⟨hs, rfl⟩ := Option.ite_some_none_eq_some.mp h
  have hother := g.ok.others_unlocked hk (Or.inr hs)
  constructor
  · refine put_cacheOK g.ok rfl rfl rfl id rfl rfl hother ?_ ?_ ?_
    · rintro (h | h) <;> cases h
    · exact nofun
    · exact fun hd' => Bool.noConfusion (hd.symm.trans hd')
  · exact put_coherent g.co hk rfl fun _ hv _ => g.data_eq hk hother hd hv

end

/-! ## Counting -/

theorem setBuf_bufs_self (i : Fin NBUF) (B : Buf β) : (setBuf c i B).bufs i = B := update_self ..

theorem setBuf_bufs_of_ne {j : Fin NBUF} (B : Buf β) (hj : j ≠ i) : (setBuf c i B).bufs j = c.bufs j :=
  update_of_ne hj _ _

theorem setBuf_refcnt (i : Fin NBUF) (n : Int) (j : Fin NBUF) : (setBuf c i { c.bufs i with refcnt := n }).bufs j =
      { c.bufs j with refcnt := if j = i then n else (c.bufs j).refcnt } := by
  by_cases hj : j = i
  · subst hj
    rw [setBuf_bufs_self, if_pos rfl]
  · rw [setBuf_bufs_of_ne _ hj, if_neg hj]

theorem Good.recount (g : Good d pin view c) {pin' : Nat → Nat} {n : Int}
    {live : Finset Nat} {lru : List (Fin NBUF)} (hlru : ∀ j, j ∈ lru) (hlive : live ⊆ c.live)
    (hdirty : ∀ x ∈ c.live, (c.tk x).dirty = true → x ∈ live) (hrefs : ∀ j, (if j = i then n else (c.bufs j).refcnt) =
      (live.filter fun x => (c.tk x).buf = j).card +
        (if (c.bufs j).dev = d then pin' (c.bufs j).blockno else 0 : Nat)) (hpinned : ∀ b, pin' b ≠ 0 →
      ∃ j, (c.bufs j).dev = d ∧ (c.bufs j).blockno = b ∧ (c.bufs j).valid = true)
    (hstored : ∀ b, pin' b = 0 → c.disk b = view b) : Good d pin' view
      { setBuf c i { c.bufs i with refcnt := n } with live := live, lru := lru } := by
  have hb : ∀ j, ({ setBuf c i { c.bufs i with refcnt := n } with live := live, lru := lru } :
      Cache ι β).bufs j = { c.bufs j with refcnt := if j = i then n else (c.bufs j).refcnt } :=
    fun j => setBuf_refcnt i n j
  constructor
  · constructor
    case lruAll => exact hlru
    case devs =>
      intro j
      rw [hb]
      exact g.ok.devs j
    case inj =>
      intro j j' hj hj' he
      rw [hb] at hj hj' he
      rw [hb] at he
      exact g.ok.inj j j' hj hj' he
    case serves =>
      intro x hx
      have hs := g.ok.serves x (hlive hx)
      rw [bufOf, hb]
      exact ⟨hs.dev, hs.blk, hs.locked, hs.valid, hs.dirty⟩
    case refs =>
      intro j
      rw [hb]
      exact hrefs j
    case pinned =>
      intro b hb'
      obtain ⟨j, h⟩ := hpinned b hb'
      refine ⟨j, ?_⟩
      rw [hb]
      exact h
    case excl => exact fun x hx y hy => g.ok.excl x (hlive hx) y (hlive hy)
  · refine ⟨fun j hj hv hcl => ?_, hstored⟩
    rw [hb] at hj hv ⊢
    apply g.co.cached j hj hv
    intro x hx hxj
    by_contra hd
    rw [Bool.not_eq_false] at hd
    have hcx := hcl x (hdirty x hx hd) hxj
    exact Bool.noConfusion (hcx.symm.trans hd)

theorem mem_moveToFront {j : Fin NBUF} {l : List (Fin NBUF)} (h : j ∈ l) : j ∈ i :: l.erase i := by
  by_cases hj : j = i
  · exact hj ▸ List.mem_cons_self
  · exact List.mem_cons_of_mem _ ((List.mem_erase_of_ne hj).mpr h)

section
variable (g : Good d pin view c) (hk : k ∈ c.live)
include g hk

theorem unref_good (h : unref c k = some c') : Good d pin view c' := by
  obtain ⟨hs, rfl⟩ := Option.ite_some_none_eq_some.mp h
  refine g.recount ?_ (Finset.erase_subset k c.live) ?_ ?_ g.ok.pinned g.co.stored
  · intro j
    split
    · exact mem_moveToFront (g.ok.lruAll j)
    · exact g.ok.lruAll j
  · intro x hx hd
    refine Finset.mem_erase.mpr ⟨?_, hx⟩
    rintro rfl
    have := (g.ok.serves x hx).dirty hd
    rw [hs] at this
    cases this
  · intro j
    rw [Finset.filter_erase]
    have hr := g.ok.refs j
    by_cases hj : j = (c.tk k).buf
    · have hmem : k ∈ c.live.filter fun x => (c.tk x).buf = j := mem_users.mpr ⟨hk, hj.symm⟩
      have hpos := Finset.card_pos.mpr ⟨k, hmem⟩
      rw [if_pos hj, Finset.card_erase_of_mem hmem]
      rw [users, hj] at hr
      rw [hj] at hpos ⊢
      rw [bufOf]
      omega
    · have hmem : k ∉ c.live.filter fun x => (c.tk x).buf = j :=
        fun hm => hj (mem_users.mp hm).2.symm
      rw [if_neg hj, Finset.erase_eq_of_notMem hmem]
      exact hr

theorem Good.repin {m : Nat} (hv : (bufOf c k).valid = true)
    (hm : m = 0 → c.disk (c.tk k).blk = view (c.tk k).blk) : Good d (update pin (c.tk k).blk m) view
      (setBuf c (c.tk k).buf { bufOf c k with
        refcnt := (bufOf c k).refcnt + m - pin (c.tk k).blk }) := by
  have hn := g.ok.serves k hk
  refine g.recount g.ok.lruAll (Finset.Subset.refl _) (fun x hx _ => hx) ?_ ?_ ?_
  · intro j
    have hr := g.ok.refs j
    by_cases hj : j = (c.tk k).buf
    · rw [if_pos hj, hj, show (c.bufs (c.tk k).buf).blockno = (c.tk k).blk from hn.2,
        show (c.bufs (c.tk k).buf).dev = d from hn.1, if_pos rfl, update_self]
      rw [hj, show (c.bufs (c.tk k).buf).blockno = (c.tk k).blk from hn.2,
        show (c.bufs (c.tk k).buf).dev = d from hn.1, if_pos rfl, users] at hr
      rw [bufOf]
      omega
    · rw [if_neg hj, hr]
      by_cases hdev : (c.bufs j).dev = d
      · have hb : (c.bufs j).blockno ≠ (c.tk k).blk := fun he =>
          hj (g.ok.inj j _ hdev hn.1 (he.trans hn.2.symm))
        rw [if_pos hdev, if_pos hdev, update_of_ne hb]
        rfl
      · rw [if_neg hdev, if_neg hdev]
        rfl
  · intro b hb
    by_cases hbk : b = (c.tk k).blk
    · exact ⟨_, hn.1, hn.2.trans hbk.symm, hv⟩
    · rw [update_of_ne hbk] at hb
      exact g.ok.pinned b hb
  · intro b hb
    by_cases hbk : b = (c.tk k).blk
    · rw [hbk, update_self] at hb
      rw [hbk, hm hb]
    · rw [update_of_ne hbk] at hb
      exact g.co.stored b hb

theorem bpin_good (hs : (c.tk k).stage = .held) :
    Good d (update pin (c.tk k).blk (pin (c.tk k).blk + 1)) view (bpin c k) := by
  have h := g.repin hk (m := pin (c.tk k).blk + 1) ((g.ok.serves k hk).valid hs) nofun
  have he : (bufOf c k).refcnt + ((pin (c.tk k).blk + 1 : Nat) : Int) - pin (c.tk k).blk =
      (bufOf c k).refcnt + 1 := by omega
  rw [he] at h
  exact h

theorem bunpin_good (hs : (c.tk k).stage = .held)
    (hp : pin (c.tk k).blk = 1) (hdisk : c.disk (c.tk k).blk = view (c.tk k).blk) :
    Good d (update pin (c.tk k).blk 0) view (bunpin c k) := by
  have h := g.repin hk (m := 0) ((g.ok.serves k hk).valid hs) fun _ => hdisk
  have he : (bufOf c k).refcnt + ((0 : Nat) : Int) - pin (c.tk k).blk = (bufOf c k).refcnt - 1 := by
    omega
  rw [he] at h
  exact h

end

/-! ## Frames -/

/-- An operation on ticket `k` leaves the other tickets alone, and the content of
the buffers they have locked. -/
structure Frame (k : Nat) (c c' : Cache ι β) : Prop where
  live : ∀ x, x ≠ k → (x ∈ c'.live ↔ x ∈ c.live)
  tk : ∀ x, x ≠ k → c'.tk x = c.tk x
  data : ∀ x ∈ c.live, x ≠ k → Locks c x → (bufOf c' x).data = (bufOf c x).data

theorem Frame.trans {c1 : Cache ι β} (h1 : Frame k c c1) (h2 : Frame k c1 c') : Frame k c c' where
  live x hx := (h2.live x hx).trans (h1.live x hx)
  tk x hx := (h2.tk x hx).trans (h1.tk x hx)
  data x hl hx hk :=
    (h2.data x ((h1.live x hx).mpr hl) hx (by rw [Locks, h1.tk x hx]; exact hk)).trans (h1.data x hl hx hk)

theorem bget_frame (hok : CacheOK d pin c) (h : bget d c k o b = some c') : Frame k c c' := by
  obtain ⟨hk, i, B, rfl, _, _, _, hB⟩ := bget_cases hok h
  refine ⟨fun x hx => ?_, fun x hx => openTk_tk_of_ne i hx, fun x hx hxk _ => ?_⟩
  · exact ⟨fun hm => (Finset.mem_insert.mp hm).resolve_left hx, Finset.mem_insert_of_mem⟩
  · rw [bufOf, openTk_tk_of_ne i hxk]
    show (update c.bufs i B (c.tk x).buf).data = _
    by_cases hxi : (c.tk x).buf = i
    · rw [hxi, update_self]
      rcases hB with ⟨_, _, _, hd, _⟩ | ⟨_, hnone, _⟩
      · rw [hd, bufOf, hxi]
      · exact absurd hxi (hnone x hx)
    · rw [update_of_ne hxi]
      rfl

theorem bget_spec (hok : CacheOK d pin c) (h : bget d c k o b = some c') :
    k ∉ c.live ∧ c'.live = insert k c.live ∧ c'.disk = c.disk ∧ (c'.tk k).owner = o ∧
      (c'.tk k).blk = b ∧ (c'.tk k).stage = .waiting ∧ (c'.tk k).dirty = false := by
  obtain ⟨hk, i, B, rfl, _⟩ := bget_cases hok h
  rw [openTk_tk_self]
  exact ⟨hk, rfl, rfl, rfl, rfl, rfl, rfl⟩

theorem put_frame (h : B.data = (bufOf c k).data ∨
      ∀ x ∈ c.live, x ≠ k → (c.tk x).buf = (c.tk k).buf → ¬ Locks c x) : Frame k c (put c k B T) := by
  refine ⟨fun x _ => Iff.rfl, fun x hx => put_tk_of_ne B T hx, fun x hx hxk hl => ?_⟩
  rw [bufOf, put_tk_of_ne B T hxk]
  by_cases hxi : (c.tk x).buf = (c.tk k).buf
  · rw [hxi, put_bufs_self]
    rcases h with h | h
    · rw [h, bufOf, bufOf, hxi]
    · exact absurd hl (h x hx hxk hxi)
  · rw [put_bufs_of_ne B T hxi]
    rfl

theorem acquire_frame (h : acquire c k = some c') : Frame k c c' := by
  obtain ⟨_, rfl⟩ := Option.ite_some_none_eq_some.mp h
  exact put_frame (Or.inl rfl)

theorem acquire_spec (h : acquire c k = some c') :
    c'.live = c.live ∧ c'.disk = c.disk ∧ c'.tk k = { c.tk k with stage := .locked } := by
  obtain ⟨_, rfl⟩ := Option.ite_some_none_eq_some.mp h
  exact ⟨rfl, rfl, put_tk_self _ _⟩

theorem fill_frame (hok : CacheOK d pin c) (hk : k ∈ c.live) (h : fill c k = some c') : Frame k c c' := by
  obtain ⟨hs, rfl⟩ := Option.ite_some_none_eq_some.mp h
  exact put_frame (Or.inr (hok.others_unlocked hk (Or.inl hs)))

theorem fill_spec (h : fill c k = some c') :
    c'.live = c.live ∧ c'.disk = c.disk ∧ c'.tk k = { c.tk k with stage := .held } := by
  obtain ⟨_, rfl⟩ := Option.ite_some_none_eq_some.mp h
  exact ⟨rfl, rfl, put_tk_self _ _⟩

theorem store_frame (hok : CacheOK d pin c) (hk : k ∈ c.live) {v : β} (h : store c k v = some c') : Frame k c c' := by
  obtain ⟨hs, rfl⟩ := Option.ite_some_none_eq_some.mp h
  exact put_frame (Or.inr (hok.others_unlocked hk (Or.inr hs)))

theorem store_spec {v : β} (h : store c k v = some c') : (c.tk k).stage = .held ∧ c'.live = c.live ∧ c'.disk = c.disk ∧
      c'.tk k = { c.tk k with dirty := true } ∧ (bufOf c' k).data = v := by
  obtain ⟨hs, rfl⟩ := Option.ite_some_none_eq_some.mp h
  refine ⟨hs, rfl, rfl, put_tk_self _ _, ?_⟩
  rw [bufOf, put_tk_self, put_bufs_self]

theorem clean_frame : Frame k c (clean c k) := put_frame (Or.inl rfl)

theorem bwrite_frame (h : bwrite c k = some c') : Frame k c c' := by
  obtain ⟨_, rfl⟩ := Option.ite_some_none_eq_some.mp h
  obtain ⟨h1, h2, h3⟩ : Frame k c (clean c k) := clean_frame
  exact ⟨h1, h2, h3⟩

theorem bwrite_spec (h : bwrite c k = some c') : (c.tk k).stage = .held ∧ c'.live = c.live ∧
      c'.disk = update c.disk (bufOf c k).blockno (bufOf c k).data ∧
      c'.tk k = { c.tk k with dirty := false } := by
  obtain ⟨hs, rfl⟩ := Option.ite_some_none_eq_some.mp h
  exact ⟨hs, rfl, rfl, put_tk_self (bufOf c k) _⟩

theorem unlock_frame (h : unlock c k = some c') : Frame k c c' := by
  obtain ⟨_, rfl⟩ := Option.ite_some_none_eq_some.mp h
  exact put_frame (Or.inl rfl)

theorem unlock_spec (h : unlock c k = some c') :
    c'.live = c.live ∧ c'.disk = c.disk ∧ c'.tk k = { c.tk k with stage := .released } := by
  obtain ⟨_, rfl⟩ := Option.ite_some_none_eq_some.mp h
  exact ⟨rfl, rfl, put_tk_self _ _⟩

theorem setBuf_refcnt_data (i : Fin NBUF) (n : Int) (x : Nat) :
    (bufOf (setBuf c i { c.bufs i with refcnt := n }) x).data = (bufOf c x).data := by
  rw [bufOf, setBuf_refcnt]
  rfl

theorem unref_frame (h : unref c k = some c') : Frame k c c' := by
  obtain ⟨_, rfl⟩ := Option.ite_some_none_eq_some.mp h
  refine ⟨fun x hx => ?_, fun _ _ => rfl, fun x _ _ _ => setBuf_refcnt_data _ _ x⟩
  exact Finset.mem_erase.trans (and_iff_right hx)

theorem unref_disk (h : unref c k = some c') : c'.disk = c.disk := by
  obtain ⟨_, rfl⟩ := Option.ite_some_none_eq_some.mp h
  rfl

theorem bunpin_frame : Frame k c (bunpin c k) :=
  ⟨fun _ _ => Iff.rfl, fun _ _ => rfl, fun x _ _ _ => setBuf_refcnt_data _ _ x⟩

end

end

end Xv6.Log.BufCache
