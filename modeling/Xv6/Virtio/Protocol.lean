import Mathlib.Data.List.Nodup
import Mathlib.Data.List.Perm.Subperm
import Xv6.Virtio.Driver

/-!
# The request protocol of the disk driver

`inFlight` are the heads on their way: published and untaken, taken, performed,
and in the used ring.  `Inv` ties them to the processes that wait in
`virtio_disk_rw`: a head is on its way for exactly one of them, no descriptor is
held twice, and `b->disk` is set for as long as the head of `b` is on its way.
Every statement of the driver and every step of the device keeps it.
-/

namespace Xv6.Virtio

open Function Ring
open Monitor (Next)
open Pool (Owns)

variable {idx : Idx} {i : Nat}

section
variable {ι β : Type}

/-- The heads that the device has not taken yet. -/
def untaken (m : Mem ι β) : List Nat := items NUM U16 m.ring m.lastAvail m.availIdx

/-- The heads that `virtio_disk_intr` has not read yet. -/
def unread (m : Mem ι β) : List Nat := items NUM U16 m.usedRing m.seenIdx m.usedIdx

def inFlight (m : Mem ι β) : List Nat := untaken m ++ (m.pending ++ (m.finished ++ unread m))

/-- The entry of the used ring that `virtio_disk_intr` reads next. -/
def front (m : Mem ι β) : Nat := m.usedRing (m.seenIdx % NUM)

/-- The descriptors that the code has still to free. -/
def Code.held : Code β → List Nat
  | .alloc _ got => got
  | .rollback _ todo => todo
  | .format _ idx _ | .publish _ idx | .bump _ idx | .wait _ idx | .clear _ idx => idx.list
  | .chain _ idx i => idx.list.dropWhile (· ≠ i)
  | .ret _ | .intr | .used _ | .advance | .iret => []

def Code.call : Code β → Option (Call β)
  | .alloc c _ | .rollback c _ | .format c _ _ | .publish c _ | .bump c _ | .wait c _ | .clear c _
  | .chain c _ _ | .ret c =>
    some c
  | .intr | .used _ | .advance | .iret => none

/-- The code runs only after `acquire`, and does not call `sleep` first. -/
def Code.inner : Code β → Bool
  | .alloc _ [] | .wait _ _ | .intr => false
  | _ => true

def heldBy (c : ι → Option (Code β)) (p : ι) : List Nat := (c p).elim [] Code.held

/-- The store has been made. -/
def Holds (m : Mem ι β) : Store β → Prop
  | .op i o => m.ops i = o
  | .desc i d => m.desc i = d
  | .status _ _ => True
  | .disk b => m.disk b = true
  | .info i b => m.info i = some b

/-- The descriptor of `idx` at place `n`. -/
def Linked (m : Mem ι β) (c : Call β) (idx : Idx) : Prop := ∀ i d, Store.desc i d ∈ stores c idx → m.desc i = d

/-- The device has performed the request of this call. -/
def Performed (m : Mem ι β) (c : Call β) : Prop := m.result c.b = some ⟨c.write, c.sector⟩

/-- What the code relies on. -/
def Req (m : Mem ι β) : Code β → Prop
  | .rollback _ todo => Pool.count NUM m.free + todo.length < 3
  | .format c idx todo => ∃ pre, pre ++ todo = stores c idx ∧ ∀ x ∈ pre, Holds m x
  | .publish c idx => ∀ x ∈ stores c idx, Holds m x
  | .bump c idx => (∀ x ∈ stores c idx, Holds m x) ∧ m.ring (m.availIdx % NUM) = idx.i0
  | .wait c idx => (∀ x ∈ stores c idx, x ≠ .disk c.b → Holds m x) ∧
      (idx.i0 ∉ untaken m → idx.i0 ∉ m.pending → Performed m c)
  | .clear c idx => Linked m c idx ∧ Performed m c
  | .chain c idx i => (idx.list.Nodup ∧ i ∈ idx.list ∧
      ∀ j ∈ idx.list.dropWhile (· ≠ i), ∀ d, Store.desc j d ∈ stores c idx → m.desc j = d) ∧ Performed m c
  | .ret c => Performed m c
  | .used id => id = front m ∧ m.seenIdx ≠ m.usedIdx
  | .advance => m.seenIdx ≠ m.usedIdx
  | .alloc _ got => got.length ≤ 3
  | .intr | .iret => True

/-- `virtio_disk_intr` has cleared `b->disk` for the first unread entry. -/
def Advancing (c : ι → Option (Code β)) : Prop := ∃ p, c p = some .advance

structure Inv (m : Mem ι β) (l : Option ι) (c : ι → Option (Code β)) : Prop where
  inner : ∀ p k, c p = some k → k.inner = true → l = some p
  owner : ∀ p k cl, c p = some k → k.call = some cl → m.owner cl.b = some p
  owns : Owns NUM m.free (heldBy c)
  req : ∀ p k, c p = some k → Req m k
  nodup : (inFlight m).Nodup
  flight : ∀ h ∈ inFlight m, ∃ p cl idx, c p = some (.wait cl idx) ∧ idx.i0 = h
  busy : ∀ p cl idx, c p = some (.wait cl idx) →
    (m.disk cl.b = true ↔ idx.i0 ∈ inFlight m ∧ ¬ (Advancing c ∧ idx.i0 = front m))
  bounds : m.availIdx < U16 ∧ m.usedIdx < U16 ∧ m.seenIdx < U16 ∧ m.lastAvail < U16
  panic : m.panicked = none ∨ m.panicked = some .status

/-! ## What the invariant says -/

variable {m m' : Mem ι β} {l : Option ι} {c : ι → Option (Code β)} {p q : ι} {k k' : Code β}

theorem heldBy_of (hp : c p = some k) : heldBy c p = k.held := by
  rw [heldBy, hp]
  rfl

theorem heldBy_update [DecidableEq ι] (c : ι → Option (Code β)) (p : ι) (x : Option (Code β)) :
    heldBy (update c p x) = update (heldBy c) p (x.elim [] Code.held) := by
  funext q
  by_cases hq : q = p
  · subst hq
    simp [heldBy]
  · simp [heldBy, hq]

theorem Inv.outside (h : Inv m (some p) c) (hq : c q = some k) (hne : q ≠ p) : k.inner = false := by
  rw [← Bool.not_eq_true]
  exact fun hc => hne (Option.some.inj (h.inner q k hq hc)).symm

theorem Inv.buf_ne (h : Inv m l c) (hp : c p = some k) (hq : c q = some k') (hne : q ≠ p) {a b : Call β}
    (ha : k.call = some a)
    (hb : k'.call = some b) : b.b ≠ a.b := by
  intro he
  have h1 := h.owner p k a hp ha
  have h2 := h.owner q k' b hq hb
  rw [he, h1] at h2
  exact hne (Option.some.inj h2).symm

theorem Inv.head_lt (h : Inv m l c) (hi : i ∈ inFlight m) : i < NUM := by
  obtain ⟨p, cl, idx, hp, rfl⟩ := h.flight i hi
  exact h.owns.range p _ (by rw [heldBy_of hp]; simp [Code.held, Idx.list])

theorem length_le_NUM {l : List Nat} (hn : l.Nodup) (hlt : ∀ i ∈ l, i < NUM) : l.length ≤ NUM := by
  have := (hn.subperm fun i hi => List.mem_range.mpr (hlt i hi) : l.Subperm (List.range NUM)).length_le
  rwa [List.length_range] at this

/-- The head of a request that has not been published. -/
theorem Inv.not_inFlight (h : Inv m l c) (hp : c p = some k) (hi : i ∈ k.held) (hk : ∀ cl idx, k ≠ .wait cl idx) :
    i ∉ inFlight m := by
  intro hin
  obtain ⟨q, cl, idx, hq, rfl⟩ := h.flight i hin
  have hqp : q = p := by
    refine h.owns.apart q p idx.i0 ?_ (by rw [heldBy_of hp]; exact hi)
    rw [heldBy_of hq]
    simp [Code.held, Idx.list]
  subst hqp
  rw [hp] at hq
  exact hk cl idx (Option.some.inj hq)

theorem Inv.untaken_lt (h : Inv m l c) (hp : c p = some k) (hi : i ∈ k.held) (hk : ∀ cl idx, k ≠ .wait cl idx) :
    count U16 m.lastAvail m.availIdx < NUM := by
  have hall : (i :: inFlight m).length ≤ NUM := by
    refine length_le_NUM (List.nodup_cons.mpr ⟨h.not_inFlight hp hi hk, h.nodup⟩) fun j hj => ?_
    rcases List.mem_cons.mp hj with rfl | hj
    · exact h.owns.range p _ (by rw [heldBy_of hp]; exact hi)
    · exact h.head_lt hj
  have hle : (untaken m).length ≤ (inFlight m).length := by
    simp only [inFlight, List.length_append]
    omega
  rw [List.length_cons] at hall
  rw [untaken, items_length] at hle
  omega

theorem Inv.unread_lt (h : Inv m l c) (hi : i ∈ m.finished) : count U16 m.seenIdx m.usedIdx < NUM := by
  have hall : (inFlight m).length ≤ NUM := length_le_NUM h.nodup fun j hj => h.head_lt hj
  have hpos : 0 < m.finished.length := List.length_pos_of_mem hi
  have hlen : (unread m).length = count U16 m.seenIdx m.usedIdx := items_length
  simp only [inFlight, List.length_append] at hall
  omega

theorem NUM_dvd : NUM ∣ U16 := by decide

variable {cl : Call β}

theorem Inv.waiting (h : Inv m l c) (hp : c p = some k) (hq : c q = some (.wait cl idx))
    (hi : idx.i0 ∈ k.held) : q = p := by
  refine h.owns.apart q p idx.i0 ?_ (by rw [heldBy_of hp]; exact hi)
  rw [heldBy_of hq]
  simp [Code.held, Idx.list]

theorem front_cons (hb : m.seenIdx < U16) (hb' : m.usedIdx < U16) (hne : m.seenIdx ≠ m.usedIdx) :
    unread m = front m :: items NUM U16 m.usedRing ((m.seenIdx + 1) % U16) m.usedIdx :=
  items_pop NUM_dvd hb hb' hne

theorem request_of_wait (h : Req m (.wait cl idx)) : request m idx.i0 = some (⟨cl.write, cl.sector⟩, cl.b, idx.i0) := by
  have hop : m.ops idx.i0 = _ := h.1 (.op idx.i0 ⟨cl.write, cl.sector⟩) (by simp [stores]) (fun hc => by cases hc)
  have h0 : m.desc idx.i0 = _ := h.1 (.desc idx.i0 (headDesc idx)) (by simp [stores]) (fun hc => by cases hc)
  have h1 : m.desc idx.i1 = _ := h.1 (.desc idx.i1 (dataDesc cl idx)) (by simp [stores]) (fun hc => by cases hc)
  have h2 : m.desc idx.i2 = _ := h.1 (.desc idx.i2 (statusDesc idx)) (by simp [stores]) (fun hc => by cases hc)
  simp [request, h0, h1, h2, hop, headDesc, dataDesc, statusDesc]

theorem Inv.unread_succ_lt (h : Inv m l c) (hi : i ∈ m.finished) : count U16 m.seenIdx m.usedIdx + 1 < U16 := by
  have hlt := h.unread_lt hi
  have : NUM < U16 := by decide
  omega

theorem Inv.unread_store (h : Inv m l c) (hi : i ∈ m.finished) :
    items NUM U16 (update m.usedRing (m.usedIdx % NUM) i) m.seenIdx m.usedIdx = unread m :=
  items_store NUM_dvd h.bounds.2.2.1 h.bounds.2.1 (h.unread_lt hi) i

theorem Inv.unread_push (h : Inv m l c) (hi : i ∈ m.finished) :
    items NUM U16 (update m.usedRing (m.usedIdx % NUM) i) m.seenIdx ((m.usedIdx + 1) % U16) = unread m ++ [i] := by
  refine (items_push NUM_dvd h.bounds.2.2.1 h.bounds.2.1 (h.unread_succ_lt hi)).trans ?_
  rw [h.unread_store hi]
  exact congrArg (unread m ++ [·]) (update_self ..)

theorem Req.wait_congr (h : Req m (.wait cl idx)) (hops : m'.ops idx.i0 = m.ops idx.i0)
    (hdesc : ∀ i ∈ idx.list, m'.desc i = m.desc i) (hinfo : m'.info idx.i0 = m.info idx.i0)
    (hresult : m'.result cl.b = m.result cl.b) (huntaken : idx.i0 ∉ untaken m' → idx.i0 ∉ untaken m)
    (hpending : m'.pending = m.pending) : Req m' (.wait cl idx) := by
  refine ⟨fun x hx hd => ?_, fun h1 h2 => ?_⟩
  · have hold := h.1 x hx hd
    simp only [stores, List.mem_cons, List.not_mem_nil, or_false] at hx
    rcases hx with rfl | rfl | rfl | rfl | rfl | rfl | rfl
    · exact hops.trans hold
    · exact (hdesc _ (by simp [Idx.list])).trans hold
    · exact (hdesc _ (by simp [Idx.list])).trans hold
    · trivial
    · exact (hdesc _ (by simp [Idx.list])).trans hold
    · exact absurd rfl hd
    · exact hinfo.trans hold
  · rw [hpending] at h2
    exact hresult.trans (h.2 (huntaken h1) h2)

/-- The memory after `free_desc(i)`. -/
def freed (m : Mem ι β) (i : Nat) : Mem ι β :=
  { m with desc := update m.desc i Desc.zero, free := update m.free i true }

/-- `free_desc` of a descriptor that the code holds does not panic. -/
theorem Inv.freeDesc_ok (h : Inv m l c) (hp : c p = some k) (hi : i ∈ k.held) : freeDesc m i = .ok (freed m i) := by
  have hmem : i ∈ heldBy c p := by
    rw [heldBy_of hp]
    exact hi
  have hlt := h.owns.range p i hmem
  rw [freeDesc, if_neg (by omega), if_neg (by simp [h.owns.not_free hmem])]
  rfl

theorem Inv.untaken_store (h : Inv m l c) (hp : c p = some (.publish cl idx)) :
    items NUM U16 (update m.ring (m.availIdx % NUM) idx.i0) m.lastAvail m.availIdx = untaken m :=
  items_store NUM_dvd h.bounds.2.2.2 h.bounds.1
    (h.untaken_lt hp (i := idx.i0) (by simp [Code.held, Idx.list]) (fun _ _ hc => by cases hc)) _

theorem Inv.untaken_push (h : Inv m l c) (hp : c p = some (.bump cl idx)) :
    items NUM U16 m.ring m.lastAvail ((m.availIdx + 1) % U16) = untaken m ++ [idx.i0] := by
  have hlt := h.untaken_lt hp (i := idx.i0) (by simp [Code.held, Idx.list]) (fun _ _ hc => by cases hc)
  rw [← (h.req p _ hp).2]
  refine items_push NUM_dvd h.bounds.2.2.2 h.bounds.1 ?_
  have : NUM < U16 := by decide
  omega

/-! ## The device -/

theorem Inv.permute (h : Inv m l c) (hperm : (inFlight m').Perm (inFlight m)) (howner : m'.owner = m.owner)
    (hfree : m'.free = m.free) (hdisk : m'.disk = m.disk) (hfront : m.seenIdx ≠ m.usedIdx → front m' = front m)
    (hreq : ∀ p k, c p = some k → Req m' k)
    (hbounds : m'.availIdx < U16 ∧ m'.usedIdx < U16 ∧ m'.seenIdx < U16 ∧ m'.lastAvail < U16)
    (hpanic : m'.panicked = m.panicked) : Inv m' l c where
  inner := h.inner
  owner := by rw [howner]; exact h.owner
  owns := by rw [hfree]; exact h.owns
  req := hreq
  nodup := hperm.nodup_iff.mpr h.nodup
  flight i hi := h.flight i (hperm.mem_iff.mp hi)
  busy p cl idx hp := by
    rw [hdisk, h.busy p cl idx hp, hperm.mem_iff]
    refine and_congr_right fun _ => not_congr (and_congr_right fun ⟨q, hq⟩ => ?_)
    rw [hfront (h.req q _ hq)]
  bounds := hbounds
  panic := by rw [hpanic]; exact h.panic

section
variable [DecidableEq β]

theorem append_singleton_perm (i : Nat) (us ps xs : List Nat) :
    (us ++ ((ps ++ [i]) ++ xs)).Perm (i :: us ++ (ps ++ xs)) := by
  have h : (us ++ ps ++ i :: xs).Perm (i :: (us ++ ps ++ xs)) := List.perm_middle
  simpa using h

theorem Inv.take (h : Inv m l c) (hm : device m .take = some m') : Inv m' l c := by
  obtain ⟨b1, b2, b3, b4⟩ := h.bounds
  simp only [device] at hm
  split at hm
  · cases hm
  · next hne =>
    cases hm
    have hpop : untaken m = m.ring (m.lastAvail % NUM) :: items NUM U16 m.ring
      ((m.lastAvail + 1) % U16) m.availIdx :=
      items_pop NUM_dvd b4 b1 hne
    have hmem : ∀ i, (i ∉ untaken m ∧ i ∉ m.pending) ↔
        i ∉ items NUM U16 m.ring ((m.lastAvail + 1) % U16) m.availIdx ∧
          i ∉ m.pending ++ [m.ring (m.lastAvail % NUM)] := by
      intro i
      rw [hpop, List.mem_cons, List.mem_append, List.mem_singleton]
      tauto
    refine h.permute ?_ rfl rfl rfl (fun _ => rfl) (fun p k hp => ?_) ⟨b1, b2, b3, Nat.mod_lt _ (by decide)⟩ rfl
    · rw [inFlight, inFlight, hpop]
      exact append_singleton_perm _ _ _ _
    · have hk := h.req p k hp
      cases k with
      | wait cl idx =>
        refine ⟨hk.1, fun h1 h2 => ?_⟩
        obtain ⟨h1, h2⟩ := (hmem idx.i0).mpr ⟨h1, h2⟩
        exact hk.2 h1 h2
      | _ => exact hk

theorem erase_append_perm {as bs : List Nat} (hi : i ∈ as) : (as.erase i ++ (bs ++ [i])).Perm (as ++ bs) := by
  have h1 : (as.erase i ++ (bs ++ [i])).Perm (i :: (as.erase i ++ bs)) := by
    rw [← List.append_assoc]
    exact List.perm_append_singleton _ _
  exact h1.trans ((List.perm_cons_erase hi).symm.append_right bs)

theorem Inv.perform (h : Inv m l c) {st : Nat} (hm : device m (.perform i st) = some m') : Inv m' l c := by
  simp only [device] at hm
  split at hm
  case isFalse => cases hm
  next hi =>
  have hfly : i ∈ inFlight m := by simp [inFlight, hi]
  obtain ⟨p, cl, idx, hp, rfl⟩ := h.flight i hfly
  rw [request_of_wait (h.req p _ hp)] at hm
  cases hm
  refine h.permute ?_ rfl rfl rfl (fun _ => rfl) (fun q k hq => ?_) h.bounds rfl
  · refine List.Perm.append (List.Perm.refl (untaken m)) ?_
    rw [← List.append_assoc, ← List.append_assoc m.pending]
    exact (erase_append_perm hi).append_right _
  · have hk := h.req q k hq
    -- the result of another call is for another buffer
    have hother : ∀ {a : Call β}, k.call = some a → q ≠ p → Performed m a →
        update m.result cl.b (some ⟨cl.write, cl.sector⟩) a.b = some ⟨a.write, a.sector⟩ := by
      intro a ha hne hdone
      rw [update_of_ne (h.buf_ne hp hq hne rfl ha)]
      exact hdone
    have hne : (∀ a b, k ≠ .wait a b) → q ≠ p := by
      rintro hw rfl
      rw [hp] at hq
      exact hw cl idx (Option.some.inj hq).symm
    cases k with
    | wait a idx' =>
      refine ⟨hk.1, fun h1 h2 => ?_⟩
      by_cases hqp : q = p
      · subst hqp
        rw [hp] at hq
        cases hq
        exact update_self ..
      · refine hother rfl hqp (hk.2 h1 fun hc => h2 ?_)
        refine (List.mem_erase_of_ne fun he => hqp ?_).mpr hc
        refine h.waiting hp hq ?_
        rw [he]
        simp [Code.held, Idx.list]
    | clear a idx' => exact ⟨hk.1, hother rfl (hne fun _ _ hc => by cases hc) hk.2⟩
    | chain a idx' j => exact ⟨hk.1, hother rfl (hne fun _ _ hc => by cases hc) hk.2⟩
    | ret a => exact hother rfl (hne fun _ _ hc => by cases hc) hk
    | _ => exact hk

theorem Inv.append (h : Inv m l c) (hm : device m (.append i) = some m') : Inv m' l c := by
  obtain ⟨b1, b2, b3, b4⟩ := h.bounds
  simp only [device] at hm
  split at hm
  case isFalse => cases hm
  next hi =>
  have hstore := h.unread_store hi
  have hpush : unread m' = unread m ++ [i] := by
    cases hm
    exact h.unread_push hi
  have hlt' := h.unread_succ_lt hi
  cases hm
  have hfront : m.seenIdx ≠ m.usedIdx → update m.usedRing (m.usedIdx % NUM) i (m.seenIdx % NUM) = front m := by
    intro hne
    have := (items_pop NUM_dvd b3 b2 hne).symm.trans (hstore.trans (front_cons b3 b2 hne))
    exact (List.cons.inj this).1
  refine h.permute ?_ rfl rfl rfl hfront (fun q k hq => ?_) ⟨b1, Nat.mod_lt _ (by decide), b3, b4⟩ rfl
  · rw [inFlight, inFlight, hpush]
    exact List.Perm.append (List.Perm.refl _) (List.Perm.append (List.Perm.refl _) (erase_append_perm hi))
  · have hk := h.req q k hq
    have hseen : m.seenIdx ≠ m.usedIdx → m.seenIdx ≠ (m.usedIdx + 1) % U16 := by
      intro _ hc
      have hcount := count_push b3 b2 hlt'
      rw [← hc, count_self b3] at hcount
      omega
    cases k with
    | used id => exact ⟨hk.1.trans (hfront hk.2).symm, hseen hk.2⟩
    | advance => exact hseen hk
    | _ => exact hk

theorem Inv.device (h : Inv m l c) {e : Device} (hm : device m e = some m') : Inv m' l c := by
  cases e with
  | take => exact h.take hm
  | perform i st => exact h.perform hm
  | append i => exact h.append hm

theorem holds_store (m : Mem ι β) (x : Store β) : Holds (m.store x) x := by
  cases x with
  | status i v => trivial
  | _ => exact update_self ..

theorem Holds.store (hnd : idx.list.Nodup) {x y : Store β} (hx : x ∈ stores cl idx)
    (hy : y ∈ stores cl idx) (h : Holds m y) : Holds (m.store x) y := by
  simp only [Idx.list, List.nodup_cons, List.mem_cons, List.not_mem_nil, or_false, not_or] at hnd
  obtain ⟨⟨h01, h02⟩, h12, -⟩ := hnd
  simp only [stores, List.mem_cons, List.not_mem_nil, or_false] at hx hy
  rcases hx with rfl | rfl | rfl | rfl | rfl | rfl | rfl <;>
    rcases hy with rfl | rfl | rfl | rfl | rfl | rfl | rfl <;>
    first
    | exact holds_store m _
    | exact h
    | exact (update_of_ne (by assumption) _ _).trans h
    | exact (update_of_ne (Ne.symm (by assumption)) _ _).trans h

end

/-! ## The driver -/

variable [DecidableEq ι]

variable {l' : Option ι} {got : List Nat} {x : Option (Code β)}

theorem Inv.move (h : Inv m (some p) c) (hp : c p = some k)
    (hl : ∀ k', x = some k' → k'.inner = true → l' = some p) (howner : m'.owner = m.owner)
    (hcall : ∀ k', x = some k' → k'.call = none ∨ k'.call = k.call)
    (howns : Owns NUM m'.free (update (heldBy c) p (x.elim [] Code.held))) (hreq : ∀ k', x = some k' → Req m' k')
    (hwait : ∀ q cl idx, q ≠ p → c q = some (.wait cl idx) → Req m' (.wait cl idx)) (hnodup : (inFlight m').Nodup)
    (hflight : ∀ i ∈ inFlight m', ∃ q cl idx, update c p x q = some (.wait cl idx) ∧ idx.i0 = i)
    (hbusy : ∀ q cl idx, update c p x q = some (.wait cl idx) →
      (m'.disk cl.b = true ↔ idx.i0 ∈ inFlight m' ∧ ¬ (Advancing (update c p x) ∧ idx.i0 = front m')))
    (hbounds : m'.availIdx < U16 ∧ m'.usedIdx < U16 ∧ m'.seenIdx < U16 ∧ m'.lastAvail < U16)
    (hpanic : m'.panicked = none ∨ m'.panicked = some .status) : Inv m' l' (update c p x) where
  inner q k' hq hin := by
    by_cases hqp : q = p
    · subst hqp
      rw [update_self] at hq
      exact hl k' hq hin
    · rw [update_of_ne hqp] at hq
      rw [h.outside hq hqp] at hin
      cases hin
  owner q k' cl hq hk := by
    rw [howner]
    by_cases hqp : q = p
    · subst hqp
      rw [update_self] at hq
      rcases hcall k' hq with hc | hc
      · rw [hc] at hk
        cases hk
      · exact h.owner q k cl hp (hc ▸ hk)
    · rw [update_of_ne hqp] at hq
      exact h.owner q k' cl hq hk
  owns := by rw [heldBy_update]; exact howns
  req q k' hq := by
    by_cases hqp : q = p
    · subst hqp
      rw [update_self] at hq
      exact hreq k' hq
    · rw [update_of_ne hqp] at hq
      have hout := h.outside hq hqp
      cases k' with
      | alloc cl got => exact h.req q _ hq
      | wait cl idx => exact hwait q cl idx hqp hq
      | intr => trivial
      | _ => cases hout
  nodup := hnodup
  flight := hflight
  busy := hbusy
  bounds := hbounds
  panic := hpanic

theorem Inv.not_advancing (h : Inv m (some p) c) (x : Option (Code β)) (hx : x ≠ some .advance) :
    ¬ Advancing (update c p x) := by
  rintro ⟨q, hq⟩
  by_cases hqp : q = p
  · subst hqp
    rw [update_self] at hq
    exact hx hq
  · rw [update_of_ne hqp] at hq
    exact absurd (h.outside hq hqp) (by simp [Code.inner])

theorem Inv.not_advancing_self (h : Inv m (some p) c) (hp : c p = some k) (hk : k ≠ .advance) : ¬ Advancing c := by
  have := h.not_advancing (c p) (by rw [hp]; exact fun hc => hk (Option.some.inj hc))
  rwa [update_eq_self] at this

/-- Code at which no head of its own is on its way. -/
def Code.plain : Code β → Bool
  | .wait _ _ | .advance => false
  | _ => true

theorem Inv.quiet (h : Inv m (some p) c) (hp : c p = some k) (hk : k.plain = true)
    (hx : ∀ k', x = some k' → k'.plain = true ∧ (k'.inner = true → l' = some p) ∧
    (k'.call = none ∨ k'.call = k.call) ∧ Req m' k')
    (howner : m'.owner = m.owner) (howns : Owns NUM m'.free (update (heldBy c) p (x.elim [] Code.held)))
    (hwait : ∀ q cl idx, q ≠ p → c q = some (.wait cl idx) → Req m' (.wait cl idx))
    (hfly : inFlight m' = inFlight m) (hfront : front m' = front m)
    (hdisk : ∀ q cl idx, q ≠ p → c q = some (.wait cl idx) → m'.disk cl.b = m.disk cl.b)
    (hbounds : m'.availIdx < U16 ∧ m'.usedIdx < U16 ∧ m'.seenIdx < U16 ∧ m'.lastAvail < U16)
    (hpanic : m'.panicked = m.panicked) : Inv m' l' (update c p x) := by
  have hxa : x ≠ some .advance := fun hc => by cases (hx _ hc).1
  refine h.move hp (fun k' hk' => (hx k' hk').2.1) howner (fun k' hk' => (hx k' hk').2.2.1) howns
    (fun k' hk' => (hx k' hk').2.2.2) hwait (hfly ▸ h.nodup) (fun i hi => ?_) (fun q cl idx hq => ?_) hbounds
    (hpanic ▸ h.panic)
  · rw [hfly] at hi
    obtain ⟨q, cl, idx, hq, rfl⟩ := h.flight i hi
    refine ⟨q, cl, idx, ?_, rfl⟩
    have hqp : q ≠ p := by
      rintro rfl
      rw [hp] at hq
      cases hq
      cases hk
    rw [update_of_ne hqp]
    exact hq
  · have hqp : q ≠ p := by
      rintro rfl
      rw [update_self] at hq
      cases (hx _ hq).1
    rw [update_of_ne hqp] at hq
    rw [hdisk q cl idx hqp hq, h.busy q cl idx hq, hfly, hfront]
    have h1 := h.not_advancing_self hp (fun hc => by subst hc; cases hk)
    have h2 := h.not_advancing x hxa
    tauto

theorem Inv.owns_same (h : Inv m l c) (hp : c p = some k) {held : List Nat} (hheld : held = k.held) :
    Owns NUM m.free (update (heldBy c) p held) := by
  rw [hheld, ← heldBy_of hp, update_eq_self]
  exact h.owns

theorem Inv.pass (h : Inv m (some p) c) (hp : c p = some k) (hk : k.plain = true)
    (hx : ∀ k', x = some k' → k'.plain = true ∧ (k'.inner = true → l' = some p) ∧
    (k'.call = none ∨ k'.call = k.call) ∧ Req m k')
    (hheld : x.elim [] Code.held = k.held) : Inv m l' (update c p x) :=
  h.quiet hp hk hx rfl (h.owns_same hp hheld) (fun q _ _ _ hq => h.req q _ hq) rfl rfl
    (fun _ _ _ _ _ => rfl) h.bounds rfl

theorem threeOf_eq_some (h : threeOf got = some idx) : got = idx.list := by
  unfold threeOf at h
  split at h
  · cases h
    rfl
  · cases h

theorem threeOf_eq_none (h : threeOf got = none) : got.length ≠ 3 := by
  unfold threeOf at h
  split at h
  · cases h
  · next hno =>
    intro hlen
    obtain ⟨i0, i1, i2, rfl⟩ := List.length_eq_three.mp hlen
    exact hno i0 i1 i2 rfl

theorem Inv.freed (h : Inv m (some p) c) (hp : c p = some k) (hk : k.plain = true) {rest : List Nat}
    (hheld : k.held = i :: rest) (hplain : k'.plain = true) (hcall : k'.call = k.call)
    (hreq : Req (freed m i) k') (hrest : k'.held = rest) : Inv (freed m i) (some p) (update c p (some k')) := by
  have hi : i ∈ heldBy c p := by
    rw [heldBy_of hp, hheld]
    exact List.mem_cons_self
  refine h.quiet hp hk (fun k'' hk'' => ?_) rfl ?_ (fun q cl idx hne hq => ?_) rfl rfl
    (fun _ _ _ _ _ => rfl) h.bounds rfl
  · cases hk''
    exact ⟨hplain, fun _ => rfl, Or.inr hcall, hreq⟩
  · have := h.owns.give ((heldBy_of hp).trans hheld)
    rw [← hrest] at this
    exact this
  · refine (h.req q _ hq).wait_congr rfl (fun j hj => ?_) rfl rfl id rfl
    refine update_of_ne ?_ _ _
    rintro rfl
    exact hne (h.owns.apart q p j (by rw [heldBy_of hq]; exact hj) hi)

variable [DecidableEq β] {n : Next (Code β) (Chan β)}

theorem Inv.alloc (h : Inv m (some p) c) (hp : c p = some (.alloc cl got))
    (hb : body m (.alloc cl got) = (m', n)) : Inv m' (n.inside p) (update c p n.code) := by
  have hlen : got.length ≤ 3 := h.req p _ hp
  simp only [body] at hb
  split at hb
  · next idx hidx =>
    cases hb
    refine h.pass hp rfl (fun k' hk' => ?_) (threeOf_eq_some hidx).symm
    cases hk'
    exact ⟨rfl, fun _ => rfl, Or.inr rfl, [], rfl, fun x hx => by cases hx⟩
  · next hnone =>
    have hlen := Nat.lt_of_le_of_ne hlen (threeOf_eq_none hnone)
    cases hf : (List.range NUM).find? m.free with
    | some i =>
      simp only [allocDesc, hf, Option.map_some] at hb
      cases hb
      have hi : i < NUM := List.mem_range.mp (List.mem_of_find?_eq_some hf)
      have hfree : m.free i = true := List.find?_some hf
      refine h.quiet hp rfl (fun k' hk' => ?_) rfl ?_ (fun q cl idx _ hq => h.req q _ hq) rfl rfl
        (fun _ _ _ _ _ => rfl) h.bounds rfl
      · cases hk'
        refine ⟨rfl, fun _ => rfl, Or.inr rfl, ?_⟩
        show (got ++ [i]).length ≤ 3
        rw [List.length_append, List.length_singleton]
        omega
      · have := h.owns.take (p := p) hi hfree
        rwa [heldBy_of hp] at this
    | none =>
      simp only [allocDesc, hf, Option.map_none] at hb
      cases hb
      refine h.pass hp rfl (fun k' hk' => ?_) rfl
      cases hk'
      refine ⟨rfl, fun _ => rfl, Or.inr rfl, ?_⟩
      have hzero : Pool.count NUM m.free = 0 := by
        refine Pool.count_none fun i hi => ?_
        simpa using List.find?_eq_none.mp hf i (List.mem_range.mpr hi)
      show Pool.count NUM m.free + got.length < 3
      omega

theorem Inv.rollback (h : Inv m (some p) c) {todo : List Nat} (hp : c p = some (.rollback cl todo))
    (hb : body m (.rollback cl todo) = (m', n)) : Inv m' (n.inside p) (update c p n.code) := by
  have hcount : Pool.count NUM m.free + todo.length < 3 := h.req p _ hp
  cases todo with
  | nil =>
    cases hb
    refine h.pass hp rfl (fun k' hk' => ?_) rfl
    cases hk'
    exact ⟨rfl, (fun hc => by cases hc), Or.inr rfl, Nat.zero_le 3⟩
  | cons i rest =>
    have hi : i ∈ (Code.rollback cl (i :: rest)).held := List.mem_cons_self
    simp only [body, thenFree, h.freeDesc_ok hp hi] at hb
    cases hb
    refine h.freed hp rfl rfl rfl rfl ?_ rfl
    have hmem : i ∈ heldBy c p := by
      rw [heldBy_of hp]
      exact hi
    show Pool.count NUM (update m.free i true) + rest.length < 3
    rw [Pool.count_give (h.owns.range p i hmem) (h.owns.not_free hmem)]
    rw [List.length_cons] at hcount
    omega

theorem Inv.format (h : Inv m (some p) c) {todo : List (Store β)} (hp : c p = some (.format cl idx todo))
    (hb : body m (.format cl idx todo) = (m', n)) : Inv m' (n.inside p) (update c p n.code) := by
  obtain ⟨pre, hpre, hold⟩ := h.req p _ hp
  cases todo with
  | nil =>
    cases hb
    refine h.pass hp rfl (fun k' hk' => ?_) rfl
    cases hk'
    rw [List.append_nil] at hpre
    subst hpre
    exact ⟨rfl, fun _ => rfl, Or.inr rfl, hold⟩
  | cons x todo =>
    cases hb
    have hx : x ∈ stores cl idx := by
      rw [← hpre]
      simp
    have hheld : heldBy c p = idx.list := heldBy_of hp
    have hnd : idx.list.Nodup := hheld ▸ h.owns.nodup p
    have hreq : Req (m.store x) (.format cl idx todo) := by
      refine ⟨pre ++ [x], by rw [List.append_assoc]; exact hpre, fun y hy => ?_⟩
      rcases List.mem_append.mp hy with hy | hy
      · refine Holds.store hnd hx ?_ (hold y hy)
        rw [← hpre]
        exact List.mem_append_left _ hy
      · rw [List.mem_singleton.mp hy]
        exact holds_store m x
    -- the stores go to the descriptors and the buffer of this call
    have hne : ∀ {q : ι} {a : Call β} {idx' : Idx}, q ≠ p → c q = some (.wait a idx') → ∀ i ∈ idx.list,
      ∀ j ∈ idx'.list, j ≠ i := by
      rintro q a idx' hqp hq i hi j hj rfl
      exact hqp (h.owns.apart q p j (by rw [heldBy_of hq]; exact hj) (by rw [hheld]; exact hi))
    have hfree : (m.store x).free = m.free := by cases x <;> rfl
    refine h.quiet hp rfl (fun k' hk' => ?_) (by cases x <;> rfl) ?_ (fun q a idx' hqp hq => ?_) (by cases x <;> rfl)
      (by cases x <;> rfl) (fun q a idx' hqp hq => ?_) (by cases x <;> exact h.bounds) (by cases x <;> rfl)
    · cases hk'
      exact ⟨rfl, fun _ => rfl, Or.inr rfl, hreq⟩
    · rw [hfree]
      exact h.owns_same hp rfl
    · have hbuf := h.buf_ne hp hq hqp rfl rfl
      have h0 : idx'.i0 ≠ idx.i0 := hne hqp hq _ (by simp [Idx.list]) _ (by simp [Idx.list])
      simp only [stores, List.mem_cons, List.not_mem_nil, or_false] at hx
      rcases hx with rfl | rfl | rfl | rfl | rfl | rfl | rfl
      · exact (h.req q _ hq).wait_congr (update_of_ne h0 _ _) (fun _ _ => rfl) rfl rfl id rfl
      · exact (h.req q _ hq).wait_congr rfl
          (fun j hj => update_of_ne (hne hqp hq _ (by simp [Idx.list]) j hj) _ _) rfl rfl id rfl
      · exact (h.req q _ hq).wait_congr rfl
          (fun j hj => update_of_ne (hne hqp hq _ (by simp [Idx.list]) j hj) _ _) rfl rfl id rfl
      · exact (h.req q _ hq).wait_congr rfl (fun _ _ => rfl) rfl rfl id rfl
      · exact (h.req q _ hq).wait_congr rfl
          (fun j hj => update_of_ne (hne hqp hq _ (by simp [Idx.list]) j hj) _ _) rfl rfl id rfl
      · exact (h.req q _ hq).wait_congr rfl (fun _ _ => rfl) rfl (update_of_ne hbuf _ _) id rfl
      · exact (h.req q _ hq).wait_congr rfl (fun _ _ => rfl) (update_of_ne h0 _ _) rfl id rfl
    · have hbuf := h.buf_ne hp hq hqp rfl rfl
      simp only [stores, List.mem_cons, List.not_mem_nil, or_false] at hx
      rcases hx with rfl | rfl | rfl | rfl | rfl | rfl | rfl <;>
        first
        | rfl
        | exact update_of_ne hbuf _ _

section
variable (h : Inv m (some p) c)
include h

theorem Inv.publish (hp : c p = some (.publish cl idx)) (hb : body m (.publish cl idx) = (m', n)) :
    Inv m' (n.inside p) (update c p n.code) := by
  cases hb
  have hstore := h.untaken_store hp
  refine h.quiet hp rfl (fun k' hk' => ?_) rfl (h.owns_same hp rfl) (fun q a idx' hqp hq => ?_) ?_ rfl
    (fun _ _ _ _ _ => rfl) h.bounds rfl
  · cases hk'
    exact ⟨rfl, fun _ => rfl, Or.inr rfl, h.req p _ hp, update_self ..⟩
  · refine (h.req q _ hq).wait_congr rfl (fun _ _ => rfl) rfl rfl (fun hc => ?_) rfl
    rw [← hstore]
    exact hc
  · rw [inFlight, inFlight, ← hstore]
    rfl

theorem Inv.bump (hp : c p = some (.bump cl idx)) (hb : body m (.bump cl idx) = (m', n)) :
    Inv m' (n.inside p) (update c p n.code) := by
  obtain ⟨b1, b2, b3, b4⟩ := h.bounds
  have hold := (h.req p _ hp).1
  cases hb
  have hi0 : idx.i0 ∈ (Code.bump cl idx).held := by simp [Code.held, Idx.list]
  have hnew := h.not_inFlight hp hi0 (fun _ _ hc => by cases hc)
  have hpush := h.untaken_push hp
  have hperm : (untaken m ++ [idx.i0] ++ (m.pending ++ (m.finished ++ unread m))).Perm (idx.i0 :: inFlight m) := by
    rw [List.append_assoc]
    exact List.perm_middle
  have hmem : ∀ j, j ∈ untaken m ++ [idx.i0] ++ (m.pending ++ (m.finished ++ unread m)) ↔ j = idx.i0 ∨ j ∈ inFlight m :=
    fun j => hperm.mem_iff.trans List.mem_cons
  have hfly : inFlight { m with availIdx := (m.availIdx + 1) % U16 } =
      untaken m ++ [idx.i0] ++ (m.pending ++ (m.finished ++ unread m)) := by
    rw [← hpush]
    rfl
  have hadv := h.not_advancing (some (.wait cl idx)) (fun hc => by cases hc)
  have hother : ∀ {q : ι} {a : Call β} {idx' : Idx}, q ≠ p → c q = some (.wait a idx') → idx'.i0 ≠ idx.i0 := by
    rintro q a idx' hqp hq he
    exact hqp (h.waiting hp hq (he ▸ hi0))
  refine h.move hp (fun _ _ _ => rfl) rfl (fun k' hk' => by cases hk'; exact Or.inr rfl) (h.owns_same hp rfl)
    (fun k' hk' => ?_) (fun q a idx' hqp hq => ?_) ?_ (fun i hi => ?_) (fun q a idx' hq => ?_)
    ⟨Nat.mod_lt _ (by decide), b2, b3, b4⟩ h.panic
  · cases hk'
    refine ⟨fun x hx _ => hold x hx, fun hc => absurd ?_ hc⟩
    show idx.i0 ∈ items NUM U16 m.ring m.lastAvail ((m.availIdx + 1) % U16)
    rw [hpush]
    simp
  · refine (h.req q _ hq).wait_congr rfl (fun _ _ => rfl) rfl rfl (fun hc hin => hc ?_) rfl
    show idx'.i0 ∈ items NUM U16 m.ring m.lastAvail ((m.availIdx + 1) % U16)
    rw [hpush]
    exact List.mem_append_left _ hin
  · rw [hfly]
    exact hperm.nodup_iff.mpr (List.nodup_cons.mpr ⟨hnew, h.nodup⟩)
  · rw [hfly, hmem] at hi
    rcases hi with rfl | hi
    · exact ⟨p, cl, idx, update_self .., rfl⟩
    · obtain ⟨q, a, idx', hq, rfl⟩ := h.flight i hi
      refine ⟨q, a, idx', ?_, rfl⟩
      have hqp : q ≠ p := by
        rintro rfl
        rw [hp] at hq
        cases hq
      rw [update_of_ne hqp]
      exact hq
  · rw [hfly, hmem]
    by_cases hqp : q = p
    · subst hqp
      rw [update_self] at hq
      cases hq
      have hdisk : m.disk cl.b = true := hold (.disk cl.b) (by simp [stores])
      exact iff_of_true hdisk ⟨Or.inl rfl, fun hc => hadv hc.1⟩
    · rw [update_of_ne hqp] at hq
      rw [h.busy q a idx' hq]
      have hne := hother hqp hq
      have hadv' := h.not_advancing_self hp (fun hc => by cases hc)
      tauto

theorem Inv.wait (hp : c p = some (.wait cl idx)) (hb : body m (.wait cl idx) = (m', n)) :
    Inv m' (n.inside p) (update c p n.code) := by
  have hadv := h.not_advancing_self hp (fun hc => by cases hc)
  simp only [body] at hb
  split at hb
  · -- it goes back to sleep, and to the same place
    cases hb
    have hsame : update c p (some (.wait cl idx)) = c := by rw [← hp, update_eq_self]
    show Inv m none (update c p (some (.wait cl idx)))
    rw [hsame]
    refine { h with inner := fun q k hq hin => ?_ }
    by_cases hqp : q = p
    · subst hqp
      rw [hp] at hq
      cases hq
      cases hin
    · rw [h.outside hq hqp] at hin
      cases hin
  · next hdisk =>
    cases hb
    have hgone : idx.i0 ∉ inFlight m := fun hc => hdisk ((h.busy p cl idx hp).mpr ⟨hc, fun ha => hadv ha.1⟩)
    have hreq := h.req p _ hp
    have hdone : Performed m cl := hreq.2 (fun hc => hgone (by simp [inFlight, hc])) fun hc => hgone
      (by simp [inFlight, hc])
    have hadv' := h.not_advancing (some (.clear cl idx)) (fun hc => by cases hc)
    refine h.move hp (fun _ _ _ => rfl) rfl (fun k' hk' => by cases hk'; exact Or.inr rfl) (h.owns_same hp rfl)
      (fun k' hk' => ?_) (fun q a idx' _ hq => h.req q _ hq) h.nodup (fun i hi => ?_)
      (fun q a idx' hq => ?_) h.bounds h.panic
    · cases hk'
      exact ⟨fun i d hd => hreq.1 (.desc i d) hd (fun hc => by cases hc), hdone⟩
    · obtain ⟨q, a, idx', hq, rfl⟩ := h.flight i hi
      have hqp : q ≠ p := by
        rintro rfl
        rw [hp] at hq
        cases hq
        exact hgone hi
      exact ⟨q, a, idx', (update_of_ne hqp _ _).trans hq, rfl⟩
    · have hqp : q ≠ p := by
        rintro rfl
        rw [update_self] at hq
        cases hq
      rw [update_of_ne hqp] at hq
      rw [h.busy q a idx' hq]
      tauto

theorem Inv.clear (hp : c p = some (.clear cl idx)) (hb : body m (.clear cl idx) = (m', n)) :
    Inv m' (n.inside p) (update c p n.code) := by
  cases hb
  obtain ⟨hlink, hdone⟩ := h.req p _ hp
  have hheld : idx.list.dropWhile (· ≠ idx.i0) = idx.list := by simp [Idx.list]
  have hnd : idx.list.Nodup := by
    have := h.owns.nodup p
    rwa [heldBy_of hp] at this
  refine h.quiet hp rfl (fun k' hk' => ?_) rfl (h.owns_same hp hheld) (fun q a idx' hqp hq => ?_) rfl rfl
    (fun _ _ _ _ _ => rfl) h.bounds rfl
  · cases hk'
    exact ⟨rfl, fun _ => rfl, Or.inr rfl, ⟨hnd, by simp [Idx.list], fun j _ d hd => hlink j d hd⟩, hdone⟩
  · refine (h.req q _ hq).wait_congr rfl (fun _ _ => rfl) (update_of_ne (fun he => hqp ?_) _ _) rfl id rfl
    refine h.waiting hp hq ?_
    rw [he]
    simp [Code.held, Idx.list]

theorem Inv.chain (hp : c p = some (.chain cl idx i)) (hb : body m (.chain cl idx i) = (m', n)) :
    Inv m' (n.inside p) (update c p n.code) := by
  obtain ⟨⟨hnd, hi, hlink⟩, hdone⟩ := h.req p _ hp
  have hnd' := hnd
  simp only [Idx.list, List.nodup_cons, List.mem_cons, List.not_mem_nil, or_false, not_or] at hnd'
  obtain ⟨⟨h01, h02⟩, h12, -⟩ := hnd'
  -- the descriptor that comes after `i`, and what is left then
  have hstep : ∀ (rest : List Nat) (k' : Code β), idx.list.dropWhile (· ≠ i) = i :: rest → k'.plain = true →
    k'.call = some cl →
      k'.held = rest → (if (m.desc i).flagNext = true then Code.chain cl idx (m.desc i).next else .ret cl) = k' →
      Req (Virtio.freed m i) k' → Inv m' (n.inside p) (update c p n.code) := by
    intro rest k' hheld hplain hcall hrest hnext hreq
    have hmem : i ∈ (Code.chain cl idx i).held := by
      show i ∈ idx.list.dropWhile (· ≠ i)
      rw [hheld]
      exact List.mem_cons_self
    simp only [body, thenFree, h.freeDesc_ok hp hmem, hnext] at hb
    cases hb
    exact h.freed hp rfl hheld hplain hcall hreq hrest
  have hkeep : ∀ {j : Nat} {d : Desc β}, j ≠ i → m.desc j = d → (Virtio.freed m i).desc j = d :=
    fun hj hd => (update_of_ne hj _ _).trans hd
  simp only [Idx.list, List.mem_cons, List.not_mem_nil, or_false] at hi
  rcases hi with rfl | rfl | rfl
  · have hall : idx.list.dropWhile (· ≠ idx.i0) = idx.list := by simp [Idx.list]
    have hd : m.desc idx.i0 = headDesc idx := hlink _ (by rw [hall]; exact List.mem_cons_self) _ (by simp [stores])
    have hleft : idx.list.dropWhile (· ≠ idx.i1) = [idx.i1, idx.i2] := by simp [Idx.list, h01]
    refine hstep [idx.i1, idx.i2] (.chain cl idx idx.i1) hall rfl rfl hleft
      (by rw [hd]; rfl) ⟨⟨hnd, by simp [Idx.list], fun j hj d hd' => ?_⟩, hdone⟩
    rw [hleft] at hj
    refine hkeep ?_ (hlink j ?_ d hd')
    · rcases List.mem_cons.mp hj with rfl | hj
      · exact Ne.symm h01
      · rw [List.mem_singleton.mp hj]
        exact Ne.symm h02
    · rw [hall]
      exact List.mem_cons_of_mem _ hj
  · have hleft : idx.list.dropWhile (· ≠ idx.i1) = [idx.i1, idx.i2] := by simp [Idx.list, h01]
    have hd : m.desc idx.i1 = dataDesc cl idx := hlink _ (by rw [hleft]; simp) _ (by simp [stores])
    have hlast : idx.list.dropWhile (· ≠ idx.i2) = [idx.i2] := by simp [Idx.list, h02, h12]
    refine hstep [idx.i2] (.chain cl idx idx.i2) hleft rfl rfl hlast
      (by rw [hd]; rfl) ⟨⟨hnd, by simp [Idx.list], fun j hj d hd' => ?_⟩, hdone⟩
    rw [hlast, List.mem_singleton] at hj
    subst hj
    exact hkeep (Ne.symm h12) (hlink _ (by rw [hleft]; simp) d hd')
  · have hlast : idx.list.dropWhile (· ≠ idx.i2) = [idx.i2] := by simp [Idx.list, h02, h12]
    have hd : m.desc idx.i2 = statusDesc idx := hlink _ (by rw [hlast]; simp) _ (by simp [stores])
    exact hstep [] (.ret cl) hlast rfl rfl rfl (by rw [hd]; rfl) hdone

theorem Inv.used {id : Nat} (hp : c p = some (.used id))
    (hb : body m (.used id) = (m', n)) : Inv m' (n.inside p) (update c p n.code) := by
  obtain ⟨b1, b2, b3, b4⟩ := h.bounds
  obtain ⟨rfl, hne⟩ := h.req p _ hp
  have hfly : front m ∈ inFlight m := by
    have := front_cons b3 b2 hne
    simp [inFlight, this]
  obtain ⟨r, cl, idx, hr, hri⟩ := h.flight _ hfly
  have hinfo : m.info (front m) = some cl.b := by
    rw [← hri]
    exact (h.req r _ hr).1 (.info idx.i0 cl.b) (by simp [stores]) (fun hc => by cases hc)
  have hadv := h.not_advancing_self hp (fun hc => by cases hc)
  have hrp : r ≠ p := by
    rintro rfl
    rw [hp] at hr
    cases hr
  simp only [body] at hb
  split at hb
  · -- the device reports an error
    cases hb
    have hsame : update c p (some (.used (front m))) = c := by rw [← hp, update_eq_self]
    show Inv { m with panicked := some .status } (some p) (update c p (some (.used (front m))))
    rw [hsame]
    exact ⟨h.inner, h.owner, h.owns, fun q k hq =>
      by cases k <;> exact h.req q _ hq, h.nodup, h.flight, h.busy, h.bounds, Or.inr rfl⟩
  · rw [hinfo] at hb
    cases hb
    refine h.move hp (fun _ _ _ => rfl) rfl (fun k' hk' => by cases hk'; exact Or.inl rfl) (h.owns_same hp rfl)
      (fun k' hk' => by cases hk'; exact hne) (fun q a idx' _ hq => ?_) h.nodup (fun i hi => ?_) (fun q a idx' hq => ?_)
      h.bounds h.panic
    · exact (h.req q _ hq).wait_congr rfl (fun _ _ => rfl) rfl rfl id rfl
    · obtain ⟨q, a, idx', hq, rfl⟩ := h.flight i hi
      have hqp : q ≠ p := by
        rintro rfl
        rw [hp] at hq
        cases hq
      exact ⟨q, a, idx', (update_of_ne hqp _ _).trans hq, rfl⟩
    · have hqp : q ≠ p := by
        rintro rfl
        rw [update_self] at hq
        cases hq
      rw [update_of_ne hqp] at hq
      have hnow : Advancing (update c p (some .advance)) := ⟨p, update_self ..⟩
      by_cases hqr : q = r
      · subst hqr
        rw [hr] at hq
        cases hq
        refine iff_of_false ?_ fun hc => hc.2 ⟨hnow, hri⟩
        show ¬ update m.disk cl.b false cl.b = true
        rw [update_self]
        exact Bool.false_ne_true
      · have hbuf := h.buf_ne hr hq hqr rfl rfl
        have hhead : idx'.i0 ≠ front m := by
          rw [← hri]
          exact fun he => hqr (h.waiting hr hq (by rw [he]; simp [Code.held, Idx.list]))
        show update m.disk cl.b false a.b = true ↔ _
        rw [update_of_ne hbuf, h.busy q a idx' hq]
        show _ ↔ idx'.i0 ∈ inFlight m ∧ ¬ (_ ∧ idx'.i0 = front m)
        tauto

theorem Inv.advance (hp : c p = some .advance)
    (hb : body m .advance = (m', n)) : Inv m' (n.inside p) (update c p n.code) := by
  obtain ⟨b1, b2, b3, b4⟩ := h.bounds
  have hne := h.req p _ hp
  cases hb
  have hpop := front_cons b3 b2 hne
  have hfly : (inFlight m).Perm (front m :: inFlight { m with seenIdx := (m.seenIdx + 1) % U16 }) := by
    rw [inFlight, hpop, ← List.append_assoc, ← List.append_assoc]
    refine List.perm_middle.trans ?_
    rw [List.append_assoc, List.append_assoc]
    exact List.Perm.refl _
  have hnd := hfly.nodup_iff.mp h.nodup
  obtain ⟨hfront, hnd⟩ := List.nodup_cons.mp hnd
  have hadv : Advancing c := ⟨p, hp⟩
  have hadv' := h.not_advancing (some .intr) (fun hc => by cases hc)
  have hqp : ∀ {q : ι} {a : Call β} {idx : Idx}, c q = some (.wait a idx) → q ≠ p := by
    rintro q a idx hq rfl
    rw [hp] at hq
    cases hq
  refine h.move hp (fun _ _ _ => rfl) rfl (fun k' hk' => by cases hk'; exact Or.inl rfl) (h.owns_same hp rfl)
    (fun k' hk' => by cases hk'; trivial) (fun q a idx' _ hq => ?_) hnd (fun i hi => ?_) (fun q a idx' hq => ?_)
    ⟨b1, b2, Nat.mod_lt _ (by decide), b4⟩ h.panic
  · exact (h.req q _ hq).wait_congr rfl (fun _ _ => rfl) rfl rfl id rfl
  · obtain ⟨q, a, idx', hq, rfl⟩ := h.flight i (hfly.mem_iff.mpr (List.mem_cons_of_mem _ hi))
    exact ⟨q, a, idx', (update_of_ne (hqp hq) _ _).trans hq, rfl⟩
  · have hne : q ≠ p := by
      rintro rfl
      rw [update_self] at hq
      cases hq
    rw [update_of_ne hne] at hq
    rw [h.busy q a idx' hq, hfly.mem_iff, List.mem_cons]
    constructor
    · rintro ⟨hmem, hno⟩
      exact ⟨hmem.resolve_left fun he => hno ⟨hadv, he⟩, fun hc => hadv' hc.1⟩
    · rintro ⟨hmem, _⟩
      exact ⟨Or.inr hmem, fun hc => hfront (hc.2 ▸ hmem)⟩

theorem Inv.body (hp : c p = some k) (hb : body m k = (m', n)) : Inv m' (n.inside p) (update c p n.code) := by
  cases k with
  | alloc cl got => exact h.alloc hp hb
  | rollback cl todo => exact h.rollback hp hb
  | format cl idx todo => exact h.format hp hb
  | publish cl idx => exact h.publish hp hb
  | bump cl idx => exact h.bump hp hb
  | wait cl idx => exact h.wait hp hb
  | clear cl idx => exact h.clear hp hb
  | chain cl idx i => exact h.chain hp hb
  | used id => exact h.used hp hb
  | advance => exact h.advance hp hb
  | ret cl =>
    cases hb
    exact h.pass hp rfl (fun k' hk' => by cases hk') rfl
  | iret =>
    cases hb
    exact h.pass hp rfl (fun k' hk' => by cases hk') rfl
  | intr =>
    cases hb
    refine h.pass hp rfl (fun k' hk' => ?_) (by simp only [Next.code]; split <;> rfl)
    simp only [Next.code, Option.some.injEq] at hk'
    subst hk'
    split
    · exact ⟨rfl, fun _ => rfl, Or.inl rfl, trivial⟩
    · next hne => exact ⟨rfl, fun _ => rfl, Or.inl rfl, rfl, hne⟩

end

end

end Xv6.Virtio
