import Xv6.Fs.BlockLogic
import Xv6.Fs.BlockSys
import Xv6.Fs.Files

/-!
# Block ownership

From an image in which every block has one owner, no inode has a hole and
directories hold whole entries, every sequence of complete system calls leaves
such an image (`image_kept`), and no call panics in `bfree`.

The invariant `Inv` says that the disk is such an image and that the inode table
agrees with it; `Agree` ties what a call knows (`Know`) to the state.  Each
operation keeps both, and is a step of the inode table (`Effect`) as well.
-/

namespace Xv6.Fs.BlockSys

open Sys Function
open Itable (Effect Base)

/-! ## The invariant -/

/-- An image on which the kernel keeps to the rules: every block has one owner,
files have no holes, and directories hold entries of existing inodes. -/
structure Image (sb : Super) (disk : Disk) : Prop where
  fs : FsOK sb disk
  dirs : ∀ i, i < sb.ninodes → (dinode sb disk i).type = T_DIR → DirOK sb disk (dinode sb disk i)

section
variable (sb : Super)

/-- Ticket `k` is of no directory, and stays so. -/
def Plain (s : St) (k : Nat) : Prop :=
  k < s.next ∧ Itable.Firm (s.view sb) k ∧ (k ∈ s.live → (s.tk k).stage = .idle ∨ (s.tk k).stage = .locked →
    (dinode sb s.disk (s.inum k)).type ≠ T_DIR)

structure Inv (s : St) : Prop where
  base : Base (s.view sb)
  image : Image sb s.disk
  inums : ∀ k, s.inum k < sb.ninodes
  fresh : ∀ k ∈ s.live, k < s.next
  files : ∀ f, (s.tab.file f).type = .inode → (s.tab.file f).writable = true → Plain sb s (s.tab.file f).ip
  running : s.panic = none

/-- What a call knows is so. -/
structure Agree (s : St) (l : Know) : Prop where
  typ : ∀ k t, l.typ k = some t → s.Locked k ∧ (dinode sb s.disk (s.inum k)).type = t
  slot : ∀ h off, l.slot = some (h, off) → l.typ h = some T_DIR ∧ off % 16 = 0 ∧
    off ≤ (dinode sb s.disk (s.inum h)).size
  last : ∀ h t, l.last = some (h, t) → h ∈ s.live ∧ (dinode sb s.disk (s.inum h)).type = t
  plain : ∀ k, l.plain k → Plain sb s k

end

variable {sb : Super} {s s' : St} {l : Know} {k : Nat}

theorem toInode_ofInode (d : Inode) : toInode (ofInode d) = d := by
  simp [toInode, ofInode]

variable {i : Nat} {β : Type} {disk' : Disk} {ip : Inode}

theorem view_dino (hi : i < sb.ninodes) : (s.view sb).dino i = ofInode (dinode sb s.disk i) := if_pos hi

theorem Inv.mem (h : Inv sb s) (hk : k ∈ s.live) (hl : (s.tk k).stage = .locked ∨ (s.tk k).stage = .freeing) :
    (s.ent (s.inum k)).mem = ofInode (dinode sb s.disk (s.inum k)) ∧ (dinode sb s.disk (s.inum k)).type ≠ 0 := by
  have href : k ∈ Itable.refs (s.view sb) (s.inum k) := by
    refine Itable.mem_refs.mpr ⟨hk, rfl, fun hc => ?_⟩
    change (s.tk k).stage = .claimed at hc
    rcases hl with hl | hl <;> rw [hl] at hc <;> cases hc
  have hv := h.base.valid _ ⟨k, href⟩ (h.base.lockedValid k hk hl)
  rw [view_dino (h.inums k)] at hv
  exact hv

theorem Inv.inode (h : Inv sb s) (hl : s.Locked k) :
    s.inode k = dinode sb s.disk (s.inum k) ∧ (dinode sb s.disk (s.inum k)).type ≠ 0 := by
  obtain ⟨hm, ht⟩ := h.mem hl.1 (Or.inl hl.2)
  exact ⟨by rw [St.inode, hm, toInode_ofInode], ht⟩

/-! ## Steps of the inode table -/

variable {t : Itable.St Fields} {h : Nat} {disk : Disk} {p c : Nat}

section
variable {a : Itable.Act Fields}

/-- What a step of the state does to the inode table, and to the tickets. -/
structure Steps (sb : Super) (s : St) (a : Itable.Act Fields) (s' : St) : Prop where
  effect : Effect (s.view sb) a (s'.view sb)
  base : Base (s'.view sb)
  next : s.next ≤ s'.next
  opens : ∀ k, a.opens = some k → k = s.next ∧ s'.next = s.next + 1
  target : a.target (s.view sb) < sb.ninodes
  tab : s'.tab = s.tab
  panic : s'.panic = s.panic

section
variable (st : Steps sb s a s') (hI : Inv sb s)
include st hI

theorem Steps.inums (k : Nat) : s'.inum k < sb.ninodes := by
  by_cases hk : k = a.ticket
  · have hi := st.effect.inum
    rw [← hk] at hi
    show ((s'.view sb).tk k).inum < _
    rw [hi]
    exact st.target
  · show ((s'.view sb).tk k).inum < _
    rw [st.effect.tk hk]
    exact hI.inums k

theorem Steps.fresh (k : Nat) (hk : k ∈ s'.live) : k < s'.next := by
  rcases st.effect.live_or hk with hk | hk
  · exact Nat.lt_of_lt_of_le (hI.fresh k hk) st.next
  · obtain ⟨h1, h2⟩ := st.opens k hk
    omega

theorem Steps.plain (hp : Plain sb s k) : Plain sb s' k := by
  obtain ⟨hlt, hf, ht⟩ := hp
  have hopen : a.opens ≠ some k := fun hc => absurd (st.opens k hc).1 (Nat.ne_of_lt hlt)
  refine ⟨Nat.lt_of_lt_of_le hlt st.next, Itable.firm_step hI.base st.effect hopen hf, fun hk' hst' => ?_⟩
  obtain ⟨hk, hst, hi, hty⟩ := Itable.firm_type hI.base st.effect hopen hf hk' hst'
  have h1 : ((s'.view sb).dino (s'.inum k)).type = (dinode sb s'.disk (s'.inum k)).type := by
    rw [view_dino (st.inums hI k)]
    rfl
  have h2 : ((s.view sb).dino (s.inum k)).type = (dinode sb s.disk (s.inum k)).type := by
    rw [view_dino (hI.inums k)]
    rfl
  rw [← h1]
  change ((s'.view sb).dino (s'.inum k)).type = ((s.view sb).dino (s.inum k)).type at hty
  rw [hty, h2]
  exact ht hk hst

theorem Steps.inv (him : Image sb s'.disk) : Inv sb s' where
  base := st.base
  image := him
  inums := st.inums hI
  fresh := st.fresh hI
  files f hty hw := by
    rw [st.tab] at hty hw ⊢
    exact st.plain hI (hI.files f hty hw)
  running := st.panic.trans hI.running

/-- What a ticket has locked stays as it is in the steps of other tickets. -/
theorem Steps.locked (hl : s.Locked k) (hne : k ≠ a.ticket) :
    s'.Locked k ∧ s'.inum k = s.inum k ∧ dinode sb s'.disk (s.inum k) = dinode sb s.disk (s.inum k) := by
  obtain ⟨h1, h2, h3⟩ := Itable.locked_step hI.base st.effect hl.1 hl.2 hne
  have htk : s'.tk k = s.tk k := h2
  refine ⟨⟨h1, by rw [htk]; exact hl.2⟩, congrArg Itable.Ticket.inum htk, ?_⟩
  change (s'.view sb).dino (s.inum k) = (s.view sb).dino (s.inum k) at h3
  rw [view_dino (hI.inums k), view_dino (hI.inums k)] at h3
  rw [← toInode_ofInode (dinode sb s'.disk (s.inum k)), h3, toInode_ofInode]

theorem Steps.agree (hu : a.usesLock = false) (ha : Agree sb s l) : Agree sb s' l.settle := by
  have hlock : ∀ {k t}, l.typ k = some t → s'.Locked k ∧ s'.inum k = s.inum k ∧
      dinode sb s'.disk (s.inum k) = dinode sb s.disk (s.inum k) := by
    intro k t hk
    have hl := (ha.typ k t hk).1
    exact st.locked hI hl (st.effect.ne_ticket hu hl.1 hl.2)
  constructor
  case typ =>
    intro k t hk
    obtain ⟨h1, h2, h3⟩ := hlock hk
    rw [h2, h3]
    exact ⟨h1, (ha.typ k t hk).2⟩
  case slot =>
    intro d off hs
    obtain ⟨h1, h2, h3⟩ := ha.slot d off hs
    obtain ⟨_, h4, h5⟩ := hlock h1
    rw [h4, h5]
    exact ⟨h1, h2, h3⟩
  case last => exact nofun
  case plain => exact fun k hk => st.plain hI (ha.plain k hk)

end

/-- The kernel has panicked, and not in `bfree`. -/
def Stopped (s : St) : Prop := ∃ m, s.panic = some m ∧ m ≠ .freeingFreeBlock

theorem view_setTable {n : Nat} (e : Effect (s.view sb) a t) (hw : a.writes = false) :
    ({ s.setTable t with next := n } : St).view sb = t := by
  obtain ⟨h1, h2, h3⟩ := e.frame hw
  obtain ⟨dino, ent, slots, used, live, tk, panic⟩ := t
  simp only at h1 h2 h3
  subst h1 h2 h3
  rfl

theorem steps_setTable {n : Nat} (e : Effect (s.view sb) a t) (hb : Base t)
    (hw : a.writes = false) (hn : s.next ≤ n) (ho : ∀ k, a.opens = some k → k = s.next ∧ n = s.next + 1)
    (ht : a.target (s.view sb) < sb.ninodes) : Steps sb s a { s.setTable t with next := n } where
  effect := by
    rw [view_setTable e hw]
    exact e
  base := by
    rw [view_setTable e hw]
    exact hb
  next := hn
  opens := ho
  target := ht
  tab := rfl
  panic := rfl

theorem steps_table (h : Inv sb s) (e : Effect (s.view sb) a t) (hb : Base t)
    (hw : a.writes = false) (ho : a.opens = none) (ht : a.target (s.view sb) = s.inum a.ticket) :
    Steps sb s a (s.setTable t) :=
  steps_setTable e hb hw (Nat.le_refl s.next) (fun k hk => by rw [ho] at hk; cases hk) (ht ▸ h.inums a.ticket)

end

/-- What holds before and after an operation of a call. -/
def Holds (sb : Super) (s : St) (l : Know) : Prop := Inv sb s ∧ Agree sb s l

variable {a : Itable.Act Fields} {f : Inode → Threads.Outcome St β}

section
variable (hh : Holds sb s l)
include hh

theorem Holds.settle (st : Steps sb s a s') (hu : a.usesLock = false)
    (hd : s'.disk = s.disk) : Holds sb s' l.settle :=
  ⟨st.inv hh.1 (hd ▸ hh.1.image), st.agree hh.1 hu hh.2⟩

theorem Holds.open
    (e : Effect (s.view sb) a t) (hb : Base t) (hw : a.writes = false) (hu : a.usesLock = false)
    (ho : a.opens = some s.next) (ht : a.target (s.view sb) < sb.ninodes) :
    Holds sb { s.setTable t with next := s.next + 1 } l.settle := by
  refine hh.settle (steps_setTable e hb hw (Nat.le_succ _) (fun k hk => ?_) ht) hu rfl
  rw [ho] at hk
  injection hk with hk
  exact ⟨hk.symm, rfl⟩

theorem Holds.ilock (e : Effect (s.view sb) (.ilock h) t) (hb : Base t) :
    ∃ l', inoPost (.ilock h) l () l' ∧ Holds sb (s.setTable t) l' := by
  have st := steps_table hh.1 e hb rfl rfl rfl
  have hi := hh.settle st rfl rfl
  have hstage : h ∈ s.live ∧ ((s.tk h).stage = .idle ∨ (s.tk h).stage = .fresh) ∧ h ∈ t.live ∧ t.tk h =
    ⟨s.inum h, .locked⟩ := by
    cases e with
    | ilock _ hk hst => exact ⟨hk, hst, hk, update_self _ _ _⟩
  obtain ⟨hk, hst, hk', htk⟩ := hstage
  have hnone : l.typ h = none := by
    cases ht : l.typ h with
    | none => rfl
    | some ty =>
      have hl := (hh.2.typ h ty ht).1.2
      rcases hst with hst | hst <;> rw [hl] at hst <;> cases hst
  have hlock : (s.setTable t).Locked h := ⟨hk', congrArg Itable.Ticket.stage htk⟩
  have hinum : (s.setTable t).inum h = s.inum h := by
    show (t.tk h).inum = s.inum h
    rw [htk]
  refine ⟨{ l.settle with typ := update l.typ h (some (dinode sb s.disk (s.inum h)).type) },
    ⟨hnone, _, rfl, fun hp => ?_, fun t' hlast => (hh.2.last h t' hlast).2⟩, hi.1, ?_⟩
  · have hp' := (hi.2.plain h hp).2.2 hk' (Or.inr hlock.2)
    rwa [hinum] at hp'
  · have hne : ∀ {k t}, l.typ k = some t → k ≠ h := by
      rintro k t hc rfl
      rw [hnone] at hc
      cases hc
    constructor
    case typ =>
      intro k ty hk
      by_cases hkh : k = h
      · subst hkh
        simp only [update_self, Option.some.injEq] at hk
        rw [hinum]
        exact ⟨hlock, hk⟩
      · simp only [update_of_ne hkh] at hk
        exact hi.2.typ k ty hk
    case slot =>
      intro d off hs
      obtain ⟨h1, h2⟩ := hi.2.slot d off hs
      exact ⟨(update_of_ne (hne h1) _ _).trans h1, h2⟩
    case last => exact nofun
    case plain => exact hi.2.plain

theorem Holds.iunlock (e : Effect (s.view sb) (.iunlock h) t) (hb : Base t) :
    Holds sb (s.setTable t) { l.change with typ := update l.typ h none } := by
  have st := steps_table hh.1 e hb rfl rfl rfl
  refine ⟨st.inv hh.1 hh.1.image, ?_, nofun, nofun,
    fun k hk => st.plain hh.1 (hh.2.plain k hk)⟩
  intro k ty hk
  by_cases hkh : k = h
  · subst hkh
    simp at hk
  · simp only [update_of_ne hkh] at hk
    obtain ⟨h1, h2⟩ := hh.2.typ k ty hk
    obtain ⟨h3, h4, h5⟩ := st.locked hh.1 h1 hkh
    rw [h4]
    exact ⟨h3, (congrArg Inode.type h5).trans h2⟩

end

/-! ## Inodes that change -/

theorem Image.change (h : Image sb disk) (hfs : FsOK sb disk') (ho : Others sb disk disk' i)
    (hd : (dinode sb disk' i).type = T_DIR → DirOK sb disk' (dinode sb disk' i)) : Image sb disk' where
  fs := hfs
  dirs j hj ht := by
    by_cases hji : j = i
    · rw [hji] at ht ⊢
      exact hd ht
    · obtain ⟨h1, h2⟩ := ho j hj hji
      rw [h1] at ht ⊢
      exact (h.dirs j hj ht).of_content (h2 (by rw [ht]; decide))

theorem view_store (hi : s.inum h < sb.ninodes) (hip : ip = dinode sb disk' (s.inum h))
    (hoth : ∀ j, j < sb.ninodes → j ≠ s.inum h → dinode sb disk' j = dinode sb s.disk j) :
    (s.store h disk' ip).view sb = Itable.update (s.view sb) h (ofInode ip) := by
  have hd : ((s.store h disk' ip).view sb).dino = (Itable.update (s.view sb) h (ofInode ip)).dino := by
    funext j
    show (if j < sb.ninodes then ofInode (dinode sb disk' j) else _) =
      update (s.view sb).dino (s.inum h) (ofInode ip) j
    by_cases hj : j = s.inum h
    · rw [hj, update_self, if_pos hi, hip]
    · rw [update_of_ne hj]
      show _ = if j < sb.ninodes then ofInode (dinode sb s.disk j) else _
      split
      · next hlt => rw [hoth j hlt hj]
      · rfl
  show Itable.St.mk ((s.store h disk' ip).view sb).dino _ _ _ _ _ _ = _
  rw [hd]
  rfl

theorem Holds.store (hh : Holds sb s l) (hl : s.Locked h) (hfs : FsOK sb disk') (ho : Others sb s.disk disk' (s.inum h))
    (hty : (dinode sb disk' (s.inum h)).type = (dinode sb s.disk (s.inum h)).type)
    (hd : (dinode sb disk' (s.inum h)).type = T_DIR → DirOK sb disk' (dinode sb disk' (s.inum h))) :
    Holds sb (s.store h disk' (dinode sb disk' (s.inum h))) l.change := by
  have hi := hh.1.inums h
  have hview := view_store hi rfl fun j hj hne => (ho j hj hne).1
  have hmem : (Itable.entOf (s.view sb) h).mem = ofInode (dinode sb s.disk (s.inum h)) :=
    (hh.1.mem hl.1 (Or.inl hl.2)).1
  have hnew : ofInode (dinode sb disk' (s.inum h)) = { (Itable.entOf (s.view sb) h).mem with
      nlink := (dinode sb disk' (s.inum h)).nlink, data := (ofInode (dinode sb disk' (s.inum h))).data } := by
    rw [hmem]
    simp only [ofInode, hty]
  have heff : Effect (s.view sb)
      (.store h (dinode sb disk' (s.inum h)).nlink (ofInode (dinode sb disk' (s.inum h))).data)
      ((s.store h disk' (dinode sb disk' (s.inum h))).view sb) := by
    rw [hview, hnew]
    exact Effect.store h _ _ hl.1 hl.2
  have hbase : Base ((s.store h disk' (dinode sb disk' (s.inum h))).view sb) := by
    rw [hview]
    exact hh.1.base.updated hl.1 hl.2 (hty.trans (congrArg Dinode.type (view_dino (s := s) hi)).symm)
  have st : Steps sb s (.store h (dinode sb disk' (s.inum h)).nlink (ofInode (dinode sb disk' (s.inum h))).data)
      (s.store h disk' (dinode sb disk' (s.inum h))) :=
    { effect := heff, base := hbase, next := Nat.le_refl _, opens := nofun, target := hi, tab := rfl, panic := rfl }
  refine ⟨st.inv hh.1 (hh.1.image.change hfs ho hd), ?_, nofun, nofun, fun k hk => st.plain hh.1 (hh.2.plain k hk)⟩
  intro k ty hk
  obtain ⟨h1, h2⟩ := hh.2.typ k ty hk
  by_cases hkh : k = h
  · subst hkh
    exact ⟨hl, hty.trans h2⟩
  · obtain ⟨h3, h4, h5⟩ := st.locked hh.1 h1 hkh
    rw [h4]
    exact ⟨h3, (congrArg Inode.type h5).trans h2⟩

theorem Inv.store_self (h : Inv sb s) (hl : s.Locked k) : s.store k s.disk (dinode sb s.disk (s.inum k)) = s := by
  rw [St.store, ← (h.mem hl.1 (Or.inl hl.2)).1, update_eq_self]

theorem newInode_inRange {type : Nat} (h : type < 2 ^ 16) : (newInode type).InRange :=
  ⟨h, Nat.two_pow_pos _, Nat.two_pow_pos _, Nat.two_pow_pos _, Nat.two_pow_pos _, fun _ => Nat.two_pow_pos _⟩

theorem freeInode_spec (h : freeInode sb disk = some i) : i < sb.ninodes ∧ (dinode sb disk i).type = 0 := by
  have h1 := List.find?_some h
  have h2 := List.mem_of_find?_eq_some h
  simp only [ne_eq, decide_eq_true_eq] at h1
  exact ⟨List.mem_range.mp h2, h1.2⟩

theorem view_put {n : Nat} (hi : i < sb.ninodes)
    (hself : t.dino i = ofInode (dinode sb disk' i)) (hother : ∀ j, j ≠ i → t.dino j = (s.view sb).dino j)
    (hoth : ∀ j, j < sb.ninodes → j ≠ i → dinode sb disk' j = dinode sb s.disk j) (hu : t.used = ∅)
    (hp : t.panic = none) : ({ s.setTable t with disk := disk', next := n } : St).view sb = t := by
  have hd : (fun j => if j < sb.ninodes then ofInode (dinode sb disk' j) else
    (⟨0, 0, [], Content.zero⟩ : Dinode Fields)) =
      t.dino := by
    funext j
    by_cases hj : j = i
    · rw [hj, hself, if_pos hi]
    · rw [hother j hj]
      show _ = if j < sb.ninodes then ofInode (dinode sb s.disk j) else _
      split
      · next hlt => rw [hoth j hlt hj]
      · rfl
  obtain ⟨dino, ent, slots, used, live, tk, panic⟩ := t
  simp only at hd hu hp
  subst hd hu hp
  rfl

theorem Holds.ialloc {type : Nat} (hh : Holds sb s l) (hty : type < 2 ^ 16)
    (hf : freeInode sb s.disk = some i) (e : Effect (s.view sb) (.claim s.next i type) t)
    (hb : Base t) (hp : t.panic = none) :
    Holds sb { s.setTable t with disk := putDinode sb s.disk i (newInode type), next := s.next + 1 }
      { l with last := some (s.next, type) } := by
  obtain ⟨hi, hfree⟩ := freeInode_spec hf
  obtain ⟨hfs, ho, hself, _⟩ := putDinode_content hh.1.image.fs hi (newInode_inRange hty)
    (Or.inr ⟨fun _ => rfl, rfl, fun hc => absurd hfree hc⟩)
  have ht : t = Itable.openTk (Itable.setDino (s.view sb) i ⟨type, 0, [], Content.zero⟩) s.next i .claimed := by
    cases e with
    | claim => rfl
  have hview : ({ s.setTable t with disk := putDinode sb s.disk i (newInode type), next := s.next + 1 } : St).view sb =
      t := by
    refine view_put hi ?_ (fun j hj => ?_) (fun j hj hne => (ho j hj hne).1) (by rw [ht]; rfl) hp
    · rw [ht, hself]
      exact update_self _ _ _
    · rw [ht]
      exact update_of_ne hj _ _
  have st : Steps sb s (.claim s.next i type)
      { s.setTable t with disk := putDinode sb s.disk i (newInode type), next := s.next + 1 } :=
    { effect := by rw [hview]; exact e
      base := by rw [hview]; exact hb
      next := Nat.le_succ _
      opens := fun k hk => by
        injection hk with hk
        exact ⟨hk.symm, rfl⟩
      target := hi
      tab := rfl
      panic := rfl }
  have hag := st.agree hh.1 rfl hh.2
  refine ⟨st.inv hh.1 (hh.1.image.change hfs ho fun hd => ?_), hag.typ, hag.slot, ?_, hag.plain⟩
  · -- a new directory is empty
    rw [hself]
    exact ⟨rfl, fun n hn => absurd hn (Nat.not_lt_zero _)⟩
  · intro h ty hl
    simp only [Option.some.injEq, Prod.mk.injEq] at hl
    obtain ⟨rfl, rfl⟩ := hl
    have htk : t.tk s.next = ⟨i, .claimed⟩ := by
      rw [ht]
      exact update_self _ _ _
    constructor
    · show s.next ∈ t.live
      rw [ht]
      exact Finset.mem_insert_self _ _
    · show (dinode sb _ (t.tk s.next).inum).type = type
      rw [htk, hself]
      rfl

theorem Holds.iputFree (hh : Holds sb s l) (hk : h ∈ s.live)
    (hst : (s.tk h).stage = .freeing) (e : Effect (s.view sb) (.iputFree h) t) (hb : Base t)
    (hp : t.panic = none) : ∃ disk1 ip1, itrunc sb s.disk (s.inum h) (s.inode h) = some (disk1, ip1) ∧
      Holds sb { s.setTable t with disk := putDinode sb disk1 (s.inum h) { ip1 with type := 0 } } l.settle := by
  have hi := hh.1.inums h
  obtain ⟨hmem, hty⟩ := hh.1.mem hk (Or.inr hst)
  have hinode : s.inode h = dinode sb s.disk (s.inum h) := by rw [St.inode, hmem, toInode_ofInode]
  obtain ⟨disk1, hit, hfs1, ho1, hd1⟩ := itrunc_content hh.1.image.fs hi hty
  have hr : ({ dinode sb disk1 (s.inum h) with type := 0 } : Inode).InRange :=
    { dinode_inRange sb disk1 (s.inum h) with type := Nat.two_pow_pos _ }
  obtain ⟨hfs2, ho2, hself, _⟩ := putDinode_content hfs1 hi hr
    (Or.inr ⟨fun j => by rw [hd1]; rfl, by rw [hd1]; rfl, fun _ j => by rw [hd1]; rfl⟩)
  refine ⟨disk1, dinode sb disk1 (s.inum h), by rw [hinode]; exact hit, ?_⟩
  have hview : ({ s.setTable t with
      disk := putDinode sb disk1 (s.inum h) { dinode sb disk1 (s.inum h) with type := 0 } } : St).view sb = t := by
    refine view_put hi ?_ (fun j hj => ?_) (fun j hj hne => ((ho1.trans ho2) j hj hne).1) ?_ hp
    · rw [hself, hd1]
      cases e with
      | iputFree _ _ _ =>
        refine (update_self _ _ _).trans ?_
        show ({ Itable.truncated (s.ent (s.inum h)).mem with type := 0 } : Dinode Fields) = _
        rw [hmem]
        rfl
    · cases e with
      | iputFree _ _ _ => exact update_of_ne hj _ _
    · cases e with
      | iputFree _ _ _ => exact Finset.filter_empty _
  have st : Steps sb s (.iputFree h)
      { s.setTable t with disk := putDinode sb disk1 (s.inum h) { dinode sb disk1 (s.inum h) with type := 0 } } :=
    { effect := by rw [hview]; exact e
      base := by rw [hview]; exact hb
      next := Nat.le_refl _
      opens := nofun
      target := hi
      tab := rfl
      panic := rfl }
  refine ⟨st.inv hh.1 (hh.1.image.change hfs2 (ho1.trans ho2) fun hd => ?_), st.agree hh.1 rfl hh.2⟩
  rw [hself] at hd
  cases hd

/-! ## Every operation -/

/-- What an operation that may run leaves behind. -/
def Keeps (sb : Super) (Q : β → Know → Prop) : Threads.Outcome St β → Prop :=
  Threads.Outcome.Sat (fun b s' => ∃ l', Q b l' ∧ Holds sb s' l') Stopped

variable {Q : β → Know → Prop}

section
variable (hh : Holds sb s l)
include hh

theorem Holds.table {f : St → Threads.Outcome St β}
    (hf : ∀ t, Effect (s.view sb) a t → Base t → t.panic = none → Keeps sb Q (f (s.setTable t))) :
    Keeps sb Q (s.table sb a f) := by
  unfold St.table
  split
  · trivial
  · next t ht =>
    split
    · exact ⟨_, rfl, nofun⟩
    · exact ⟨_, rfl, nofun⟩
    · next hp => exact hf t (Itable.step_effect hh.1.base ht hp) (Itable.base_step hh.1.base a ht) hp

theorem Holds.withInode (hf : s.Locked h → (dinode sb s.disk (s.inum h)).type ≠ 0 →
    Keeps sb Q (f (dinode sb s.disk (s.inum h)))) : Keeps sb Q (s.withInode h f) := by
  unfold St.withInode
  split
  · next hl =>
    obtain ⟨h1, h2⟩ := hh.1.inode hl
    rw [h1]
    exact hf hl h2
  · trivial

/-- A call may forget what it found last. -/
theorem Holds.forget : Holds sb s { l with last := none } :=
  ⟨hh.1, hh.2.typ, hh.2.slot, nofun, hh.2.plain⟩

theorem Holds.found {off : Nat} (ht : l.typ h = some T_DIR) (hoff : off % 16 = 0)
    (hle : off ≤ (dinode sb s.disk (s.inum h)).size) : Holds sb s { l with slot := some (h, off) } := by
  refine ⟨hh.1, hh.2.typ, fun d off' hsl => ?_, hh.2.last, hh.2.plain⟩
  simp only [Option.some.injEq, Prod.mk.injEq] at hsl
  obtain ⟨rfl, rfl⟩ := hsl
  exact ⟨ht, hoff, hle⟩

theorem Holds.dir (ht : l.typ h = some T_DIR) :
    (dinode sb s.disk (s.inum h)).type = T_DIR ∧ DirOK sb s.disk (dinode sb s.disk (s.inum h)) := by
  have h1 := (hh.2.typ h T_DIR ht).2
  exact ⟨h1, hh.1.image.dirs _ (hh.1.inums h) h1⟩

theorem Holds.writeDirent {off : Nat} {de : Dirent} (hl : s.Locked h)
    (hslot : l.slot = some (h, off)) (hde : de.inum < sb.ninodes) :
    ∃ ok disk', Fs.writeDirent sb s.disk (s.inum h) (dinode sb s.disk (s.inum h)) off de =
        some (ok, disk', dinode sb disk' (s.inum h)) ∧
      Holds sb (s.store h disk' (dinode sb disk' (s.inum h))) l.change := by
  obtain ⟨ht, hoff, hle⟩ := hh.2.slot h off hslot
  obtain ⟨hdir, hok⟩ := hh.dir ht
  obtain ⟨ok, disk', he, hfs, ho, hty, hd⟩ := writeDirent_spec hh.1.image.fs (hh.1.inums h) (hh.1.inode hl).2 hok
    hoff hle hde
  exact ⟨ok, disk', he, hh.store hl hfs ho hty fun _ => hd⟩

theorem Holds.iupdate (hl : s.Locked h) (hr : ip.InRange)
    (hty : ip.type = (dinode sb s.disk (s.inum h)).type) (ha : ip.addrs = (dinode sb s.disk (s.inum h)).addrs)
    (hsz : ip.size = (dinode sb s.disk (s.inum h)).size) : Holds sb (s.iupdate sb h ip) l.change := by
  obtain ⟨hfs, ho, hself, hc⟩ := putDinode_content hh.1.image.fs (hh.1.inums h) hr
    (Or.inl ⟨ha, hsz, by rw [hty]⟩)
  have hst := hh.store hl hfs ho (by rw [hself]; exact hty) fun hd => by
    rw [hself] at hd ⊢
    exact (hh.1.image.dirs _ (hh.1.inums h) (hty ▸ hd)).of_content (hc ha hsz (hh.1.inode hl).2)
  rw [hself] at hst
  exact hst

end

theorem shortBits_lt (n : Int) : shortBits n < 2 ^ 16 := by
  unfold shortBits
  omega

theorem Holds.keeps_dirlookup (hh : Holds sb s l) (hp : l.typ h ≠ none) (name : Name) :
    Keeps sb (inoPost (.dirlookup h name) l) (inoExec sb (.dirlookup h name) s) := by
  unfold inoExec
  refine hh.withInode fun hl hne => ?_
  by_cases hd : (dinode sb s.disk (s.inum h)).type = T_DIR
  · have ht : l.typ h = some T_DIR := by
      cases hty : l.typ h with
      | none => exact absurd hty hp
      | some t => rw [← hd, (hh.2.typ h t hty).2]
    obtain ⟨r, he, hr⟩ := dirlookup_spec hh.1.image.fs (hh.1.inums h) hd (hh.dir ht).2 name
    rw [he]
    cases r with
    | none =>
      simp only [hh.1.store_self hl]
      exact ⟨_, ⟨ht, Or.inl ⟨rfl, rfl⟩⟩, hh.forget⟩
    | some x =>
      obtain ⟨hin, hoff, hlt⟩ := hr x.1 x.2 rfl
      simp only [hh.1.store_self hl]
      exact hh.table fun t e hb _ => ⟨_, ⟨ht, Or.inr ⟨_, _, rfl, rfl⟩⟩,
        (hh.found ht hoff (Nat.le_of_lt hlt)).open e hb rfl rfl rfl hin⟩
  · rw [dirlookup, if_pos hd]
    exact ⟨_, rfl, by simp⟩

theorem Holds.keeps_ialloced (hh : Holds sb s l) : Keeps sb (inoPost (.ialloced h) l) (inoExec sb (.ialloced h) s) := by
  refine hh.table fun t e hb _ => ?_
  have hi := hh.settle (steps_table hh.1 e hb rfl rfl rfl) rfl rfl
  refine ⟨l, ⟨rfl, rfl⟩, hi.1, hi.2.typ, hi.2.slot, fun k ty hk => ?_, hi.2.plain⟩
  obtain ⟨h1, h2⟩ := hh.2.last k ty hk
  have hlive : k ∈ t.live := by
    cases e with
    | ialloced => exact Finset.mem_insert_of_mem h1
  have hinum : (t.tk k).inum = s.inum k := by
    by_cases hkh : k = h
    · rw [hkh]
      exact e.inum
    · rw [e.tk hkh]
      rfl
  refine ⟨hlive, ?_⟩
  show (dinode sb s.disk (t.tk k).inum).type = ty
  rw [hinum]
  exact h2

theorem Holds.keeps_iputFree (hh : Holds sb s l) : Keeps sb (inoPost (.iputFree h) l) (inoExec sb (.iputFree h) s) := by
  simp only [inoExec]
  split
  · next hf =>
    obtain ⟨hmem, hty⟩ := hh.1.mem hf.1 (Or.inr hf.2)
    obtain ⟨disk', he, _⟩ := itrunc_content hh.1.image.fs (hh.1.inums h) hty
    rw [St.inode, hmem, toInode_ofInode, he]
    refine hh.table fun t e hb hpn => ?_
    obtain ⟨disk2, ip2, he2, hres⟩ := hh.iputFree hf.1 hf.2 e hb hpn
    rw [St.inode, hmem, toInode_ofInode, he] at he2
    cases he2
    exact ⟨_, rfl, hres⟩
  · trivial

/-- Every operation on inodes keeps what its call knows. -/
theorem ino_keeps {o : InoOp β} (hroot : ROOTINO < sb.ninodes) (hh : Holds sb s l) (hp : inoPre o l) :
    Keeps sb (inoPost o l) (inoExec sb o s) := by
  unfold inoExec
  cases o with
  | root => exact hh.table fun t e hb _ => ⟨_, rfl, hh.open e hb rfl rfl rfl hroot⟩
  | idup h => exact hh.table fun t e hb _ => ⟨_, rfl, hh.open e hb rfl rfl rfl (hh.1.inums h)⟩
  | ilock h => exact hh.table fun t e hb _ => hh.ilock e hb
  | iunlock h => exact hh.table fun t e hb _ => ⟨_, rfl, hh.iunlock e hb⟩
  | iput h | iputLast h =>
    exact hh.table fun t e hb _ => ⟨_, rfl, hh.settle (steps_table hh.1 e hb rfl rfl rfl) rfl rfl⟩
  | iputFree h => exact hh.keeps_iputFree
  | ialloc type =>
    simp only
    split
    · exact ⟨_, Or.inl ⟨rfl, rfl⟩, hh.forget⟩
    · next i hf => exact hh.table fun t e hb hpn => ⟨_, Or.inr ⟨_, rfl, rfl⟩, hh.ialloc hp hf e hb hpn⟩
  | ialloced h => exact hh.keeps_ialloced
  | stat h =>
    refine hh.withInode fun hl _ => ⟨l, ⟨?_, rfl⟩, hh⟩
    cases hty : l.typ h with
    | none => exact absurd hty hp
    | some t => exact congrArg some (hh.2.typ h t hty).2.symm
  | dirlookup h name => exact hh.keeps_dirlookup hp name
  | emptySlot h =>
    refine hh.withInode fun hl hne => ?_
    obtain ⟨off, he, hoff, hle⟩ := emptySlot_spec hh.1.image.fs (hh.1.inums h) hne (hh.dir hp).2
    simp only [he, hh.1.store_self hl]
    exact ⟨_, rfl, (hh.found hp hoff hle).forget⟩
  | link h off name target =>
    refine hh.withInode fun hl _ => ?_
    obtain ⟨ok, disk', he, hres⟩ := hh.writeDirent hl hp (show (⟨s.inum target, name⟩ : Dirent).inum < _ from
      hh.1.inums target)
    rw [he]
    exact ⟨_, rfl, hres⟩
  | clear h off =>
    refine hh.withInode fun hl _ => ?_
    obtain ⟨ok, disk', he, hres⟩ := hh.writeDirent hl hp (show (⟨0, []⟩ : Dirent).inum < _ from
      Nat.lt_of_le_of_lt (Nat.zero_le _) hroot)
    rw [he]
    exact ⟨_, rfl, hres⟩
  | isdirempty h =>
    refine hh.withInode fun hl hne => ?_
    obtain ⟨e, he⟩ := isdirempty_spec hh.1.image.fs (hh.1.inums h) hne (hh.dir hp).2
    simp only [he, hh.1.store_self hl]
    exact ⟨_, rfl, hh.forget⟩
  | setInode h major minor nlink =>
    refine hh.withInode fun hl _ => ⟨_, rfl, hh.iupdate hl ?_ rfl rfl rfl⟩
    exact { dinode_inRange sb s.disk (s.inum h) with
      major := shortBits_lt _, minor := shortBits_lt _, nlink := shortBits_lt _ }
  | setLink h nlink =>
    refine hh.withInode fun hl _ => ⟨_, rfl, hh.iupdate hl ?_ rfl rfl rfl⟩
    exact { dinode_inRange sb s.disk (s.inum h) with nlink := shortBits_lt _ }
  | itrunc h =>
    refine hh.withInode fun hl hne => ?_
    obtain ⟨disk', he, hfs, ho, hd⟩ := itrunc_content hh.1.image.fs (hh.1.inums h) hne
    rw [he]
    refine ⟨_, rfl, hh.store hl hfs ho (by rw [hd]; rfl) fun _ => ?_⟩
    rw [hd]
    exact ⟨rfl, fun n hn => absurd hn (Nat.not_lt_zero _)⟩
  | readi h off n fail =>
    refine hh.withInode fun hl hne => ?_
    obtain ⟨r, out, he, _⟩ := readi_spec hh.1.image.fs (hh.1.inums h) hne fail off hp.2
    simp only [he, hh.1.store_self hl]
    exact ⟨_, rfl, hh.1, hh.2.typ, nofun, nofun, hh.2.plain⟩
  | writei h src off n fail =>
    refine hh.withInode fun hl hne => ?_
    obtain ⟨r, disk', he, hfs, ho, hty, _⟩ := writei_spec hh.1.image.fs (hh.1.inums h) hne src fail off hp.2
    obtain ⟨t, ht, hnd⟩ := hp.1
    rw [he]
    refine ⟨_, rfl, hh.store hl hfs ho hty fun hd => absurd ?_ hnd⟩
    rw [← (hh.2.typ h t ht).2, ← hty]
    exact hd

/-- The writable files are of no directories. -/
def FilesOK (P : Nat → Prop) (t : Tables) : Prop :=
  ∀ f, (t.file f).type = .inode → (t.file f).writable = true → P (t.file f).ip

theorem FilesOK.setFile {P : Nat → Prop} {t : Tables} (h : FilesOK P t) {f : Nat} {x : File}
    (hx : x.type = .inode → x.writable = true → P x.ip) : FilesOK P (t.setFile f x) := by
  intro f' hty hw
  by_cases hf : f' = f
  · subst hf
    simp only [Tables.setFile, update_self] at hty hw ⊢
    exact hx hty hw
  · simp only [Tables.setFile, update_of_ne hf] at hty hw ⊢
    exact h f' hty hw

theorem Holds.tab {t : Tables} (hh : Holds sb s l) (ht : FilesOK (Plain sb s) t) : Holds sb { s with tab := t } l :=
  ⟨{ hh.1 with files := ht }, hh.2.typ, hh.2.slot, hh.2.last, hh.2.plain⟩

/-- What an operation on the tables leaves behind. -/
def TabKeeps (sb : Super) (s : St) (Q : β → Know → Prop) : Except Panic (β × Tables) → Prop
  | .ok (b, t) => ∃ l', Q b l' ∧ Holds sb { s with tab := t } l'
  | .error m => m ≠ .freeingFreeBlock

theorem tab_keeps {o : TabOp β} (hh : Holds sb s l) (hp : tabPre o l) :
    TabKeeps sb s (tabPost o l) (o.exec p c s.tab) := by
  have hf : FilesOK (Plain sb s) s.tab := hh.1.files
  -- a file that keeps its type, its inode and whether it is writable
  have hkeep : ∀ {f : Nat} {x : File}, x.type = (s.tab.file f).type → x.writable = (s.tab.file f).writable →
      x.ip = (s.tab.file f).ip → FilesOK (Plain sb s) (s.tab.setFile f x) := by
    intro f x h1 h2 h3
    refine hf.setFile fun hty hw => ?_
    rw [h3]
    exact hf f (h1 ▸ hty) (h2 ▸ hw)
  cases o with
  | setCwd h | clearCwd | clearFd fd | freeproc np | copyFd np fd f | copyCwd np h | runnable np | zombie =>
    exact ⟨l, rfl, hh.tab hf⟩
  | cwd | argfd fd | fdalloc f | allocproc | exiting | reap | newPipe | pipeclose pi w =>
    simp only [TabOp.exec]
    split
    all_goals first | exact ⟨l, rfl, hh.tab hf⟩ | exact nofun
  | filealloc =>
    simp only [TabOp.exec]
    split
    · exact ⟨l, rfl, hh.tab (hkeep rfl rfl rfl)⟩
    · exact ⟨l, rfl, hh.tab hf⟩
  | file f =>
    refine ⟨_, rfl, hh.1, hh.2.typ, hh.2.slot, hh.2.last, ?_⟩
    rintro k (hk | ⟨hty, hw, rfl⟩)
    · exact hh.2.plain k hk
    · exact hf f hty hw
  | setFile f type r w ip off major =>
    refine ⟨l, rfl, hh.tab (hf.setFile fun hty hw => ?_)⟩
    obtain ⟨t, ht, hnd⟩ := hp hty hw
    obtain ⟨hl, htt⟩ := hh.2.typ ip t ht
    exact ⟨hh.1.fresh ip hl.1, Itable.firm_of_locked hh.1.base fun _ => hl.2, fun _ _ => htt ▸ hnd⟩
  | setPipe f pi w => exact ⟨l, rfl, hh.tab (hf.setFile nofun)⟩
  | setOff f off => exact ⟨l, rfl, hh.tab (hkeep rfl rfl rfl)⟩
  | filedup f =>
    simp only [TabOp.exec]
    split
    · exact nofun
    · exact ⟨l, rfl, hh.tab (hkeep rfl rfl rfl)⟩
  | closeRef f =>
    simp only [TabOp.exec]
    split
    · exact nofun
    · split
      · exact ⟨l, rfl, hh.tab (hkeep rfl rfl rfl)⟩
      · exact ⟨l, rfl, hh.tab (hf.setFile nofun)⟩

/-! ## Sequences of system calls -/

theorem exec_keeps {o : Op β} (hroot : ROOTINO < sb.ninodes) (hh : Holds sb s l) (hp : logic.pre o l) :
    Keeps sb (logic.post o l) (exec sb o p c s) := by
  cases o with
  | ino o => exact ino_keeps hroot hh hp
  | tab o =>
    have ht := tab_keeps (p := p) (c := c) hh hp
    simp only [exec]
    split
    · next he =>
      rw [he] at ht
      exact ht
    · next m he =>
      rw [he] at ht
      exact ⟨m, rfl, ht⟩
  | log o => cases o <;> exact ⟨l, rfl, hh⟩
  | panic m => exact ⟨m, rfl, hp⟩

theorem Inv.agree_start (h : Inv sb s) : Holds sb s Know.start := ⟨h, nofun, nofun, nofun, fun _ => False.elim⟩

section
variable (hroot : ROOTINO < sb.ninodes)
include hroot

theorem boot_inv (h : Image sb disk) : Inv sb (boot disk) where
  base := by
    have hrefs : ∀ i, Itable.refs ((boot disk).view sb) i = if i = ROOTINO then {0} else ∅ := by
      intro i
      ext k
      simp only [Itable.mem_refs]
      show k ∈ ({0} : Finset Nat) ∧ ROOTINO = i ∧ Itable.Stage.idle ≠ .claimed ↔ _
      split
      · next hi => simp [hi]
      · next hi => simp [Ne.symm hi]
    constructor
    case count =>
      intro i
      rw [hrefs]
      show (if i = ROOTINO then (1 : Int) else 0) = _
      split <;> rfl
    case lock => exact fun i k => iff_of_false nofun fun hc => by rcases hc.2.2 with h | h <;> cases h
    case valid => exact fun i _ hv => nomatch hv
    case lockedValid => exact fun k _ hc => by rcases hc with h | h <;> cases h
  image := h
  inums _ := hroot
  fresh k hk := by
    rw [Finset.mem_singleton.mp hk]
    exact Nat.zero_lt_one
  files _ hty := nomatch hty
  running := rfl

theorem step_inv {a : Act} (h : Stopped s ∨ Inv sb s) (hs : step sb s a = some s') :
    Stopped s' ∨ Inv sb s' := by
  unfold step at hs
  split at hs
  · next hc =>
    have hinv : Inv sb s := by
      rcases h with ⟨m, hm, _⟩ | h
      · rw [hc.1] at hm
        cases hm
      · exact h
    have hsat := Threads.eval_of_wp (fun o s => exec sb o a.p a.choice s) logic (Holds sb) Stopped
      (fun _ _ _ hI hp => exec_keeps hroot hI hp) a.call.code s Know.start hinv.agree_start (wp_code a.call)
    split at hs
    · next r _ he =>
      cases hs
      rw [he] at hsat
      obtain ⟨l', _, hI⟩ := hsat
      exact Or.inr hI.1
    · next he =>
      cases hs
      rw [he] at hsat
      exact Or.inl hsat
    · cases hs
  · cases hs

theorem run_inv (h : Image sb disk) (calls : List Act)
    (hr : Run.run (step sb) (boot disk) calls = some s) : Stopped s ∨ Inv sb s := by
  have hreach : Run.Reach (step sb) (fun _ _ => True) (· = boot disk) s :=
    Run.Reach.of_run (fun _ _ => trivial) calls (.start rfl) hr
  refine hreach.invariant (fun s => Stopped s ∨ Inv sb s) ?_ fun s a s' hI _ hs => step_inv hroot hI hs
  rintro _ rfl
  exact Or.inr (boot_inv hroot h)

theorem image_kept (h : Image sb disk) (calls : List Act)
    (hr : Run.run (step sb) (boot disk) calls = some s) (hp : s.panic = none) : Image sb s.disk := by
  rcases run_inv hroot h calls hr with ⟨m, hm, _⟩ | hI
  · rw [hp] at hm
    cases hm
  · exact hI.image

end

/-- After every sequence of complete system calls each block in use has one owner,
and every other block is free; no call panics in `bfree`. -/
theorem block_ownership (sb : Super) (hroot : ROOTINO < sb.ninodes) (disk : Disk) (h : Image sb disk)
    (calls : List Act) (s : St) (hr : Run.run (step sb) (boot disk) calls = some s) :
    s.panic ≠ some .freeingFreeBlock ∧ (s.panic = none → Owned sb s.disk (dinode sb s.disk)) := by
  refine ⟨fun hc => ?_, fun hp => (image_kept hroot h calls hr hp).fs.owned⟩
  rcases run_inv hroot h calls hr with ⟨m, hm, hne⟩ | hI
  · rw [hc] at hm
    exact hne (Option.some.inj hm).symm
  · rw [hI.running] at hc
    cases hc

/-- An empty root directory on the small image. -/
def rootDisk : Disk := fun b x =>
  if b = 2 then (if x = 64 ∨ x = 70 then 1 else 0) else if b = 3 then (if x = 0 then 15 else 0) else 0

theorem rootDisk_image : Image tiny rootDisk where
  fs := FsOK.of_empty (by decide +kernel) (by decide +kernel)
  dirs i hi _ := by
    have hz : ∀ i, i < tiny.ninodes → (dinode tiny rootDisk i).size = 0 := by decide +kernel
    exact ⟨by rw [hz i hi], fun n hn => absurd (hz i hi ▸ hn) (Nat.not_lt_zero _)⟩

/-- `open("/f", O_CREATE|O_RDWR)` and a `write` of three bytes. -/
def createAndWrite : List Act :=
  [⟨0, .openFile (some [47, 102]) 514, 0⟩, ⟨0, .write 0 (fun x => UInt8.ofNat x) 3 (fun _ _ => none) 0, 0⟩]

theorem block_ownership_createAndWrite : ∃ s, Run.run (step tiny) (boot rootDisk) createAndWrite = some s ∧
    s.panic = none ∧ Owned tiny s.disk (dinode tiny s.disk) := by
  have hview : (Run.run (step tiny) (boot rootDisk) createAndWrite).map (fun s => s.panic) = some none := by
    decide +kernel
  obtain ⟨s, hs, hp⟩ := Option.map_eq_some_iff.mp hview
  exact ⟨s, hs, hp, (block_ownership tiny (by decide) rootDisk rootDisk_image createAndWrite s hs).2 hp⟩

/-! ## Directories with holes -/

/-- The root directory, in block 4, has the entry `d` for inode 2, a directory of one
entry that has no block. -/
def holeDisk : Disk := fun b x =>
  if b = 2 then
    (if x = 64 ∨ x = 70 ∨ x = 128 ∨ x = 134 then 1 else if x = 72 ∨ x = 136 then 16 else if x = 76 then 4 else 0)
  else if b = 3 then (if x = 0 then 31 else 0)
  else if b = 4 then (if x = 0 then 2 else if x = 2 then 100 else 0) else 0

theorem slotBlock_direct (h : ip.addrs indirect = 0) {t : Slot}
    (h0 : slotBlock disk ip t ≠ 0) : ∃ j, t = .addr j ∧ slotBlock disk ip t = ip.addrs j := by
  cases t with
  | addr j => exact ⟨j, rfl, rfl⟩
  | entry j => exact absurd (slotBlock_entry_zero (Or.inl h)) h0

theorem holeDisk_owned : Owned tiny holeDisk (dinode tiny holeDisk) := by
  have hind : ∀ i, i < tiny.ninodes → (dinode tiny holeDisk i).addrs indirect = 0 := by decide +kernel
  have honly : ∀ i, i < tiny.ninodes → ∀ j, (dinode tiny holeDisk i).addrs j ≠ 0 →
      i = 1 ∧ j = 0 ∧ (dinode tiny holeDisk i).addrs j = 4 := by decide +kernel
  have hbits : ∀ b, b < tiny.size → (inUse tiny holeDisk b = true ↔ b < 4 ∨ b = 4) := by decide +kernel
  have hslot : ∀ i t, i < tiny.ninodes → slotBlock holeDisk (dinode tiny holeDisk i) t ≠ 0 →
      i = 1 ∧ t = .addr 0 ∧ slotBlock holeDisk (dinode tiny holeDisk i) t = 4 := by
    intro i t hi h0
    obtain ⟨j, ht, he⟩ := slotBlock_direct (hind i hi) h0
    rw [he] at h0 ⊢
    obtain ⟨h1, h2, h3⟩ := honly i hi j h0
    exact ⟨h1, by rw [ht, h2], h3⟩
  constructor
  case range =>
    intro i t hi _ h0
    rw [(hslot i t hi h0).2.2]
    decide
  case inj =>
    intro i t i' t' hi hi' _ _ h0 he
    obtain ⟨h1, h2, _⟩ := hslot i t hi h0
    obtain ⟨h1', h2', _⟩ := hslot i' t' hi' (he ▸ h0)
    exact ⟨h1.trans h1'.symm, h2.trans h2'.symm⟩
  case bits =>
    intro b hb
    rw [hbits b hb]
    constructor
    · rintro (h4 | rfl)
      · exact Or.inl h4
      · exact Or.inr ⟨1, by decide, by decide +kernel, .addr 0, by decide +kernel⟩
    · rintro (h4 | ⟨i, hi, _, t, he⟩)
      · exact Or.inl h4
      · by_cases h0 : slotBlock holeDisk (dinode tiny holeDisk i) t = 0
        · exact Or.inl (by omega)
        · exact Or.inr (he.symm.trans (hslot i t hi h0).2.2)

/-- `open("/d/x")` reads the directory with the hole: `bmap` allocates a block for it in
memory only, and the block is lost when the inode leaves the table. -/
theorem open_loses_block : Owned tiny holeDisk (dinode tiny holeDisk) ∧
    ∃ s, Run.run (step tiny) (boot holeDisk) [⟨0, .openFile (some [47, 100, 47, 120]) O_RDONLY, 0⟩] = some s ∧
      s.panic = none ∧ (s.ent 2).ref = 0 ∧ inUse tiny s.disk 5 = true ∧
      ¬ Referenced tiny s.disk (dinode tiny s.disk) 5 ∧ ¬ Owned tiny s.disk (dinode tiny s.disk) := by
  refine ⟨holeDisk_owned, ?_⟩
  have hview : (Run.run (step tiny) (boot holeDisk) [⟨0, .openFile (some [47, 100, 47, 120]) O_RDONLY, 0⟩]).map
      (fun s => (s.panic, (s.ent 2).ref, inUse tiny s.disk 5,
        decide (∀ i, i < tiny.ninodes → (dinode tiny s.disk i).addrs indirect = 0 ∧
          ∀ j, (dinode tiny s.disk i).addrs j ≠ 5))) = some (none, 0, true, true) := by
    decide +kernel
  obtain ⟨s, hs, hv⟩ := Option.map_eq_some_iff.mp hview
  simp only [Prod.mk.injEq, decide_eq_true_eq] at hv
  obtain ⟨hp, href, huse, haddr⟩ := hv
  have hno : ¬ Referenced tiny s.disk (dinode tiny s.disk) 5 := by
    rintro ⟨i, hi, _, t, he⟩
    obtain ⟨j, _, hj⟩ := slotBlock_direct (haddr i hi).1 (t := t) (by rw [he]; decide)
    exact (haddr i hi).2 j (hj.symm.trans he)
  refine ⟨s, hs, hp, href, huse, hno, fun hown => ?_⟩
  rcases (hown.bits 5 (by decide)).mp huse with h | h
  · exact absurd h (by decide)
  · exact hno h

end Xv6.Fs.BlockSys
