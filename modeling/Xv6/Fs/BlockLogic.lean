import Xv6.Fs.Syscalls

/-!
# What system calls know about the inodes they hold

The local state of a system call, for the block layer: which tickets it has
locked and the type of their inodes, where it may write a directory entry, the
inode that `ialloc` has just given it, and which tickets are no directories.
Every operation has a precondition and a postcondition on it, and every system
call meets the preconditions (`wp_code`): a directory gets no data but entries,
and an entry is written where `dirlookup` or `dirlink` found a place for it.
-/

namespace Xv6.Fs.BlockSys

open Sys Threads Function

structure Know where
  /-- The tickets that are locked, with the type of the inode. -/
  typ : Nat → Option Nat
  /-- A directory and the offset of an entry in it, or of its end. -/
  slot : Option (Nat × Nat)
  /-- The ticket that `ialloc` has just opened, and the type. -/
  last : Option (Nat × Nat)
  /-- The tickets known to be of no directory. -/
  plain : Nat → Prop

namespace Know

def start : Know := ⟨fun _ => none, none, none, fun _ => False⟩

/-- After the reference count or the lock of some inode has changed. -/
def settle (l : Know) : Know := { l with last := none }

/-- After an inode has changed. -/
def change (l : Know) : Know := { l with slot := none, last := none }

end Know

def inoPre {β : Type} (o : InoOp β) (l : Know) : Prop :=
  match o with
  | .iunlock h | .stat h | .dirlookup h _ | .setInode h _ _ _ | .setLink h _ | .itrunc h => l.typ h ≠ none
  | .emptySlot h | .isdirempty h => l.typ h = some T_DIR
  | .link h off _ _ | .clear h off => l.slot = some (h, off)
  | .readi h _ n _ => l.typ h ≠ none ∧ n < 2 ^ 32
  | .writei h _ _ n _ => (∃ t, l.typ h = some t ∧ t ≠ T_DIR) ∧ n < 2 ^ 32
  | .ialloc type => type < 2 ^ 16
  | .root | .idup _ | .ilock _ | .iput _ | .iputFree _ | .iputLast _ | .ialloced _ => True

def inoPost {β : Type} (o : InoOp β) (l : Know) (b : β) (l' : Know) : Prop :=
  match o with
  | .root | .idup _ | .iput _ | .iputFree _ | .iputLast _ | .isdirempty _ => l' = l.settle
  | .ilock h => l.typ h = none ∧ ∃ t, l' = { l.settle with typ := update l.typ h (some t) } ∧
      (l.plain h → t ≠ T_DIR) ∧ ∀ t', l.last = some (h, t') → t = t'
  | .iunlock h => l' = { l.change with typ := update l.typ h none }
  | .ialloc type => (b = none ∧ l' = l.settle) ∨ ∃ h, b = some h ∧ l' = { l with last := some (h, type) }
  | .ialloced h => b = h ∧ l' = l
  | .stat h => l.typ h = some b.type ∧ l' = l
  | .dirlookup h _ => l.typ h = some T_DIR ∧
      ((b = none ∧ l' = l.settle) ∨ ∃ k off, b = some (k, off) ∧ l' = { l.settle with slot := some (h, off) })
  | .emptySlot h => l' = { l.settle with slot := some (h, b) }
  | .link _ _ _ _ | .clear _ _ | .setInode _ _ _ _ | .setLink _ _ | .itrunc _ | .readi _ _ _ _ | .writei _ _ _ _ _ =>
    l' = l.change

def tabPre {β : Type} (o : TabOp β) (l : Know) : Prop :=
  match o with
  | .setFile _ type _ writable ip _ _ => type = .inode → writable = true → ∃ t, l.typ ip = some t ∧ t ≠ T_DIR
  | _ => True

def tabPost {β : Type} (o : TabOp β) (l : Know) (b : β) (l' : Know) : Prop :=
  match o with
  | .file _ => l' = { l with plain := fun k => l.plain k ∨ (b.type = .inode ∧ b.writable = true ∧ k = b.ip) }
  | _ => l' = l

def logic : Logic Op Know where
  pre o l :=
    match o with
    | .ino o => inoPre o l
    | .tab o => tabPre o l
    | .log _ => True
    | .panic m => m ≠ .freeingFreeBlock
  post o l b l' :=
    match o with
    | .ino o => inoPost o l b l'
    | .tab o => tabPost o l b l'
    | .log _ => l' = l
    | .panic _ => False

/-- After a program the locks are `f`, and nothing about types is forgotten. -/
def After (l : Know) (f : Nat → Option Nat) (l' : Know) : Prop := l'.typ = f ∧ ∀ k, l.plain k → l'.plain k

theorem After.refl (l : Know) : After l l.typ l := ⟨rfl, fun _ => id⟩

variable {k : Nat} {l l1 : Know}

theorem After.trans {l2 : Know} {f g : Nat → Option Nat} (h : After l f l1) (h' : After l1 g l2) : After l g l2 :=
  ⟨h'.1, fun k hk => h'.2 k (h.2 k hk)⟩

theorem After.locked {f : Nat → Option Nat} {ip t : Nat} (h : After l (update f ip (some t)) l1) :
    l1.typ ip ≠ none := by
  rw [h.1, update_self]
  nofun

theorem After.held {f : Nat → Option Nat} (h : After l f l1) (hk : f k ≠ none) : l1.typ k ≠ none := by
  rw [h.1]
  exact hk

theorem After.other {f : Nat → Option Nat} {j : Nat} {v : Option Nat} (h : After l (update f k v) l1)
    (hne : j ≠ k) (hj : f j ≠ none) : l1.typ j ≠ none :=
  h.held (by rwa [update_of_ne hne])

theorem unlock_lock {f : Nat → Option Nat} {v : Option Nat} (h : f k = none) : update (update f k v) k none = f := by
  rw [update_idem]
  exact update_eq_self_iff.mpr h.symm

variable {ip : Nat} {path : Option Path} {f : Nat}

section
variable {l : Know} {α : Type} {Q : α → Know → Prop} {g : Unit → Sys.Prog α}

theorem wp_beginOp (h : wp logic (g ()) Q l) : wp logic (beginOp >>= g) Q l :=
  wp_op trivial fun _ _ h1 => h1 ▸ h

theorem wp_endOp (h : wp logic (g ()) Q l) : wp logic (endOp >>= g) Q l :=
  wp_op trivial fun _ _ h1 => h1 ▸ h

theorem wp_endWith {r : α} (h : Q r l) : wp logic (endWith r) Q l := wp_endOp h

/-! ## `kernel/fs.c` -/

theorem wp_iput : wp logic (iput ip) (fun _ l' => After l l.typ l') l := by
  refine wp_op trivial fun b l1 h1 => ?_
  subst h1
  cases b with
  | false => exact After.refl l
  | true =>
    refine wp_op trivial fun _ l2 h2 => ?_
    subst h2
    refine wp_op trivial fun _ l3 h3 => ?_
    subst h3
    exact After.refl l

theorem wp_iunlockput (h : l.typ ip ≠ none) :
    wp logic (iunlockput ip) (fun _ l' => After l (update l.typ ip none) l') l := by
  refine wp_op h fun _ l1 h1 => ?_
  subst h1
  exact wp_iput

theorem wp_putEnd {r : α} (h : l.typ ip ≠ none) : wp logic (do iunlockput ip; endWith r) (fun _ _ => True) l :=
  wp_call (wp_iunlockput h) fun _ _ _ => wp_endWith trivial

theorem wp_found {β : Type} {o : Op (Option β)} {f : Option β → Sys.Prog α} (ho : logic.pre o l)
    (hn : ∀ l1, wp logic (f none) Q l1) (hs : ∀ x l1, wp logic (f (some x)) Q l1) : wp logic (perform o >>= f) Q l :=
  wp_op ho fun r l1 _ => r.casesOn (hn l1) fun x => hs x l1

variable {dp omode t type : Nat} {major minor : Int} {name : Name} {ok : Bool}

theorem wp_dirlink {target : Nat} (h : l.typ dp ≠ none) :
    wp logic (dirlink dp name target) (fun _ l' => After l l.typ l') l := by
  refine wp_op h fun r l1 h1 => ?_
  obtain ⟨ht, ⟨rfl, rfl⟩ | ⟨k, off, rfl, rfl⟩⟩ := h1
  · refine wp_op ht fun off l2 h2 => ?_
    subst h2
    refine wp_mono (fun _ _ h => h) _ _ (wp_op rfl fun ok l3 h3 => ?_)
    subst h3
    exact After.refl l
  · refine wp_call wp_iput fun _ l2 h2 => h2

theorem wp_panic {m : Panic} (h : m ≠ .freeingFreeBlock) : wp logic (panic m >>= g) Q l :=
  wp_op h fun _ _ hc => hc.elim

theorem wp_ilock (h : ∀ t l1, l.typ ip = none → After l (update l.typ ip (some t)) l1 → (l.plain ip → t ≠ T_DIR) →
      (∀ t', l.last = some (ip, t') → t = t') → l1.slot = l.slot → wp logic (g ()) Q l1) :
    wp logic (ino (.ilock ip) >>= g) Q l := by
  refine wp_op trivial fun _ l1 h1 => ?_
  obtain ⟨hn, t, rfl, hplain, hlast⟩ := h1
  exact h t _ hn ⟨rfl, fun _ => id⟩ hplain hlast rfl

theorem wp_unlock (l1 : Know) (hn : l.typ ip = none) (h1 : After l (update l.typ ip (some t)) l1) :
    wp logic (iunlockput ip) (fun _ l' => After l l.typ l') l1 := by
  refine wp_mono (fun _ l2 h2 => ?_) _ _ (wp_iunlockput ?_)
  · rw [h1.1, unlock_lock hn] at h2
    exact h1.trans h2
  · exact h1.locked

theorem wp_namexLoop {parent : Bool} (fuel : Nat) : ∀ (l : Know) (ip : Nat) (path : Path) (name : Name),
    wp logic (namexLoop parent fuel ip path name) (fun _ l' => After l l.typ l') l := by
  induction fuel with
  | zero => exact fun l ip path name => After.refl l
  | succ fuel ih =>
    intro l ip path name
    unfold namexLoop
    split
    · split
      · exact wp_call wp_iput fun _ l1 h1 => h1
      · exact After.refl l
    · refine wp_ilock fun t l1 hn h1 _ _ _ => ?_
      have hne := h1.locked
      refine wp_op hne fun st l2 h2 => ?_
      obtain ⟨_, rfl⟩ := h2
      split
      · exact wp_call (wp_unlock _ hn h1) fun _ l3 h3 => h3
      · split
        · refine wp_op hne fun _ l3 h3 => ?_
          subst h3
          refine h1.trans ⟨?_, fun _ => id⟩
          show update l2.typ ip none = l.typ
          rw [h1.1, unlock_lock hn]
        · refine wp_op hne fun r l3 h3 => ?_
          obtain ⟨_, ⟨rfl, rfl⟩ | ⟨k, off, rfl, rfl⟩⟩ := h3
          · exact wp_call (wp_unlock _ hn h1) fun _ l4 h4 => h4
          · refine wp_call (wp_unlock { l2.settle with slot := some (ip, off) } hn h1) fun _ l4 h4 => ?_
            refine wp_mono (fun _ l5 h5 => ?_) _ _ (ih l4 k _ _)
            rw [h4.1] at h5
            exact h4.trans h5

theorem wp_namex {path : Path} {parent : Bool} : wp logic (namex path parent) (fun _ l' => After l l.typ l') l := by
  unfold namex
  split
  · refine wp_op trivial fun ip l1 h1 => ?_
    subst h1
    exact wp_namexLoop _ l.settle ip path []
  · refine wp_op trivial fun cwd l1 h1 => ?_
    subst h1
    refine wp_op trivial fun ip l2 h2 => ?_
    subst h2
    exact wp_namexLoop _ l1.settle ip path []

theorem wp_namei {path : Path} : wp logic (namei path) (fun _ l' => After l l.typ l') l := by
  refine wp_call wp_namex fun r l1 h1 => ?_
  cases r <;> exact h1

/-! ## `kernel/file.c` -/

theorem wp_fileclose : wp logic (fileclose f) (fun _ l' => After l l.typ l') l := by
  refine wp_op trivial fun r l1 h1 => ?_
  subst h1
  cases r with
  | none => exact After.refl l1
  | some ff =>
    simp only
    split
    · exact wp_op trivial fun _ l2 h2 => h2 ▸ After.refl l1
    · split
      · exact wp_beginOp (wp_call wp_iput fun _ _ h2 => wp_endOp h2)
      · exact After.refl l1

theorem wp_iunlock (l1 : Know) (hn : l.typ ip = none)
    (h1 : After l (update l.typ ip (some t)) l1) (h : ∀ l2, After l l.typ l2 → wp logic (g ()) Q l2) :
    wp logic (ino (.iunlock ip) >>= g) Q l1 := by
  have hne := h1.locked
  refine wp_op hne fun _ l2 h2 => ?_
  subst h2
  refine h _ (h1.trans ⟨?_, fun _ => id⟩)
  show update l1.typ ip none = l.typ
  rw [h1.1, unlock_lock hn]

theorem wp_filestat : wp logic (filestat f ok) (fun _ _ => True) l := by
  refine wp_op trivial fun x l1 _ => ?_
  split
  · exact wp_ilock fun t l2 hn h2 _ _ _ => wp_iunlock _ hn h2 fun _ _ => trivial
  · trivial

theorem wp_advance {off : Nat} {r : Int} : wp logic (advance f off r) (fun _ l' => l' = l) l := by
  unfold advance
  split
  · exact ⟨trivial, fun _ _ h => h⟩
  · rfl

theorem wp_fileread {n : Int} {fail : Nat → Bool} {dev : Int} :
    wp logic (fileread f n fail dev) (fun _ _ => True) l := by
  refine wp_op trivial fun x l1 _ => ?_
  split
  · trivial
  · split
    · trivial
    · split
      · refine wp_ilock fun t l2 hn h2 _ _ _ => ?_
        refine wp_op trivial fun y l3 h3 => ?_
        have h3' : After l2 l2.typ l3 := by
          subst h3
          exact ⟨rfl, fun _ => Or.inl⟩
        have hne : l3.typ x.ip ≠ none := by
          rw [h3'.1, h2.1, update_self]
          nofun
        refine wp_op ⟨hne, by omega⟩ fun r l4 h4 => ?_
        subst h4
        refine wp_call wp_advance fun _ l5 h5 => ?_
        subst h5
        have h5 : After l1 (update l1.typ x.ip (some t)) l3.change :=
          h2.trans ⟨h3'.1.trans h2.1, h3'.2⟩
        exact wp_iunlock _ hn h5 fun _ _ => trivial
      · exact wp_panic nofun

variable {src : Nat → UInt8} {fail : Nat → Nat → Option Nat}

theorem wp_filewriteLoop {n : Nat} (fuel : Nat) :
    ∀ (l : Know) (i : Nat), l.plain ip → wp logic (filewriteLoop f ip src fail n fuel i) (fun _ _ => True) l := by
  induction fuel with
  | zero => exact fun l i _ => trivial
  | succ fuel ih =>
    intro l i hp
    unfold filewriteLoop
    split
    · refine wp_beginOp (wp_ilock fun t l2 hn h2 hplain _ _ => ?_)
      refine wp_op trivial fun y l3 h3 => ?_
      have h3' : After l2 l2.typ l3 := by
        subst h3
        exact ⟨rfl, fun _ => Or.inl⟩
      have ht : l3.typ ip = some t := by rw [h3'.1, h2.1, update_self]
      have hlt : min (n - i) ((MAXOPBLOCKS - 1 - 1 - 2) / 2 * BSIZE) < 2 ^ 32 :=
        Nat.lt_of_le_of_lt (Nat.min_le_right _ _) (by decide)
      refine wp_op ⟨⟨t, ht, hplain hp⟩, hlt⟩ fun r l4 h4 => ?_
      subst h4
      refine wp_call wp_advance fun _ l5 h5 => ?_
      subst h5
      have h5 : After l (update l.typ ip (some t)) l3.change := h2.trans ⟨h3'.1.trans h2.1, h3'.2⟩
      refine wp_iunlock _ hn h5 fun l6 h6 => wp_endOp ?_
      split
      · exact ih l6 _ (h6.2 ip hp)
      · trivial
    · trivial

theorem wp_filewrite {n : Int} {dev : Int} : wp logic (filewrite f src n fail dev) (fun _ _ => True) l := by
  refine wp_op trivial fun x l1 h1 => ?_
  subst h1
  split
  · trivial
  · next hw =>
    split
    · trivial
    · split
      · next hty => exact wp_call (wp_filewriteLoop _ _ 0 (Or.inr ⟨hty, by simpa using hw, rfl⟩)) fun _ _ _ => trivial
      · exact wp_panic nofun

/-! ## `kernel/sysfile.c` -/

theorem wp_linkBad : wp logic (linkBad ip) (fun _ _ => True) l := by
  refine wp_ilock fun t l1 hn h1 _ _ _ => ?_
  have hne := h1.locked
  refine wp_op hne fun st l2 h2 => ?_
  obtain ⟨_, rfl⟩ := h2
  refine wp_op hne fun _ l3 h3 => ?_
  subst h3
  exact wp_putEnd hne

theorem wp_sysLink {old new : Option Path} : wp logic (sysLink old new) (fun _ _ => True) l := by
  unfold sysLink
  split
  · refine wp_beginOp (wp_option wp_namei (fun _ _ => wp_endWith trivial) fun ip l1 h1 => ?_)
    refine wp_ilock fun t l2 hn h2 _ _ _ => ?_
    have hne := h2.locked
    refine wp_op hne fun st l3 h3 => ?_
    obtain ⟨_, rfl⟩ := h3
    split
    · exact wp_putEnd hne
    · refine wp_op hne fun _ l4 h4 => ?_
      subst h4
      refine wp_op hne fun _ l5 _ => ?_
      refine wp_option wp_namex (fun _ _ => wp_linkBad) fun x l6 _ => ?_
      refine wp_ilock fun t' l7 _ h7 _ _ _ => ?_
      have hne7 := h7.locked
      refine wp_call (wp_dirlink hne7) fun ok l8 h8 => ?_
      have hne8 := h8.held hne7
      cases ok with
      | true => exact wp_call (wp_iunlockput hne8) fun _ _ _ => wp_call wp_iput fun _ _ _ => wp_endWith trivial
      | false => exact wp_call (wp_iunlockput hne8) fun _ _ _ => wp_linkBad
  · trivial

theorem wp_unlinkEntry {off : Nat} {st : Stat} (hdp : l.typ dp ≠ none) (hip : l.typ ip ≠ none) (hne : ip ≠ dp)
    (hslot : l.slot = some (dp, off)) : wp logic (unlinkEntry dp ip off st) (fun _ _ => True) l := by
  refine wp_op hslot fun ok l1 h1 => ?_
  subst h1
  cases ok with
  | false => exact wp_panic nofun
  | true =>
    -- both branches of the test of the type go on with both inodes locked
    have hrest : wp logic (do iunlockput dp; ino (.setLink ip (st.nlink - 1)); iunlockput ip; endWith (0 : Int))
        (fun _ _ => True) l.change := by
      refine wp_call (wp_iunlockput hdp) fun _ l2 h2 => ?_
      have hip2 := h2.other hne hip
      refine wp_op hip2 fun _ l3 h3 => ?_
      subst h3
      exact wp_putEnd hip2
    show wp logic (if st.type = T_DIR then _ else _) _ _
    split
    · refine wp_op hdp fun sd l2 h2 => ?_
      obtain ⟨_, rfl⟩ := h2
      refine wp_op hdp fun _ l3 h3 => ?_
      subst h3
      exact hrest
    · exact hrest

theorem wp_sysUnlink : wp logic (sysUnlink path) (fun _ _ => True) l := by
  cases path with
  | none => trivial
  | some path =>
    refine wp_beginOp (wp_option wp_namex (fun _ _ => wp_endWith trivial) fun x l1 _ => ?_)
    obtain ⟨dp, name⟩ := x
    refine wp_ilock fun t l2 _ h2 _ _ _ => ?_
    have hdp := h2.locked
    split
    · exact wp_putEnd hdp
    · refine wp_op hdp fun r l3 h3 => ?_
      obtain ⟨_, ⟨rfl, rfl⟩ | ⟨ip, off, rfl, rfl⟩⟩ := h3
      · exact wp_putEnd hdp
      · refine wp_ilock fun t' l4 hn h4 _ _ hslot => ?_
        have hne : ip ≠ dp := by
          rintro rfl
          exact hdp hn
        have hip := h4.locked
        have hdp4 := h4.other hne.symm hdp
        refine wp_op hip fun st l5 h5 => ?_
        obtain ⟨hst, rfl⟩ := h5
        show wp logic (if st.nlink < 1 then _ else _) _ _
        split
        · exact wp_panic nofun
        · show wp logic (if st.type = T_DIR then _ else _) _ _
          split
          · next hdir =>
            refine wp_op (hst.trans (by rw [hdir])) fun e l6 h6 => ?_
            subst h6
            cases e with
            | true => exact wp_unlinkEntry hdp4 hip hne hslot
            | false =>
              refine wp_call (wp_iunlockput hip) fun _ l7 h7 => ?_
              have hdp7 := h7.other hne.symm hdp4
              exact wp_putEnd hdp7
          · exact wp_unlinkEntry hdp4 hip hne hslot

/-- What `create` returns is locked, and is no directory if a file was asked for. -/
def Created (type : Nat) (r : Option Nat) (l : Know) : Prop :=
  ∀ ip, r = some ip → ∃ t, l.typ ip = some t ∧ (type = T_FILE → t ≠ T_DIR)

theorem Created.none : Created type none l := nofun

theorem wp_createFail (hdp : l.typ dp ≠ none) (hip : l.typ ip ≠ none) (hne : dp ≠ ip) :
    wp logic (createFail dp ip) (Created type) l := by
  refine wp_op hip fun _ l1 h1 => ?_
  subst h1
  refine wp_call (wp_iunlockput hip) fun _ l2 h2 => ?_
  have hdp2 := h2.other hne hdp
  exact wp_call (wp_iunlockput hdp2) fun _ _ _ => Created.none

theorem wp_createLink (hdp : l.typ dp ≠ none) (hip : l.typ ip = some type)
    (hne : dp ≠ ip) : wp logic (createLink dp name ip type) (Created type) l := by
  refine wp_call (wp_dirlink hdp) fun ok l1 h1 => ?_
  have hdp1 := h1.held hdp
  have hip1 : l1.typ ip = some type := by
    rw [h1.1]
    exact hip
  have hrest : ∀ l2 : Know, l2.typ = l1.typ →
      wp logic (do iunlockput dp; pure (some ip)) (Created type) l2 := by
    intro l2 h2
    refine wp_call (wp_iunlockput (by rw [h2]; exact hdp1)) fun _ l3 h3 => ?_
    intro ip' he
    cases he
    refine ⟨type, ?_, fun h => by rw [h]; decide⟩
    rw [h3.1, update_of_ne hne.symm, h2]
    exact hip1
  cases ok with
  | false => exact wp_createFail hdp1 (by rw [hip1]; nofun) hne
  | true =>
    show wp logic (if type = T_DIR then _ else _) _ _
    split
    · refine wp_op hdp1 fun sd l2 h2 => ?_
      obtain ⟨_, rfl⟩ := h2
      refine wp_op hdp1 fun _ l3 h3 => ?_
      subst h3
      exact hrest _ rfl
    · exact hrest _ rfl

theorem wp_createNew (hdp : l.typ dp ≠ none)
    (hlast : l.last = some (ip, type)) : wp logic (createNew dp name ip type major minor) (Created type) l := by
  refine wp_ilock fun t l1 hn h1 _ ht _ => ?_
  have hne : dp ≠ ip := by
    rintro rfl
    exact hdp hn
  have hip1 : l1.typ ip = some type := by
    rw [h1.1, update_self, ht type hlast]
  have hdp1 := h1.other hne hdp
  have hsome : l1.typ ip ≠ none := by
    rw [hip1]
    nofun
  refine wp_op hsome fun _ l2 h2 => ?_
  subst h2
  show wp logic (if type = T_DIR then _ else _) _ _
  split
  · refine wp_call (wp_dirlink hsome) fun ok l3 h3 => ?_
    have hip3 := h3.held hsome
    have hdp3 := h3.held hdp1
    cases ok with
    | false => exact wp_createFail hdp3 hip3 hne
    | true =>
      refine wp_call (wp_dirlink hip3) fun ok l4 h4 => ?_
      have hdp4 := h4.held hdp3
      cases ok with
      | false => exact wp_createFail hdp4 (h4.held hip3) hne
      | true => exact wp_createLink hdp4 (by rw [h4.1, h3.1]; exact hip1) hne
  · exact wp_createLink hdp1 hip1 hne

theorem wp_create {path : Path} (hty : type < 2 ^ 16) : wp logic (create path type major minor) (Created type) l := by
  refine wp_option wp_namex (fun _ _ => Created.none) fun x l1 _ => ?_
  obtain ⟨dp, name⟩ := x
  refine wp_ilock fun t l2 _ h2 _ _ _ => ?_
  have hdp := h2.locked
  refine wp_op hdp fun r l3 h3 => ?_
  obtain ⟨_, ⟨rfl, rfl⟩ | ⟨ip, off, rfl, rfl⟩⟩ := h3
  · refine wp_bind (wp_op hty fun r l4 h4 => ?_)
    rcases h4 with ⟨rfl, rfl⟩ | ⟨ip, rfl, rfl⟩
    · exact wp_call (wp_iunlockput hdp) fun _ _ _ => Created.none
    · refine wp_op trivial fun _ l5 h5 => ?_
      obtain ⟨rfl, rfl⟩ := h5
      exact wp_createNew hdp rfl
  · refine wp_call (wp_iunlockput hdp) fun _ l4 _ => ?_
    refine wp_ilock fun t' l5 _ h5 _ _ _ => ?_
    have hip := h5.locked
    refine wp_op hip fun st l6 h6 => ?_
    obtain ⟨hst, rfl⟩ := h6
    split
    · next hfile =>
      intro ip' he
      cases he
      refine ⟨st.type, hst, fun _ hd => ?_⟩
      rcases hfile.2 with h | h <;> rw [h] at hd <;> exact absurd hd (by decide)
    · exact wp_call (wp_iunlockput hip) fun _ _ _ => Created.none

theorem wp_openInode {path : Path} : wp logic (openInode path omode)
    (fun r l' => ∀ ip, r = some ip → ∃ t, l'.typ ip = some t ∧ (t = T_DIR → omode = O_RDONLY)) l := by
  unfold openInode
  split
  · refine wp_mono (fun r l' h ip he => ?_) _ _ (wp_create (by decide))
    obtain ⟨t, ht, hd⟩ := h ip he
    exact ⟨t, ht, fun hc => absurd hc (hd rfl)⟩
  · refine wp_option wp_namei (fun _ _ => nofun) fun ip l1 _ => ?_
    refine wp_ilock fun t l2 _ h2 _ _ _ => ?_
    have hip := h2.locked
    refine wp_op hip fun st l3 h3 => ?_
    obtain ⟨hst, rfl⟩ := h3
    split
    · exact wp_call (wp_iunlockput hip) fun _ _ _ => nofun
    · next hd =>
      intro ip' he
      cases he
      exact ⟨st.type, hst, fun ht => Decidable.byContradiction fun hm => hd ⟨ht, hm⟩⟩

theorem wp_openFile (hip : l.typ ip = some t) (hd : t = T_DIR → omode = O_RDONLY) :
    wp logic (openFile ip omode) (fun _ _ => True) l := by
  have hne : l.typ ip ≠ none := by
    rw [hip]
    nofun
  refine wp_op hne fun st l1 h1 => ?_
  obtain ⟨_, rfl⟩ := h1
  split
  · exact wp_putEnd hne
  · refine wp_op trivial fun f l2 h2 => ?_
    subst h2
    cases f with
    | none => exact wp_putEnd hne
    | some f =>
      refine wp_op trivial fun fd l3 h3 => ?_
      subst h3
      cases fd with
      | none =>
        refine wp_call wp_fileclose fun _ l4 h4 => ?_
        exact wp_putEnd (h4.held hne)
      | some fd =>
        refine wp_op ?_ fun _ l4 h4 => ?_
        · -- a directory is open read-only
          intro _ hw
          refine ⟨t, hip, fun ht => ?_⟩
          rw [hd ht] at hw
          simp [O_RDONLY] at hw
        · subst h4
          have hend : ∀ l5 : Know, l5.typ ip ≠ none →
              wp logic (do ino (.iunlock ip); endWith (fd : Int)) (fun _ _ => True) l5 :=
            fun l5 h5 => wp_op h5 fun _ _ _ => wp_endWith trivial
          show wp logic (if omode &&& O_TRUNC ≠ 0 ∧ st.type = T_FILE then _ else _) _ _
          split
          · refine wp_op hne fun _ l5 h5 => ?_
            subst h5
            exact hend _ hne
          · exact hend _ hne

theorem wp_sysOpen : wp logic (sysOpen path omode) (fun _ _ => True) l := by
  cases path with
  | none => trivial
  | some path =>
    refine wp_beginOp (wp_option wp_openInode (fun _ _ => wp_endWith trivial) fun ip l1 h1 => ?_)
    obtain ⟨t, ht, hd⟩ := h1 ip rfl
    exact wp_openFile ht hd

theorem wp_sysCreate (hty : type < 2 ^ 16) : wp logic (sysCreate path type major minor) (fun _ _ => True) l := by
  refine wp_beginOp ?_
  cases path with
  | none => exact wp_endWith trivial
  | some path =>
    refine wp_option (wp_create hty) (fun _ _ => wp_endWith trivial) fun ip l1 h1 => ?_
    obtain ⟨t, ht, _⟩ := h1 ip rfl
    exact wp_putEnd (by rw [ht]; nofun)

theorem wp_sysChdir : wp logic (sysChdir path) (fun _ _ => True) l := by
  refine wp_beginOp ?_
  cases path with
  | none => exact wp_endWith trivial
  | some path =>
    refine wp_option wp_namei (fun _ _ => wp_endWith trivial) fun ip l1 _ => ?_
    refine wp_ilock fun t l2 _ h2 _ _ _ => ?_
    have hip := h2.locked
    refine wp_op hip fun st l3 h3 => ?_
    obtain ⟨_, rfl⟩ := h3
    split
    · exact wp_putEnd hip
    · refine wp_op hip fun _ l4 _ => ?_
      refine wp_op trivial fun cwd l5 _ => ?_
      exact wp_call wp_iput fun _ l6 _ => wp_endOp (wp_op trivial fun _ _ _ => trivial)

theorem wp_readAll (reads : List (Nat × Nat)) : ∀ (l : Know), l.typ ip ≠ none →
    wp logic (readAll ip reads) (fun _ l' => After l l.typ l') l := by
  induction reads with
  | nil => exact fun l _ => After.refl l
  | cons x reads ih =>
    intro l h
    refine wp_op ⟨h, Nat.mod_lt _ (by decide)⟩ fun _ l1 h1 => ?_
    subst h1
    exact ih l.change h

theorem wp_sysExec {reads : List (Nat × Nat)} : wp logic (sysExec path reads) (fun _ _ => True) l := by
  cases path with
  | none => trivial
  | some path =>
    refine wp_beginOp (wp_option wp_namei (fun _ _ => wp_endWith trivial) fun ip l1 _ => ?_)
    refine wp_ilock fun t l2 _ h2 _ _ _ => ?_
    have hip := h2.locked
    refine wp_call (wp_readAll reads l2 hip) fun _ l3 h3 => ?_
    exact wp_putEnd (h3.held hip)

/-! ## `kernel/pipe.c` -/

theorem wp_pipealloc : wp logic pipealloc (fun _ _ => True) l := by
  refine wp_found trivial (fun _ => trivial) fun f0 l1 => ?_
  refine wp_found trivial (fun _ => wp_call wp_fileclose fun _ _ _ => trivial) fun f1 l2 => ?_
  exact wp_found trivial (fun _ => wp_call wp_fileclose fun _ _ _ => wp_call wp_fileclose fun _ _ _ =>
    trivial) fun pi _ =>
    wp_op trivial fun _ _ _ => wp_op trivial fun _ _ _ => trivial

theorem wp_sysPipe : wp logic (sysPipe ok) (fun _ _ => True) l := by
  -- the end of every failure
  have hbad : ∀ (rf wf : Nat) (l : Know), wp logic (do fileclose rf; fileclose wf; pure (-1 : Int))
    (fun _ _ => True) l :=
    fun _ _ _ => wp_call wp_fileclose fun _ _ _ => wp_call wp_fileclose fun _ _ _ => trivial
  refine wp_option wp_pipealloc (fun _ _ => trivial) fun x l1 _ => ?_
  refine wp_found trivial (hbad x.1 x.2) fun fd0 l2 => ?_
  refine wp_found trivial (fun _ => wp_op trivial fun _ l4 _ => hbad x.1 x.2 l4) fun fd1 l3 => ?_
  cases ok with
  | true => trivial
  | false => exact wp_op trivial fun _ l4 _ => wp_op trivial fun _ l5 _ => hbad x.1 x.2 l5

/-! ## `kernel/proc.c` -/

theorem wp_forkFiles {np : Nat} (fds : List Nat) : ∀ l : Know, wp logic (forkFiles np fds) (fun _ _ => True) l := by
  induction fds with
  | nil => exact fun _ => trivial
  | cons fd fds ih =>
    intro l
    exact wp_found trivial ih fun f _ => wp_op trivial fun _ l2 _ => wp_op trivial fun _ l3 _ => ih l3

theorem wp_sysFork : wp logic (sysFork ok) (fun _ _ => True) l := by
  refine wp_found trivial (fun _ => trivial) fun np l1 => ?_
  cases ok with
  | true =>
    refine wp_call (wp_forkFiles _ l1) fun _ l2 _ => ?_
    refine wp_op trivial fun cwd l3 _ => wp_op trivial fun h l4 _ => ?_
    exact wp_op trivial fun _ l5 _ => wp_op trivial fun _ _ _ => trivial
  | false => exact wp_op trivial fun _ _ _ => trivial

theorem wp_exitFiles (fds : List Nat) : ∀ l : Know, wp logic (exitFiles fds) (fun _ _ => True) l := by
  induction fds with
  | nil => exact fun _ => trivial
  | cons fd fds ih =>
    intro l
    exact wp_found trivial ih fun f _ =>
      wp_call wp_fileclose fun _ l2 _ => wp_op trivial fun _ l3 _ => ih l3

theorem wp_sysExit : wp logic sysExit (fun _ _ => True) l := by
  refine wp_op trivial fun _ l1 _ => ?_
  refine wp_call (wp_exitFiles _ l1) fun _ l2 _ => wp_beginOp ?_
  refine wp_op trivial fun cwd l3 _ => ?_
  exact wp_call wp_iput fun _ _ _ => wp_endOp (wp_op trivial fun _ _ _ => wp_op trivial fun _ _ _ => trivial)

theorem wp_code (c : Sys.Call) : wp logic c.code (fun _ _ => True) l := by
  cases c with
  | dup fd =>
    refine wp_found trivial (fun _ => trivial) fun f l1 => ?_
    exact wp_found trivial (fun _ => trivial) fun fd _ => wp_op trivial fun _ _ _ => trivial
  | read fd n fail dev =>
    exact wp_found trivial (fun _ => trivial) fun f _ => wp_fileread
  | write fd src n fail dev =>
    exact wp_found trivial (fun _ => trivial) fun f _ => wp_filewrite
  | close fd =>
    exact wp_found trivial (fun _ => trivial) fun f _ =>
      wp_op trivial fun _ l2 _ => wp_call wp_fileclose fun _ _ _ => trivial
  | fstat fd ok =>
    exact wp_found trivial (fun _ => trivial) fun f _ => wp_filestat
  | link old new => exact wp_sysLink
  | unlink path => exact wp_sysUnlink
  | openFile path omode => exact wp_sysOpen
  | mkdir path => exact wp_sysCreate (by decide)
  | mknod path major minor => exact wp_sysCreate (by decide)
  | chdir path => exact wp_sysChdir
  | exec path reads => exact wp_sysExec
  | pipe ok => exact wp_sysPipe
  | fork ok => exact wp_sysFork
  | exit => exact wp_sysExit
  | wait =>
    refine wp_op trivial fun q l1 _ => ?_
    cases q <;> trivial

end

end Xv6.Fs.BlockSys
