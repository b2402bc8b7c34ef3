import Mathlib.Data.Finset.Option
import Mathlib.Data.Finset.Union
import Xv6.Fs.References

/-!
# When the inode table is full

`iget` panics when the inode has no entry and every entry is in use.  An entry is in
use when an open file or a current directory refers to it or a call in progress
holds it (`Inv`), and a call holds at most three.  So `iget` finds an entry as long
as the inodes that are open or current directories, and three for each call in
progress, are no more than `NINODE` (`iget_finds`).

No other table keeps to this.  `NFILE` files may be open and `NPROC` processes may
each have a directory of its own, and 50 processes in 50 directories are enough for
the next lookup to panic (`iget_no_inodes`).
-/

namespace Xv6.Fs.Exhaust

open Sys Threads Refs
/-! ## Runs -/

section
variable {l l' : Know}

theorem few_idle : Know.idle.Few 3 := ⟨0, Nat.zero_le _, fun _ => Int.natCast_nonneg _⟩

theorem few_inherit {r : Option File} (hf : l.Few 2) : (l.inherit r).Few 3 := by
  cases r with
  | none => exact hf.succ
  | some ff =>
    unfold Know.inherit
    dsimp only
    split
    · exact hf.succ
    · split
      · exact hf.gain ff.ip
      · exact hf.succ

/-- No operation leaves more than three inodes in the hands of a call. -/
theorem few_post {β : Type} {o : Op β} {b : β} (hpre : Refs.logic.pre o l) (hf : l.Few 3)
    (hp : Refs.logic.post o l b l') : l'.Few 3 := by
  have hsame : ∀ {l1 : Know}, l' = l1 → l1.ino = l.ino → l'.Few 3 := by
    rintro l1 rfl he
    unfold Know.Few
    rwa [he]
  obtain ⟨-, hpre⟩ := hpre
  cases o with
  | log o => exact hsame hp rfl
  | panic m => exact hp.elim
  | ino o =>
    cases o with
    | root | ialloced x =>
      rw [show l' = _ from hp]
      exact Know.Few.gain hpre b
    | idup x =>
      obtain ⟨rfl, rfl⟩ := hp
      exact hpre.2.gain _
    | iput i =>
      cases b with
      | false =>
        rw [show l' = _ from hp]
        exact hf.lose i
      | true => exact hsame hp rfl
    | iputLast i =>
      rw [show l' = _ from hp]
      exact hf.lose i
    | dirlookup i name =>
      cases b with
      | none => exact hsame hp rfl
      | some r =>
        rw [show l' = _ from hp]
        exact Know.Few.gain hpre r.1
    | _ => exact hsame hp rfl
  | tab o =>
    cases o with
    | setCwd i =>
      obtain ⟨old, -, rfl⟩ := hp
      exact (hpre.2.gain old).lose i
    | clearCwd =>
      obtain ⟨old, -, rfl⟩ := hp
      exact hpre.2.gain old
    | closeRef f =>
      rw [show l' = _ from hp]
      exact few_inherit hpre.2
    | setFile f type r w ip off major =>
      rw [show l' = _ from hp]
      exact hf.lose ip
    | copyCwd np i =>
      rw [show l' = _ from hp]
      exact hf.lose i
    | argfd fd =>
      simp only [Refs.logic, tabPost] at hp
      split at hp
      · exact hsame hp.2 rfl
      · exact hsame hp rfl
    | clearFd fd =>
      obtain ⟨f, -, rfl⟩ := hp
      exact hsame rfl rfl
    | fdalloc f =>
      cases b with
      | none => exact hsame hp rfl
      | some fd => exact hsame hp.2.2 rfl
    | filealloc =>
      cases b with
      | none => exact hsame hp rfl
      | some f => exact hsame hp.2 rfl
    | newPipe | allocproc =>
      cases b <;> exact hsame hp rfl
    | zombie =>
      rw [show l' = Know.idle from hp]
      exact few_idle
    | _ => exact hsame hp rfl

end

/-- The accounts are right, and no call holds more than three inodes. -/
def Held (s : Slots.St) (Λ : Nat → Know) : Prop := Inv s Λ ∧ ∀ p, (Λ p).Few 3

section
variable {sb : Super} {s s' : Slots.St} {Λ : Nat → Know} {p i : Nat} {β : Type}

theorem Held.update (hI : Held s Λ) {l : Know} (h1 : Inv s' (Function.update Λ p l)) (hf : l.Few 3) :
    Held s' (Function.update Λ p l) :=
  ⟨h1, (Function.forall_update_iff Λ fun _ l => l.Few 3).mpr ⟨hf, fun q _ => hI.2 q⟩⟩

theorem sound : Sound (Slots.sys sb) Refs.logic (fun _ _ _ => True) Held (fun _ => True) Know.Settled Know.idle
    Know.start where
  exec o p c s Λ hI hpre _ := by
    refine (exec_keeps hI.1 hpre).mono ?_ fun _ _ => trivial
    rintro b s' ⟨l', hpost, hinv⟩
    exact ⟨l', hpost, hI.update hinv (few_post hpre (hI.2 p) hpost)⟩
  enter s Λ p hI hr hl := hI.update (Refs.sound.enter s Λ p hI.1 hr hl) few_idle
  code := Refs.sound.code
  leave s Λ p hI hf := hI.update (hI.1.leave hf) few_idle

/-! ## Entries in use -/

/-- The entries of the inodes that are open or current directories. -/
def referenced (t : Tables) : Finset Nat :=
  ((Finset.range NFILE).filter fun f => 0 < (t.file f).ref ∧ ((t.file f).type = .inode ∨
  (t.file f).type = .device)).image
    (fun f => (t.file f).ip) ∪
  (Finset.range NPROC).biUnion fun p => (t.proc p).cwd.toFinset

def calls (st : Threads.St Op Slots.St Int) : Finset Nat := (Finset.range NPROC).filter fun p => (st.prog p).isSome

variable {m : Nat → Multiset Nat}

theorem mem_of_ref (hI : Inv s Λ) (hm : ∀ p i, (Λ p).ino i ≤ (m p).count i) (hi : (s.slot i).ref ≠ 0) :
    i ∈ referenced s.tab ∪ (Finset.range NPROC).biUnion fun p => (m p).toFinset := by
  obtain ⟨x, hx, hne⟩ := hI.inodes.holder hi
  cases x with
  | inr f =>
    have hf : f ∈ Finset.range NFILE := Finset.inr_mem_disjSum.mp hx
    simp only [inoShare, inoCount] at hne
    split at hne
    · next hc =>
      refine Finset.mem_union_left _ (Finset.mem_union_left _ (Finset.mem_image.mpr ⟨f, ?_, hc.2.2⟩))
      exact Finset.mem_filter.mpr ⟨hf, hc.1, hc.2.1⟩
    · exact absurd rfl hne
  | inl p =>
    have hp : p ∈ Finset.range NPROC := Finset.inl_mem_disjSum.mp hx
    by_cases hcwd : (s.tab.proc p).cwd = some i
    · refine Finset.mem_union_left _ (Finset.mem_union_right _ (Finset.mem_biUnion.mpr ⟨p, hp, ?_⟩))
      exact Option.mem_toFinset.mpr hcwd
    · refine Finset.mem_union_right _ (Finset.mem_biUnion.mpr ⟨p, hp, ?_⟩)
      have hpos := hI.inodes.nonneg (.inl p) i
      simp only [inoShare, cwdCount, if_neg hcwd] at hne hpos
      have hcov := hm p i
      rw [Multiset.mem_toFinset, ← Multiset.count_pos]
      omega

theorem card_of_full (hI : Inv s Λ) (hm : ∀ p i, (Λ p).ino i ≤ (m p).count i)
    (hfull : ∀ i, i < NINODE → (s.slot i).ref ≠ 0) :
    NINODE ≤ (referenced s.tab).card + ∑ p ∈ Finset.range NPROC, (m p).card := by
  have hsub : Finset.range NINODE ⊆ referenced s.tab ∪ (Finset.range NPROC).biUnion fun p => (m p).toFinset :=
    fun i hi => mem_of_ref hI hm (hfull i (Finset.mem_range.mp hi))
  calc NINODE = (Finset.range NINODE).card := (Finset.card_range _).symm
    _ ≤ _ := Finset.card_le_card hsub
    _ ≤ _ := Finset.card_union_le _ _
    _ ≤ _ := Nat.add_le_add_left (Finset.card_biUnion_le.trans (Finset.sum_le_sum fun p _ =>
      Multiset.toFinset_card_le _)) _

/-! ## The bound -/

/-- The inodes that are open or current directories, and three for each system call
in progress, fit into the table. -/
def Spare (st : Threads.St Op Slots.St Int) : Prop := (referenced st.shared.tab).card + 3 * (calls st).card ≤ NINODE

instance (st : Threads.St Op Slots.St Int) : Decidable (Spare st) := by
  unfold Spare
  infer_instance

variable {st st' : Threads.St Op Slots.St Int}

theorem Spare.step {a : Act Sys.Call Nat}
    (hg : Good Refs.logic Held (fun _ => True) Know.Settled Know.idle st) (hsp : Spare st)
    (hs : Threads.step (Slots.sys sb) st a = some st') (hh : st'.halted = true) :
    st'.shared.panic ≠ some .igetNoInodes := by
  intro hm
  obtain ⟨p, c, β, o, k, -, hp, he, hrun, -⟩ := halt_of_step hs hh
  obtain ⟨Λ, hI, hw⟩ := hg.1 hrun
  have hwp := hw p
  rw [hp] at hwp
  have hhalt : (Slots.exec sb o p c st.shared).Sat _ _ := exec_keeps hI.1 hwp.1
  rw [show Slots.exec sb o p c st.shared = _ from he] at hhalt
  obtain ⟨h2, hfull⟩ := hhalt.full hm
  -- what every process has in its hands: the one that panics at most two, an idle one nothing
  have hfew : ∀ q, ∃ m : Multiset Nat, (m.card ≤ 3 ∧ (m.card ≠ 0 → (st.prog q).isSome = true) ∧ (q = p → m.card ≤ 2)) ∧
      ∀ i, (Λ q).ino i ≤ m.count i := by
    intro q
    by_cases hq : q = p
    · obtain ⟨m, hm, hc⟩ := h2
      subst hq
      exact ⟨m, ⟨Nat.le_succ_of_le hm, fun _ => by rw [hp]; rfl, fun _ => hm⟩, hc⟩
    · cases hpq : st.prog q with
      | some k =>
        obtain ⟨m, hm, hc⟩ := hI.2 q
        exact ⟨m, ⟨hm, fun _ => rfl, fun h => absurd h hq⟩, hc⟩
      | none =>
        have hidle := hw q
        rw [hpq] at hidle
        rw [show Λ q = Know.idle from hidle]
        exact ⟨0, ⟨Nat.zero_le _, fun h => absurd rfl h, fun _ => Nat.zero_le _⟩, fun _ => Int.natCast_nonneg _⟩
  choose m hcard hcov using hfew
  have hcalls : ∀ q ∈ Finset.range NPROC, (m q).card ≠ 0 → (st.prog q).isSome = true := fun q _ => (hcard q).2.1
  have hmem : p ∈ calls st := Finset.mem_filter.mpr ⟨Finset.mem_range.mpr (hI.1.lt hwp.1.1), by rw [hp]; rfl⟩
  have hlt : ∑ q ∈ calls st, (m q).card < ∑ q ∈ calls st, 3 :=
    Finset.sum_lt_sum (fun q _ => (hcard q).1) ⟨p, hmem, Nat.lt_succ_of_le ((hcard p).2.2 rfl)⟩
  have hn := card_of_full hhalt.inv hcov hfull
  rw [hhalt.tab] at hn
  rw [← Finset.sum_filter_of_ne hcalls] at hn
  rw [Finset.sum_const, Nat.nsmul_eq_mul] at hlt
  unfold Spare at hsp
  unfold calls at *
  omega

/-- As long as the table has room for the inodes that are open or current
directories and three for each call in progress, `iget` finds an entry. -/
theorem iget_finds (hr : Run.Reach (Threads.step (Slots.sys sb)) (fun st _ => Spare st) Slots.Initial st) :
    st.halted = true → st.shared.panic ≠ some .igetNoInodes := by
  refine (hr.invariant (fun st => Good Refs.logic Held (fun _ => True) Know.Settled Know.idle st ∧
    (st.halted = true → st.shared.panic ≠ some .igetNoInodes)) (fun st hs => ?_)
    fun st a st' hI hsp hs => ⟨?_, hsp.step hI.1 hs⟩).2
  · have hrun := hs.running.1
    refine ⟨⟨fun _ => ⟨fun _ => Know.idle, ⟨initial_inv hs, fun _ => few_idle⟩, fun p => ?_⟩, fun _ => trivial⟩,
      fun hc => absurd (hrun.symm.trans hc) Bool.false_ne_true⟩
    rw [hs.idle p]
  · exact sound.keeps hI.1 (stepOk_of_all (fun _ _ _ => trivial) st a) hs

/-! ## A tree of directories that is deep enough -/

/-- A file system with 63 inodes. -/
def deep : Super :=
  { size := 200, ninodes := 63, inodestart := 2, bmapstart := 6, nmeta := 7
    inodes_le := by decide
    bmap_le := by decide
    nmeta_pos := by decide
    size_lt := by decide
    ninodes_lt := by decide }

/-- Inodes 1 to 60 are directories, and the data of inode `i` is block `6 + i`: the
entries `.` and `..`, and `a` for inode `i + 1`, but none in the last. -/
def deepDisk : Disk := fun b x =>
  if b = 6 then if x < 8 then 255 else if x = 8 then 7 else 0
  else if 2 ≤ b ∧ b < 6 then
    let i := (b - 2) * IPB + x / 64
    if 0 < i ∧ i ≤ 60 then
      if x % 64 = 0 then 1
      else if x % 64 = 6 then if i < 60 then 2 else 1
      else if x % 64 = 8 then if i < 60 then 48 else 32
      else if x % 64 = 12 then UInt8.ofNat (6 + i)
      else 0
    else 0
  else if 7 ≤ b ∧ b ≤ 66 then
    if x = 0 then UInt8.ofNat (b - 6)
    else if x = 2 then 46
    else if x = 16 then UInt8.ofNat (max 1 (b - 7))
    else if x = 18 ∨ x = 19 then 46
    else if x = 32 ∧ b < 66 then UInt8.ofNat (b - 5)
    else if x = 34 ∧ b < 66 then 97
    else 0
  else 0

def deepBoot : Threads.St Op Slots.St Int := { booted with shared := { booted.shared with disk := deepDisk } }

theorem deepBoot_initial : Slots.Initial deepBoot := { booted_initial with }

/-- `open("a", O_RDONLY)` in the root directory. -/
theorem iget_finds_open : ∃ st, Run.Reach (Threads.step (Slots.sys deep)) (fun st _ => Spare st) Slots.Initial st ∧
    (st.shared.slot 1).ref = 1 ∧ (st.shared.slot 1).inum = 2 ∧
    (st.halted = true → st.shared.panic ≠ some .igetNoInodes) := by
  have hrun : ((Run.runOk (Threads.step (Slots.sys deep)) (fun st _ => Spare st) deepBoot
      (initCall (.openFile (some [97]) O_RDONLY) 16)).map fun s => ((s.shared.slot 1).ref, (s.shared.slot 1).inum)) =
        some (1, 2) := by decide +kernel
  obtain ⟨st, hs, hv⟩ := Option.map_eq_some_iff.mp hrun
  have hr := Run.Reach.of_runOk _ (.start deepBoot_initial) hs
  exact ⟨st, hr, congrArg Prod.fst hv, congrArg Prod.snd hv, iget_finds hr⟩

/-- Process `p` forks, and its child `p + 1` goes on to the next directory. -/
def descend (p : Nat) : List (Act Sys.Call Nat) :=
  .start p (.fork true) :: List.replicate 22 (.step p 0) ++
    .start (p + 1) (.chdir (some [97])) :: List.replicate 16 (.step (p + 1) 0)

/-- With 50 processes in 50 directories, the next `chdir` panics. -/
theorem iget_no_inodes : ∃ st, Slots.Reachable deep st ∧ st.halted = true ∧ st.shared.panic = some .igetNoInodes := by
  have hrun : ((Run.run (Threads.step (Slots.sys deep)) deepBoot
      ((List.range 49).flatMap descend ++ (descend 49).take 30)).map fun s => (s.halted, s.shared.panic)) =
        some (true, some .igetNoInodes) := by decide +kernel
  obtain ⟨st, hs, hv⟩ := Option.map_eq_some_iff.mp hrun
  exact ⟨st, Run.Reach.of_run (fun _ _ => trivial) _ (.start deepBoot_initial) hs, congrArg Prod.fst hv,
    congrArg Prod.snd hv⟩

end

end Xv6.Fs.Exhaust
