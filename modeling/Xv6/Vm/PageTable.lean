import Xv6.Lib.Radix
import Xv6.Vm.Memory

/-!
# Page tables

`walk`, `walkaddr`, `mappages`, `uvmunmap`, `uvmcreate` and `freewalk` of
`kernel/vm.c`.  A pointer to an entry is its table and index.

A page table is a radix tree of three levels (`Tree`): `leaf v` is the entry of
the virtual page `v`, and `nodes` are the pages of the table.  Each function has
one theorem that says what it does to the tree and to the pages it owns.
-/

namespace Xv6.Vm

open Total Function

/-! ## `kernel/vm.c` -/

def walkLoop (va : Nat) (alloc : Bool) : Nat → Nat → Kernel (Option (Nat × Nat))
  | 0, pagetable => pure (some (pagetable, PX 0 va))
  | level + 1, pagetable => do
      let pte ← getPte pagetable (PX (level + 1) va)
      if pte &&& PTE_V ≠ 0 then walkLoop va alloc level (PTE2PA pte)
      else if alloc then
        match ← kalloc with
        | none => pure none
        | some page => do
            memset page 0
            setPte pagetable (PX (level + 1) va) (PA2PTE page ||| PTE_V)
            walkLoop va alloc level page
      else pure none

def walk (pagetable va : Nat) (alloc : Bool) : Kernel (Option (Nat × Nat)) :=
  if va ≥ MAXVA then panic .walk else walkLoop va alloc 2 pagetable

def walkaddr (pagetable va : Nat) : Kernel Nat :=
  if va ≥ MAXVA then pure 0
  else do
    match ← walk pagetable va false with
    | none => pure 0
    | some (t, i) => do
        let pte ← getPte t i
        if pte &&& PTE_V = 0 then pure 0
        else if pte &&& PTE_U = 0 then pure 0
        else pure (PTE2PA pte)

def mapLoop (pagetable last perm : Nat) : Nat → Nat → Nat → Kernel Int
  | 0, _, _ => panic .fuel
  | fuel + 1, a, pa => do
      match ← walk pagetable a true with
      | none => pure (-1)
      | some (t, i) => do
          let pte ← getPte t i
          if pte &&& PTE_V ≠ 0 then panic .mappagesRemap
          else do
            setPte t i (PA2PTE pa ||| perm ||| PTE_V)
            if a = last then pure 0
            else mapLoop pagetable last perm fuel ((a + PGSIZE) % 2 ^ 64) ((pa + PGSIZE) % 2 ^ 64)

def mappages (pagetable va size pa perm : Nat) : Kernel Int :=
  if size = 0 then panic .mappagesSize
  else mapLoop pagetable (PGROUNDDOWN ((va + size - 1) % 2 ^ 64)) perm (size / PGSIZE + 2) (PGROUNDDOWN va) pa

section
variable [Symbols]

/-- The loop of `uvmunmap`, which runs at most `npages` times. -/
def unmapLoop (pagetable stop : Nat) (do_free : Bool) : Nat → Nat → Kernel Unit
  | 0, _ => pure ()
  | fuel + 1, a =>
    if a < stop then do
      match ← walk pagetable a false with
      | none => panic .uvmunmapWalk
      | some (t, i) => do
          let pte ← getPte t i
          if pte &&& PTE_V = 0 then panic .uvmunmapNotMapped
          else if PTE_FLAGS pte = PTE_V then panic .uvmunmapNotALeaf
          else do
            (if do_free then kfree (PTE2PA pte) else pure ())
            setPte t i 0
            unmapLoop pagetable stop do_free fuel ((a + PGSIZE) % 2 ^ 64)
    else pure ()

def uvmunmap (pagetable va npages : Nat) (do_free : Bool) : Kernel Unit :=
  if va % PGSIZE ≠ 0 then panic .uvmunmapNotAligned
  else unmapLoop pagetable ((va + npages * PGSIZE) % 2 ^ 64) do_free npages va

/-- `freewalk` of a table with at most `fuel` levels. -/
def freewalk : Nat → Nat → Kernel Unit
  | 0, _ => panic .fuel
  | fuel + 1, pagetable => do
      (List.range 512).forM fun i => do
        let pte ← getPte pagetable i
        if pte &&& PTE_V ≠ 0 ∧ pte &&& (PTE_R ||| PTE_W ||| PTE_X) = 0 then do
          freewalk fuel (PTE2PA pte)
          setPte pagetable i 0
        else if pte &&& PTE_V ≠ 0 then panic .freewalkLeaf
        else pure ()
      kfree pagetable

end

def uvmcreate : Kernel (Option Nat) := do
  match ← kalloc with
  | none => pure none
  | some pagetable => do
      memset pagetable 0
      pure (some pagetable)

/-! ## The tree of a page table -/

/-- The page table of `d + 1` levels at `t`. -/
def Tree (m : Mem) (d t : Nat) (leaf : Nat → Nat) (nodes : Multiset Nat) : Prop :=
  Radix.Rep 512 link (word m) d t leaf nodes

variable {m : Mem} {nodes : Multiset Nat} {leaf : Nat → Nat}

variable {lo n t va : Nat} {own : Multiset Nat}

theorem Tree.congr {m' : Mem} {d : Nat} (h : Tree m d t leaf nodes)
    (hp : ∀ a ∈ nodes, m'.page a = m.page a) : Tree m' d t leaf nodes :=
  Radix.Rep.congr h fun a ha k _ => word_congr (hp a ha) k

/-- Table `a` holds the entry of the virtual page `v` as its word `k`. -/
structure Slot (m : Mem) (t : Nat) (leaf : Nat → Nat) (nodes : Multiset Nat) (v a k : Nat) : Prop where
  mem : a ∈ nodes
  word_eq : word m a k = leaf v
  write : ∀ pte < 2 ^ 64, Tree (m.setPte a k pte) 2 t (update leaf v pte) nodes

theorem Frame.of_pages {m' : Mem} (hf : m'.free = m.free)
    (hp : ∀ p, p ∉ own → m'.page p = m.page p) : Frame m m' own own :=
  ⟨by rw [hf], fun p h => hp p fun hc => h (Multiset.mem_add.mpr (.inr hc))⟩

theorem Frame.setPte (h : t ∈ own) (i pte : Nat) : Frame m (m.setPte t i pte) own own :=
  .of_pages rfl fun _ hp => page_setPte_of_ne fun hc => hp (hc ▸ h)

theorem PX_key (d va : Nat) : va / 4096 % 512 ^ (d + 2) / 512 ^ (d + 1) = PX (d + 1) va ∧
    va / 4096 % 512 ^ (d + 2) % 512 ^ (d + 1) = va / 4096 % 512 ^ (d + 1) ∧
    PX (d + 1) va * 512 ^ (d + 1) + va / 4096 % 512 ^ (d + 1) = va / 4096 % 512 ^ (d + 2) := by
  have h1 : va / 4096 % 512 ^ (d + 2) / 512 ^ (d + 1) = PX (d + 1) va := by
    rw [PX_eq, Nat.pow_succ 512 (d + 1), Nat.mod_mul_right_div_self]
  have h2 : va / 4096 % 512 ^ (d + 2) % 512 ^ (d + 1) = va / 4096 % 512 ^ (d + 1) :=
    Nat.mod_mod_of_dvd _ (Nat.pow_dvd_pow 512 (by omega))
  refine ⟨h1, h2, ?_⟩
  rw [← h1, ← h2]
  exact Nat.div_add_mod' _ _

theorem key_lt (d va : Nat) : va / 4096 % 512 ^ d < 512 ^ d := Nat.mod_lt _ (Nat.pow_pos (by decide))

theorem PX_lt (level va : Nat) : PX level va < 512 := by
  rw [PX_eq]
  exact Nat.mod_lt _ (by decide)

theorem vpn_mod (h : va < MAXVA) : va / 4096 % 512 ^ 3 = va / PGSIZE := by
  rw [MAXVA] at h
  rw [PGSIZE]
  exact Nat.mod_eq_of_lt (by omega)

theorem page_mul_div (v : Nat) : v * PGSIZE / PGSIZE = v := Nat.mul_div_cancel _ (by decide)

theorem valid_link (c : Nat) : link c &&& PTE_V ≠ 0 := link_eq c ▸ mkPte_valid c 0

theorem link_not_leaf (c : Nat) : link c &&& (PTE_R ||| PTE_W ||| PTE_X) = 0 := by
  rw [link_eq, mkPte_and (by decide)]
  rfl

/-- The entry of a mapped page: valid and, as every page the kernel maps, readable. -/
def IsLeaf (pte : Nat) : Prop := pte &&& PTE_V ≠ 0 ∧ pte &&& PTE_R ≠ 0

theorem IsLeaf.not_link {pte : Nat} (h : IsLeaf pte) : PTE_FLAGS pte ≠ PTE_V := by
  intro hc
  apply h.2
  have hand : pte &&& PTE_R = PTE_FLAGS pte &&& PTE_R := by
    rw [PTE_FLAGS, Nat.and_assoc]
    rfl
  rw [hand, hc]
  rfl

theorem isLeaf_mkPte {pa perm : Nat} (h : perm &&& PTE_R ≠ 0) : IsLeaf (mkPte pa perm) := by
  refine ⟨mkPte_valid pa perm, ?_⟩
  rw [mkPte_and (by decide), Nat.and_or_distrib_right]
  intro hc
  exact h (Nat.or_eq_zero_iff.mp hc).1

/-- The physical pages mapped at the virtual pages `lo, …, lo + n - 1`. -/
def frames (leaf : Nat → Nat) (lo n : Nat) : Multiset Nat := (List.range' lo n).map fun v => PTE2PA (leaf v)

theorem frames_succ (leaf : Nat → Nat) (lo n : Nat) :
    frames leaf lo (n + 1) = PTE2PA (leaf lo) ::ₘ frames leaf (lo + 1) n := rfl

theorem frames_congr {leaf' : Nat → Nat} (h : ∀ v, lo ≤ v → v < lo + n → leaf' v = leaf v) :
    frames leaf' lo n = frames leaf lo n := by
  rw [frames, frames]
  refine congrArg _ (List.map_congr_left fun v hv => ?_)
  rw [List.mem_range'_1] at hv
  rw [h v hv.1 hv.2]

/-- The entries after the virtual pages `lo, …, lo + n - 1` are unmapped. -/
def unmapped (leaf : Nat → Nat) (lo n : Nat) : Nat → Nat := fun v => if lo ≤ v ∧ v < lo + n then 0 else leaf v

theorem unmapped_succ (leaf : Nat → Nat) (lo n : Nat) :
    unmapped (update leaf lo 0) (lo + 1) n = unmapped leaf lo (n + 1) := by
  funext v
  unfold unmapped
  by_cases hv : v = lo
  · subst hv
    rw [if_neg (by omega), if_pos (by omega), update_self]
  · rw [update_of_ne hv]
    by_cases hr : lo + 1 ≤ v ∧ v < lo + 1 + n
    · rw [if_pos hr, if_pos (by omega)]
    · rw [if_neg hr, if_neg (by omega)]

variable [Symbols]

/-! ## `walk` -/

theorem walkLoop_find (d : Nat) : ∀ {t : Nat} {leaf : Nat → Nat} {nodes : Multiset Nat},
    Tree m d t leaf nodes → (∀ c ∈ nodes, IsPage c) → Ok (walkLoop va false d t) m fun r m' => m' = m ∧
      ((r = none ∧ leaf (va / 4096 % 512 ^ (d + 1)) = 0) ∨
        ∃ a, r = some (a, PX 0 va) ∧ Radix.Place 512 PTE2PA (word m) d t (va / 4096 % 512 ^ (d + 1)) a (PX 0 va)) := by
  induction d with
  | zero =>
    intro t leaf nodes _ _
    refine Ok.pure ⟨rfl, .inr ⟨t, rfl, rfl, ?_⟩⟩
    rw [PX_eq]
    simp
  | succ d ih =>
    intro t leaf nodes h hpage
    obtain ⟨hidx, hkey, hv⟩ := PX_key d va
    obtain ⟨s, rest, rfl, hentry, -⟩ := Radix.Rep.focus h (PX_lt (d + 1) va)
    rw [← hv]
    apply getPte_bind
    rcases hentry with ⟨h0, -, hz⟩ | ⟨c, hc, hr⟩
    · rw [h0, if_neg (not_not.mpr (Nat.zero_and _))]
      exact Ok.pure ⟨rfl, .inl ⟨rfl, hz _ (key_lt (d + 1) va)⟩⟩
    · have hmem : ∀ x ∈ s, x ∈ t ::ₘ (s + rest) := fun x hx =>
        Multiset.mem_cons_of_mem (Multiset.mem_add.mpr (.inl hx))
      have hchild := PTE2PA_link (hpage c (hmem c hr.root_mem))
      rw [hc, if_pos (valid_link c), hchild]
      refine (ih hr fun x hx => hpage x (hmem x hx)).mono ?_
      rintro r m' ⟨rfl, hres⟩
      refine ⟨rfl, hres.imp_right ?_⟩
      rintro ⟨a, hr, hp⟩
      refine ⟨a, hr, ?_⟩
      rw [hv, Radix.Place, hidx, hkey, hc, hchild]
      exact ⟨link_ne_zero c, hp⟩

theorem fresh_child {i p : Nat} (ht : t ∈ own) (hp : p ∉ own)
    (hpage : IsPage p) : Frame m ((m.memset p 0).setPte t i (link p)) (p ::ₘ own) (p ::ₘ own) ∧
      word ((m.memset p 0).setPte t i (link p)) t i = link p ∧
      (∀ k, word ((m.memset p 0).setPte t i (link p)) p k = 0) ∧
      (∀ k, k ≠ i → word ((m.memset p 0).setPte t i (link p)) t k = word m t k) ∧
      ∀ a, a ≠ t → a ≠ p → ((m.memset p 0).setPte t i (link p)).page a = m.page a := by
  have hpt : p ≠ t := fun hc => hp (hc ▸ ht)
  have hother : ∀ a, a ≠ t → a ≠ p → ((m.memset p 0).setPte t i (link p)).page a = m.page a := fun a ha hap =>
    (page_setPte_of_ne ha).trans (update_of_ne hap _ _)
  refine ⟨.of_pages rfl fun a ha => ?_, ?_, fun k => ?_, fun k hk => ?_, hother⟩
  · exact hother a (fun hc => ha (Multiset.mem_cons_of_mem (hc ▸ ht))) fun hc => ha (hc ▸ Multiset.mem_cons_self _ _)
  · apply word_setPte_self
    rw [link_eq]
    exact mkPte_lt hpage.lt (by decide)
  · rw [word_setPte_of_ne fun hc => hpt hc.1]
    exact word_zero (update_self _ _ _) k
  · rw [word_setPte_of_ne fun hc => hk hc.2]
    exact word_congr (update_of_ne (Ne.symm hpt) _ _) k

theorem walkLoop_alloc (d : Nat) : ∀ {m : Mem} {t : Nat} {leaf : Nat → Nat} {nodes : Multiset Nat},
    Tree m d t leaf nodes → Ram m nodes → Ok (walkLoop va true d t) m fun r m' => ∃ nodes',
      Tree m' d t leaf nodes' ∧ Frame m m' nodes nodes' ∧ (r = none ∨ ∃ a, r = some (a, PX 0 va) ∧
        Radix.Place 512 PTE2PA (word m') d t (va / 4096 % 512 ^ (d + 1)) a (PX 0 va)) := by
  induction d with
  | zero =>
    intro m t leaf nodes h _
    refine Ok.pure ⟨nodes, h, .refl m nodes, .inr ⟨t, rfl, rfl, ?_⟩⟩
    rw [PX_eq]
    simp
  | succ d ih =>
    intro m t leaf nodes h hram
    obtain ⟨hidx, hkey, hv⟩ := PX_key d va
    obtain ⟨s, rest, rfl, hentry, hput⟩ := Radix.Rep.focus h (PX_lt (d + 1) va)
    -- `m1` links the tree of `c`, in which the loop goes on
    have hgo : ∀ {m1 m' : Mem} {c : Nat} {s1 s' : Multiset Nat} {r : Option (Nat × Nat)}, IsPage c →
        Frame m m1 (t ::ₘ (s + rest)) (t ::ₘ (s1 + rest)) → (∀ k, k ≠ PX (d + 1) va → word m1 t k = word m t k) →
        (∀ a ∈ rest, m1.page a = m.page a) → word m1 t (PX (d + 1) va) = link c → Frame m1 m' s1 s' →
        Tree m' d c (fun v => leaf (PX (d + 1) va * 512 ^ (d + 1) + v)) s' →
        (r = none ∨ ∃ a, r = some (a, PX 0 va) ∧
          Radix.Place 512 PTE2PA (word m') d c (va / 4096 % 512 ^ (d + 1)) a (PX 0 va)) →
        ∃ nodes', Tree m' (d + 1) t leaf nodes' ∧ Frame m m' (t ::ₘ (s + rest)) nodes' ∧
          (r = none ∨ ∃ a, r = some (a, PX 0 va) ∧
            Radix.Place 512 PTE2PA (word m') (d + 1) t (va / 4096 % 512 ^ (d + 2)) a (PX 0 va)) := by
      intro m1 m' c s1 s' r hcp hf1 hroot hrest hlink hf hr hres
      have hram1 := hf1.ram hram
      rw [← Multiset.add_cons] at hram1
      have ht' : m'.page t = m1.page t := hf.other hram1 (Multiset.mem_cons_self _ _)
      have hlink' : word m' t (PX (d + 1) va) = link c := (word_congr ht' _).trans hlink
      refine ⟨t ::ₘ (s' + rest), hput ?_ ?_ (fun _ _ => rfl) (.inr ⟨c, hlink', hr⟩), ?_, hres.imp_right ?_⟩
      · exact fun k _ hk => (word_congr ht' k).trans (hroot k hk)
      · intro a ha k _
        refine word_congr ?_ k
        exact (hf.other hram1 (Multiset.mem_cons_of_mem ha)).trans (hrest a ha)
      · refine hf1.trans ?_
        rw [← Multiset.add_cons, ← Multiset.add_cons]
        exact hf.add _
      · rintro ⟨a, hr, hp⟩
        refine ⟨a, hr, ?_⟩
        rw [Radix.Place, hidx, hkey, hlink', PTE2PA_link hcp]
        exact ⟨link_ne_zero c, hp⟩
    apply getPte_bind
    rcases hentry with ⟨h0, rfl, hz⟩ | ⟨c, hc, hr⟩
    · rw [h0, if_neg (not_not.mpr (Nat.zero_and _)), if_pos rfl]
      refine Ok.bind (kalloc_spec m (t ::ₘ (0 + rest))) ?_
      rintro _ m1 (⟨rfl, hpages, hf⟩ | ⟨p, rfl, hpages, hf⟩)
      · exact Ok.pure ⟨_, h.congr fun a _ => by rw [hpages], hf, .inl rfl⟩
      · have hram1 := hf.ram hram
        have hpn := (Multiset.nodup_cons.mp hram1.own_nodup).1
        have hpp := hram1.own_isPage (Multiset.mem_cons_self p _)
        have hpt : t ≠ p := fun hc => hpn (hc ▸ Multiset.mem_cons_self _ _)
        obtain ⟨hf2, hl, hzero, hroot, hpg⟩ := fresh_child (m := m1) (i := PX (d + 1) va)
          (Multiset.mem_cons_self t (0 + rest)) hpn hpp
        apply memset_bind
        apply setPte_bind
        have hown : p ::ₘ t ::ₘ (0 + rest) = t ::ₘ ({p} + rest) := by
          rw [Multiset.cons_swap, zero_add, Multiset.singleton_add]
        have hf3 := hown ▸ hf.trans hf2
        have hram3 := hf3.ram hram
        rw [← Multiset.add_cons] at hram3
        refine (ih (Radix.Rep.empty d fun k _ => hzero k) hram3.left).mono ?_
        rintro r m' ⟨s', hr, hfr, hres⟩
        refine hgo hpp hf3 ?_ ?_ hl hfr (Radix.Rep.leaf_congr hr fun v hv => ?_) hres
        · exact fun k hk => (hroot k hk).trans (word_congr (hpages t hpt) k)
        · intro a ha
          have hat : a ≠ t := fun hc => (Multiset.nodup_cons.mp hram.own_nodup).1
            (hc ▸ Multiset.mem_add.mpr (.inr ha))
          have hap : a ≠ p := fun hc => hpn (Multiset.mem_cons_of_mem (Multiset.mem_add.mpr (.inr (hc ▸ ha))))
          exact (hpg a hat hap).trans (hpages a hap)
        · exact hz v hv
    · have hram' := hram
      rw [← Multiset.add_cons] at hram'
      have hcp := hram'.left.own_isPage hr.root_mem
      rw [hc, if_pos (valid_link c), PTE2PA_link hcp]
      refine (ih hr hram'.left).mono ?_
      rintro r m' ⟨s', hr', hf, hres⟩
      exact hgo hcp (.refl m _) (fun _ _ => rfl) (fun _ _ => rfl) hc hf hr' hres

section
variable {t va : Nat} (h : Tree m 2 t leaf nodes) (hram : Ram m nodes) (hva : va < MAXVA)
include h hram hva

theorem Tree.slot {a : Nat} (hp : Radix.Place 512 PTE2PA (word m) 2 t (va / 4096 % 512 ^ 3) a (PX 0 va)) :
    Slot m t leaf nodes (va / PGSIZE) a (PX 0 va) := by
  have hchild : ∀ c ∈ nodes, PTE2PA (link c) = c := fun c hc => PTE2PA_link (hram.own_isPage hc)
  have hlt := key_lt 3 va
  rw [vpn_mod hva] at hlt hp
  obtain ⟨ha, -, hw⟩ := Radix.Rep.place_word h hchild hlt hp
  refine ⟨ha, hw, fun pte hpte => ?_⟩
  have hset : Tree (m.setPte a (PX 0 va) pte) 2 t (update leaf (va / PGSIZE) _) nodes :=
    Radix.Rep.place_write h hram.own_nodup hchild hlt hp fun a' _ k' _ hne => word_setPte_of_ne hne
  rw [word_setPte_self hpte] at hset
  exact hset

theorem walk_find : Ok (walk t va false) m fun r m' => m' = m ∧
      ((r = none ∧ leaf (va / PGSIZE) = 0) ∨
        ∃ a k, r = some (a, k) ∧ Slot m t leaf nodes (va / PGSIZE) a k) := by
  rw [walk, if_neg (by omega)]
  refine (walkLoop_find 2 h fun c hc => hram.own_isPage hc).mono ?_
  rintro r m' ⟨rfl, hres⟩
  refine ⟨rfl, ?_⟩
  rcases hres with ⟨hr, hz⟩ | ⟨a, hr, hp⟩
  · exact .inl ⟨hr, vpn_mod hva ▸ hz⟩
  · exact .inr ⟨a, _, hr, h.slot hram hva hp⟩

theorem walk_alloc : Ok (walk t va true) m fun r m' => ∃ nodes',
      Tree m' 2 t leaf nodes' ∧ Frame m m' nodes nodes' ∧
        (r = none ∨ ∃ a k, r = some (a, k) ∧ Slot m' t leaf nodes' (va / PGSIZE) a k) := by
  rw [walk, if_neg (by omega)]
  refine (walkLoop_alloc 2 h hram).mono ?_
  rintro r m' ⟨nodes', h', hf, hres⟩
  refine ⟨nodes', h', hf, hres.imp_right ?_⟩
  rintro ⟨a, hr, hp⟩
  exact ⟨a, _, hr, h'.slot (hf.ram hram) hva hp⟩

end

/-- The page a user address is on, 0 if it is not mapped for the user. -/
def userPage (pte : Nat) : Nat := if pte &&& PTE_V = 0 ∨ pte &&& PTE_U = 0 then 0 else PTE2PA pte

theorem walkaddr_spec (h : Tree m 2 t leaf nodes) (hram : Ram m nodes) : walkaddr t va m =
      .ok (if va ≥ MAXVA then 0 else userPage (leaf (va / PGSIZE)), m) := by
  unfold walkaddr
  by_cases hva : va ≥ MAXVA
  · rw [if_pos hva, if_pos hva]
    rfl
  · rw [if_neg hva, if_neg hva]
    obtain ⟨r, m', hrun, rfl, hres⟩ := walk_find h hram (Nat.lt_of_not_le hva)
    refine (bind_eq hrun).trans ?_
    rcases hres with ⟨rfl, hz⟩ | ⟨a, k, rfl, hslot⟩
    · rw [hz]
      rfl
    · have hget : getPte a k m' = .ok (leaf (va / PGSIZE), m') := congrArg (fun w => Except.ok (w, m')) hslot.word_eq
      refine (bind_eq hget).trans ?_
      unfold userPage
      by_cases hv : leaf (va / PGSIZE) &&& PTE_V = 0
      · rw [if_pos hv, if_pos (.inl hv)]
        rfl
      · by_cases hu : leaf (va / PGSIZE) &&& PTE_U = 0
        · rw [if_neg hv, if_pos hu, if_pos (.inr hu)]
          rfl
        · rw [if_neg hv, if_neg hu, if_neg (not_or.mpr ⟨hv, hu⟩)]
          rfl

/-! ## `mappages` and `uvmunmap` -/

theorem mappages_spec {pa perm : Nat}
    (h : Tree m 2 t leaf nodes) (hram : Ram m nodes) (ha : va % PGSIZE = 0) (hva : va < MAXVA) (hpa : pa < 2 ^ 56)
    (hperm : perm < 1024) (hfree : leaf (va / PGSIZE) &&& PTE_V = 0) :
    Ok (mappages t va PGSIZE pa perm) m fun r m' => ∃ nodes', Frame m m' nodes nodes' ∧
      ((r = -1 ∧ Tree m' 2 t leaf nodes') ∨
        (r = 0 ∧ Tree m' 2 t (update leaf (va / PGSIZE) (mkPte pa perm)) nodes')) := by
  have hdown : PGROUNDDOWN va = va := by
    rw [PGROUNDDOWN]
    exact Nat.div_mul_cancel (Nat.dvd_of_mod_eq_zero ha)
  have hlast : PGROUNDDOWN ((va + PGSIZE - 1) % 2 ^ 64) = va := by
    simp only [PGROUNDDOWN, PGSIZE, MAXVA] at ha hva ⊢
    omega
  rw [mappages, if_neg (by decide), hdown, hlast]
  refine Ok.bind (walk_alloc h hram hva) ?_
  rintro r m1 ⟨nodes', h1, hf, rfl | ⟨a, k, rfl, hslot⟩⟩
  · exact Ok.pure ⟨nodes', hf, .inl ⟨rfl, h1⟩⟩
  · apply getPte_bind
    rw [hslot.word_eq, if_neg (not_not.mpr hfree)]
    apply setPte_bind
    rw [if_pos rfl]
    refine Ok.pure ⟨nodes', hf.trans (.setPte hslot.mem _ _), .inr ⟨rfl, ?_⟩⟩
    exact hslot.write _ (mkPte_lt hpa hperm)

/-- One round of the loop of `uvmunmap` from the entry on: the entry of `lo` becomes 0 and its page is free
again if `do_free`. -/
theorem unmap_round {a k : Nat} (do_free : Bool) (hslot : Slot m t leaf nodes lo a k)
    (hram : Ram m (nodes + if do_free then frames leaf lo (n + 1) else 0)) :
    ∃ m1, (∀ f : Unit → Kernel Unit, ((if do_free then kfree (PTE2PA (leaf lo)) else pure ()) >>= fun _ =>
        setPte a k 0 >>= f) m = f () m1) ∧ Tree m1 2 t (update leaf lo 0) nodes ∧
      Frame m m1 (nodes + if do_free then frames leaf lo (n + 1) else 0)
        (nodes + if do_free then frames (update leaf lo 0) (lo + 1) n else 0) := by
  have hcongr : frames (update leaf lo 0) (lo + 1) n = frames leaf (lo + 1) n :=
    frames_congr fun v h1 _ => update_of_ne (by omega) _ _
  rw [hcongr]
  have htree : ∀ m1 : Mem, (∀ p ∈ nodes, m1.page p = m.page p) →
      Tree (m1.setPte a k 0) 2 t (update leaf lo 0) nodes := by
    intro m1 hpages
    refine (hslot.write 0 (by decide)).congr fun p hp => ?_
    by_cases hpa : p = a
    · subst hpa
      show update m1.page p _ p = update m.page p _ p
      rw [update_self, update_self, hpages p hp]
    · rw [page_setPte_of_ne hpa, page_setPte_of_ne hpa, hpages p hp]
  cases do_free with
  | false =>
    exact ⟨m.setPte a k 0, fun _ => rfl, htree m fun _ _ => rfl, .setPte (Multiset.mem_add.mpr (.inl hslot.mem)) k 0⟩
  | true =>
    have hown : nodes + frames leaf lo (n + 1) = PTE2PA (leaf lo) ::ₘ (nodes + frames leaf (lo + 1) n) := by
      rw [frames_succ, Multiset.add_cons]
    simp only [if_true] at hram ⊢
    rw [hown] at hram ⊢
    obtain ⟨_, m1, hrun, hpages, -, hf⟩ := kfree_spec (m := m) (hram.own_isPage (Multiset.mem_cons_self _ _))
      (nodes + frames leaf (lo + 1) n)
    refine ⟨m1.setPte a k 0, fun f => bind_eq hrun, htree m1 fun p hp => hpages p ?_,
      hf.trans (.setPte (Multiset.mem_add.mpr (.inl hslot.mem)) k 0)⟩
    rintro rfl
    exact (Multiset.nodup_cons.mp hram.own_nodup).1 (Multiset.mem_add.mpr (.inl hp))

theorem unmapLoop_spec {stop : Nat} (do_free : Bool) (n : Nat) : ∀ {m : Mem} {lo : Nat} {leaf : Nat → Nat}
    {nodes : Multiset Nat}, Tree m 2 t leaf nodes → stop = (lo + n) * PGSIZE → stop ≤ MAXVA →
    (∀ v, lo ≤ v → v < lo + n → IsLeaf (leaf v)) →
    Ram m (nodes + if do_free then frames leaf lo n else 0) →
    Ok (unmapLoop t stop do_free n (lo * PGSIZE)) m fun _ m' => Tree m' 2 t (unmapped leaf lo n) nodes ∧
      Frame m m' (nodes + if do_free then frames leaf lo n else 0) nodes := by
  induction n with
  | zero =>
    intro m lo leaf nodes h _ _ _ _
    refine Ok.pure ⟨Radix.Rep.leaf_congr h fun v _ => if_neg (by omega), ?_⟩
    have h0 : (if do_free then frames leaf lo 0 else 0) = 0 := by cases do_free <;> rfl
    rw [h0, add_zero]
    exact .refl m nodes
  | succ n ih =>
    intro m lo leaf nodes h hstop hmax hleaf hram
    have hlt : lo * PGSIZE < stop := by
      rw [hstop]
      exact Nat.mul_lt_mul_of_pos_right (by omega) (by decide)
    have hnext : (lo * PGSIZE + PGSIZE) % 2 ^ 64 = (lo + 1) * PGSIZE := by
      simp only [PGSIZE, MAXVA] at hlt hmax ⊢
      omega
    rw [unmapLoop, if_pos hlt]
    refine Ok.bind (walk_find h hram.left (by omega)) ?_
    rintro _ m' ⟨rfl, hres⟩
    rw [page_mul_div] at hres
    have hl := hleaf lo (Nat.le_refl _) (by omega)
    rcases hres with ⟨-, hz⟩ | ⟨a, k, rfl, hslot⟩
    · exact absurd (by rw [hz, Nat.zero_and]) hl.1
    apply getPte_bind
    rw [hslot.word_eq, if_neg hl.1, if_neg hl.not_link]
    obtain ⟨m1, hround, htree, hf⟩ := unmap_round do_free hslot hram
    obtain ⟨_, m2, hrun, ht, hf2⟩ := ih htree (hstop.trans (by rw [Nat.add_assoc, Nat.add_comm 1 n])) hmax
      (fun v h1 h2 => by
        rw [update_of_ne (by omega)]
        exact hleaf v (by omega) (by omega)) (hf.ram hram)
    rw [unmapped_succ] at ht
    rw [← hnext] at hrun
    exact Ok.of_eq ((hround _).trans hrun) ⟨ht, hf.trans hf2⟩

theorem uvmunmap_spec (do_free : Bool)
    (h : Tree m 2 t leaf nodes) (hva : va = lo * PGSIZE) (hmax : (lo + n) * PGSIZE ≤ MAXVA)
    (hleaf : ∀ v, lo ≤ v → v < lo + n → IsLeaf (leaf v))
    (hram : Ram m (nodes + if do_free then frames leaf lo n else 0)) :
    Ok (uvmunmap t va n do_free) m fun _ m' => Tree m' 2 t (unmapped leaf lo n) nodes ∧
      Frame m m' (nodes + if do_free then frames leaf lo n else 0) nodes := by
  subst hva
  have hstop : (lo * PGSIZE + n * PGSIZE) % 2 ^ 64 = (lo + n) * PGSIZE := by
    rw [← Nat.add_mul]
    exact Nat.mod_eq_of_lt (Nat.lt_of_le_of_lt hmax (by decide))
  rw [uvmunmap, if_neg (not_not.mpr (Nat.mul_mod_left _ _)), hstop]
  exact unmapLoop_spec do_free n h rfl hmax hleaf hram

/-! ## `uvmcreate` and `freewalk` -/

omit [Symbols] in
theorem uvmcreate_spec (m : Mem) (own : Multiset Nat) : Ok uvmcreate m fun r m' =>
    (r = none ∧ Frame m m' own own ∧ m'.page = m.page) ∨ ∃ t, r = some t ∧ Tree m' 2 t (fun _ => 0) {t} ∧
      Frame m m' own (t ::ₘ own) ∧ (∀ q, q ≠ t → m'.page q = m.page q) := by
  refine Ok.bind (kalloc_spec m own) ?_
  rintro _ m1 (⟨rfl, hpages, hf⟩ | ⟨t, rfl, hpages, hf⟩)
  · exact Ok.pure (.inl ⟨rfl, hf, hpages⟩)
  · apply memset_bind
    refine Ok.pure (.inr ⟨t, rfl, ?_, ?_, fun q hq => ?_⟩)
    · exact Radix.Rep.empty 2 fun k _ => word_zero (update_self _ _ _) k
    · refine hf.trans (.of_pages rfl fun q hq => update_of_ne ?_ _ _)
      rintro rfl
      exact hq (Multiset.mem_cons_self _ _)
    · exact (update_of_ne hq _ _).trans (hpages q hq)

/-- A table of level `d + 1` in the loop of `freewalk`: nothing is mapped, and the first `i` entries are 0 and
the tables below them free. -/
def Cleared (m : Mem) (d t : Nat) (nodes : Multiset Nat) (i : Nat) (m' : Mem) : Prop :=
  ∃ leaf' nodes', Tree m' (d + 1) t leaf' nodes' ∧ Frame m m' nodes nodes' ∧
    (∀ v < 512 ^ (d + 2), leaf' v &&& PTE_V = 0) ∧ ∀ k < i, word m' t k = 0

theorem cleared_succ {d : Nat} {free : Nat → Kernel Unit}
    (ih : ∀ {m : Mem} {t : Nat} {leaf : Nat → Nat} {nodes : Multiset Nat}, Tree m d t leaf nodes → Ram m nodes →
      (∀ v < 512 ^ (d + 1), leaf v &&& PTE_V = 0) → Ok (free t) m fun _ m' => Frame m m' nodes 0)
    {m1 : Mem} {i : Nat} (hram : Ram m nodes) (hi : i < 512) (h : Cleared m d t nodes i m1) : Ok (do
        let pte ← getPte t i
        if pte &&& PTE_V ≠ 0 ∧ pte &&& (PTE_R ||| PTE_W ||| PTE_X) = 0 then do
          free (PTE2PA pte)
          setPte t i 0
        else if pte &&& PTE_V ≠ 0 then panic .freewalkLeaf
        else pure ()) m1 fun _ m' => Cleared m d t nodes (i + 1) m' := by
  obtain ⟨leaf1, nodes1, h1, hf, hleaf1, hzero⟩ := h
  have hram1 := hf.ram hram
  obtain ⟨s, rest, rfl, hentry, hput⟩ := Radix.Rep.focus h1 hi
  apply getPte_bind
  rcases hentry with ⟨h0, rfl, hz⟩ | ⟨c, hc, hr⟩
  · rw [h0, if_neg fun hc => hc.1 (Nat.zero_and _), if_neg (not_not.mpr (Nat.zero_and _))]
    refine Ok.pure ⟨leaf1, _, h1, hf, hleaf1, fun k hk => ?_⟩
    rcases Nat.lt_succ_iff_lt_or_eq.mp hk with hk | rfl
    · exact hzero k hk
    · exact h0
  · rw [← Multiset.add_cons] at hram1 hf
    have hcp := hram1.left.own_isPage hr.root_mem
    rw [hc, if_pos ⟨valid_link c, link_not_leaf c⟩, PTE2PA_link hcp]
    refine Ok.bind (ih hr hram1.left fun v hv => hleaf1 _ (Radix.key_lt hi hv)) ?_
    intro _ m2 hf2
    have hroot : m2.page t = m1.page t := hf2.other hram1 (Multiset.mem_cons_self _ _)
    have hword : ∀ k, k ≠ i → word (m2.setPte t i 0) t k = word m1 t k := fun k hk =>
      (word_setPte_of_ne fun hc => hk hc.2).trans (word_congr hroot k)
    have hself : word (m2.setPte t i 0) t i = 0 := word_setPte_self (by decide)
    have ht : t ∉ rest := (Multiset.nodup_cons.mp hram1.right.own_nodup).1
    refine Ok.of_eq rfl ⟨fun v => if v / 512 ^ (d + 1) = i then 0 else leaf1 v, t ::ₘ (0 + rest), hput ?_ ?_ ?_ ?_,
      ?_, ?_, ?_⟩
    · exact fun k _ hk => hword k hk
    · intro a ha k _
      refine word_congr ((page_setPte_of_ne ?_).trans (hf2.other hram1 (Multiset.mem_cons_of_mem ha))) k
      rintro rfl
      exact ht ha
    · exact fun v hv => if_neg hv
    · refine .inl ⟨hself, rfl, fun v hv => if_pos ?_⟩
      rw [Nat.mul_comm, Nat.mul_add_div (Nat.pow_pos (by decide)), Nat.div_eq_of_lt hv, Nat.add_zero]
    · have hf3 := hf.trans (hf2.add (t ::ₘ rest))
      rw [zero_add] at hf3 ⊢
      exact hf3.trans (.setPte (Multiset.mem_cons_self _ _) i 0)
    · intro v hv
      beta_reduce
      split
      · exact Nat.zero_and _
      · exact hleaf1 v hv
    · intro k hk
      rcases Nat.lt_succ_iff_lt_or_eq.mp hk with hk | rfl
      · rw [hword k (by omega)]
        exact hzero k hk
      · exact hself

/-- Freeing a table that maps nothing gives back all its pages. -/
theorem freewalk_spec (d : Nat) : ∀ {m : Mem} {t : Nat} {leaf : Nat → Nat} {nodes : Multiset Nat},
    Tree m d t leaf nodes → Ram m nodes → (∀ v < 512 ^ (d + 1), leaf v &&& PTE_V = 0) →
    Ok (freewalk (d + 1) t) m fun _ m' => Frame m m' nodes 0 := by
  induction d with
  | zero =>
    intro m t leaf nodes h hram hleaf
    rw [freewalk]
    refine Ok.bind (P := fun _ m' => m' = m) (Ok.forM (fun _ m' => m' = m) rfl ?_) ?_
    · rintro i m' hi rfl
      apply getPte_bind
      have hv : word m' t i &&& PTE_V = 0 := by
        rw [h.2 i hi]
        exact hleaf i hi
      rw [if_neg fun hc => hc.1 hv, if_neg (not_not.mpr hv)]
      exact Ok.pure rfl
    · rintro _ m' rfl
      obtain ⟨rfl, -⟩ := h
      refine (kfree_spec (hram.own_isPage (Multiset.mem_singleton_self t)) 0).mono ?_
      rintro _ m1 ⟨-, -, hf⟩
      exact hf
  | succ d ih =>
    intro m t leaf nodes h hram hleaf
    rw [freewalk]
    have h0 : Cleared m d t nodes 0 m := ⟨leaf, nodes, h, .refl m nodes, hleaf, fun k hk => absurd hk (by omega)⟩
    refine Ok.bind (Ok.forM (Cleared m d t nodes) h0 fun i m1 hi h1 => cleared_succ ih hram hi h1) ?_
    rintro _ m1 ⟨leaf1, nodes1, h1, hf, -, hzero⟩
    obtain rfl := Radix.Rep.nodes_of_zero link_ne_zero h1 hzero
    refine (kfree_spec ((hf.ram hram).own_isPage (Multiset.mem_singleton_self t)) 0).mono ?_
    rintro _ m2 ⟨-, -, hf2⟩
    exact hf.trans hf2

end Xv6.Vm
