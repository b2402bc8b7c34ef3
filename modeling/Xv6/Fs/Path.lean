import Mathlib.Data.List.TakeWhile
import Xv6.Fs.Layout
import Xv6.Fs.Syscalls

/-!
# Path resolution

`elems path` splits a path at slashes, drops the empty pieces and cuts each to
`DIRSIZ` bytes.  The string scanner `skipelem` of `kernel/fs.c`, here on the bytes
of a C string with every read checked (`Path.skipelem`), takes the path apart in
exactly this way and never reads past the terminating 0.

On a fixed directory graph `namei` walks `elems path` from the root or from the
current directory (`run_namei`), and `nameiparent` walks all but the last of
them (`run_nameiparent`).
-/

namespace Xv6.Fs.Path

open Sys Threads

/-! ## The elements of a path -/

abbrev slash : UInt8 := 47

def elems (path : Fs.Path) : List Name := ((path.splitOn slash).filter (· ≠ [])).map (·.take DIRSIZ)

theorem elems_append_slash (xs ys : Fs.Path) : elems (xs ++ slash :: ys) = elems xs ++ elems ys := by
  unfold elems List.splitOn
  rw [List.splitOnP_append_cons xs ys (by decide), List.filter_append, List.map_append]

theorem elems_nil : elems [] = [] := by decide

theorem elems_slash (ys : Fs.Path) : elems (slash :: ys) = elems ys := by
  rw [← List.nil_append (slash :: ys), elems_append_slash, elems_nil, List.nil_append]

theorem elems_word {xs : Fs.Path} (h : slash ∉ xs) (hne : xs ≠ []) : elems xs = [xs.take DIRSIZ] := by
  unfold elems
  rw [List.splitOn_eq_singleton h]
  simp [hne]

theorem elems_dropSlashes (path : Fs.Path) : elems (path.dropWhile (· = slash)) = elems path := by
  induction path with
  | nil => rfl
  | cons c path ih =>
    rw [List.dropWhile_cons]
    split
    · next hc => rw [ih, show c = slash by simpa using hc, elems_slash]
    · rfl

theorem dropWhile_head {p : UInt8 → Bool} {l : List UInt8} {c : UInt8} {r : List UInt8}
    (h : l.dropWhile p = c :: r) : p c = false := by
  have hne : l.dropWhile p ≠ [] := by rw [h]; nofun
  have := List.head_dropWhile_not p hne
  simpa [h] using this

variable {i : Nat} {path : Fs.Path}

theorem skipelem_none (h : skipelem path = none) : elems path = [] := by
  unfold skipelem at h
  simp only at h
  split at h
  · next he => rw [← elems_dropSlashes, he, elems_nil]
  · cases h

theorem elems_cons {c : UInt8} (hc : c ≠ slash) (r : Fs.Path) :
    elems (c :: r) = ((c :: r).takeWhile (· ≠ slash)).take DIRSIZ :: elems ((c :: r).dropWhile (· ≠ slash)) := by
  have hword : slash ∉ (c :: r).takeWhile (· ≠ slash) := by
    intro hmem
    have := List.mem_takeWhile_imp hmem
    simp at this
  have hne : (c :: r).takeWhile (· ≠ slash) ≠ [] := by
    rw [List.takeWhile_cons, if_pos (by simpa using hc)]
    nofun
  have hsplit : (c :: r).takeWhile (· ≠ slash) ++ (c :: r).dropWhile (· ≠ slash) = c :: r :=
    List.takeWhile_append_dropWhile
  cases hd : (c :: r).dropWhile (· ≠ slash) with
  | nil =>
    rw [hd, List.append_nil] at hsplit
    rw [elems_nil, ← elems_word hword hne, hsplit]
  | cons d rest =>
    have hsl : d = slash := by simpa using dropWhile_head hd
    rw [hd, hsl] at hsplit
    rw [hsl, elems_slash, ← hsplit, elems_append_slash, elems_word hword hne, hsplit]
    rfl

theorem skipelem_some {rest : Fs.Path} {name : Name} (h : skipelem path = some (name, rest)) :
    elems path = name :: elems rest ∧ rest.length < path.length := by
  unfold skipelem at h
  simp only at h
  split at h
  · cases h
  · next hne =>
    obtain ⟨rfl, rfl⟩ := Prod.mk.inj (Option.some.inj h)
    obtain ⟨c, r, hcr⟩ := List.exists_cons_of_ne_nil hne
    have hc : c ≠ slash := by simpa using dropWhile_head hcr
    rw [elems_dropSlashes, ← elems_dropSlashes path, hcr]
    refine ⟨elems_cons hc r, ?_⟩
    have h1 := List.length_dropWhile_le (· = slash) path
    have h2 := List.length_dropWhile_le (· = slash) ((c :: r).dropWhile (· ≠ slash))
    have h3 := List.length_dropWhile_le (· ≠ slash) r
    have h4 : (c :: r).dropWhile (· ≠ slash) = r.dropWhile (· ≠ slash) := by
      rw [List.dropWhile_cons, if_pos (by simpa using hc)]
    rw [hcr, List.length_cons] at h1
    rw [h4] at h2 ⊢
    exact Nat.lt_of_le_of_lt h2 (by omega)

/-! ## The string scanner -/

/-- A C string: its bytes before the terminating 0. -/
structure CStr where
  bytes : List UInt8
  nonzero : ∀ b ∈ bytes, b ≠ 0

/-- The byte at position `i`; `none` past the terminating 0. -/
def CStr.read (s : CStr) (i : Nat) : Option UInt8 := (s.bytes ++ [0])[i]?

/-- `while(test(*path)) path++;` -/
def CStr.scan (s : CStr) (test : UInt8 → Bool) : Nat → Nat → Option Nat
  | 0, _ => none
  | fuel + 1, i => do
      let c ← s.read i
      if test c then scan s test fuel (i + 1) else some i

/-- `memmove(name, s, n)`. -/
def CStr.copy (s : CStr) (i : Nat) : Nat → (Nat → UInt8) → Option (Nat → UInt8)
  | 0, name => some name
  | n + 1, name => do
      let name ← s.copy i n name
      let c ← s.read (i + n)
      some (Function.update name n c)

/-- The element of length `len` at `i` goes into the name buffer, with a 0 if there is room. -/
def CStr.copyName (s : CStr) (i len : Nat) (name : Nat → UInt8) : Option (Nat → UInt8) :=
  if DIRSIZ ≤ len then s.copy i DIRSIZ name else (s.copy i len name).map (Function.update · len 0)

/-- `skipelem` from position `i` on: the position after the element and the name
buffer, or `none` for 0; the outer `none` is a read past the end. -/
def CStr.skipelem (s : CStr) (i : Nat) (name : Nat → UInt8) : Option (Option (Nat × (Nat → UInt8))) := do
  let fuel := s.bytes.length + 1
  let i ← s.scan (· = slash) fuel i
  if (← s.read i) = 0 then some none
  else
    let j ← s.scan (fun c => c ≠ slash ∧ c ≠ 0) fuel i
    let name ← s.copyName i (j - i) name
    let k ← s.scan (· = slash) fuel j
    some (some (k, name))

/-- What the name buffer says: `DIRSIZ` bytes, up to a 0. -/
def nameOf (name : Nat → UInt8) : Name := ((List.range DIRSIZ).map name).takeWhile (· ≠ 0)

/-- `skipelem` until it returns 0: the names it delivers. -/
def CStr.skipAll (s : CStr) : Nat → Nat → (Nat → UInt8) → Option (List Name)
  | 0, _, _ => none
  | fuel + 1, i, name => do
      match ← s.skipelem i name with
      | none => some []
      | some (k, name) => (s.skipAll fuel k name).map (nameOf name :: ·)

section
variable {s : CStr}

theorem CStr.read_lt (hi : i < s.bytes.length) : s.read i = some (s.bytes[i]) := by
  rw [CStr.read, List.getElem?_append_left hi, List.getElem?_eq_getElem hi]

theorem CStr.read_length : s.read s.bytes.length = some 0 := by
  rw [CStr.read, List.getElem?_append_right (Nat.le_refl _), Nat.sub_self]
  rfl

theorem CStr.scan_spec {test : UInt8 → Bool} (h0 : test 0 = false) : ∀ (fuel i : Nat), i ≤ s.bytes.length →
    s.bytes.length < i + fuel →
    s.scan test fuel i = some (i + ((s.bytes.drop i).takeWhile test).length) := by
  intro fuel
  induction fuel with
  | zero =>
    intro i hi hf
    omega
  | succ fuel ih =>
    intro i hi hf
    rw [CStr.scan]
    by_cases hlt : i < s.bytes.length
    · rw [s.read_lt hlt, List.drop_eq_getElem_cons hlt, List.takeWhile_cons]
      simp only [Option.bind_eq_bind, Option.bind_some]
      split
      · rw [ih (i + 1) hlt (by omega), List.length_cons]
        congr 1
        omega
      · rfl
    · have he : i = s.bytes.length := by omega
      rw [he, s.read_length, List.drop_length]
      simp [h0]

theorem CStr.copy_spec (name : Nat → UInt8) : ∀ n, i + n ≤ s.bytes.length →
    s.copy i n name = some fun x => if x < n then s.bytes.getD (i + x) 0 else name x := by
  intro n
  induction n with
  | zero => exact fun _ => rfl
  | succ n ih =>
    intro h
    rw [CStr.copy, ih (by omega), s.read_lt (i := i + n) (by omega)]
    simp only [Option.bind_eq_bind, Option.bind_some, Option.some.injEq]
    funext x
    by_cases hx : x = n
    · subst hx
      have hlt : i + x < s.bytes.length := by omega
      rw [Function.update_self, if_pos (Nat.lt_succ_self x), List.getD_eq_getElem?_getD, List.getElem?_eq_getElem hlt]
      rfl
    · rw [Function.update_of_ne hx]
      exact if_congr (by omega) rfl rfl

theorem nameOf_word {word : List UInt8} (hw : ∀ b ∈ word, b ≠ 0) {name : Nat → UInt8}
    (hname : ∀ x, x < DIRSIZ → x < word.length → name x = word.getD x 0)
    (hend : word.length < DIRSIZ → name word.length = 0) : nameOf name = word.take DIRSIZ := by
  have htake : ((List.range DIRSIZ).map name).take word.length = word.take DIRSIZ := by
    apply List.ext_getElem
    · simp [Nat.min_comm]
    · intro x h1 h2
      simp only [List.length_take, Nat.lt_min] at h2
      simp only [List.getElem_take, List.getElem_map, List.getElem_range]
      rw [hname x h2.1 h2.2, List.getD_eq_getElem?_getD, List.getElem?_eq_getElem h2.2]
      rfl
  have hdrop : (((List.range DIRSIZ).map name).drop word.length).takeWhile (· ≠ 0) = [] := by
    by_cases hlt : word.length < DIRSIZ
    · rw [List.drop_eq_getElem_cons (by simpa using hlt), List.takeWhile_cons, if_neg]
      simpa using hend hlt
    · rw [List.drop_eq_nil_of_le (by simpa using hlt)]
      rfl
  rw [nameOf, ← List.take_append_drop word.length ((List.range DIRSIZ).map name), htake,
    List.takeWhile_append_of_pos, hdrop, List.append_nil]
  intro b hb
  simpa using hw b (List.mem_of_mem_take hb)

theorem drop_takeWhile (l : List UInt8) (i : Nat) (test : UInt8 → Bool) :
    l.drop (i + ((l.drop i).takeWhile test).length) = (l.drop i).dropWhile test := by
  rw [← List.drop_drop]
  have h : ((l.drop i).takeWhile test ++ (l.drop i).dropWhile test).drop ((l.drop i).takeWhile test).length =
      (l.drop i).dropWhile test := List.drop_left
  rwa [List.takeWhile_append_dropWhile] at h

theorem length_takeWhile_drop {l : List UInt8} (hi : i ≤ l.length) (test : UInt8 → Bool) :
    i + ((l.drop i).takeWhile test).length ≤ l.length := by
  have h := (List.takeWhile_prefix (l := l.drop i) test).length_le
  rw [List.length_drop] at h
  omega

theorem takeWhile_congr {p q : UInt8 → Bool} {l : List UInt8} (h : ∀ c ∈ l, p c = q c) :
    l.takeWhile p = l.takeWhile q := by
  induction l with
  | nil => rfl
  | cons c l ih =>
    rw [List.takeWhile_cons, List.takeWhile_cons, h c List.mem_cons_self,
      ih fun d hd => h d (List.mem_cons_of_mem c hd)]

theorem CStr.takeWhile_word (i : Nat) : (s.bytes.drop i).takeWhile (fun c => c ≠ slash ∧ c ≠ 0) =
    (s.bytes.drop i).takeWhile (· ≠ slash) := by
  refine takeWhile_congr fun c hc => ?_
  simp [s.nonzero c (List.mem_of_mem_drop hc)]

theorem CStr.name_spec (hi : i ≤ s.bytes.length) {word : List UInt8}
    (hword : word = (s.bytes.drop i).takeWhile (· ≠ slash)) (name : Nat → UInt8) :
    ∃ name', s.copyName i word.length name = some name' ∧ nameOf name' = word.take DIRSIZ := by
  have hpre : word <+: s.bytes.drop i := hword ▸ List.takeWhile_prefix _
  have hlen : i + word.length ≤ s.bytes.length := by
    rw [hword]
    exact length_takeWhile_drop hi _
  have hget : ∀ x, x < word.length → s.bytes.getD (i + x) 0 = word.getD x 0 := by
    intro x hx
    obtain ⟨t, ht⟩ := hpre
    rw [List.getD_eq_getElem?_getD, List.getD_eq_getElem?_getD, ← List.getElem?_drop, ← ht,
      List.getElem?_append_left hx]
  have hnz : ∀ b ∈ word, b ≠ 0 := fun b hb => s.nonzero b (List.mem_of_mem_drop (hpre.subset hb))
  unfold CStr.copyName
  split
  · next hle =>
    refine ⟨_, CStr.copy_spec name DIRSIZ (by omega), nameOf_word hnz (fun x h1 h2 => ?_) fun hlt => by omega⟩
    rw [if_pos h1, hget x h2]
  · rw [CStr.copy_spec name word.length hlen]
    refine ⟨_, rfl, nameOf_word hnz (fun x _ h2 => ?_) fun _ => Function.update_self _ _ _⟩
    refine (Function.update_of_ne (Nat.ne_of_lt h2) _ _).trans ?_
    rw [if_pos h2, hget x h2]

/-- `skipelem` on the C string is `skipelem` on the rest of the path; it reads no
byte past the end. -/
theorem CStr.skipelem_spec (hi : i ≤ s.bytes.length) (name : Nat → UInt8) : ∃ r, s.skipelem i name = some r ∧
      ((r = none ∧ Sys.skipelem (s.bytes.drop i) = none) ∨
        ∃ k name', r = some (k, name') ∧ k ≤ s.bytes.length ∧
          Sys.skipelem (s.bytes.drop i) = some (nameOf name', s.bytes.drop k)) := by
  have hd1 := drop_takeWhile s.bytes i (· = slash)
  have hi1 := length_takeWhile_drop hi (· = slash)
  rw [CStr.skipelem]
  simp only [Option.bind_eq_bind]
  rw [CStr.scan_spec (by decide) _ i hi (by omega), Option.bind_some]
  generalize i + ((s.bytes.drop i).takeWhile (· = slash)).length = i1 at hd1 hi1 ⊢
  by_cases hend : i1 = s.bytes.length
  · -- nothing but slashes
    rw [hend, s.read_length, Option.bind_some, if_pos rfl]
    refine ⟨none, rfl, Or.inl ⟨rfl, ?_⟩⟩
    rw [hend, List.drop_length] at hd1
    unfold Sys.skipelem
    exact if_pos hd1.symm
  · have hlt : i1 < s.bytes.length := by omega
    rw [s.read_lt hlt, Option.bind_some, if_neg (s.nonzero _ (List.getElem_mem hlt)),
      CStr.scan_spec (by decide) _ i1 hi1 (by omega), Option.bind_some, s.takeWhile_word]
    have hd2 := drop_takeWhile s.bytes i1 (· ≠ slash)
    have hi2 := length_takeWhile_drop hi1 (· ≠ slash)
    obtain ⟨name', hname, hof⟩ := s.name_spec hi1 rfl name
    rw [Nat.add_sub_cancel_left, hname, Option.bind_some]
    generalize i1 + ((s.bytes.drop i1).takeWhile (· ≠ slash)).length = j at hd2 hi2 ⊢
    rw [CStr.scan_spec (by decide) _ j hi2 (by omega), Option.bind_some]
    refine ⟨_, rfl, Or.inr ⟨_, name', rfl, length_takeWhile_drop hi2 _, ?_⟩⟩
    rw [drop_takeWhile, hd2, hof, hd1]
    unfold Sys.skipelem
    refine if_neg fun hnil => ?_
    rw [← hd1] at hnil
    exact absurd (List.drop_eq_nil_iff.mp hnil) (by omega)

theorem CStr.skipAll_spec (s : CStr) : ∀ (fuel i : Nat) (name : Nat → UInt8), i ≤ s.bytes.length →
    s.bytes.length < i + fuel → s.skipAll fuel i name = some (elems (s.bytes.drop i)) := by
  intro fuel
  induction fuel with
  | zero =>
    intro i name hi hf
    omega
  | succ fuel ih =>
    intro i name hi hf
    obtain ⟨r, hr, ⟨rfl, hskip⟩ | ⟨k, name', rfl, hk, hskip⟩⟩ := s.skipelem_spec hi name
    · rw [CStr.skipAll, hr, skipelem_none hskip]
      rfl
    · obtain ⟨hel, hlen⟩ := skipelem_some hskip
      rw [List.length_drop, List.length_drop] at hlen
      rw [CStr.skipAll, hr, hel]
      simp only [Option.bind_eq_bind, Option.bind_some]
      rw [ih k name' hk (by omega)]
      rfl

end

/-! ## Walking a directory graph -/

/-- A fixed directory graph, and the current directory.  What can be reached is
allocated. -/
structure Graph where
  type : Nat → Nat
  entry : Nat → Name → Option Nat
  cwd : Nat
  root_type : type ROOTINO ≠ 0
  cwd_type : type cwd ≠ 0
  entry_type : ∀ {i : Nat} {name : Name} {j : Nat}, type i = T_DIR → entry i name = some j → type j ≠ 0

/-- `dirlookup` in a directory; there is nothing to find in anything else. -/
def Graph.lookup (G : Graph) (i : Nat) (name : Name) : Option Nat := if G.type i = T_DIR then G.entry i name else none

/-- Look up the elements in turn. -/
def Graph.walk (G : Graph) : Nat → List Name → Option Nat
  | i, [] => some i
  | i, n :: ns => (G.lookup i n).bind (G.walk · ns)

/-- The loop of `namex`, element by element. -/
def Graph.resolve (G : Graph) (parent : Bool) : Nat → List Name → Name → Option (Nat × Name)
  | i, [], name => if parent then none else some (i, name)
  | i, n :: ns, _ =>
    if G.type i ≠ T_DIR then none
    else if parent ∧ ns = [] then some (i, n)
    else (G.entry i n).bind fun next => G.resolve parent next ns n

/-- The inode layer on a fixed graph: an inode pointer is the inode's number, and
references and locks do not matter.  `ilock` of a free inode and `dirlookup` in no
directory panic. -/
def Graph.inoExec {β : Type} (G : Graph) (o : InoOp β) : Outcome Unit β :=
  match o with
  | .root => .done ROOTINO ()
  | .idup h => .done h ()
  | .ilock h => if G.type h = 0 then .halt () else .done () ()
  | .iunlock _ => .done () ()
  | .iput _ => .done false ()
  | .stat h => .done ⟨h, G.type h, 1, 0⟩ ()
  | .dirlookup h name =>
    if G.type h ≠ T_DIR then .halt () else .done ((G.entry h name).map fun i => (i, 0)) ()
  | _ => .wait

def Graph.tabExec {β : Type} (G : Graph) (o : TabOp β) : Outcome Unit β :=
  match o with
  | .cwd => .done G.cwd ()
  | _ => .wait

def Graph.exec {β : Type} (G : Graph) (o : Op β) : Outcome Unit β :=
  match o with
  | .ino o => G.inoExec o
  | .tab o => G.tabExec o
  | .log _ => .wait
  | .panic _ => .halt ()

/-- What a program of the kernel comes to on the graph. -/
def Graph.run {α : Type} (G : Graph) (m : Sys.Prog α) : Outcome Unit α := eval (fun o _ => G.exec o) m ()

def Graph.start (G : Graph) (path : Fs.Path) : Nat := if path.head? = some slash then ROOTINO else G.cwd

theorem skipelem_rest {rest : Fs.Path} {name : Name} (h : skipelem path = some (name, rest)) :
    elems rest = [] ↔ rest = [] := by
  constructor
  · intro he
    unfold skipelem at h
    simp only at h
    split at h
    · cases h
    · obtain ⟨_, hr⟩ := Prod.mk.inj (Option.some.inj h)
      cases hrest : rest with
      | nil => rfl
      | cons c r =>
        rw [hrest] at hr he
        have hc : c ≠ slash := by simpa using dropWhile_head hr
        rw [elems_cons hc] at he
        cases he
  · rintro rfl
    exact elems_nil

section
variable (G : Graph)

theorem Graph.run_bind {α β : Type} (m : Sys.Prog α) (f : α → Sys.Prog β) : G.run (m >>= f) =
      match G.run m with
      | .done a _ => G.run (f a)
      | .halt s => .halt s
      | .wait => .wait := by
  unfold Graph.run
  rw [eval_bind]
  cases eval (fun o _ => G.exec o) m () <;> rfl

@[simp] theorem Graph.run_pure {α : Type} (a : α) : G.run (pure a : Sys.Prog α) = .done a () := rfl

theorem Graph.run_ilock {ip : Nat} (h : G.type ip ≠ 0) : G.run (ino (.ilock ip)) = .done () () := by
  show eval (fun o _ => G.exec o) (perform _) () = _
  simp [perform, eval, Graph.exec, Graph.inoExec, h]

@[simp] theorem Graph.run_iunlock (ip : Nat) : G.run (ino (.iunlock ip)) = .done () () := rfl

@[simp] theorem Graph.run_stat (ip : Nat) : G.run (ino (.stat ip)) = .done ⟨ip, G.type ip, 1, 0⟩ () := rfl

@[simp] theorem Graph.run_iput (ip : Nat) : G.run (iput ip) = .done () () := rfl

@[simp] theorem Graph.run_iunlockput (ip : Nat) : G.run (iunlockput ip) = .done () () := rfl

theorem Graph.run_dirlookup {ip : Nat} (name : Name) (h : G.type ip = T_DIR) :
    G.run (ino (.dirlookup ip name)) = .done ((G.entry ip name).map fun i => (i, 0)) () := by
  show eval (fun o _ => G.exec o) (perform _) () = _
  simp [perform, eval, Graph.exec, Graph.inoExec, h]

theorem Graph.run_namexLoop (parent : Bool) (fuel : Nat) :
    ∀ (ip : Nat) (path : Fs.Path) (name : Name), path.length < fuel → G.type ip ≠ 0 →
      G.run (namexLoop parent fuel ip path name) = .done (G.resolve parent ip (elems path) name) () := by
  induction fuel with
  | zero =>
    intro ip path name h ht
    omega
  | succ fuel ih =>
    intro ip path name h ht
    unfold namexLoop
    cases hskip : skipelem path with
    | none =>
      rw [skipelem_none hskip]
      cases parent <;> rfl
    | some x =>
      obtain ⟨n, rest⟩ := x
      obtain ⟨hel, hlen⟩ := skipelem_some hskip
      rw [hel, Graph.resolve]
      simp only [Graph.run_bind, G.run_ilock ht, Graph.run_stat]
      by_cases hd : G.type ip = T_DIR
      · by_cases hp : parent = true ∧ rest = []
        · simp [hd, hp, elems_nil, Graph.run_bind]
        · have hp' : ¬(parent = true ∧ elems rest = []) := fun ⟨h1, h2⟩ => hp ⟨h1, (skipelem_rest hskip).mp h2⟩
          rw [if_neg (by simpa using hd), if_neg hp, if_neg (by simpa using hd), if_neg hp']
          rw [Graph.run_bind, G.run_dirlookup n hd]
          cases he : G.entry ip n with
          | none => simp [Graph.run_bind]
          | some next =>
            simp only [Option.map_some, Graph.run_bind, Graph.run_iunlockput, Option.bind_some]
            exact ih next rest n (by omega) (G.entry_type hd he)
      · simp [hd, Graph.run_bind]

theorem Graph.run_namex (path : Fs.Path) (parent : Bool) :
    G.run (namex path parent) = .done (G.resolve parent (G.start path) (elems path) []) () := by
  unfold namex Graph.start
  split
  · rw [Graph.run_bind]
    exact G.run_namexLoop parent _ ROOTINO path [] (by omega) G.root_type
  · rw [Graph.run_bind]
    exact G.run_namexLoop parent _ G.cwd path [] (by omega) G.cwd_type

theorem Graph.resolve_false (es : List Name) : ∀ (i : Nat) (name : Name),
    G.resolve false i es name = (G.walk i es).map fun d => (d, es.getLastD name) := by
  induction es with
  | nil =>
    intro i name
    rfl
  | cons n ns ih =>
    intro i name
    by_cases hd : G.type i = T_DIR
    · cases he : G.entry i n with
      | none => simp [Graph.resolve, Graph.walk, Graph.lookup, hd, he]
      | some next => simp [Graph.resolve, Graph.walk, Graph.lookup, hd, he, ih, List.getLast?_cons]
    · simp [Graph.resolve, Graph.walk, Graph.lookup, hd]

theorem Graph.resolve_true (es : List Name) : ∀ (i : Nat) (n name : Name),
    G.resolve true i (es ++ [n]) name = (G.walk i es).bind fun d => if G.type d = T_DIR then some (d, n) else none := by
  induction es with
  | nil =>
    intro i n name
    by_cases hd : G.type i = T_DIR <;> simp [Graph.resolve, Graph.walk, hd]
  | cons m ms ih =>
    intro i n name
    by_cases hd : G.type i = T_DIR
    · cases he : G.entry i m with
      | none => simp [Graph.resolve, Graph.walk, Graph.lookup, hd, he]
      | some next => simp [Graph.resolve, Graph.walk, Graph.lookup, hd, he, ih]
    · simp [Graph.resolve, Graph.walk, Graph.lookup, hd]

theorem Graph.walk_append (es fs : List Name) : ∀ i, G.walk i (es ++ fs) = (G.walk i es).bind (G.walk · fs) := by
  induction es with
  | nil =>
    intro i
    rfl
  | cons n ns ih =>
    intro i
    simp only [List.cons_append, Graph.walk, ih, Option.bind_assoc]

theorem Graph.walk_snoc (es : List Name) (n : Name) (i : Nat) :
    G.walk i (es ++ [n]) = (G.walk i es).bind (G.lookup · n) := by
  rw [G.walk_append]
  congr 1
  funext d
  show (G.lookup d n).bind some = _
  exact Option.bind_fun_some _

/-- The walk fails exactly at a lookup in no directory or of a name that is not there. -/
theorem Graph.walk_none (es : List Name) : ∀ i, G.walk i es = none ↔
    ∃ pre n post d, es = pre ++ n :: post ∧ G.walk i pre = some d ∧ (G.type d ≠ T_DIR ∨ G.entry d n = none) := by
  induction es with
  | nil =>
    intro i
    simp [Graph.walk]
  | cons m ms ih =>
    intro i
    constructor
    · intro h
      rw [Graph.walk, Option.bind_eq_none_iff] at h
      cases hl : G.lookup i m with
      | none =>
        refine ⟨[], m, ms, i, rfl, rfl, ?_⟩
        unfold Graph.lookup at hl
        split at hl
        · exact .inr hl
        · exact .inl ‹_›
      | some next =>
        obtain ⟨pre, n, post, d, rfl, hw, hd⟩ := (ih next).mp (h next hl)
        exact ⟨m :: pre, n, post, d, rfl, by rw [Graph.walk, hl]; exact hw, hd⟩
    · rintro ⟨pre, n, post, d, he, hw, hd⟩
      rw [he, G.walk_append, hw]
      show (G.lookup d n).bind _ = none
      have : G.lookup d n = none := by
        unfold Graph.lookup
        split
        · exact hd.resolve_left (· ‹_›)
        · rfl
      rw [this]
      rfl

theorem Graph.run_namei (path : Fs.Path) : G.run (namei path) = .done (G.walk (G.start path) (elems path)) () := by
  unfold namei
  rw [Graph.run_bind, G.run_namex, G.resolve_false]
  cases G.walk (G.start path) (elems path) <;> rfl

theorem Graph.run_nameiparent_nil (h : elems path = []) : G.run (nameiparent path) = .done none () := by
  rw [nameiparent, G.run_namex, h]
  rfl

theorem Graph.run_nameiparent {es : List Name} {n : Name} (h : elems path = es ++ [n]) : G.run (nameiparent path) =
      .done ((G.walk (G.start path) es).bind fun d => if G.type d = T_DIR then some (d, n) else none) () := by
  rw [nameiparent, G.run_namex, h, G.resolve_true]

/-- The parent's lookup of the last element is the walk along the whole path. -/
theorem Graph.lookup_nameiparent {d : Nat} {name : Name} (h : G.run (nameiparent path) = .done (some (d, name)) ()) :
    G.type d = T_DIR ∧ G.walk (G.start path) (elems path) = G.lookup d name := by
  rcases List.eq_nil_or_concat (elems path) with he | ⟨es, n, he⟩
  · rw [G.run_nameiparent_nil he] at h
    cases h
  · rw [List.concat_eq_append] at he
    rw [G.run_nameiparent he] at h
    cases hw : G.walk (G.start path) es with
    | none =>
      rw [hw] at h
      cases h
    | some e =>
      rw [hw] at h
      have hif : (if G.type e = T_DIR then some (e, n) else none) = some (d, name) := (Outcome.done.inj h).1
      split at hif
      · cases hif
        exact ⟨‹_›, by rw [he, G.walk_snoc, hw]; rfl⟩
      · cases hif

end

/-- Path resolution.  Repeated `skipelem` delivers the elements of the path and reads
nothing past its end; `namei` walks along the elements from the root or the current
directory, and fails exactly at a lookup in no directory or of a name that is not
there; `nameiparent` has no answer for a path without elements, otherwise it walks
along all but the last element, and the lookup of that one in the parent is `namei`. -/
theorem path_resolution (path : CStr) (G : Graph) :
    (∀ name, path.skipAll (path.bytes.length + 1) 0 name = some (elems path.bytes)) ∧
    G.run (namei path.bytes) = .done (G.walk (G.start path.bytes) (elems path.bytes)) () ∧
    (G.walk (G.start path.bytes) (elems path.bytes) = none ↔
      ∃ pre n post d, elems path.bytes = pre ++ n :: post ∧ G.walk (G.start path.bytes) pre = some d ∧
        (G.type d ≠ T_DIR ∨ G.entry d n = none)) ∧
    (elems path.bytes = [] → G.run (nameiparent path.bytes) = .done none ()) ∧
    (∀ es n, elems path.bytes = es ++ [n] →
      G.run (nameiparent path.bytes) =
        .done ((G.walk (G.start path.bytes) es).bind fun d => if G.type d = T_DIR then some (d, n) else none) ()) ∧
    (∀ d n, G.run (nameiparent path.bytes) = .done (some (d, n)) () →
      G.run (ino (.dirlookup d n)) = .done ((G.entry d n).map fun i => (i, 0)) () ∧
      G.run (namei path.bytes) = .done (G.entry d n) ()) := by
  refine ⟨fun name => ?_, G.run_namei _, G.walk_none _ _, fun h => G.run_nameiparent_nil h,
    fun es n h => G.run_nameiparent h, fun d n h => ?_⟩
  · exact path.skipAll_spec _ 0 name (Nat.zero_le _) (by omega)
  · obtain ⟨hd, hw⟩ := G.lookup_nameiparent h
    refine ⟨G.run_dirlookup n hd, ?_⟩
    rw [G.run_namei, hw, Graph.lookup, if_pos hd]

/-- The root has a directory `u`, with a file `a`. -/
def small : Graph where
  type := fun i => if i ≤ 2 then T_DIR else T_FILE
  entry := fun i name =>
    if name = dotdot then some ROOTINO
    else if name = dot then some i
    else if i = ROOTINO ∧ name = [117] then some 2
    else if i = 2 ∧ name = [97] then some 3
    else none
  cwd := 2
  root_type := by decide
  cwd_type := by decide
  entry_type := by
    intro i name j _ _
    by_cases hj : j ≤ 2
    · simp [hj, T_DIR]
    · simp [hj, T_FILE]

/-- The path `/u/..//u/a/`. -/
def slashes : CStr := ⟨[47, 117, 47, 46, 46, 47, 47, 117, 47, 97, 47], by decide +kernel⟩

/-- Four elements lead to the file, and its parent is `u`. -/
theorem path_resolution_slashes : slashes.skipAll 12 0 (fun _ => 0) = some [[117], dotdot, [117], [97]] ∧
    small.run (namei slashes.bytes) = .done (some 3) () ∧
    small.run (nameiparent slashes.bytes) = .done (some (2, [97])) () := by
  obtain ⟨hskip, hnamei, -, -, hparent, -⟩ := path_resolution slashes small
  have helems : elems slashes.bytes = [[117], dotdot, [117]] ++ [[97]] := by decide
  refine ⟨(hskip _).trans (congrArg some helems), hnamei.trans ?_, (hparent _ _ helems).trans ?_⟩
  · rw [helems]
    rfl
  · rfl

end Xv6.Fs.Path
