import Mathlib.Computability.Language

/-!
# `user/grep.c`

A string is the list of its characters with the NUL at the end, and a pointer into it is what
is left from there on: a read through `[]` would be past the NUL, and is `none`.  A pattern
denotes a regular language and two anchors (`Pattern`); the matcher decides it
(`match_decides`).  `grep` writes the lines that match, up to the first one that does not fit
into `buf` (`grep_writes_matching`).
-/

namespace Xv6.Grep

open Computability

/-- A pointer into a string: the rest of it, with the NUL. -/
abbrev Ptr := List UInt8

/-- `'.'`, `'*'`, `'^'` and `'$'`. -/
def dot : UInt8 := 46
def star : UInt8 := 42
def caret : UInt8 := 94
def dollar : UInt8 := 36

/-- `matchstar(c, re, text)`, with `here` for `matchhere(re, ..)`. -/
def matchstar (here : Ptr → Option Bool) (c : UInt8) (text : Ptr) : Option Bool := do
  if ← here text then return true
  match text with
  | [] => none
  | t :: text => if t ≠ 0 ∧ (t = c ∨ c = dot) then matchstar here c text else return false

def matchhere : Ptr → Ptr → Option Bool
  | [], _ => none
  | [c], _ => if c = 0 then some true else none
  | c :: d :: re, text =>
    if c = 0 then some true
    else if d = star then matchstar (matchhere re) c text
    else do
      let t ← text.head?
      if c = dollar ∧ d = 0 then return t = 0
      else if t ≠ 0 ∧ (c = dot ∨ c = t) then matchhere (d :: re) text.tail
      else return false

def matchLoop (re : Ptr) : Ptr → Option Bool
  | [] => none
  | t :: text => do
    if ← matchhere re (t :: text) then return true
    if t ≠ 0 then matchLoop re text else return false

def matchRe (re text : Ptr) : Option Bool := do
  if (← re.head?) = caret then matchhere re.tail text else matchLoop re text

/-! ## What a pattern means -/

structure Item where
  c : UInt8
  starred : Bool

/-- One character that the item stands for. -/
def Item.Takes (c t : UInt8) : Prop := c = dot ∨ c = t

def Item.lang (i : Item) : Language UInt8 :=
  let one : Language UInt8 := { w | ∃ t, w = [t] ∧ Item.Takes i.c t }
  if i.starred then one∗ else one

/-- The items of a pattern after a leading `^`, and whether it ends with the anchor `$`. -/
def items : List UInt8 → List Item × Bool
  | [] => ([], false)
  | [c] => if c = dollar then ([], true) else ([⟨c, false⟩], false)
  | c :: d :: re =>
    if d = star then (⟨c, true⟩ :: (items re).1, (items re).2)
    else (⟨c, false⟩ :: (items (d :: re)).1, (items (d :: re)).2)

/-- The texts that begin with a word of the language, or are one if the pattern is anchored. -/
def Begins (re text : List UInt8) : Prop :=
  ∃ v w, text = v ++ w ∧ v ∈ ((items re).1.map Item.lang).prod ∧ ((items re).2 = true → w = [])

/-- The pattern after a leading `^`. -/
def body (re : List UInt8) : List UInt8 := if re.head? = some caret then re.tail else re

/-- The texts that a pattern describes: a part is a word of its language, from the beginning with
`^` and to the end with `$`. -/
def Describes (re text : List UInt8) : Prop :=
  ∃ u v w, text = u ++ v ++ w ∧ v ∈ ((items (body re)).1.map Item.lang).prod ∧
    (re.head? = some caret → u = []) ∧ ((items (body re)).2 = true → w = [])

section
variable {c : UInt8} {re text v : List UInt8}

theorem mem_lang_star : v ∈ Item.lang ⟨c, true⟩ ↔ ∀ t ∈ v, Item.Takes c t := by
  refine Language.mem_kstar.trans ⟨?_, fun h => ⟨v.map fun t => [t], (List.flatMap_singleton' v).symm, ?_⟩⟩
  · rintro ⟨L, rfl, hL⟩ t ht
    obtain ⟨y, hy, hty⟩ := List.mem_flatten.1 ht
    obtain ⟨t', rfl, htake⟩ := hL y hy
    rwa [List.mem_singleton.1 hty]
  · intro y hy
    obtain ⟨t, ht, rfl⟩ := List.mem_map.1 hy
    exact ⟨t, rfl, h t ht⟩

theorem begins_nil : Begins [] text := ⟨[], text, rfl, rfl, nofun⟩

theorem begins_dollar : Begins [dollar] text ↔ text = [] := by
  constructor
  · rintro ⟨v, w, rfl, hv, hw⟩
    rw [show v = [] from hv, hw rfl]
    rfl
  · rintro rfl
    exact ⟨[], [], rfl, rfl, fun _ => rfl⟩

theorem begins_star : Begins (c :: star :: re) text ↔
    ∃ v w, text = v ++ w ∧ (∀ t ∈ v, Item.Takes c t) ∧ Begins re w := by
  have hi : items (c :: star :: re) = (⟨c, true⟩ :: (items re).1, (items re).2) := if_pos rfl
  rw [Begins, hi]
  constructor
  · rintro ⟨_, w, rfl, hm, hw⟩
    obtain ⟨v, hv, v', hv', rfl⟩ := Language.mem_mul.1 hm
    exact ⟨v, v' ++ w, List.append_assoc .., mem_lang_star.1 hv, v', w, rfl, hv', hw⟩
  · rintro ⟨v, _, rfl, hv, v', w, rfl, hv', hw⟩
    exact ⟨v ++ v', w, (List.append_assoc ..).symm, Language.append_mem_mul (mem_lang_star.2 hv) hv', hw⟩

theorem begins_char (hs : re.head? ≠ some star) (hd : c = dollar → re ≠ []) : Begins (c :: re) text ↔
    ∃ t ts, text = t :: ts ∧ Item.Takes c t ∧ Begins re ts := by
  have hi : items (c :: re) = (⟨c, false⟩ :: (items re).1, (items re).2) := by
    cases re with
    | nil => exact if_neg fun hc => hd hc rfl
    | cons d re => exact if_neg fun hc => hs (by rw [hc]; rfl)
  rw [Begins, hi]
  constructor
  · rintro ⟨_, w, rfl, hm, hw⟩
    obtain ⟨_, ⟨t, rfl, ht⟩, v', hv', rfl⟩ := Language.mem_mul.1 hm
    exact ⟨t, v' ++ w, rfl, ht, v', w, rfl, hv', hw⟩
  · rintro ⟨t, _, rfl, ht, v, w, rfl, hv, hw⟩
    exact ⟨t :: v, w, rfl, Language.append_mem_mul (show [t] ∈ Item.lang ⟨c, false⟩ from ⟨t, rfl, ht⟩) hv, hw⟩

end

/-! ## The matcher -/

/-- A call that returns, and returns whether `P`. -/
def Decides (o : Option Bool) (P : Prop) : Prop := ∃ b, o = some b ∧ (b = true ↔ P)

section
variable {c : UInt8} {re text : List UInt8}

theorem matchstar_decides {here : Ptr → Option Bool} {P : List UInt8 → Prop}
    (hh : ∀ {ts : List UInt8}, 0 ∉ ts → Decides (here (ts ++ [0])) (P ts)) (ht : 0 ∉ text) :
    Decides (matchstar here c (text ++ [0])) (∃ v w, text = v ++ w ∧ (∀ t ∈ v, Item.Takes c t) ∧ P w) := by
  induction text with
  | nil =>
    obtain ⟨b, hb, hP⟩ := hh ht
    refine ⟨b, ?_, hP.trans ⟨fun h => ⟨[], [], rfl, nofun, h⟩, ?_⟩⟩
    · rw [List.nil_append] at hb ⊢
      rw [matchstar, hb]
      cases b <;> rfl
    · rintro ⟨v, w, h, -, hw⟩
      rwa [(List.append_eq_nil_iff.1 h.symm).2] at hw
  | cons t ts ih =>
    obtain ⟨b, hb, hP⟩ := hh ht
    rw [List.cons_append, matchstar, ← List.cons_append, hb]
    cases b with
    | true => exact ⟨true, rfl, fun _ => ⟨[], _, rfl, nofun, hP.1 rfl⟩, fun _ => rfl⟩
    | false =>
      have h0 : t ≠ 0 := fun h => ht (h ▸ List.mem_cons_self)
      have hno : ¬ P (t :: ts) := fun h => nomatch hP.2 h
      by_cases htake : t = c ∨ c = dot
      · obtain ⟨b, hb, hiff⟩ := ih fun h => ht (List.mem_cons_of_mem _ h)
        refine ⟨b, (if_pos ⟨h0, htake⟩).trans hb, hiff.trans ⟨?_, ?_⟩⟩
        · rintro ⟨v, w, rfl, hv, hw⟩
          refine ⟨t :: v, w, rfl, fun x hx => ?_, hw⟩
          rcases List.mem_cons.1 hx with rfl | hx
          · exact htake.symm.imp_right Eq.symm
          · exact hv x hx
        · rintro ⟨v, w, h, hv, hw⟩
          cases v with
          | nil => exact absurd (h ▸ hw) hno
          | cons x v =>
            cases h
            exact ⟨v, w, rfl, fun y hy => hv y (List.mem_cons_of_mem _ hy), hw⟩
      · refine ⟨false, if_neg fun h => htake h.2, nofun, ?_⟩
        rintro ⟨v, w, h, hv, hw⟩
        cases v with
        | nil => exact absurd (h ▸ hw) hno
        | cons x v =>
          cases h
          exact absurd ((hv t List.mem_cons_self).symm.imp_left Eq.symm) htake

theorem matchhere_char {d : UInt8} {P : List UInt8 → Prop}
    (hh : ∀ {ts : List UInt8}, 0 ∉ ts → Decides (matchhere (d :: re) (ts ++ [0])) (P ts))
    (hc : c ≠ 0) (hs : d ≠ star) (hd : ¬ (c = dollar ∧ d = 0)) (ht : 0 ∉ text) :
    Decides (matchhere (c :: d :: re) (text ++ [0])) (∃ t ts, text = t :: ts ∧ Item.Takes c t ∧ P ts) := by
  rw [matchhere, if_neg hc, if_neg hs]
  cases text with
  | nil =>
    refine ⟨false, (if_neg hd).trans (if_neg fun h => h.1 rfl), nofun, ?_⟩
    rintro ⟨t, ts, h, -⟩
    cases h
  | cons t ts =>
    have h0 : t ≠ 0 := fun h => ht (h ▸ List.mem_cons_self)
    by_cases htake : Item.Takes c t
    · obtain ⟨b, hb, hP⟩ := hh fun h => ht (List.mem_cons_of_mem t h)
      refine ⟨b, ((if_neg hd).trans (if_pos ⟨h0, htake⟩)).trans hb, hP.trans ⟨fun h => ⟨t, ts, rfl, htake, h⟩, ?_⟩⟩
      rintro ⟨t, ts, h, -, hts⟩
      cases h
      exact hts
    · refine ⟨false, (if_neg hd).trans (if_neg fun h => htake h.2), nofun, ?_⟩
      rintro ⟨t, ts, h, h', -⟩
      cases h
      exact absurd h' htake

theorem matchhere_decides (hre : 0 ∉ re) (ht : 0 ∉ text) :
    Decides (matchhere (re ++ [0]) (text ++ [0])) (Begins re text) := by
  induction re using items.induct generalizing text with
  | case1 => exact ⟨true, rfl, fun _ => begins_nil, fun _ => rfl⟩
  | case2 =>
    cases text with
    | nil => exact ⟨true, rfl, fun _ => begins_dollar.2 rfl, fun _ => rfl⟩
    | cons t ts =>
      have h0 : t ≠ 0 := fun h => ht (h ▸ List.mem_cons_self)
      refine ⟨false, congrArg some (decide_eq_false h0), nofun, fun h => ?_⟩
      cases begins_dollar.1 h
  | case3 c hd =>
    rw [begins_char (by decide) fun h => absurd h hd]
    exact matchhere_char (fun {ts} _ => ⟨true, rfl, fun _ => begins_nil, fun _ => rfl⟩)
      (fun h => hre (h ▸ List.mem_cons_self)) (by decide) (fun h => hd h.1) ht
  | case4 c re ih =>
    have hc : c ≠ 0 := fun h => hre (h ▸ List.mem_cons_self)
    have hstar : matchhere (c :: star :: re ++ [0]) (text ++ [0]) = matchstar (matchhere (re ++ [0])) c (text ++ [0]) :=
      (if_neg hc).trans (if_pos rfl)
    rw [hstar, begins_star]
    exact matchstar_decides (ih fun h => hre (List.mem_cons_of_mem _ (List.mem_cons_of_mem _ h))) ht
  | case5 c d re hs ih =>
    have hre' : 0 ∉ d :: re := fun h => hre (List.mem_cons_of_mem c h)
    have hiff : Begins (c :: d :: re) text ↔ _ := begins_char (fun h => hs (Option.some.inj h)) nofun
    rw [hiff]
    exact matchhere_char (ih hre') (fun h => hre (h ▸ List.mem_cons_self)) hs
      (fun h => hre' (h.2 ▸ List.mem_cons_self)) ht

/-- The loop of `match` is `.*` before the pattern. -/
theorem matchLoop_eq : matchLoop re (text ++ [0]) = matchstar (matchhere re) dot (text ++ [0]) := by
  induction text with
  | nil =>
    rw [List.nil_append, matchLoop, matchstar]
    simp
  | cons t ts ih =>
    rw [List.cons_append, matchLoop, matchstar, ih]
    simp

theorem matchLoop_decides (hre : 0 ∉ re) (ht : 0 ∉ text) :
    Decides (matchLoop (re ++ [0]) (text ++ [0])) (∃ u v, text = u ++ v ∧ Begins re v) := by
  obtain ⟨b, hb, hP⟩ := matchstar_decides (c := dot) (matchhere_decides hre) ht
  refine ⟨b, matchLoop_eq.trans hb, hP.trans ?_⟩
  simp [Item.Takes]

theorem matchRe_decides (hre : 0 ∉ re) (ht : 0 ∉ text) :
    Decides (matchRe (re ++ [0]) (text ++ [0])) (Describes re text) := by
  by_cases hcaret : re.head? = some caret
  · obtain ⟨re, rfl⟩ : ∃ re', re = caret :: re' := by
      cases re with
      | nil => cases hcaret
      | cons c re => exact ⟨re, by rw [Option.some.inj hcaret]⟩
    obtain ⟨b, hb, hP⟩ := matchhere_decides (fun h => hre (List.mem_cons_of_mem _ h)) ht
    refine ⟨b, hb, hP.trans ⟨?_, ?_⟩⟩
    · rintro ⟨v, w, rfl, hv, hw⟩
      exact ⟨[], v, w, rfl, hv, fun _ => rfl, hw⟩
    · rintro ⟨u, v, w, rfl, hv, hu, hw⟩
      cases hu rfl
      exact ⟨v, w, rfl, hv, hw⟩
  · obtain ⟨b, hb, hP⟩ := matchLoop_decides hre ht
    have hbody : body re = re := if_neg hcaret
    refine ⟨b, ?_, hP.trans ?_⟩
    · rw [← hb]
      cases re with
      | nil => rfl
      | cons c re => exact if_neg fun h => hcaret (congrArg some h)
    · rw [Describes, hbody]
      constructor
      · rintro ⟨u, _, rfl, v, w, rfl, hv, hw⟩
        exact ⟨u, v, w, (List.append_assoc ..).symm, hv, fun h => absurd h hcaret, hw⟩
      · rintro ⟨u, v, w, rfl, hv, -, hw⟩
        exact ⟨u, v ++ w, List.append_assoc .., v, w, rfl, hv, hw⟩

end

/-- The matcher returns, without a read past a NUL, and decides the language of its pattern. -/
theorem match_decides (re text : List UInt8) (hre : 0 ∉ re) (ht : 0 ∉ text) :
    Decides (matchRe (re ++ [0]) (text ++ [0])) (Describes re text) :=
  matchRe_decides hre ht

/-- `a.*b$` against `xaybb`. -/
theorem match_decides_anchored :
    Decides (matchRe [97, 46, 42, 98, 36, 0] [120, 97, 121, 98, 98, 0]) (Describes [97, 46, 42, 98, 36]
    [120, 97, 121, 98, 98]) :=
  match_decides [97, 46, 42, 98, 36] [120, 97, 121, 98, 98] (by decide) (by decide)

/-! ## The buffer -/

def newline : UInt8 := 10

/-- `strchr(p, c)`: what stands before the character, and the pointer behind it. -/
def strchr (c : UInt8) : Ptr → Option (List UInt8 × Ptr)
  | [] => none
  | t :: s =>
    if t = 0 then none
    else if t = c then some ([], s)
    else (strchr c s).map fun x => (t :: x.1, x.2)

/-- The inner loop: what it writes, and `p` at its end.  The newline at `q` is a NUL while
`match` runs, and stays one if the line does not match; `p` is behind it then. -/
def grepLines (re : Ptr) : Nat → Ptr → Option (List UInt8 × Ptr)
  | 0, _ => none
  | n + 1, p =>
    match strchr newline p with
    | none => some ([], p)
    | some (s, q) => do
      let hit ← matchRe re (s ++ [0])
      let (out, p) ← grepLines re n q
      return (if hit then s ++ newline :: out else out, p)

/-- `grep(pattern, fd)`, when `buf` has `m` bytes in it.  Read number `i` gets `split i` bytes, but
one at least and not more than it asks for. -/
def grep (re : Ptr) (split : Nat → Nat) : Nat → Nat → List UInt8 → List UInt8 → Option (List UInt8)
  | 0, _, _, _ => none
  | fuel + 1, i, buf, input =>
    let n := min (max (split i) 1) (1024 - buf.length - 1)
    let got := input.take n
    if got = [] then some []
    else do
      let (out, p) ← grepLines re ((buf ++ got).length + 1) (buf ++ got ++ [0])
      -- `m -= p - buf`: the NUL at `buf[m]` is not moved
      let rest ← grep re split fuel (i + 1) p.dropLast (input.drop n)
      return out ++ rest

def Clean (l : List UInt8) : Prop := 0 ∉ l ∧ newline ∉ l

def unlines (ls : List (List UInt8)) : List UInt8 := ls.flatMap (· ++ [newline])

open Classical in
noncomputable def matching (re : List UInt8) (ls : List (List UInt8)) :
  List (List UInt8) := ls.filter fun l => Describes re l

section
variable {re l r s : List UInt8} {ls : List (List UInt8)} {split : Nat → Nat}

@[simp]
theorem unlines_cons : unlines (l :: ls) = l ++ newline :: unlines ls := by
  simp [unlines]

theorem strchr_append (h : Clean l) : strchr newline (l ++ s) = (strchr newline s).map fun x => (l ++ x.1, x.2) := by
  induction l with
  | nil => simp
  | cons t l ih =>
    simp only [Clean, List.mem_cons, not_or] at h
    simp [strchr, Ne.symm h.1.1, Ne.symm h.2.1, ih ⟨h.1.2, h.2.2⟩, Function.comp_def]

theorem grepLines_matching (hre : 0 ∉ re) (hr : Clean r) (hls : ∀ l ∈ ls, Clean l) {n : Nat}
    (hn : (unlines ls).length < n) :
    grepLines (re ++ [0]) n (unlines ls ++ (r ++ [0])) = some (unlines (matching re ls), r ++ [0]) := by
  induction ls generalizing n with
  | nil =>
    obtain ⟨n, rfl⟩ := Nat.exists_eq_add_of_lt hn
    rw [grepLines, unlines, List.flatMap_nil, List.nil_append, strchr_append hr]
    rfl
  | cons l ls ih =>
    obtain ⟨n, rfl⟩ := Nat.exists_eq_add_of_lt hn
    obtain ⟨hl, hls⟩ := List.forall_mem_cons.mp hls
    obtain ⟨b, hb, hP⟩ := matchRe_decides hre hl.1
    have hstr : strchr newline (newline :: (unlines ls ++ (r ++ [0]))) = some ([], unlines ls ++ (r ++ [0])) := rfl
    rw [grepLines, unlines_cons, List.append_assoc, List.cons_append, strchr_append hl, hstr]
    have hlen : (unlines ls).length < (unlines (l :: ls)).length + n := by
      simp only [unlines_cons, List.length_append, List.length_cons]
      omega
    simp only [← unlines_cons, Option.map_some, List.append_nil, hb, ih hls hlen]
    cases b with
    | true => simp [matching, hP.mp rfl]
    | false => simp [matching, show ¬ Describes re l from fun h => nomatch hP.mpr h]

/-- The bytes in the buffer are some lines, and the beginning of the next one. -/
theorem lines_cut (h : r ++ s = unlines ls) :
    ∃ ls₁ ls₂ t, ls = ls₁ ++ ls₂ ∧ r = unlines ls₁ ++ t ∧ t <+: ls₂.headD [] ∧ t ++ s = unlines ls₂ := by
  induction ls generalizing r with
  | nil =>
    obtain ⟨rfl, rfl⟩ := List.append_eq_nil_iff.mp h
    exact ⟨[], [], [], rfl, rfl, List.prefix_rfl, rfl⟩
  | cons l ls ih =>
    rw [unlines_cons] at h
    rcases List.append_eq_append_iff.mp h with ⟨a, rfl, rfl⟩ | ⟨a, rfl, ha⟩
    · exact ⟨[], (r ++ a) :: ls, r, rfl, rfl, List.prefix_append r a, by simp⟩
    · cases a with
      | nil =>
        exact ⟨[], l :: ls, l, rfl, List.append_nil l, List.prefix_rfl, by rw [unlines_cons, ha, List.nil_append]⟩
      | cons b a =>
        obtain ⟨rfl, hrest⟩ := List.cons_eq_cons.mp ha
        obtain ⟨ls₁, ls₂, t, rfl, rfl, ht, hs⟩ := ih hrest.symm
        exact ⟨l :: ls₁, ls₂, t, rfl, by simp, ht, hs⟩

/-- A line that fits into `buf`, with its newline and a NUL. -/
def fits (l : List UInt8) : Bool := l.length + 1 < 1024

theorem clean_of_head (h : ∀ l ∈ ls, Clean l) (hr : r <+: ls.headD []) : Clean r := by
  have hhead : Clean (ls.headD []) := by
    cases ls with
    | nil => exact ⟨nofun, nofun⟩
    | cons l ls => exact h l List.mem_cons_self
  exact ⟨fun hm => hhead.1 (hr.subset hm), fun hm => hhead.2 (hr.subset hm)⟩

theorem length_of_mem_unlines (h : l ∈ ls) : l.length + 1 ≤ (unlines ls).length := by
  obtain ⟨a, b, rfl⟩ := List.append_of_mem h
  simp only [unlines, List.flatMap_append, List.flatMap_cons, List.length_append, List.length_singleton]
  omega

theorem grep_matching (hre : 0 ∉ re) (fuel : Nat) : ∀ (i : Nat) (ls : List (List UInt8)) (buf input : List UInt8),
    (∀ l ∈ ls, Clean l) → buf <+: ls.headD [] → buf.length < 1024 → buf ++ input = unlines ls → input.length < fuel →
      grep (re ++ [0]) split fuel i buf input = some (unlines (matching re (ls.takeWhile fits))) := by
  induction fuel with
  | zero => exact fun _ _ _ _ _ _ _ _ h => absurd h (Nat.not_lt_zero _)
  | succ fuel ih =>
    intro i ls buf input hls hbuf hroom hin hfuel
    unfold grep
    dsimp only
    generalize hn : min (max (split i) 1) (1024 - buf.length - 1) = n
    split
    · next hgot =>
      cases ls with
      | nil => rfl
      | cons l ls =>
        have hlen : buf.length ≤ l.length := hbuf.length_le
        -- a read of no byte: the line fills the buffer, as there is input left
        have hlong : ¬fits l := by
          rcases List.take_eq_nil_iff.mp hgot with hfull | rfl
          · simp only [fits, decide_eq_true_eq]
            omega
          · have hin := congrArg List.length hin
            simp only [unlines_cons, List.length_append, List.length_cons, List.length_nil] at hin
            omega
        rw [List.takeWhile_cons_of_neg hlong]
        rfl
    · next hgot =>
      obtain ⟨ls₁, ls₂, t, rfl, ht, hpre, hs⟩ := lines_cut (r := buf ++ input.take n) (s := input.drop n)
        (by simpa using hin)
      have hls₂ : ∀ l ∈ ls₂, Clean l := fun l hl => hls l (List.mem_append_right _ hl)
      have hbytes : (unlines ls₁).length + t.length = buf.length + (input.take n).length := by
        rw [← List.length_append, ← ht, List.length_append]
      have htake := List.length_take_le n input
      have hlines := grepLines_matching hre (clean_of_head hls₂ hpre) (fun l hl => hls l (List.mem_append_left _ hl))
        (show (unlines ls₁).length < (buf ++ input.take n).length + 1 by rw [List.length_append]; omega)
      rw [← List.append_assoc, ← ht] at hlines
      have hshort : (input.drop n).length < fuel := by
        have hpos := List.length_pos_iff.mpr fun h : input = [] => hgot (by rw [h, List.take_nil])
        have hn0 : n ≠ 0 := fun h => hgot (by rw [h, List.take_zero])
        rw [List.length_drop]
        omega
      have hfit : ∀ l ∈ ls₁, fits l := by
        intro l hl
        have := length_of_mem_unlines hl
        simp only [fits, decide_eq_true_eq]
        omega
      have hrest := ih (i + 1) ls₂ t (input.drop n) hls₂ hpre (by omega) hs hshort
      rw [hlines, List.takeWhile_append_of_pos hfit]
      simp [hrest, matching, unlines]

end

/-- **What `grep` writes**, however its input is split: the lines that match, up to the first one that does not fit.
These are all lines that match exactly if none of the others does. -/
theorem grep_writes_matching (re : List UInt8) (ls : List (List UInt8)) (split : Nat → Nat) (hre : 0 ∉ re)
    (hls : ∀ l ∈ ls, Clean l) (n : Nat) (hn : (unlines ls).length < n) :
    grep (re ++ [0]) split n 0 [] (unlines ls) = some (unlines (matching re (ls.takeWhile fits))) ∧
    (grep (re ++ [0]) split n 0 [] (unlines ls) = some (unlines (matching re ls)) ↔
      ∀ l ∈ ls.dropWhile fits, ¬Describes re l) := by
  have hrun := @grep_matching re split hre n 0 ls [] (unlines ls) hls List.nil_prefix (by decide) rfl hn
  refine ⟨hrun, ?_⟩
  have hparts : unlines (matching re ls) =
      unlines (matching re (ls.takeWhile fits)) ++ unlines (matching re (ls.dropWhile fits)) := by
    simp only [matching, unlines, ← List.flatMap_append, ← List.filter_append, List.takeWhile_append_dropWhile]
  rw [hrun, hparts, Option.some_inj, List.self_eq_append_right]
  simp [matching, unlines]

/-- `a` against `ab`, `c` and a line that does not fit, two bytes at a time. -/
theorem grep_writes_matching_two :
    grep [97, 0] (fun _ => 2) 1030 0 [] (unlines [[97, 98], [99], List.replicate 1023 98]) =
      some (unlines (matching [97] [[97, 98], [99], List.replicate 1023 98])) := by
  obtain ⟨b, hb, hP⟩ := @matchRe_decides [97] (List.replicate 1023 98) (by decide)
    (fun h => nomatch List.eq_of_mem_replicate h)
  have hno : matchRe [97, 0] (List.replicate 1023 98 ++ [0]) = some false := by decide +kernel
  obtain rfl : false = b := Option.some.inj (hno.symm.trans hb)
  have hclean : ∀ n, ∀ l ∈ [[97, 98], [99], List.replicate n 98], Clean l := by
    simp [Clean, newline, List.mem_replicate]
  refine (grep_writes_matching [97] [[97, 98], [99], List.replicate 1023 98] (fun _ => 2) (by decide) (hclean 1023) 1030
    (by decide +kernel)).2.mpr fun l hl => ?_
  have hrest : [[97, 98], [99], List.replicate 1023 98].dropWhile fits = [List.replicate 1023 98] := by decide +kernel
  rw [hrest, List.mem_singleton] at hl
  exact fun hd => nomatch hP.mpr (hl ▸ hd)

/-- A line of 1023 bytes fills `buf`: the next read asks for no byte, and nothing is written. -/
theorem grep_long_line : grep [97, 0] (fun _ => 1023) 1025 0 [] (unlines [List.replicate 1023 97]) = some [] ∧
    matching [97] [List.replicate 1023 97] = [List.replicate 1023 97] := by
  obtain ⟨b, hb, hP⟩ := @matchRe_decides [97] (List.replicate 1023 97) (by decide)
    (fun h => nomatch List.eq_of_mem_replicate h)
  obtain rfl : true = b := Option.some.inj (Eq.trans rfl hb)
  refine ⟨by decide +kernel, ?_⟩
  have hd := hP.mp rfl
  generalize List.replicate 1023 (97 : UInt8) = l at hd ⊢
  simp [matching, hd]

end Xv6.Grep
