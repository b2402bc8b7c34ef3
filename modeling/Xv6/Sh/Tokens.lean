import Mathlib.Data.List.Basic
import Xv6.Sh.Parse

/-!
# The parser over tokens

The parser looks at a line only through `tokens`: `peek` sees the first token
(`peek_cons`), and `gettoken` removes it (`gettoken_cons`).  So it does what a
parser over tokens does (`line`, `pipe` and `exec` below), function by function.
-/

namespace Xv6.Sh

open Fs (O_RDONLY O_WRONLY O_CREATE O_TRUNC)

/-! ## Tokens -/

/-- Redirections: `<`, `>` and `>>`. -/
inductive Redir
  | input
  | output
  | append
  deriving DecidableEq

/-- Tokens; a word is a maximal run of characters that are neither white space nor
symbols. -/
inductive Tok
  | redir (op : Redir)
  | bar
  | amp
  | semi
  | lpar
  | rpar
  | word (w : List UInt8)

def symbol (c : UInt8) : Option Tok :=
  if c = 60 then some (.redir .input)
  else if c = 124 then some .bar
  else if c = 38 then some .amp
  else if c = 59 then some .semi
  else if c = 40 then some .lpar
  else if c = 41 then some .rpar
  else none

def tokens : List UInt8 → List Tok
  | [] => []
  | c :: s =>
    if whitespace.contains c then tokens s
    else if c = 62 then
      if s.headD 0 = 62 then .redir .append :: tokens s.tail else .redir .output :: tokens s
    else
      match symbol c with
      | some t => t :: tokens s
      | none => .word (c :: s.takeWhile isWord) :: tokens (s.dropWhile isWord)
  termination_by s => s.length
  decreasing_by
    · exact Nat.lt_succ_self _
    · have := s.length_tail
      simp only [List.length_cons]
      omega
    · exact Nat.lt_succ_self _
    · exact Nat.lt_succ_self _
    · have := (List.dropWhile_sublist (l := s) isWord).length_le
      simp only [List.length_cons]
      omega

def Redir.mode : Redir → Nat
  | .input => O_RDONLY
  | .output => O_WRONLY ||| O_CREATE ||| O_TRUNC
  | .append => O_WRONLY ||| O_CREATE

def Redir.fd : Redir → Nat
  | .input => 0
  | .output => 1
  | .append => 1

abbrev Word := List UInt8

/-! ## `gettoken` and `peek` -/

theorem tokens_nil : tokens [] = [] := by rw [tokens]

variable {s : Ptr} {ts : List Tok} {c : UInt8}

theorem tokens_space (h : whitespace.contains c = true) (s : Ptr) : tokens (c :: s) = tokens s := by
  rw [tokens, if_pos h]

theorem tokens_skip (s : Ptr) : tokens (skip s) = tokens s := by
  induction s with
  | nil => rfl
  | cons c s ih =>
    unfold skip at ih ⊢
    by_cases h : whitespace.contains c = true
    · rw [List.dropWhile_cons_of_pos h, ih, tokens_space h]
    · rw [List.dropWhile_cons_of_neg h]

theorem skip_cons {r : Ptr} (h : skip s = c :: r) : whitespace.contains c = false := by
  have := List.head?_dropWhile_not (fun c => whitespace.contains c) s
  unfold skip at h
  rw [h] at this
  simpa using this

/-- The first character of a token. -/
def Tok.char : Tok → UInt8
  | .redir .input => 60
  | .redir .output => 62
  | .redir .append => 62
  | .bar => 124
  | .amp => 38
  | .semi => 59
  | .lpar => 40
  | .rpar => 41
  | .word w => w.headD 0

def Tok.code : Tok → UInt8
  | .redir .append => 43
  | .word _ => 97
  | t => t.char

def Span.word (w : Span) : Word := w.q.take (w.q.length - w.eq.length)

theorem tokens_nil_iff : tokens s = [] ↔ skip s = [] := by
  rw [← tokens_skip]
  constructor
  · intro h
    cases hs : skip s with
    | nil => rfl
    | cons c r =>
      rw [hs, tokens, if_neg (by rw [skip_cons hs]; simp)] at h
      split at h <;> split at h <;> cases h
  · intro h
    rw [h, tokens]

theorem symbol_some {t : Tok} (h : symbol c = some t) :
    [124, 40, 41, 59, 38, 60].contains c = true ∧ t.code = c ∧ t.char = c ∧ ∀ w, t ≠ .word w := by
  unfold symbol at h
  split_ifs at h with h1 h2 h3 h4 h5 h6 <;> cases h <;> subst c <;> exact ⟨by decide, rfl, rfl, fun w hc => by cases hc⟩

theorem symbol_none (h : symbol c = none) (h0 : c ≠ 62) :
    [124, 40, 41, 59, 38, 60].contains c = false ∧ symbols.contains c = false := by
  unfold symbol at h
  split_ifs at h with h1 h2 h3 h4 h5 h6
  simp [symbols, h0, h1, h2, h3, h4, h5, h6]

theorem take_dropWhile (f : UInt8 → Bool) (s : List UInt8) : s.take (s.length - (s.dropWhile f).length) =
    s.takeWhile f := by
  have h : s = s.takeWhile f ++ s.dropWhile f := List.takeWhile_append_dropWhile.symm
  have hlen : s.length - (s.dropWhile f).length = (s.takeWhile f).length := by
    have := congrArg List.length h
    rw [List.length_append] at this
    omega
  have htake : (s.takeWhile f ++ s.dropWhile f).take (s.takeWhile f).length = s.takeWhile f := List.take_left
  rw [← h] at htake
  rw [hlen, htake]

theorem gettoken_nil (h : tokens s = []) : gettoken s = ⟨0, [], [], []⟩ := by
  unfold gettoken
  rw [tokens_nil_iff.mp h]
  rfl

theorem gettoken_cons {t : Tok} (h : tokens s = t :: ts) : (gettoken s).ret = t.code ∧ tokens (gettoken s).ps = ts ∧
      ∀ w, t = .word w → Span.word ⟨(gettoken s).q, (gettoken s).eq⟩ = w := by
  rw [← tokens_skip] at h
  unfold gettoken
  cases hs : skip s with
  | nil =>
    rw [hs, tokens] at h
    cases h
  | cons c r =>
    have hspace := skip_cons hs
    rw [hs, tokens, if_neg (by rw [hspace]; simp)] at h
    by_cases h62 : c = 62
    · subst h62
      rw [if_pos rfl] at h
      simp only [show [124, 40, 41, 59, 38, 60].contains (62 : UInt8) = false from rfl, if_true,
        Bool.false_eq_true, if_false]
      split at h <;> cases h
      · next h2 =>
        rw [if_pos h2]
        exact ⟨rfl, tokens_skip _, fun w hc => by cases hc⟩
      · next h2 =>
        rw [if_neg h2]
        exact ⟨rfl, tokens_skip _, fun w hc => by cases hc⟩
    · rw [if_neg h62] at h
      split at h
      · next t' ht =>
        cases h
        obtain ⟨h1, h2, -, h3⟩ := symbol_some ht
        simp only [h1, if_true]
        exact ⟨h2.symm, tokens_skip _, fun w hc => absurd hc (h3 w)⟩
      · next ht =>
        cases h
        obtain ⟨h1, h2⟩ := symbol_none ht h62
        have hword : isWord c = true := by rw [isWord, hspace, h2]; rfl
        simp only [h1, h62, Bool.false_eq_true, if_false]
        refine ⟨rfl, ?_, fun w hw => ?_⟩
        · rw [tokens_skip, List.dropWhile_cons_of_pos hword]
        · cases hw
          rw [Span.word, take_dropWhile, List.takeWhile_cons_of_pos hword]

theorem peek_snd (s : Ptr) (toks : List UInt8) : (peek s toks).2 = skip s := by
  unfold peek
  split <;> simp_all

theorem peek_nil (h : tokens s = []) (toks : List UInt8) : peek s toks = (false, []) := by
  unfold peek
  rw [tokens_nil_iff.mp h]

theorem peek_cons {t : Tok} (h : tokens s = t :: ts) (toks : List UInt8) :
    peek s toks = (toks.contains t.char, skip s) := by
  rw [← tokens_skip] at h
  unfold peek
  cases hs : skip s with
  | nil =>
    rw [hs, tokens] at h
    cases h
  | cons c r =>
    rw [hs, tokens, if_neg (by rw [skip_cons hs]; simp)] at h
    suffices t.char = c by rw [this]
    by_cases h62 : c = 62
    · subst h62
      rw [if_pos rfl] at h
      split at h <;> cases h <;> rfl
    · rw [if_neg h62] at h
      split at h
      · next t' ht =>
        cases h
        exact (symbol_some ht).2.2.1
      · cases h
        rfl

theorem word_char {w : Word} (h : tokens s = .word w :: ts) : symbols.contains (Tok.word w).char = false := by
  rw [← tokens_skip] at h
  cases hs : skip s with
  | nil =>
    rw [hs, tokens] at h
    cases h
  | cons c r =>
    rw [hs, tokens, if_neg (by rw [skip_cons hs]; simp)] at h
    split at h
    · split at h <;> cases h
    · next h62 =>
      split at h
      · next t ht =>
        have := (symbol_some ht).2.2.2 w
        cases h
        exact absurd rfl this
      · next ht =>
        cases h
        exact (symbol_none ht h62).2

theorem word_peek {w : Word} (h : tokens s = .word w :: ts) {toks : List UInt8}
    (hsub : ∀ c ∈ toks, c ∈ symbols) : toks.contains (Tok.word w).char = false := by
  have hno := word_char h
  rw [← Bool.not_eq_true, List.contains_iff_mem] at hno ⊢
  exact fun hc => hno (hsub _ hc)

/-! ## The parser -/

def Cmd.map {W V : Type} (f : W → V) : Cmd W → Cmd V
  | .exec argv => .exec (argv.map f)
  | .redir cmd file mode fd => .redir (cmd.map f) (f file) mode fd
  | .pipe left right => .pipe (left.map f) (right.map f)
  | .list left right => .list (left.map f) (right.map f)
  | .back cmd => .back (cmd.map f)

abbrev Result := Except Stop (Cmd Word × List Tok)

def redirs : Nat → Cmd Word → List Tok → Result
  | 0, _, _ => .error .fuel
  | fuel + 1, c, .redir op :: .word w :: ts => redirs fuel (.redir c w op.mode op.fd) ts
  | _ + 1, _, .redir _ :: _ => .error .missingFile
  | _ + 1, c, ts => .ok (c, ts)

def args : Nat → Nat → Cmd Word → List Tok → Result
  | 0, _, _, _ => .error .fuel
  | fuel + 1, n, c, .word w :: ts =>
    if MAXARGS ≤ n + 1 then .error .tooManyArgs
    else
      match redirs fuel (addArg w c) ts with
      | .error e => .error e
      | .ok (c, ts) => args fuel (n + 1) c ts
  | _ + 1, _, _, .redir _ :: _ => .error .badSyntax
  | _ + 1, _, _, .lpar :: _ => .error .badSyntax
  | _ + 1, _, c, ts => .ok (c, ts)

def amps : Nat → Cmd Word → List Tok → Result
  | 0, _, _ => .error .fuel
  | fuel + 1, c, .amp :: ts => amps fuel (.back c) ts
  | _ + 1, c, ts => .ok (c, ts)

theorem amps_other {fuel : Nat} {c : Cmd Word} (h : ∀ ts', ts ≠ .amp :: ts') : amps (fuel + 1) c ts = .ok (c, ts) := by
  cases ts with
  | nil => rfl
  | cons t ts => cases t <;> first | rfl | exact absurd rfl (h _)

mutual

def line : Nat → List Tok → Result
  | 0, _ => .error .fuel
  | fuel + 1, ts =>
    match pipe fuel ts with
    | .error e => .error e
    | .ok (c, ts) =>
      match amps fuel c ts with
      | .error e => .error e
      | .ok (c, .semi :: ts) =>
        match line fuel ts with
        | .error e => .error e
        | .ok (c', ts) => .ok (.list c c', ts)
      | .ok (c, ts) => .ok (c, ts)

def pipe : Nat → List Tok → Result
  | 0, _ => .error .fuel
  | fuel + 1, ts =>
    match exec fuel ts with
    | .error e => .error e
    | .ok (c, .bar :: ts) =>
      match pipe fuel ts with
      | .error e => .error e
      | .ok (c', ts) => .ok (.pipe c c', ts)
    | .ok (c, ts) => .ok (c, ts)

def exec : Nat → List Tok → Result
  | 0, _ => .error .fuel
  | fuel + 1, .lpar :: ts => block fuel (.lpar :: ts)
  | fuel + 1, ts =>
    match redirs fuel (.exec []) ts with
    | .error e => .error e
    | .ok (c, ts) => args fuel 0 c ts

def block : Nat → List Tok → Result
  | 0, _ => .error .fuel
  | fuel + 1, .lpar :: ts =>
    match line fuel ts with
    | .error e => .error e
    | .ok (c, .rpar :: ts) => redirs fuel c ts
    | .ok _ => .error .missingParen
  | _ + 1, _ => .error .parseblock

end

theorem exec_other {fuel : Nat} (h : ∀ ts', ts ≠ .lpar :: ts') : exec (fuel + 1) ts =
      match redirs fuel (.exec []) ts with
      | .error e => .error e
      | .ok (c, ts) => args fuel 0 c ts := by
  cases ts with
  | nil => rfl
  | cons t ts => cases t <;> first | rfl | exact absurd rfl (h _)

/-- What the parser over tokens sees of a result. -/
def view (r : Except Stop (Cmd Span × Ptr)) : Result := r.map fun x => (x.1.map Span.word, tokens x.2)

theorem map_redircmd {op : Redir} {cmd : Cmd Span} {file : Span} :
    (redircmd (Tok.redir op).code cmd file).map Span.word = .redir (cmd.map Span.word) file.word op.mode op.fd := by
  cases op <;> rfl

theorem map_addArg (w : Span) (cmd : Cmd Span) : (addArg w cmd).map Span.word = addArg w.word (cmd.map Span.word) := by
  induction cmd with
  | exec argv => simp [addArg, Cmd.map]
  | redir cmd file mode fd ih => simp only [addArg, Cmd.map, ih]
  | pipe | list | back => rfl

theorem parseredirs_view (fuel : Nat) : ∀ (cmd : Cmd Span) (s : Ptr),
    view (parseredirs fuel cmd s) = redirs fuel (cmd.map Span.word) (tokens s) := by
  induction fuel with
  | zero => exact fun _ _ => rfl
  | succ fuel ih =>
    intro cmd s
    unfold parseredirs
    cases hs : tokens s with
    | nil =>
      rw [peek_nil hs]
      show Except.ok (_, tokens []) = _
      rw [tokens_nil]
      rfl
    | cons t ts =>
      rw [peek_cons hs]
      cases t with
      | redir op =>
        have hmore : [60, 62].contains (Tok.redir op).char = true := by cases op <;> rfl
        obtain ⟨h1, h2, -⟩ := gettoken_cons (tokens_skip s ▸ hs)
        simp only [hmore, if_true, h1]
        cases ts with
        | nil =>
          rw [gettoken_nil h2]
          rfl
        | cons t' ts =>
          obtain ⟨h3, h4, h5⟩ := gettoken_cons h2
          cases t' with
          | word w =>
            rw [if_neg (by rw [h3]; simp [Tok.code]), ih, h4, map_redircmd, h5 w rfl]
            rfl
          | redir op' =>
            rw [if_pos (by rw [h3]; cases op' <;> decide)]
            rfl
          | bar | amp | semi | lpar | rpar =>
            rw [if_pos (by rw [h3]; decide)]
            rfl
      | word w =>
        have hno : [60, 62].contains (Tok.word w).char = false := word_peek hs (by simp [symbols])
        simp only [hno, Bool.false_eq_true, if_false]
        show Except.ok (_, tokens (skip s)) = _
        rw [tokens_skip, hs]
        rfl
      | bar | amp | semi | lpar | rpar =>
        show Except.ok (_, tokens (skip s)) = _
        rw [tokens_skip, hs]
        rfl

theorem parseargs_view (fuel : Nat) : ∀ (n : Nat) (cmd : Cmd Span) (s : Ptr),
    view (parseargs fuel n cmd s) = args fuel n (cmd.map Span.word) (tokens s) := by
  induction fuel with
  | zero => exact fun _ _ _ => rfl
  | succ fuel ih =>
    intro n cmd s
    unfold parseargs
    cases hs : tokens s with
    | nil =>
      rw [peek_nil hs]
      show Except.ok (_, tokens []) = _
      rw [tokens_nil]
      rfl
    | cons t ts =>
      rw [peek_cons hs]
      obtain ⟨h1, h2, h3⟩ := gettoken_cons (tokens_skip s ▸ hs)
      cases t with
      | word w =>
        have hno : [124, 41, 38, 59].contains (Tok.word w).char = false := word_peek hs (by simp [symbols])
        have hret : (gettoken (skip s)).ret = 97 := h1
        simp only [hno, Bool.false_eq_true, if_false, hret, args]
        rw [if_neg (by decide), if_neg (by decide)]
        split
        · rfl
        · have hr := parseredirs_view fuel (addArg ⟨(gettoken (skip s)).q, (gettoken (skip s)).eq⟩ cmd)
            (gettoken (skip s)).ps
          rw [h2, map_addArg, h3 w rfl] at hr
          rw [← hr]
          cases parseredirs fuel (addArg ⟨(gettoken (skip s)).q, (gettoken (skip s)).eq⟩ cmd)
            (gettoken (skip s)).ps with
          | error e => rfl
          | ok x => exact ih (n + 1) x.1 x.2
      | redir op =>
        have hstop : [124, 41, 38, 59].contains (Tok.redir op).char = false := by cases op <;> rfl
        simp only [hstop, Bool.false_eq_true, if_false, h1]
        cases op <;> rfl
      | lpar =>
        simp only [h1]
        rfl
      | bar | amp | semi | rpar =>
        show Except.ok (_, tokens (skip s)) = _
        rw [tokens_skip, hs]
        rfl

/-- Tokens that `peek` can tell by their character. -/
def Tok.Single : Tok → Prop
  | .bar | .amp | .semi | .lpar | .rpar => True
  | _ => False

theorem peek_single (t0 : Tok) (h0 : t0.Single) (s : Ptr) :
    (∃ ts, tokens s = t0 :: ts ∧ ∃ s', peek s [t0.char] = (true, s') ∧ tokens s' = tokens s ∧
    tokens (gettoken s').ps = ts) ∨
      (∀ ts, tokens s ≠ t0 :: ts) ∧ ∃ s', peek s [t0.char] = (false, s') ∧ tokens s' = tokens s := by
  cases hs : tokens s with
  | nil => exact Or.inr ⟨fun ts hc => (by cases hc), [], peek_nil hs _, tokens_nil⟩
  | cons t ts =>
    have hpeek := peek_cons hs [t0.char]
    have hskip : tokens (skip s) = t :: ts := (tokens_skip s).trans hs
    by_cases ht : t = t0
    · subst ht
      refine Or.inl ⟨ts, rfl, skip s, ?_, hskip, (gettoken_cons hskip).2.1⟩
      rw [hpeek]
      simp
    · refine Or.inr ⟨fun ts' hc => ht (List.cons.inj hc).1, skip s, ?_, hskip⟩
      rw [hpeek]
      refine congrArg (·, skip s) ?_
      cases t with
      | word w => exact word_peek hs (by cases t0 <;> first | exact h0.elim | simp [Tok.char, symbols])
      | redir op => cases op <;> cases t0 <;> first | exact h0.elim | rfl
      | bar | amp | semi | lpar | rpar => cases t0 <;> first | exact h0.elim | exact absurd rfl ht | rfl

theorem parsebacks_view (fuel : Nat) : ∀ (cmd : Cmd Span) (s : Ptr),
    view (parsebacks fuel cmd s) = amps fuel (cmd.map Span.word) (tokens s) := by
  induction fuel with
  | zero => exact fun _ _ => rfl
  | succ fuel ih =>
    intro cmd s
    unfold parsebacks
    rcases peek_single .amp trivial s with ⟨ts, hs, s', hp, -, hts⟩ | ⟨hno, s', hp, hs'⟩
    · have := ih (.back cmd) (gettoken s').ps
      rw [hts] at this
      rw [show peek s [38] = (true, s') from hp, hs]
      exact this
    · rw [show peek s [38] = (false, s') from hp, amps_other hno]
      show Except.ok (_, tokens s') = _
      rw [hs']

theorem parse_view (fuel : Nat) : ∀ s : Ptr,
    view (parseline fuel s) = line fuel (tokens s) ∧ view (parsepipe fuel s) = pipe fuel (tokens s) ∧
      view (parseexec fuel s) = exec fuel (tokens s) ∧ view (parseblock fuel s) = block fuel (tokens s) := by
  induction fuel with
  | zero => exact fun _ => ⟨rfl, rfl, rfl, rfl⟩
  | succ fuel ih =>
    intro s
    refine ⟨?_, ?_, ?_, ?_⟩
    · rw [parseline, line, ← (ih s).2.1]
      cases parsepipe fuel s with
      | error e => rfl
      | ok x =>
        obtain ⟨c, s1⟩ := x
        dsimp only [view, Except.map]
        rw [← parsebacks_view]
        cases parsebacks fuel c s1 with
        | error e => rfl
        | ok y =>
          obtain ⟨c1, s2⟩ := y
          dsimp only [view, Except.map]
          rcases peek_single .semi trivial s2 with ⟨ts, hs, s', hp, -, hts⟩ | ⟨hno, s', hp, hs'⟩
          · have hl := (ih (gettoken s').ps).1
            rw [hts] at hl
            rw [show peek s2 [59] = (true, s') from hp, hs]
            dsimp only
            rw [← hl]
            cases parseline fuel (gettoken s').ps <;> rfl
          · rw [show peek s2 [59] = (false, s') from hp]
            show Except.ok (_, tokens s') = _
            rw [hs']
            generalize tokens s2 = ts at hno
            cases ts with
            | nil => rfl
            | cons t ts => cases t <;> first | rfl | exact absurd rfl (hno _)
    · rw [parsepipe, pipe, ← (ih s).2.2.1]
      cases parseexec fuel s with
      | error e => rfl
      | ok x =>
        obtain ⟨c, s1⟩ := x
        dsimp only [view, Except.map]
        rcases peek_single .bar trivial s1 with ⟨ts, hs, s', hp, -, hts⟩ | ⟨hno, s', hp, hs'⟩
        · have hl := (ih (gettoken s').ps).2.1
          rw [hts] at hl
          rw [show peek s1 [124] = (true, s') from hp, hs]
          dsimp only
          rw [← hl]
          cases parsepipe fuel (gettoken s').ps <;> rfl
        · rw [show peek s1 [124] = (false, s') from hp]
          show Except.ok (_, tokens s') = _
          rw [hs']
          generalize tokens s1 = ts at hno
          cases ts with
          | nil => rfl
          | cons t ts => cases t <;> first | rfl | exact absurd rfl (hno _)
    · rw [parseexec]
      rcases peek_single .lpar trivial s with ⟨ts, hs, s', hp, hs', -⟩ | ⟨hno, s', hp, hs'⟩
      · rw [show peek s [40] = (true, s') from hp]
        have hb := (ih s').2.2.2
        rw [hs', hs] at hb
        rw [hs]
        exact hb
      · rw [show peek s [40] = (false, s') from hp, exec_other hno]
        simp only [Bool.false_eq_true, if_false]
        have hr := parseredirs_view fuel (.exec []) s'
        rw [hs'] at hr
        rw [show redirs fuel (.exec []) (tokens s) = _ from hr.symm]
        cases parseredirs fuel (.exec []) s' with
        | error e => rfl
        | ok x => exact parseargs_view fuel 0 x.1 x.2
    · rw [parseblock]
      rcases peek_single .lpar trivial s with ⟨ts, hs, s', hp, hs', hts⟩ | ⟨hno, s', hp, hs'⟩
      · have hl := (ih (gettoken s').ps).1
        rw [hts] at hl
        rw [show peek s [40] = (true, s') from hp, hs, block, ← hl]
        simp only [Bool.not_true, Bool.false_eq_true, if_false]
        cases parseline fuel (gettoken s').ps with
        | error e => rfl
        | ok x =>
          obtain ⟨c, s1⟩ := x
          dsimp only [view, Except.map]
          rcases peek_single .rpar trivial s1 with ⟨ts', hs1, s2, hp1, -, hts1⟩ | ⟨hno, s2, hp1, -⟩
          · rw [show peek s1 [41] = (true, s2) from hp1, hs1]
            have hr := parseredirs_view fuel c (gettoken s2).ps
            rw [hts1] at hr
            exact hr
          · rw [show peek s1 [41] = (false, s2) from hp1]
            generalize tokens s1 = ts at hno
            cases ts with
            | nil => rfl
            | cons t ts => cases t <;> first | rfl | exact absurd rfl (hno _)
      · rw [show peek s [40] = (false, s') from hp]
        generalize tokens s = ts at hno
        cases ts with
        | nil => rfl
        | cons t ts => cases t <;> first | rfl | exact absurd rfl (hno _)

end Xv6.Sh
