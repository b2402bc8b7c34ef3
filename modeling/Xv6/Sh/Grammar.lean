import Xv6.Sh.Tokens

/-!
# The shell accepts exactly its grammar

The grammar of command lines, over tokens (`Derives`), and the proof that
`parsecmd` returns on a line if and only if its tokens are derivable, with the
tree of the derivation (`parsecmd_iff`).
-/

namespace Xv6.Sh

/-! ## The grammar -/

/-- The command with redirections around it, the last one outermost. -/
def wrap (cmd : Cmd Word) (ds : List (Redir × Word)) : Cmd Word :=
  ds.foldl (fun cmd d => .redir cmd d.2 d.1.mode d.1.fd) cmd

/-- `redirs := {('<' | '>' | '>>') word}`. -/
inductive Redirs : List Tok → List (Redir × Word) → Prop
  | nil : Redirs [] []
  | cons {ts : List Tok} {ds : List (Redir × Word)} (op : Redir) (w : Word) :
      Redirs ts ds → Redirs (.redir op :: .word w :: ts) ((op, w) :: ds)

/-- `{word redirs}`: the words, and the redirections. -/
inductive Words : List Tok → List Word → List (Redir × Word) → Prop
  | nil : Words [] [] []
  | cons {ts ts' : List Tok} {ds ds' : List (Redir × Word)} {ws : List Word} (w : Word) :
      Redirs ts ds → Words ts' ws ds' → Words (.word w :: ts ++ ts') (w :: ws) (ds ++ ds')

inductive Part
  | line
  | pipe
  | exec

/-- A command in the background, `n` times. -/
def backs (n : Nat) (cmd : Cmd Word) : Cmd Word := Cmd.back^[n] cmd

/-- The tokens of a part of a line, and its tree. -/
inductive Derives : Part → List Tok → Cmd Word → Prop
  | line {ts : List Tok} {c : Cmd Word} (n : Nat) :
      Derives .pipe ts c → Derives .line (ts ++ List.replicate n .amp) (backs n c)
  | lines {ts ts' : List Tok} {c c' : Cmd Word} (n : Nat) :
      Derives .pipe ts c → Derives .line ts' c' →
        Derives .line (ts ++ List.replicate n .amp ++ .semi :: ts') (.list (backs n c) c')
  | pipe {ts : List Tok} {c : Cmd Word} : Derives .exec ts c → Derives .pipe ts c
  | pipes {ts ts' : List Tok} {c c' : Cmd Word} :
      Derives .exec ts c → Derives .pipe ts' c' → Derives .pipe (ts ++ .bar :: ts') (.pipe c c')
  | block {ts rs : List Tok} {c : Cmd Word} {ds : List (Redir × Word)} :
      Derives .line ts c → Redirs rs ds → Derives .exec (.lpar :: ts ++ .rpar :: rs) (wrap c ds)
  | exec {rs ts : List Tok} {ds ds' : List (Redir × Word)} {ws : List Word} :
      Redirs rs ds → Words ts ws ds' → ws.length ≤ MAXARGS - 1 →
        Derives .exec (rs ++ ts) (wrap (.exec ws) (ds ++ ds'))

/-! ## What is parsed is derivable -/

theorem wrap_append (c : Cmd Word) (ds ds' : List (Redir × Word)) : wrap c (ds ++ ds') = wrap (wrap c ds) ds' :=
  List.foldl_append

theorem addArg_wrap (w : Word) (ds : List (Redir × Word)) : ∀ c, addArg w (wrap c ds) = wrap (addArg w c) ds := by
  induction ds with
  | nil => exact fun _ => rfl
  | cons d ds ih => exact fun c => ih _

theorem redirs_sound (fuel : Nat) : ∀ {c c' : Cmd Word} {ts ts' : List Tok}, redirs fuel c ts = .ok (c', ts') →
    ∃ rs ds, ts = rs ++ ts' ∧ Redirs rs ds ∧ c' = wrap c ds := by
  induction fuel with
  | zero =>
    intro c c' ts ts' h
    cases h
  | succ fuel ih =>
    intro c c' ts ts' h
    cases ts with
    | nil =>
      cases h
      exact ⟨[], [], rfl, .nil, rfl⟩
    | cons t ts =>
      cases t with
      | redir op =>
        cases ts with
        | nil => cases h
        | cons t ts =>
          cases t with
          | word w =>
            obtain ⟨rs, ds, rfl, hr, rfl⟩ := ih h
            exact ⟨_, _, rfl, .cons op w hr, rfl⟩
          | redir | bar | amp | semi | lpar | rpar => cases h
      | bar | amp | semi | lpar | rpar | word =>
        cases h
        exact ⟨[], [], rfl, .nil, rfl⟩

theorem args_sound (fuel : Nat) : ∀ {n : Nat} {ws0 : List Word} {ds0 : List (Redir × Word)} {c' : Cmd Word}
    {ts ts' : List Tok},
    args fuel n (wrap (.exec ws0) ds0) ts = .ok (c', ts') → n = ws0.length → n ≤ MAXARGS - 1 →
    ∃ xs ws ds, ts = xs ++ ts' ∧ Words xs ws ds ∧ n + ws.length ≤ MAXARGS - 1 ∧
      c' = wrap (.exec (ws0 ++ ws)) (ds0 ++ ds) := by
  induction fuel with
  | zero =>
    intro n ws0 ds0 c' ts ts' h
    cases h
  | succ fuel ih =>
    intro n ws0 ds0 c' ts ts' h hn hle
    have hnone : ∀ {r : List Tok}, (Except.ok (wrap (.exec ws0) ds0, r) : Result) = .ok (c', ts') → r = ts →
        ∃ xs ws ds, ts = xs ++ ts' ∧ Words xs ws ds ∧ n + ws.length ≤ MAXARGS - 1 ∧
          c' = wrap (.exec (ws0 ++ ws)) (ds0 ++ ds) := by
      intro r hr he
      cases hr
      exact ⟨[], [], [], he.symm, .nil, hle, by rw [List.append_nil, List.append_nil]⟩
    cases ts with
    | nil => exact hnone h rfl
    | cons t ts =>
      cases t with
      | redir | lpar => cases h
      | bar | amp | semi | rpar => exact hnone h rfl
      | word w =>
        simp only [args] at h
        split at h
        · cases h
        · next hmax =>
          split at h
          · cases h
          · next c1 ts1 hr =>
            obtain ⟨rs, ds1, rfl, hrs, rfl⟩ := redirs_sound fuel hr
            rw [addArg_wrap, ← wrap_append] at h
            rw [addArg] at h
            obtain ⟨xs, ws, ds, rfl, hxs, hws, rfl⟩ := ih h (by simp [hn]) (by omega)
            refine ⟨.word w :: rs ++ xs, w :: ws, ds1 ++ ds, ?_, .cons w hrs hxs, ?_, ?_⟩
            · simp
            · rw [List.length_cons]
              omega
            · simp

theorem amps_sound (fuel : Nat) : ∀ {c c' : Cmd Word} {ts ts' : List Tok}, amps fuel c ts = .ok (c', ts') →
    ∃ n, ts = List.replicate n .amp ++ ts' ∧ c' = backs n c := by
  induction fuel with
  | zero =>
    intro c c' ts ts' h
    cases h
  | succ fuel ih =>
    intro c c' ts ts' h
    by_cases hamp : ∃ ts1, ts = .amp :: ts1
    · obtain ⟨ts1, rfl⟩ := hamp
      obtain ⟨n, rfl, rfl⟩ := ih h
      exact ⟨n + 1, rfl, rfl⟩
    · rw [amps_other fun ts1 hc => hamp ⟨ts1, hc⟩] at h
      cases h
      exact ⟨0, rfl, rfl⟩

theorem parse_sound (fuel : Nat) : ∀ {ts ts' : List Tok} {c : Cmd Word},
    (line fuel ts = .ok (c, ts') → ∃ xs, ts = xs ++ ts' ∧ Derives .line xs c) ∧
    (pipe fuel ts = .ok (c, ts') → ∃ xs, ts = xs ++ ts' ∧ Derives .pipe xs c) ∧
    (exec fuel ts = .ok (c, ts') → ∃ xs, ts = xs ++ ts' ∧ Derives .exec xs c) ∧
    (block fuel ts = .ok (c, ts') → ∃ xs, ts = xs ++ ts' ∧ Derives .exec xs c) := by
  induction fuel with
  | zero =>
    intro ts ts' c
    refine ⟨fun h => ?_, fun h => ?_, fun h => ?_, fun h => ?_⟩ <;> cases h
  | succ fuel ih =>
    intro ts ts' c
    refine ⟨fun h => ?_, fun h => ?_, fun h => ?_, fun h => ?_⟩
    · rw [line] at h
      split at h
      · cases h
      · next c1 ts1 hp =>
        obtain ⟨xs, rfl, hxs⟩ := ih.2.1 hp
        split at h
        · cases h
        · next c2 ts2 ha =>
          obtain ⟨n, rfl, rfl⟩ := amps_sound fuel ha
          split at h
          · cases h
          · next c3 ts3 hl =>
            cases h
            obtain ⟨ys, rfl, hys⟩ := ih.1 hl
            exact ⟨_, by simp, .lines n hxs hys⟩
        · next c2 ts2 _ ha =>
          cases h
          obtain ⟨n, rfl, rfl⟩ := amps_sound fuel ha
          exact ⟨_, by simp, .line n hxs⟩
    · rw [pipe] at h
      split at h
      · cases h
      · next c1 ts1 hp =>
        obtain ⟨xs, rfl, hxs⟩ := ih.2.2.1 hp
        split at h
        · cases h
        · next c2 ts2 hl =>
          cases h
          obtain ⟨ys, rfl, hys⟩ := ih.2.1 hl
          exact ⟨_, by simp, .pipes hxs hys⟩
      · next c1 ts1 _ hp =>
        cases h
        obtain ⟨xs, rfl, hxs⟩ := ih.2.2.1 hp
        exact ⟨xs, rfl, .pipe hxs⟩
    · by_cases hpar : ∃ ts1, ts = .lpar :: ts1
      · obtain ⟨ts1, rfl⟩ := hpar
        exact ih.2.2.2 h
      · rw [exec_other fun ts1 hc => hpar ⟨ts1, hc⟩] at h
        split at h
        · cases h
        · next c1 ts1 hr =>
          obtain ⟨rs, ds, rfl, hrs, rfl⟩ := redirs_sound fuel hr
          obtain ⟨xs, ws, ds', rfl, hxs, hws, rfl⟩ := args_sound fuel h rfl (by decide)
          exact ⟨rs ++ xs, by simp, .exec hrs hxs (by simpa using hws)⟩
    · cases ts with
      | nil => cases h
      | cons t ts =>
        cases t with
        | lpar =>
          rw [block] at h
          split at h
          · cases h
          · next c1 ts1 hl =>
            obtain ⟨xs, rfl, hxs⟩ := ih.1 hl
            obtain ⟨rs, ds, rfl, hrs, rfl⟩ := redirs_sound fuel h
            exact ⟨_, by simp, .block hxs hrs⟩
          · cases h
        | redir | bar | amp | semi | rpar | word => cases h

/-! ## What is derivable is parsed -/

/-- What can follow a part of a line. -/
def Follow (part : Part) : List Tok → Prop
  | [] => True
  | .rpar :: _ => True
  | .amp :: _ => part ≠ .line
  | .semi :: _ => part ≠ .line
  | .bar :: _ => part = .exec
  | _ => False

variable {part : Part} {ts ts1 ts2 xs : List Tok} {c c' : Cmd Word} {s : List UInt8}

theorem Follow.exec (h : Follow part ts) : Follow .exec ts := by
  cases ts with
  | nil => trivial
  | cons t ts => cases t <;> first | exact h.elim | trivial | exact (fun hc => by cases hc)

variable {ds : List (Redir × Word)}

theorem redirs_complete {rs : List Tok} (h : Redirs rs ds) : ∀ {fuel : Nat} {c : Cmd Word}
    {ts : List Tok}, (∀ op ts', ts ≠ .redir op :: ts') → rs.length < fuel → redirs fuel c (rs ++ ts) =
    .ok (wrap c ds, ts) := by
  induction h with
  | nil =>
    intro fuel c ts hts hf
    cases fuel with
    | zero => exact absurd hf (by simp)
    | succ fuel =>
      cases ts with
      | nil => rfl
      | cons t ts => cases t <;> first | rfl | exact absurd rfl (hts _ _)
  | cons op w _ ih =>
    intro fuel c ts hts hf
    cases fuel with
    | zero => exact absurd hf (by simp)
    | succ fuel => exact ih hts (by simp only [List.length_cons] at hf; omega)

theorem Words.no_redir {ws : List Word} (h : Words xs ws ds)
    (hts : Follow .exec ts) (op : Redir) (ts' : List Tok) : xs ++ ts ≠ .redir op :: ts' := by
  cases h with
  | nil =>
    rintro rfl
    exact hts
  | cons w hr hw => exact fun hc => by cases hc

theorem args_word {fuel n : Nat} {w : Word} {ts' : List Tok} (hn : n + 1 < MAXARGS)
    (h : redirs fuel (addArg w c) ts = .ok (c', ts')) :
    args (fuel + 1) n c (.word w :: ts) = args fuel (n + 1) c' ts' := by
  rw [args, if_neg (by omega), h]

theorem args_complete {ws : List Word} (h : Words xs ws ds) :
    ∀ {fuel n : Nat} {ws0 : List Word} {ds0 : List (Redir × Word)} {ts : List Tok}, Follow .exec ts → n = ws0.length →
      n + ws.length ≤ MAXARGS - 1 → xs.length < fuel →
      args fuel n (wrap (.exec ws0) ds0) (xs ++ ts) = .ok (wrap (.exec (ws0 ++ ws)) (ds0 ++ ds), ts) := by
  induction h with
  | nil =>
    intro fuel n ws0 ds0 ts hts _ _ hf
    cases fuel with
    | zero => exact absurd hf (by simp)
    | succ fuel =>
      rw [List.append_nil, List.append_nil]
      cases ts with
      | nil => rfl
      | cons t ts => cases t <;> first | exact hts.elim | rfl
  | @cons rs xs ds1 ds ws w hr hw ih =>
    intro fuel n ws0 ds0 ts hts hn hmax hf
    cases fuel with
    | zero => exact absurd hf (by simp)
    | succ fuel =>
      simp only [List.length_cons, List.length_append, List.cons_append] at hf hmax
      have hredirs : redirs fuel (addArg w (wrap (.exec ws0) ds0)) (rs ++ (xs ++ ts)) = .ok (_, xs ++ ts) :=
        redirs_complete hr (hw.no_redir hts) (by omega)
      rw [List.append_assoc, List.cons_append, args_word (by omega) hredirs, addArg_wrap, ← wrap_append]
      have hrest : args fuel (n + 1) (wrap (.exec (ws0 ++ [w])) (ds0 ++ ds1)) (xs ++ ts) =
          .ok (wrap (.exec (ws0 ++ [w] ++ ws)) (ds0 ++ ds1 ++ ds), ts) := ih hts (by simp [hn]) (by omega) (by omega)
      rw [List.append_assoc, List.append_assoc] at hrest
      exact hrest

theorem amps_complete (n : Nat) : ∀ {fuel : Nat} {c : Cmd Word} {ts : List Tok}, (∀ ts', ts ≠ .amp :: ts') → n < fuel →
    amps fuel c (List.replicate n .amp ++ ts) = .ok (backs n c, ts) := by
  induction n with
  | zero =>
    intro fuel c ts hts hf
    cases fuel with
    | zero => exact absurd hf (by simp)
    | succ fuel => exact amps_other hts
  | succ n ih =>
    intro fuel c ts hts hf
    cases fuel with
    | zero => exact absurd hf (by simp)
    | succ fuel => exact ih hts (by omega)

def parsePart : Part → Nat → List Tok → Result
  | .line => line
  | .pipe => pipe
  | .exec => exec

/-- Enough fuel for `n` tokens. -/
def Part.need (n : Nat) : Part → Nat
  | .line => 4 * n + 4
  | .pipe => 4 * n + 3
  | .exec => 4 * n + 2

variable {fuel : Nat}

theorem line_semi {c1 : Cmd Word} {ts3 : List Tok} (hp : pipe fuel ts = .ok (c1, ts1))
    (ha : amps fuel c1 ts1 = .ok (c, .semi :: ts2)) (hl : line fuel ts2 = .ok (c', ts3)) :
    line (fuel + 1) ts = .ok (.list c c', ts3) := by
  rw [line, hp]
  dsimp only
  rw [ha]
  dsimp only
  rw [hl]

theorem line_other {c1 : Cmd Word} (hp : pipe fuel ts = .ok (c1, ts1))
    (ha : amps fuel c1 ts1 = .ok (c, ts2)) (hno : Follow .line ts2) : line (fuel + 1) ts = .ok (c, ts2) := by
  rw [line, hp]
  dsimp only
  rw [ha]
  cases ts2 with
  | nil => rfl
  | cons t ts2 => cases t <;> first | rfl | exact absurd rfl hno

theorem pipe_bar (he : exec fuel ts = .ok (c, .bar :: ts1))
    (hp : pipe fuel ts1 = .ok (c', ts2)) : pipe (fuel + 1) ts = .ok (.pipe c c', ts2) := by
  rw [pipe, he]
  dsimp only
  rw [hp]

theorem pipe_other (he : exec fuel ts = .ok (c, ts1)) (hno : Follow .pipe ts1) : pipe (fuel + 1) ts = .ok (c, ts1) := by
  rw [pipe, he]
  cases ts1 with
  | nil => rfl
  | cons t ts1 => cases t <;> first | rfl | cases hno

theorem follow_amps {n : Nat} (h : Follow .line ts) : Follow .pipe (List.replicate n .amp ++ ts) := by
  cases n with
  | zero =>
    cases ts with
    | nil => trivial
    | cons t ts => cases t <;> first | exact h.elim | trivial
  | succ n => exact fun hc => by cases hc

theorem Follow.not_amp (h : Follow .line ts) (ts' : List Tok) : ts ≠ .amp :: ts' := by
  rintro rfl
  exact h rfl

theorem parse_complete (h : Derives part xs c) : ∀ {fuel : Nat} {ts : List Tok},
    Follow part ts → part.need xs.length ≤ fuel → parsePart part fuel (xs ++ ts) = .ok (c, ts) := by
  induction h with
  | @line xs c n _ ih =>
    intro fuel ts hts hf
    simp only [Part.need, List.length_append, List.length_replicate] at hf
    obtain ⟨fuel, rfl⟩ : ∃ k, fuel = k + 1 := ⟨fuel - 1, by omega⟩
    have hp : pipe fuel (xs ++ (List.replicate n .amp ++ ts)) = .ok (c, List.replicate n .amp ++ ts) :=
      ih (follow_amps hts) (by simp only [Part.need]; omega)
    have ha : amps fuel c (List.replicate n .amp ++ ts) = .ok (backs n c, ts) := amps_complete n hts.not_amp (by omega)
    rw [parsePart, List.append_assoc]
    exact line_other hp ha hts
  | @lines xs ys c c' n _ _ ih ih' =>
    intro fuel ts hts hf
    simp only [Part.need, List.length_append, List.length_replicate, List.length_cons] at hf
    obtain ⟨fuel, rfl⟩ : ∃ k, fuel = k + 1 := ⟨fuel - 1, by omega⟩
    have hp : pipe fuel (xs ++ (List.replicate n .amp ++ .semi :: (ys ++ ts))) =
      .ok (c, List.replicate n .amp ++ .semi :: (ys ++ ts)) := by
      refine ih ?_ (by simp only [Part.need]; omega)
      cases n <;> exact fun hc => by cases hc
    have ha : amps fuel c (List.replicate n .amp ++ .semi :: (ys ++ ts)) = .ok (backs n c, .semi :: (ys ++ ts)) :=
      amps_complete n (fun _ hc => by cases hc) (by omega)
    have hl : line fuel (ys ++ ts) = .ok (c', ts) := ih' hts (by simp only [Part.need]; omega)
    rw [parsePart, List.append_assoc, List.append_assoc, List.cons_append]
    exact line_semi hp ha hl
  | @pipe xs c _ ih =>
    intro fuel ts hts hf
    simp only [Part.need] at hf
    obtain ⟨fuel, rfl⟩ : ∃ k, fuel = k + 1 := ⟨fuel - 1, by omega⟩
    have he : exec fuel (xs ++ ts) = .ok (c, ts) := ih hts.exec (by simp only [Part.need]; omega)
    exact pipe_other he hts
  | @pipes xs ys c c' _ _ ih ih' =>
    intro fuel ts hts hf
    simp only [Part.need, List.length_append, List.length_cons] at hf
    obtain ⟨fuel, rfl⟩ : ∃ k, fuel = k + 1 := ⟨fuel - 1, by omega⟩
    have he : exec fuel (xs ++ .bar :: (ys ++ ts)) = .ok (c, .bar :: (ys ++ ts)) :=
      ih rfl (by simp only [Part.need]; omega)
    have hp : pipe fuel (ys ++ ts) = .ok (c', ts) := ih' hts (by simp only [Part.need]; omega)
    rw [parsePart, List.append_assoc, List.cons_append]
    exact pipe_bar he hp
  | @block xs rs c ds _ hr ih =>
    intro fuel ts hts hf
    simp only [Part.need, List.length_append, List.length_cons] at hf
    obtain ⟨fuel, rfl⟩ : ∃ k, fuel = k + 2 := ⟨fuel - 2, by omega⟩
    have hl : line fuel (xs ++ .rpar :: (rs ++ ts)) = .ok (c, .rpar :: (rs ++ ts)) :=
      ih trivial (by simp only [Part.need]; omega)
    rw [parsePart, List.append_assoc, List.cons_append, List.cons_append, exec, block, hl]
    refine redirs_complete hr (fun op ts' => ?_) (by omega)
    rintro rfl
    exact hts
  | @exec rs xs ds ds' ws hr hw hmax =>
    intro fuel ts hts hf
    simp only [Part.need, List.length_append] at hf
    obtain ⟨fuel, rfl⟩ : ∃ k, fuel = k + 1 := ⟨fuel - 1, by omega⟩
    have hno : ∀ ts', rs ++ (xs ++ ts) ≠ .lpar :: ts' := by
      cases hr with
      | cons => exact fun _ hc => by cases hc
      | nil =>
        cases hw with
        | cons => exact fun _ hc => by cases hc
        | nil =>
          rintro ts' rfl
          exact hts
    rw [parsePart, List.append_assoc, exec_other hno, redirs_complete hr (hw.no_redir hts) (by omega)]
    have hargs : args fuel 0 (wrap (.exec []) ds) (xs ++ ts) = .ok (wrap (.exec ([] ++ ws)) (ds ++ ds'), ts) :=
      args_complete hw hts rfl (by simpa using hmax) (by omega)
    exact hargs

/-! ## The parser terminates -/

theorem redirs_fuel (fuel : Nat) : ∀ {c : Cmd Word} {ts : List Tok}, ts.length < fuel →
    redirs fuel c ts ≠ .error .fuel := by
  induction fuel with
  | zero => exact fun h => absurd h (by simp)
  | succ fuel ih =>
    intro c ts hf hc
    cases ts with
    | nil => cases hc
    | cons t ts =>
      cases t with
      | redir op =>
        cases ts with
        | nil => cases hc
        | cons t ts =>
          cases t with
          | word w => exact ih (by simp only [List.length_cons] at hf; omega) hc
          | redir | bar | amp | semi | lpar | rpar => cases hc
      | bar | amp | semi | lpar | rpar | word => cases hc

theorem redirs_length {ts' : List Tok} (h : redirs fuel c ts = .ok (c', ts')) : ts'.length ≤ ts.length := by
  obtain ⟨rs, ds, rfl, -⟩ := redirs_sound fuel h
  simp

theorem args_fuel (fuel : Nat) : ∀ {n : Nat} {c : Cmd Word} {ts : List Tok}, ts.length < fuel →
    args fuel n c ts ≠ .error .fuel := by
  induction fuel with
  | zero => exact fun h => absurd h (by simp)
  | succ fuel ih =>
    intro n c ts hf hc
    cases ts with
    | nil => cases hc
    | cons t ts =>
      simp only [List.length_cons] at hf
      cases t with
      | word w =>
        simp only [args] at hc
        split at hc
        · cases hc
        · split at hc
          · next hr =>
            cases hc
            exact redirs_fuel fuel (by omega) hr
          · next hr =>
            have := redirs_length hr
            exact ih (by omega) hc
      | redir | bar | amp | semi | lpar | rpar => cases hc

theorem amps_fuel (fuel : Nat) : ∀ {c : Cmd Word} {ts : List Tok}, ts.length < fuel →
    amps fuel c ts ≠ .error .fuel := by
  induction fuel with
  | zero => exact fun h => absurd h (by simp)
  | succ fuel ih =>
    intro c ts hf hc
    by_cases hamp : ∃ ts1, ts = .amp :: ts1
    · obtain ⟨ts1, rfl⟩ := hamp
      exact ih (by simp only [List.length_cons] at hf; omega) hc
    · rw [amps_other fun ts1 h1 => hamp ⟨ts1, h1⟩] at hc
      cases hc

theorem parse_fuel (fuel : Nat) : ∀ {ts : List Tok}, (Part.line.need ts.length ≤ fuel → line fuel ts ≠ .error .fuel) ∧
    (Part.pipe.need ts.length ≤ fuel → pipe fuel ts ≠ .error .fuel) ∧
    (Part.exec.need ts.length ≤ fuel → exec fuel ts ≠ .error .fuel) ∧
    (4 * ts.length + 1 ≤ fuel → block fuel ts ≠ .error .fuel) := by
  simp only [Part.need]
  induction fuel with
  | zero =>
    intro ts
    refine ⟨fun h => ?_, fun h => ?_, fun h => ?_, fun h => ?_⟩ <;> omega
  | succ fuel ih =>
    intro ts
    refine ⟨fun hf hc => ?_, fun hf hc => ?_, fun hf hc => ?_, fun hf hc => ?_⟩
    · rw [line] at hc
      split at hc
      · next hp =>
        cases hc
        exact ih.2.1 (by omega) hp
      · next hp =>
        obtain ⟨xs, rfl, -⟩ := (parse_sound fuel).2.1 hp
        rw [List.length_append] at hf
        split at hc
        · next ha =>
          cases hc
          exact amps_fuel fuel (by omega) ha
        · next ha =>
          obtain ⟨n, rfl, -⟩ := amps_sound fuel ha
          rw [List.length_append, List.length_cons] at hf
          split at hc
          · next hl =>
            cases hc
            exact ih.1 (by omega) hl
          · cases hc
        · cases hc
    · rw [pipe] at hc
      split at hc
      · next he =>
        cases hc
        exact ih.2.2.1 (by omega) he
      · next he =>
        obtain ⟨xs, rfl, -⟩ := (parse_sound fuel).2.2.1 he
        rw [List.length_append, List.length_cons] at hf
        split at hc
        · next hp =>
          cases hc
          exact ih.2.1 (by omega) hp
        · cases hc
      · cases hc
    · by_cases hpar : ∃ ts1, ts = .lpar :: ts1
      · obtain ⟨ts1, rfl⟩ := hpar
        exact ih.2.2.2 (by omega) hc
      · rw [exec_other fun ts1 h1 => hpar ⟨ts1, h1⟩] at hc
        split at hc
        · next hr =>
          cases hc
          exact redirs_fuel fuel (by omega) hr
        · next hr =>
          have := redirs_length hr
          exact args_fuel fuel (by omega) hc
    · cases ts with
      | nil => cases hc
      | cons t ts =>
        rw [List.length_cons] at hf
        cases t with
        | lpar =>
          rw [block] at hc
          split at hc
          · next hl =>
            cases hc
            exact ih.1 (by omega) hl
          · next hl =>
            obtain ⟨xs, rfl, -⟩ := (parse_sound fuel).1 hl
            rw [List.length_append, List.length_cons] at hf
            exact redirs_fuel fuel (by omega) hc
          · cases hc
        | redir | bar | amp | semi | rpar | word => cases hc

/-! ## Words in memory -/

/-- The words of a tree, in the order in which `nulterminate` ends them. -/
def Cmd.words {W : Type} : Cmd W → List W
  | .exec argv => argv
  | .redir cmd file _ _ => cmd.words ++ [file]
  | .pipe left right => left.words ++ right.words
  | .list left right => left.words ++ right.words
  | .back cmd => cmd.words

/-- A maximal run of word characters of the line. -/
structure Span.Good (s : List UInt8) (w : Span) : Prop where
  q : w.q <:+ s
  eq : w.eq = w.q.dropWhile isWord

theorem nulterminate_eq (n : Nat) (c : Cmd Span) :
    ∀ mem, nulterminate n c mem = c.words.foldl (fun mem w => clear n mem w.eq) mem := by
  induction c with
  | exec argv => exact fun _ => rfl
  | redir cmd file mode fd ih =>
    intro mem
    rw [nulterminate, ih, Cmd.words, List.foldl_append]
    rfl
  | pipe l r ihl ihr | list l r ihl ihr =>
    intro mem
    rw [nulterminate, ihl, ihr, Cmd.words, List.foldl_append]
  | back cmd ih => exact ih

theorem map_congr {W V : Type} {f g : W → V} {c : Cmd W} (h : ∀ w ∈ c.words, f w = g w) : c.map f = c.map g := by
  induction c with
  | exec argv => exact congrArg _ (List.map_congr_left h)
  | redir cmd file mode fd ih =>
    simp only [Cmd.words, List.mem_append, List.mem_singleton] at h
    rw [Cmd.map, Cmd.map, ih fun w hw => h w (Or.inl hw), h file (Or.inr rfl)]
  | pipe l r ihl ihr | list l r ihl ihr =>
    simp only [Cmd.words, List.mem_append] at h
    rw [Cmd.map, Cmd.map, ihl fun w hw => h w (Or.inl hw), ihr fun w hw => h w (Or.inr hw)]
  | back cmd ih => rw [Cmd.map, Cmd.map, ih h]

section
variable {line₀ : List UInt8}

/-- A result whose words and pointer are in the line. -/
structure Inside (line₀ : List UInt8) (x : Cmd Span × Ptr) : Prop where
  words : ∀ w ∈ x.1.words, w.Good line₀
  ptr : x.2 <:+ line₀

theorem skip_suffix {s : Ptr} (h : s <:+ line₀) : skip s <:+ line₀ := (List.dropWhile_suffix _).trans h

theorem peek_suffix {s : Ptr} (h : s <:+ line₀) (toks : List UInt8) : (peek s toks).2 <:+ line₀ := by
  rw [peek_snd]
  exact skip_suffix h

theorem gettoken_suffix {s : Ptr} (h : s <:+ line₀) :
    (gettoken s).ps <:+ line₀ ∧ ((gettoken s).ret = 97 → Span.Good line₀ ⟨(gettoken s).q, (gettoken s).eq⟩) := by
  have hskip := skip_suffix h
  unfold gettoken
  dsimp only
  split
  · exact ⟨skip_suffix hskip, fun hc => by cases hc⟩
  · next c r hs =>
    have hr : r <:+ line₀ := (List.suffix_cons c r).trans (hs ▸ hskip)
    split
    · next hsym =>
      refine ⟨skip_suffix hr, fun hc => ?_⟩
      rw [show c = 97 from hc] at hsym
      cases hsym
    · split
      · split
        · exact ⟨skip_suffix ((List.tail_suffix r).trans hr), fun hc => by cases hc⟩
        · exact ⟨skip_suffix hr, fun hc => by cases hc⟩
      · exact ⟨skip_suffix ((List.dropWhile_suffix _).trans hskip), fun _ => ⟨hskip, rfl⟩⟩

variable {n : Nat} {w : Span}

theorem redircmd_words {tok : UInt8} {cmd : Cmd Span} {file : Span} (h : w ∈ (redircmd tok cmd file).words) :
    w ∈ cmd.words ∨ w = file := by
  unfold redircmd at h
  split_ifs at h
  · simpa [Cmd.words] using h
  · simpa [Cmd.words] using h
  · simpa [Cmd.words] using h
  · exact Or.inl h

theorem addArg_words {v : Span} {cmd : Cmd Span} (h : v ∈ (addArg w cmd).words) : v ∈ cmd.words ∨ v = w := by
  induction cmd with
  | exec argv => simpa [addArg, Cmd.words] using h
  | redir cmd file mode fd ih =>
    simp only [addArg, Cmd.words, List.mem_append, List.mem_singleton] at h ⊢
    rcases h with h | h
    · rcases ih h with h | h
      · exact Or.inl (Or.inl h)
      · exact Or.inr h
    · exact Or.inl (Or.inr h)
  | pipe | list | back => exact Or.inl h

theorem parseredirs_inside (fuel : Nat) : ∀ {cmd : Cmd Span} {s : Ptr} {x : Cmd Span × Ptr}, Inside line₀ (cmd, s) →
    parseredirs fuel cmd s = .ok x → Inside line₀ x := by
  induction fuel with
  | zero =>
    intro cmd s x _ h
    cases h
  | succ fuel ih =>
    intro cmd s x hin h
    rw [parseredirs] at h
    have hps := peek_suffix hin.ptr [60, 62]
    dsimp only at h
    split at h
    · have h1 := gettoken_suffix hps
      have h2 := gettoken_suffix h1.1
      split at h
      · cases h
      · next hword =>
        refine ih ⟨fun w hw => ?_, h2.1⟩ h
        rcases redircmd_words hw with hw | rfl
        · exact hin.words w hw
        · exact h2.2 (by simpa using hword)
    · cases h
      exact ⟨hin.words, hps⟩

theorem parseargs_inside (fuel : Nat) : ∀ {n : Nat} {cmd : Cmd Span} {s : Ptr} {x : Cmd Span × Ptr},
    Inside line₀ (cmd, s) →
    parseargs fuel n cmd s = .ok x → Inside line₀ x := by
  induction fuel with
  | zero =>
    intro n cmd s x _ h
    cases h
  | succ fuel ih =>
    intro n cmd s x hin h
    rw [parseargs] at h
    have hps := peek_suffix hin.ptr [124, 41, 38, 59]
    have htok := gettoken_suffix hps
    dsimp only at h
    split at h
    · cases h
      exact ⟨hin.words, hps⟩
    · split at h
      · cases h
        exact ⟨hin.words, htok.1⟩
      · split at h
        · cases h
        · next hword =>
          split at h
          · cases h
          · split at h
            · cases h
            · next hr =>
              refine ih (parseredirs_inside fuel ⟨fun w hw => ?_, htok.1⟩ hr) h
              rcases addArg_words hw with hw | rfl
              · exact hin.words w hw
              · exact htok.2 (by simpa using hword)

theorem parsebacks_inside (fuel : Nat) : ∀ {cmd : Cmd Span} {s : Ptr} {x : Cmd Span × Ptr}, Inside line₀ (cmd, s) →
    parsebacks fuel cmd s = .ok x → Inside line₀ x := by
  induction fuel with
  | zero =>
    intro cmd s x _ h
    cases h
  | succ fuel ih =>
    intro cmd s x hin h
    rw [parsebacks] at h
    have hps := peek_suffix hin.ptr [38]
    dsimp only at h
    split at h
    · refine ih ⟨?_, (gettoken_suffix hps).1⟩ h
      exact hin.words
    · cases h
      exact ⟨hin.words, hps⟩

theorem parse_inside (fuel : Nat) : ∀ {s : Ptr} {x : Cmd Span × Ptr}, s <:+ line₀ →
    (parseline fuel s = .ok x → Inside line₀ x) ∧ (parsepipe fuel s = .ok x → Inside line₀ x) ∧
      (parseexec fuel s = .ok x → Inside line₀ x) ∧ (parseblock fuel s = .ok x → Inside line₀ x) := by
  induction fuel with
  | zero =>
    intro s x _
    refine ⟨fun h => ?_, fun h => ?_, fun h => ?_, fun h => ?_⟩ <;> cases h
  | succ fuel ih =>
    intro s x hs
    refine ⟨fun h => ?_, fun h => ?_, fun h => ?_, fun h => ?_⟩
    · rw [parseline] at h
      split at h
      · cases h
      · next hp =>
        have h1 := (ih hs).2.1 hp
        split at h
        · cases h
        · next hb =>
          have h2 := parsebacks_inside fuel h1 hb
          have hps := peek_suffix h2.ptr [59]
          dsimp only at h hps
          split at h
          · split at h
            · cases h
            · next hl =>
              cases h
              have h3 := (ih (gettoken_suffix hps).1).1 hl
              exact ⟨fun w hw => (List.mem_append.mp hw).elim (h2.words w) (h3.words w), h3.ptr⟩
          · cases h
            exact ⟨h2.words, hps⟩
    · rw [parsepipe] at h
      split at h
      · cases h
      · next he =>
        have h1 := (ih hs).2.2.1 he
        have hps := peek_suffix h1.ptr [124]
        dsimp only at h hps
        split at h
        · split at h
          · cases h
          · next hl =>
            cases h
            have h3 := (ih (gettoken_suffix hps).1).2.1 hl
            exact ⟨fun w hw => (List.mem_append.mp hw).elim (h1.words w) (h3.words w), h3.ptr⟩
        · cases h
          exact ⟨h1.words, hps⟩
    · rw [parseexec] at h
      have hps := peek_suffix hs [40]
      dsimp only at h
      split at h
      · exact (ih hps).2.2.2 h
      · split at h
        · cases h
        · next hr =>
          exact parseargs_inside fuel (parseredirs_inside fuel ⟨fun w hw => (by cases hw), hps⟩ hr) h
    · rw [parseblock] at h
      have hps := peek_suffix hs [40]
      dsimp only at h
      split at h
      · cases h
      · split at h
        · cases h
        · next hl =>
          have h1 := (ih (gettoken_suffix hps).1).1 hl
          have hps1 := peek_suffix h1.ptr [41]
          dsimp only at h hps1
          split at h
          · cases h
          · refine parseredirs_inside fuel ⟨?_, (gettoken_suffix hps1).1⟩ h
            exact h1.words

theorem length_clear (ws : List Span) : ∀ mem, (ws.foldl (fun mem w => clear n mem w.eq) mem).length = mem.length := by
  induction ws with
  | nil => exact fun _ => rfl
  | cons w ws ih => exact fun mem => (ih _).trans (List.length_set ..)

theorem clear_other {j : Nat} (ws : List Span) : ∀ mem, (∀ w ∈ ws, n - w.eq.length ≠ j) →
    (ws.foldl (fun mem w => clear n mem w.eq) mem)[j]? = mem[j]? := by
  induction ws with
  | nil => exact fun _ _ => rfl
  | cons w ws ih =>
    intro mem h
    rw [List.foldl_cons, ih _ fun v hv => h v (List.mem_cons_of_mem _ hv), clear,
      List.getElem?_set_ne (h w List.mem_cons_self)]

theorem clear_here {j : Nat} (ws : List Span) : ∀ mem, (∃ w ∈ ws, n - w.eq.length = j) → j < mem.length →
    (ws.foldl (fun mem w => clear n mem w.eq) mem)[j]? = some 0 := by
  induction ws with
  | nil =>
    rintro mem ⟨w, hw, -⟩
    cases hw
  | cons w ws ih =>
    intro mem h hj
    rw [List.foldl_cons]
    by_cases hrest : ∃ v ∈ ws, n - v.eq.length = j
    · exact ih _ hrest (by rw [clear, List.length_set]; exact hj)
    · rw [clear_other ws _ fun v hv hc => hrest ⟨v, hv, hc⟩]
      obtain ⟨v, hv, rfl⟩ := h
      rcases List.mem_cons.mp hv with rfl | hv
      · rw [clear, List.getElem?_set_self hj]
      · exact absurd ⟨v, hv, rfl⟩ hrest

theorem Span.Good.next (h : w.Good line₀) {c : UInt8} (hc : line₀[line₀.length - w.eq.length]? = some c) :
    isWord c = false := by
  have hs : w.eq <:+ line₀ := by
    rw [h.eq]
    exact (List.dropWhile_suffix _).trans h.q
  obtain ⟨pre, hpre⟩ := hs
  have hlen : line₀.length - w.eq.length = pre.length := by
    rw [← hpre, List.length_append]
    omega
  rw [hlen, ← hpre, List.getElem?_append_right (Nat.le_refl _), Nat.sub_self, ← List.head?_eq_getElem?, h.eq] at hc
  have := List.head?_dropWhile_not isWord w.q
  rw [hc] at this
  simpa using this

theorem Span.Good.apart {v : Span} (hw : w.Good line₀) (hv : v.Good line₀) :
    line₀.length - v.eq.length < line₀.length - w.q.length ∨
    line₀.length - w.eq.length ≤ line₀.length - v.eq.length := by
  by_contra hc
  obtain ⟨pre, hpre⟩ := hw.q
  have hq := List.takeWhile_append_dropWhile (p := isWord) (l := w.q)
  have hall := List.all_eq_true.mp (List.all_takeWhile (p := isWord) (l := w.q))
  rw [← hw.eq] at hq
  generalize w.q.takeWhile isWord = u at hq hall
  have hlen : line₀.length = pre.length + w.q.length := by rw [← hpre, List.length_append]
  have hqlen : w.q.length = u.length + w.eq.length := by rw [← hq, List.length_append]
  obtain ⟨j, hj⟩ : ∃ j, line₀.length - v.eq.length = pre.length + j := ⟨line₀.length - v.eq.length - pre.length,
    by omega⟩
  have hju : j < u.length := by omega
  have hat : line₀[pre.length + j]? = some u[j] := by
    rw [← hpre, ← hq, List.getElem?_append_right (Nat.le_add_right ..), Nat.add_sub_cancel_left,
      List.getElem?_append_left hju, List.getElem?_eq_getElem hju]
  have h1 := hv.next (hj ▸ hat)
  rw [hall _ (List.getElem_mem hju)] at h1
  cases h1

/-- After `nulterminate`, every word is a string of its own. -/
theorem cstring_word (h0 : (0 : UInt8) ∉ line₀) {ws : List Span} (hws : ∀ w ∈ ws, w.Good line₀) (hw : w ∈ ws) :
    cstring line₀.length (ws.foldl (fun mem w => clear line₀.length mem w.eq) line₀) w.q = w.word := by
  generalize hmem : ws.foldl (fun mem w => clear line₀.length mem w.eq) line₀ = mem
  have hlen : mem.length = line₀.length := by rw [← hmem, length_clear]
  obtain ⟨pre, hpre⟩ := (hws w hw).q
  have hq : w.q = w.q.takeWhile isWord ++ w.eq := by
    rw [(hws w hw).eq, List.takeWhile_append_dropWhile]
  have hword : w.word = w.q.takeWhile isWord := by
    rw [Span.word, (hws w hw).eq, take_dropWhile]
  rw [hword]
  generalize w.q.takeWhile isWord = u at hq hword
  have hline : line₀ = pre ++ (u ++ w.eq) := by rw [← hq, hpre]
  have hn : line₀.length = pre.length + (u.length + w.eq.length) := by
    rw [hline, List.length_append, List.length_append]
  have hpos : line₀.length - w.q.length = pre.length := by
    rw [hq, List.length_append]
    omega
  have hat : ∀ j, j < u.length → mem[pre.length + j]? = u[j]? := by
    intro j hj
    have hlj : line₀[pre.length + j]? = u[j]? := by
      rw [hline, List.getElem?_append_right (Nat.le_add_right ..), Nat.add_sub_cancel_left,
        List.getElem?_append_left hj]
    rw [← hmem, clear_other ws _ fun v hv hc => ?_, hlj]
    have := (hws w hw).apart (hws v hv)
    omega
  have htake : (mem.drop pre.length).take u.length = u := by
    refine List.ext_getElem? fun j => ?_
    by_cases hj : j < u.length
    · rw [List.getElem?_take_of_lt hj, List.getElem?_drop, hat j hj]
    · rw [List.getElem?_eq_none (by rw [List.length_take]; omega), List.getElem?_eq_none (by omega)]
  have hrest : ((mem.drop pre.length).drop u.length).takeWhile (· ≠ 0) = [] := by
    rw [List.drop_drop]
    cases hd : mem.drop (pre.length + u.length) with
    | nil => rfl
    | cons c r =>
      have hlt : pre.length + u.length < line₀.length := by
        have := congrArg List.length hd
        rw [List.length_drop, List.length_cons, hlen] at this
        omega
      have hz : mem[pre.length + u.length]? = some 0 := by
        rw [← hmem]
        exact clear_here ws _ ⟨w, hw, by omega⟩ hlt
      have hc : mem[pre.length + u.length]? = some c := by
        rw [← List.head?_drop, hd]
        rfl
      rw [Option.some.inj (hc.symm.trans hz)]
      rfl
  rw [cstring, hpos, ← List.take_append_drop u.length (mem.drop pre.length), htake,
    List.takeWhile_append_of_pos fun c hc => ?_, hrest, List.append_nil]
  rw [decide_eq_true_eq]
  rintro rfl
  exact h0 (by rw [hline]; exact List.mem_append_right _ (List.mem_append_left _ hc))

end

theorem length_tokens (s : List UInt8) : (tokens s).length ≤ s.length := by
  fun_induction tokens s with
  | case1 => simp
  | case2 c s _ ih => simp only [List.length_cons]; omega
  | case3 s _ _ ih =>
    simp only [List.length_cons, List.length_tail] at ih ⊢
    omega
  | case4 s _ _ ih => simp only [List.length_cons]; omega
  | case5 c s _ _ t _ ih => simp only [List.length_cons]; omega
  | case6 c s _ _ _ ih =>
    have := (List.dropWhile_sublist (l := s) isWord).length_le
    simp only [List.length_cons]
    omega

theorem strings_eq {ps : List UInt8} {c : Cmd Span} (h0 : (0 : UInt8) ∉ s) (h : parseline fuel s = .ok (c, ps)) :
    c.map (fun w => cstring s.length (nulterminate s.length c s) w.q) = c.map Span.word := by
  have hin := (parse_inside fuel (List.suffix_refl s)).1 h
  refine map_congr fun w hw => ?_
  rw [nulterminate_eq]
  exact cstring_word h0 hin.words hw

theorem parsecmd_ok {ps : List UInt8} {c : Cmd Span} (h : parseline fuel s = .ok (c, ps)) :
    parsecmd fuel s = if tokens ps = [] then .ok (c, nulterminate s.length c s) else .error .badSyntax := by
  unfold parsecmd
  rw [h]
  simp only [peek_snd, ne_eq, tokens_nil_iff, ite_not]

/-- `parsecmd` terminates on every line, and returns if and only if the tokens of the
line are derivable; the strings of its tree are those of the derivation. -/
theorem parsecmd_iff (s : List UInt8) (h0 : (0 : UInt8) ∉ s) (fuel : Nat) (hf : 4 * s.length + 4 ≤ fuel) :
    parsecmd fuel s ≠ .error .fuel ∧
      ∀ t, Derives .line (tokens s) t ↔
        ∃ c mem, parsecmd fuel s = .ok (c, mem) ∧ c.map (fun w => cstring s.length mem w.q) = t := by
  have hview := (parse_view fuel s).1
  have hneed : Part.line.need (tokens s).length ≤ fuel := by
    have := length_tokens s
    simp only [Part.need]
    omega
  cases hp : parseline fuel s with
  | error e =>
    have hcmd : parsecmd fuel s = .error e := by rw [parsecmd, hp]
    have hline : line fuel (tokens s) = .error e := by rw [← hview, hp]; rfl
    refine ⟨fun hc => ?_, fun t => ⟨fun hd => ?_, fun ⟨c, mem, hc, _⟩ => ?_⟩⟩
    · rw [hcmd] at hc
      cases hc
      exact (parse_fuel fuel).1 hneed hline
    · have hok : parsePart .line fuel (tokens s ++ []) = .ok (t, []) := parse_complete hd trivial hneed
      rw [List.append_nil, parsePart, hline] at hok
      cases hok
    · rw [hcmd] at hc
      cases hc
  | ok x =>
    obtain ⟨c, ps⟩ := x
    have hline : line fuel (tokens s) = .ok (c.map Span.word, tokens ps) := by rw [← hview, hp]; rfl
    rw [parsecmd_ok hp]
    refine ⟨fun hc => ?_, fun t => ⟨fun hd => ?_, fun ⟨c', mem, hc, ht⟩ => ?_⟩⟩
    · split at hc <;> cases hc
    · have hok : parsePart .line fuel (tokens s ++ []) = .ok (t, []) := parse_complete hd trivial hneed
      rw [List.append_nil, parsePart, hline] at hok
      injection hok with hok
      injection hok with ht hnil
      exact ⟨c, _, if_pos hnil, (strings_eq h0 hp).trans ht⟩
    · split at hc
      · next hnil =>
        cases hc
        rw [strings_eq h0 hp] at ht
        obtain ⟨xs, hxs, hd⟩ := (parse_sound fuel).1 hline
        rw [hnil, List.append_nil] at hxs
        rw [hxs, ← ht]
        exact hd
      · cases hc

/-- `a>b;(c)&` -/
theorem parsecmd_iff_example : ∃ t, Derives .line (tokens [97, 62, 98, 59, 40, 99, 41, 38]) t ∧
    t = .list (.redir (.exec [[97]]) [98] 1537 1) (.back (.exec [[99]])) := by
  have h := (parsecmd_iff [97, 62, 98, 59, 40, 99, 41, 38] (by decide) 36 (by decide)).2
  exact ⟨_, (h _).mpr ⟨_, _, rfl, rfl⟩, rfl⟩

/-! ## What `nulterminate` keeps -/

def Cmd.argvs {W : Type} : Cmd W → List (List W)
  | .exec argv => [argv]
  | .redir cmd _ _ _ => cmd.argvs
  | .pipe left right => left.argvs ++ right.argvs
  | .list left right => left.argvs ++ right.argvs
  | .back cmd => cmd.argvs

theorem argvs_map {W V : Type} (f : W → V) (c : Cmd W) : (c.map f).argvs = c.argvs.map (List.map f) := by
  induction c with
  | exec argv => rfl
  | redir cmd file mode fd ih => exact ih
  | pipe l r ihl ihr | list l r ihl ihr => rw [Cmd.map, Cmd.argvs, ihl, ihr, Cmd.argvs, List.map_append]
  | back cmd ih => exact ih

theorem argvs_wrap (ds : List (Redir × Word)) : ∀ c, (wrap c ds).argvs = c.argvs := by
  induction ds with
  | nil => exact fun _ => rfl
  | cons d ds ih => exact fun c => ih _

theorem argvs_backs (n : Nat) (c : Cmd Word) : (backs n c).argvs = c.argvs := by
  induction n with
  | zero => rfl
  | succ n ih =>
    rw [backs, Function.iterate_succ_apply']
    exact ih

theorem Derives.argvs (h : Derives part ts c) : ∀ ws ∈ c.argvs, ws.length < MAXARGS := by
  induction h with
  | line n _ ih => rwa [argvs_backs]
  | lines n _ _ ih ih' | pipes _ _ ih ih' =>
    simp only [Cmd.argvs, argvs_backs]
    exact fun ws hws => (List.mem_append.mp hws).elim (ih ws) (ih' ws)
  | pipe _ ih => exact ih
  | block _ _ ih => rwa [argvs_wrap]
  | exec _ _ hlen =>
    rw [argvs_wrap]
    exact fun ws hws => List.mem_singleton.mp hws ▸ Nat.lt_of_le_pred (by decide) hlen

/-- The line `s` after the writes, and the words of the tree in it. -/
structure Terminated (s mem : List UInt8) (c : Cmd Span) : Prop where
  string : ∀ w ∈ c.words, cstring s.length mem w.q = w.word
  nul : ∀ w ∈ c.words, (mem ++ [0])[s.length - w.eq.length]? = some 0

theorem terminated {c : Cmd Span} {ws : List Span} (h0 : (0 : UInt8) ∉ s)
    (hgood : ∀ w ∈ c.words, w.Good s) (hp : ws.Perm c.words) :
    Terminated s (ws.foldl (fun mem w => clear s.length mem w.eq) s) c := by
  refine ⟨fun w hw => cstring_word h0 (fun v hv => hgood v (hp.mem_iff.mp hv)) (hp.mem_iff.mpr hw), fun w hw => ?_⟩
  have hlen := length_clear (n := s.length) ws s
  rcases Nat.lt_or_ge (s.length - w.eq.length) s.length with hlt | hge
  · rw [List.getElem?_append_left (hlen.symm ▸ hlt)]
    exact clear_here ws s ⟨w, hp.mem_iff.mpr hw, rfl⟩ hlt
  · rw [Nat.le_antisymm (Nat.sub_le ..) hge, List.getElem?_append_right hlen.le, hlen, Nat.sub_self]
    rfl

/-- In whatever order the ends of the words of a tree are written, every word is the
string that the parser saw, since no end is inside a word. -/
theorem nulterminate_keeps_words {s mem : List UInt8} {c : Cmd Span} (h0 : (0 : UInt8) ∉ s)
    (h : parsecmd fuel s = .ok (c, mem)) :
    Terminated s mem c ∧
      (∀ ws : List Span, ws.Perm c.words → Terminated s (ws.foldl (fun mem w => clear s.length mem w.eq) s) c) ∧
      (∀ w ∈ c.words, w.Good s ∧ ∀ v ∈ c.words,
        s.length - v.eq.length < s.length - w.q.length ∨ s.length - w.eq.length ≤ s.length - v.eq.length) ∧
      ∀ argv ∈ c.argvs, argv.length < MAXARGS := by
  cases hp : parseline fuel s with
  | error e => rw [parsecmd, hp] at h; cases h
  | ok x =>
    obtain ⟨c', ps⟩ := x
    rw [parsecmd_ok hp] at h
    split at h
    · cases h
      have hgood := ((parse_inside fuel (List.suffix_refl s)).1 hp).words
      have hline : line fuel (tokens s) = .ok (c.map Span.word, tokens ps) := by rw [← (parse_view fuel s).1, hp]; rfl
      obtain ⟨xs, -, hd⟩ := (parse_sound fuel).1 hline
      refine ⟨?_, fun ws => terminated h0 hgood, fun w hw => ⟨hgood w hw, fun v hv => (hgood w hw).apart
        (hgood v hv)⟩, fun argv ha => ?_⟩
      · rw [nulterminate_eq]
        exact terminated h0 hgood (List.Perm.refl _)
      · have := hd.argvs (argv.map Span.word) (by rw [argvs_map]; exact List.mem_map_of_mem ha)
        rwa [List.length_map] at this
    · cases h

/-- `a>b` -/
theorem nulterminate_keeps_words_redir : ∃ c mem, parsecmd 16 [97, 62, 98] = .ok (c, mem) ∧
    Terminated [97, 62, 98] mem c :=
  ⟨_, _, rfl, (nulterminate_keeps_words (by decide) (rfl : parsecmd 16 [97, 62, 98] = .ok _)).1⟩

end Xv6.Sh
