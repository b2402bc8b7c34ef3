import Xv6.Fs.Ops

/-!
# The parser of the shell

The parser of `user/sh.c`.  A pointer into the line is the string that it points
to, up to the NUL at `es`; `s < es` says that this string is not empty.

`malloc` does not fail here.  The recursion goes by `fuel`, and running out of it
is an outcome of its own.
-/

namespace Xv6.Sh

open Fs (O_RDONLY O_WRONLY O_CREATE O_TRUNC)

def MAXARGS : Nat := 10

/-- `" \t\r\n\v"`. -/
def whitespace : List UInt8 := [32, 9, 13, 10, 11]

/-- `"<|>&;()"`. -/
def symbols : List UInt8 := [60, 124, 62, 38, 59, 40, 41]

abbrev Ptr := List UInt8

/-- A word of the line: it starts at `q` and ends before `eq`. -/
structure Span where
  q : Ptr
  eq : Ptr

/-- `struct cmd`, where `W` are the words. -/
inductive Cmd (W : Type)
  | exec (argv : List W)
  | redir (cmd : Cmd W) (file : W) (mode fd : Nat)
  | pipe (left right : Cmd W)
  | list (left right : Cmd W)
  | back (cmd : Cmd W)

/-- The panic messages, and the end of the fuel. -/
inductive Stop
  | badSyntax              -- "syntax"
  | missingFile            -- "missing file for redirection"
  | parseblock             -- "parseblock"
  | missingParen           -- "syntax - missing )"
  | tooManyArgs            -- "too many args"
  | fuel
  deriving DecidableEq

/-! ## Tokens -/

/-- `while(s < es && strchr(whitespace, *s)) s++;` -/
def skip (s : Ptr) : Ptr := s.dropWhile fun c => whitespace.contains c

/-- The characters of words. -/
def isWord (c : UInt8) : Bool := !whitespace.contains c && !symbols.contains c

/-- What `gettoken` returns, and stores through its arguments. -/
structure Token where
  ret : UInt8
  q : Ptr
  eq : Ptr
  ps : Ptr

def gettoken (ps : Ptr) : Token :=
  let q := skip ps
  match q with
  | [] => ⟨0, q, q, skip q⟩
  | c :: s =>
    -- '|', '(', ')', ';', '&' and '<'
    if [124, 40, 41, 59, 38, 60].contains c then ⟨c, q, s, skip s⟩
    else if c = 62 then
      -- '>' and '>>', which is '+'
      if s.headD 0 = 62 then ⟨43, q, s.tail, skip s.tail⟩ else ⟨62, q, s, skip s⟩
    else
      -- 'a'
      let eq := q.dropWhile isWord
      ⟨97, q, eq, skip eq⟩

/-- Whether the next character is one of `toks`, and the pointer to it. -/
def peek (ps : Ptr) (toks : List UInt8) : Bool × Ptr :=
  match skip ps with
  | [] => (false, [])
  | c :: s => (toks.contains c, c :: s)

/-! ## Commands -/

/-- `redircmd`, for the token of the redirection. -/
def redircmd (tok : UInt8) (cmd : Cmd Span) (file : Span) : Cmd Span :=
  if tok = 60 then .redir cmd file O_RDONLY 0
  else if tok = 62 then .redir cmd file (O_WRONLY ||| O_CREATE ||| O_TRUNC) 1
  else if tok = 43 then .redir cmd file (O_WRONLY ||| O_CREATE) 1
  else cmd

def parseredirs : Nat → Cmd Span → Ptr → Except Stop (Cmd Span × Ptr)
  | 0, _, _ => .error .fuel
  | fuel + 1, cmd, ps =>
    let (more, ps) := peek ps [60, 62]
    if more then
      let tok := gettoken ps
      let file := gettoken tok.ps
      if file.ret ≠ 97 then .error .missingFile
      else parseredirs fuel (redircmd tok.ret cmd ⟨file.q, file.eq⟩) file.ps
    else .ok (cmd, ps)

/-- `cmd->argv[argc] = q`, where `cmd` is inside the redirections `ret`. -/
def addArg {W : Type} (w : W) : Cmd W → Cmd W
  | .exec argv => .exec (argv ++ [w])
  | .redir cmd file mode fd => .redir (addArg w cmd) file mode fd
  | cmd => cmd

def parseargs : Nat → Nat → Cmd Span → Ptr → Except Stop (Cmd Span × Ptr)
  | 0, _, _, _ => .error .fuel
  | fuel + 1, argc, ret, ps =>
    let (stop, ps) := peek ps [124, 41, 38, 59]
    if stop then .ok (ret, ps)
    else
      let tok := gettoken ps
      if tok.ret = 0 then .ok (ret, tok.ps)
      else if tok.ret ≠ 97 then .error .badSyntax
      else if MAXARGS ≤ argc + 1 then .error .tooManyArgs
      else
        match parseredirs fuel (addArg ⟨tok.q, tok.eq⟩ ret) tok.ps with
        | .error e => .error e
        | .ok (ret, ps) => parseargs fuel (argc + 1) ret ps

def parsebacks : Nat → Cmd Span → Ptr → Except Stop (Cmd Span × Ptr)
  | 0, _, _ => .error .fuel
  | fuel + 1, cmd, ps =>
    let (more, ps) := peek ps [38]
    if more then parsebacks fuel (.back cmd) (gettoken ps).ps else .ok (cmd, ps)

mutual

def parseline : Nat → Ptr → Except Stop (Cmd Span × Ptr)
  | 0, _ => .error .fuel
  | fuel + 1, ps =>
    match parsepipe fuel ps with
    | .error e => .error e
    | .ok (cmd, ps) =>
      match parsebacks fuel cmd ps with
      | .error e => .error e
      | .ok (cmd, ps) =>
        let (more, ps) := peek ps [59]
        if more then
          match parseline fuel (gettoken ps).ps with
          | .error e => .error e
          | .ok (right, ps) => .ok (.list cmd right, ps)
        else .ok (cmd, ps)

def parsepipe : Nat → Ptr → Except Stop (Cmd Span × Ptr)
  | 0, _ => .error .fuel
  | fuel + 1, ps =>
    match parseexec fuel ps with
    | .error e => .error e
    | .ok (cmd, ps) =>
      let (more, ps) := peek ps [124]
      if more then
        match parsepipe fuel (gettoken ps).ps with
        | .error e => .error e
        | .ok (right, ps) => .ok (.pipe cmd right, ps)
      else .ok (cmd, ps)

def parseexec : Nat → Ptr → Except Stop (Cmd Span × Ptr)
  | 0, _ => .error .fuel
  | fuel + 1, ps =>
    let (block, ps) := peek ps [40]
    if block then parseblock fuel ps
    else
      match parseredirs fuel (.exec []) ps with
      | .error e => .error e
      | .ok (ret, ps) => parseargs fuel 0 ret ps

def parseblock : Nat → Ptr → Except Stop (Cmd Span × Ptr)
  | 0, _ => .error .fuel
  | fuel + 1, ps =>
    let (block, ps) := peek ps [40]
    if !block then .error .parseblock
    else
      match parseline fuel (gettoken ps).ps with
      | .error e => .error e
      | .ok (cmd, ps) =>
        let (close, ps) := peek ps [41]
        if !close then .error .missingParen
        else parseredirs fuel cmd (gettoken ps).ps

end

/-! ## The strings -/

/-- `*p = 0`, in a line of `n` characters. -/
def clear (n : Nat) (mem : List UInt8) (p : Ptr) : List UInt8 := mem.set (n - p.length) 0

def nulterminate (n : Nat) : Cmd Span → List UInt8 → List UInt8
  | .exec argv, mem => argv.foldl (fun mem w => clear n mem w.eq) mem
  | .redir cmd file _ _, mem => clear n (nulterminate n cmd mem) file.eq
  | .pipe left right, mem => nulterminate n right (nulterminate n left mem)
  | .list left right, mem => nulterminate n right (nulterminate n left mem)
  | .back cmd, mem => nulterminate n cmd mem

/-- The tree, and the characters of the line. -/
def parsecmd (fuel : Nat) (s : List UInt8) : Except Stop (Cmd Span × List UInt8) :=
  match parseline fuel s with
  | .error e => .error e
  | .ok (cmd, ps) =>
    let (_, ps) := peek ps []
    if ps ≠ [] then .error .badSyntax else .ok (cmd, nulterminate s.length cmd s)

/-- The string at a pointer, in a line of `n` characters. -/
def cstring (n : Nat) (mem : List UInt8) (p : Ptr) : List UInt8 := (mem.drop (n - p.length)).takeWhile (· ≠ 0)

end Xv6.Sh
