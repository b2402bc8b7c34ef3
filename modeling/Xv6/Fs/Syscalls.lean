import Xv6.Fs.Ops

/-!
# File-system system calls

`namex`, `dirlink`, `create`, `fileclose`, `fileread`, `filewrite` and the system
calls of `kernel/sysfile.c`, and what `fork`, `exit`, `wait` and `exec` do to
files and inodes, as programs over the operations of `Xv6.Fs.Ops`.

An argument that `argstr` may reject is an `Option`.  The devices and the data in
pipes are left out; `dev` is what a device driver, `piperead` or `pipewrite`
returns.  There is one device with a file system, so that `sys_link` does not
compare the devices of two inodes.
-/

namespace Xv6.Fs.Sys

def ino {β : Type} (o : InoOp β) : Prog β := Threads.perform (.ino o)

def tab {β : Type} (o : TabOp β) : Prog β := Threads.perform (.tab o)

def beginOp : Prog Unit := Threads.perform (.log .beginOp)

def endOp : Prog Unit := Threads.perform (.log .endOp)

/-- What is left to do when a transaction ends with `r`. -/
def endWith {β : Type} (r : β) : Prog β := do
  endOp
  pure r

def panic (m : Panic) : Prog Unit := Threads.perform (.panic m)

/-! ## `kernel/fs.c` -/

def iput (ip : Nat) : Prog Unit := do
  if ← ino (.iput ip) then
    ino (.iputFree ip)
    ino (.iputLast ip)

def iunlockput (ip : Nat) : Prog Unit := do
  ino (.iunlock ip)
  iput ip

def ialloc (type : Nat) : Prog (Option Nat) := do
  match ← ino (.ialloc type) with
  | none => pure none
  | some x =>
    let ip ← ino (.ialloced x)
    pure (some ip)

/-- Write an entry that names the inode of `target` into the directory `dp`. -/
def dirlink (dp : Nat) (name : Name) (target : Nat) : Prog Bool := do
  match ← ino (.dirlookup dp name) with
  | some (ip, _) =>
    iput ip
    pure false
  | none =>
    let off ← ino (.emptySlot dp)
    ino (.link dp off name target)

/-- Copy the next path element, and skip the slashes after it. -/
def skipelem (path : Path) : Option (Name × Path) :=
  let path := path.dropWhile (· = 47)
  if path = [] then none
  else some ((path.takeWhile (· ≠ 47)).take DIRSIZ, (path.dropWhile (· ≠ 47)).dropWhile (· = 47))

/-- The loop of `namex`.  Every element takes at least one byte, so the length of
the path bounds the rounds. -/
def namexLoop (nameiparent : Bool) : Nat → Nat → Path → Name → Prog (Option (Nat × Name))
  | 0, ip, _, name => pure (some (ip, name))
  | fuel + 1, ip, path, name =>
    match skipelem path with
    | none =>
      if nameiparent then do
        iput ip
        pure none
      else pure (some (ip, name))
    | some (name, path) => do
        ino (.ilock ip)
        let st ← ino (.stat ip)
        if st.type ≠ T_DIR then
          iunlockput ip
          pure none
        else if nameiparent ∧ path = [] then
          ino (.iunlock ip)
          pure (some (ip, name))
        else
          match ← ino (.dirlookup ip name) with
          | none =>
            iunlockput ip
            pure none
          | some (next, _) =>
            iunlockput ip
            namexLoop nameiparent fuel next path name

def namex (path : Path) (nameiparent : Bool) : Prog (Option (Nat × Name)) := do
  if path.head? = some 47 then
    let ip ← ino .root
    namexLoop nameiparent (path.length + 1) ip path []
  else
    let cwd ← tab .cwd
    let ip ← ino (.idup cwd)
    namexLoop nameiparent (path.length + 1) ip path []

def namei (path : Path) : Prog (Option Nat) := do
  match ← namex path false with
  | none => pure none
  | some (ip, _) => pure (some ip)

def nameiparent (path : Path) : Prog (Option (Nat × Name)) := namex path true

/-! ## `kernel/file.c` -/

def fileclose (f : Nat) : Prog Unit := do
  match ← tab (.closeRef f) with
  | none => pure ()
  | some ff =>
    if ff.type = .pipe then tab (.pipeclose ff.pipe ff.writable)
    else if ff.type = .inode ∨ ff.type = .device then
      beginOp
      iput ff.ip
      endOp
    else pure ()

/-- `filestat`; `ok` says whether the copy to the user succeeds. -/
def filestat (f : Nat) (ok : Bool) : Prog Int := do
  let x ← tab (.file f)
  if x.type = .inode ∨ x.type = .device then
    ino (.ilock x.ip)
    ino (.iunlock x.ip)
    pure (if ok then 0 else -1)
  else pure (-1)

/-- Add what `readi` or `writei` returned to the offset of the file. -/
def advance (f off : Nat) (r : Int) : Prog Unit :=
  if 0 < r then tab (.setOff f ((off + r.toNat) % 2 ^ 32)) else pure ()

def fileread (f : Nat) (n : Int) (fail : Nat → Bool) (dev : Int) : Prog Int := do
  let x ← tab (.file f)
  if x.readable = false then pure (-1)
  else if x.type = .pipe ∨ x.type = .device then pure dev
  else if x.type = .inode then
    ino (.ilock x.ip)
    let y ← tab (.file f)
    let r ← ino (.readi x.ip y.off (n % 2 ^ 32).toNat fail)
    advance f y.off r
    ino (.iunlock x.ip)
    pure r
  else
    panic .fileread
    pure (-1)

/-- The loop of `filewrite`: the bytes written in whole chunks. -/
def filewriteLoop (f ip : Nat) (src : Nat → UInt8) (fail : Nat → Nat → Option Nat) (n : Nat) : Nat → Nat → Prog Nat
  | 0, i => pure i
  | fuel + 1, i =>
    if i < n then do
      let n1 := min (n - i) ((MAXOPBLOCKS - 1 - 1 - 2) / 2 * BSIZE)
      beginOp
      ino (.ilock ip)
      let y ← tab (.file f)
      let r ← ino (.writei ip (fun k => src (i + k)) y.off n1 (fail i))
      advance f y.off r
      ino (.iunlock ip)
      endOp
      if r = n1 then filewriteLoop f ip src fail n fuel (i + n1) else pure i
    else pure i

def filewrite (f : Nat) (src : Nat → UInt8) (n : Int) (fail : Nat → Nat → Option Nat) (dev : Int) : Prog Int := do
  let x ← tab (.file f)
  if x.writable = false then pure (-1)
  else if x.type = .pipe ∨ x.type = .device then pure dev
  else if x.type = .inode then
    let i ← filewriteLoop f x.ip src fail n.toNat n.toNat 0
    pure (if (i : Int) = n then n else -1)
  else
    panic .filewrite
    pure (-1)

/-! ## `kernel/sysfile.c` -/

def sysDup (fd : Int) : Prog Int := do
  match ← tab (.argfd fd) with
  | none => pure (-1)
  | some f =>
    match ← tab (.fdalloc f) with
    | none => pure (-1)
    | some fd' =>
      tab (.filedup f)
      pure fd'

def sysRead (fd n : Int) (fail : Nat → Bool) (dev : Int) : Prog Int := do
  match ← tab (.argfd fd) with
  | none => pure (-1)
  | some f => fileread f n fail dev

def sysWrite (fd : Int) (src : Nat → UInt8) (n : Int) (fail : Nat → Nat → Option Nat) (dev : Int) : Prog Int := do
  match ← tab (.argfd fd) with
  | none => pure (-1)
  | some f => filewrite f src n fail dev

def sysClose (fd : Int) : Prog Int := do
  match ← tab (.argfd fd) with
  | none => pure (-1)
  | some f =>
    tab (.clearFd fd.toNat)
    fileclose f
    pure 0

def sysFstat (fd : Int) (ok : Bool) : Prog Int := do
  match ← tab (.argfd fd) with
  | none => pure (-1)
  | some f => filestat f ok

/-- The end of `sys_link` when it fails. -/
def linkBad (ip : Nat) : Prog Int := do
  ino (.ilock ip)
  let st ← ino (.stat ip)
  ino (.setLink ip (st.nlink - 1))
  iunlockput ip
  endWith (-1)

def sysLink (old new : Option Path) : Prog Int :=
  match old, new with
  | some old, some new => do
      beginOp
      match ← namei old with
      | none => endWith (-1)
      | some ip =>
        ino (.ilock ip)
        let st ← ino (.stat ip)
        if st.type = T_DIR then
          iunlockput ip
          endWith (-1)
        else
          ino (.setLink ip (st.nlink + 1))
          ino (.iunlock ip)
          match ← nameiparent new with
          | none => linkBad ip
          | some (dp, name) =>
            ino (.ilock dp)
            if ← dirlink dp name ip then
              iunlockput dp
              iput ip
              endWith 0
            else
              iunlockput dp
              linkBad ip
  | _, _ => pure (-1)

/-- The rest of `sys_unlink` for the entry at `off`, with `dp` and `ip` locked. -/
def unlinkEntry (dp ip off : Nat) (st : Stat) : Prog Int := do
  if ← ino (.clear dp off) then pure () else panic .unlinkWritei
  if st.type = T_DIR then
    let sd ← ino (.stat dp)
    ino (.setLink dp (sd.nlink - 1))
  iunlockput dp
  ino (.setLink ip (st.nlink - 1))
  iunlockput ip
  endWith 0

def sysUnlink (path : Option Path) : Prog Int :=
  match path with
  | none => pure (-1)
  | some path => do
      beginOp
      match ← nameiparent path with
      | none => endWith (-1)
      | some (dp, name) =>
        ino (.ilock dp)
        if name = dot ∨ name = dotdot then
          iunlockput dp
          endWith (-1)
        else
          match ← ino (.dirlookup dp name) with
          | none =>
            iunlockput dp
            endWith (-1)
          | some (ip, off) =>
            ino (.ilock ip)
            let st ← ino (.stat ip)
            if st.nlink < 1 then panic .unlinkNlink else pure ()
            if st.type = T_DIR then
              if ← ino (.isdirempty ip) then unlinkEntry dp ip off st
              else
                iunlockput ip
                iunlockput dp
                endWith (-1)
            else unlinkEntry dp ip off st

/-- `create` after it has allocated `ip`, when something went wrong. -/
def createFail (dp ip : Nat) : Prog (Option Nat) := do
  ino (.setLink ip 0)
  iunlockput ip
  iunlockput dp
  pure none

/-- The entry for the new inode, and the link count of its parent. -/
def createLink (dp : Nat) (name : Name) (ip type : Nat) : Prog (Option Nat) := do
  if ← dirlink dp name ip then
    if type = T_DIR then
      let sd ← ino (.stat dp)
      ino (.setLink dp (sd.nlink + 1))
    iunlockput dp
    pure (some ip)
  else createFail dp ip

/-- `create` with a new inode: `.` and `..`, then the entry in `dp`. -/
def createNew (dp : Nat) (name : Name) (ip type : Nat) (major minor : Int) : Prog (Option Nat) := do
  ino (.ilock ip)
  ino (.setInode ip major minor 1)
  if type = T_DIR then
    if ← dirlink ip dot ip then
      if ← dirlink ip dotdot dp then createLink dp name ip type
      else createFail dp ip
    else createFail dp ip
  else createLink dp name ip type

/-- `create` returns the inode locked. -/
def create (path : Path) (type : Nat) (major minor : Int) : Prog (Option Nat) := do
  match ← nameiparent path with
  | none => pure none
  | some (dp, name) =>
    ino (.ilock dp)
    match ← ino (.dirlookup dp name) with
    | some (ip, _) =>
      iunlockput dp
      ino (.ilock ip)
      let st ← ino (.stat ip)
      if type = T_FILE ∧ (st.type = T_FILE ∨ st.type = T_DEVICE) then pure (some ip)
      else
        iunlockput ip
        pure none
    | none =>
      match ← ialloc type with
      | none =>
        iunlockput dp
        pure none
      | some ip => createNew dp name ip type major minor

/-- The inode that `sys_open` opens, locked. -/
def openInode (path : Path) (omode : Nat) : Prog (Option Nat) := do
  if omode &&& O_CREATE ≠ 0 then create path T_FILE 0 0
  else
    match ← namei path with
    | none => pure none
    | some ip =>
      ino (.ilock ip)
      let st ← ino (.stat ip)
      if st.type = T_DIR ∧ omode ≠ O_RDONLY then
        iunlockput ip
        pure none
      else pure (some ip)

/-- The rest of `sys_open`, with `ip` locked. -/
def openFile (ip omode : Nat) : Prog Int := do
  let st ← ino (.stat ip)
  if st.type = T_DEVICE ∧ (st.major < 0 ∨ (NDEV : Int) ≤ st.major) then
    iunlockput ip
    endWith (-1)
  else
    match ← tab .filealloc with
    | none =>
      iunlockput ip
      endWith (-1)
    | some f =>
      match ← tab (.fdalloc f) with
      | none =>
        fileclose f
        iunlockput ip
        endWith (-1)
      | some fd =>
        tab (.setFile f (if st.type = T_DEVICE then .device else .inode) (omode &&& O_WRONLY = 0)
          (omode &&& O_WRONLY ≠ 0 ∨ omode &&& O_RDWR ≠ 0) ip 0 st.major)
        if omode &&& O_TRUNC ≠ 0 ∧ st.type = T_FILE then ino (.itrunc ip)
        ino (.iunlock ip)
        endWith fd

def sysOpen (path : Option Path) (omode : Nat) : Prog Int :=
  match path with
  | none => pure (-1)
  | some path => do
      beginOp
      match ← openInode path omode with
      | none => endWith (-1)
      | some ip => openFile ip omode

/-- `sys_mkdir` and `sys_mknod`. -/
def sysCreate (path : Option Path) (type : Nat) (major minor : Int) : Prog Int := do
  beginOp
  match path with
  | none => endWith (-1)
  | some path =>
    match ← create path type major minor with
    | none => endWith (-1)
    | some ip =>
      iunlockput ip
      endWith 0

def sysMkdir (path : Option Path) : Prog Int := sysCreate path T_DIR 0 0

def sysMknod (path : Option Path) (major minor : Int) : Prog Int := sysCreate path T_DEVICE major minor

def sysChdir (path : Option Path) : Prog Int := do
  beginOp
  match path with
  | none => endWith (-1)
  | some path =>
    match ← namei path with
    | none => endWith (-1)
    | some ip =>
      ino (.ilock ip)
      let st ← ino (.stat ip)
      if st.type ≠ T_DIR then
        iunlockput ip
        endWith (-1)
      else
        ino (.iunlock ip)
        let cwd ← tab .cwd
        iput cwd
        endOp
        tab (.setCwd ip)
        pure 0

def readAll (ip : Nat) : List (Nat × Nat) → Prog Unit
  | [] => pure ()
  | (off, n) :: reads => do
      let _ ← ino (.readi ip (off % 2 ^ 32) (n % 2 ^ 32) fun _ => false)
      readAll ip reads

/-- What `exec` does to the inode: `reads` are the offsets and lengths it reads. -/
def sysExec (path : Option Path) (reads : List (Nat × Nat)) : Prog Int :=
  match path with
  | none => pure (-1)
  | some path => do
      beginOp
      match ← namei path with
      | none => endWith (-1)
      | some ip =>
        ino (.ilock ip)
        readAll ip reads
        iunlockput ip
        endWith 0

/-! ## `kernel/pipe.c` -/

/-- `pipealloc`: the read end and the write end. -/
def pipealloc : Prog (Option (Nat × Nat)) := do
  match ← tab .filealloc with
  | none => pure none
  | some f0 =>
    match ← tab .filealloc with
    | none =>
      fileclose f0
      pure none
    | some f1 =>
      match ← tab .newPipe with
      | none =>
        fileclose f0
        fileclose f1
        pure none
      | some pi =>
        tab (.setPipe f0 pi false)
        tab (.setPipe f1 pi true)
        pure (some (f0, f1))

/-- `sys_pipe`; `ok` says whether the two numbers can be copied to the user. -/
def sysPipe (ok : Bool) : Prog Int := do
  match ← pipealloc with
  | none => pure (-1)
  | some (rf, wf) =>
    match ← tab (.fdalloc rf) with
    | none =>
      fileclose rf
      fileclose wf
      pure (-1)
    | some fd0 =>
      match ← tab (.fdalloc wf) with
      | none =>
        tab (.clearFd fd0)
        fileclose rf
        fileclose wf
        pure (-1)
      | some fd1 =>
        if ok then pure 0
        else
          tab (.clearFd fd0)
          tab (.clearFd fd1)
          fileclose rf
          fileclose wf
          pure (-1)

/-! ## `kernel/proc.c` -/

/-- `fork`'s loop over the descriptors of the parent. -/
def forkFiles (np : Nat) : List Nat → Prog Unit
  | [] => pure ()
  | fd :: fds => do
      match ← tab (.argfd fd) with
      | none => pure ()
      | some f =>
        tab (.filedup f)
        tab (.copyFd np fd f)
      forkFiles np fds

/-- `fork`; `ok` says whether there is memory for the child. -/
def sysFork (ok : Bool) : Prog Int := do
  match ← tab .allocproc with
  | none => pure (-1)
  | some np =>
    if ok then
      forkFiles np (List.range NOFILE)
      let cwd ← tab .cwd
      let h ← ino (.idup cwd)
      tab (.copyCwd np h)
      tab (.runnable np)
      pure np
    else
      tab (.freeproc np)
      pure (-1)

/-- `exit`'s loop over the descriptors. -/
def exitFiles : List Nat → Prog Unit
  | [] => pure ()
  | fd :: fds => do
      match ← tab (.argfd fd) with
      | none => pure ()
      | some f =>
        fileclose f
        tab (.clearFd fd)
      exitFiles fds

def sysExit : Prog Int := do
  tab .exiting
  exitFiles (List.range NOFILE)
  beginOp
  let cwd ← tab .cwd
  iput cwd
  endOp
  tab .clearCwd
  tab .zombie
  pure 0

def sysWait : Prog Int := do
  match ← tab .reap with
  | none => pure (-1)
  | some q => pure q

inductive Call
  | dup (fd : Int)
  | read (fd n : Int) (fail : Nat → Bool) (dev : Int)
  | write (fd : Int) (src : Nat → UInt8) (n : Int) (fail : Nat → Nat → Option Nat) (dev : Int)
  | close (fd : Int)
  | fstat (fd : Int) (ok : Bool)
  | link (old new : Option Path)
  | unlink (path : Option Path)
  | openFile (path : Option Path) (omode : Nat)
  | mkdir (path : Option Path)
  | mknod (path : Option Path) (major minor : Int)
  | chdir (path : Option Path)
  | exec (path : Option Path) (reads : List (Nat × Nat))
  | pipe (ok : Bool)
  | fork (ok : Bool)
  | exit
  | wait

def Call.code : Call → Prog Int
  | .dup fd => sysDup fd
  | .read fd n fail dev => sysRead fd n fail dev
  | .write fd src n fail dev => sysWrite fd src n fail dev
  | .close fd => sysClose fd
  | .fstat fd ok => sysFstat fd ok
  | .link old new => sysLink old new
  | .unlink path => sysUnlink path
  | .openFile path omode => sysOpen path omode
  | .mkdir path => sysMkdir path
  | .mknod path major minor => sysMknod path major minor
  | .chdir path => sysChdir path
  | .exec path reads => sysExec path reads
  | .pipe ok => sysPipe ok
  | .fork ok => sysFork ok
  | .exit => sysExit
  | .wait => sysWait

end Xv6.Fs.Sys
