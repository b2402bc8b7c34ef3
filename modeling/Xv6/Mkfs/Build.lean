import Xv6.Fs.DirMap

/-!
# `mkfs`

`mkfs/mkfs.c` on the bytes of the image file.  The host is little-endian, so
`xshort` and `xint` leave numbers as they are.  Writing to the image succeeds; a
read past its end is `die("read")`.

A `HostFile` is an argument: its path and what `read` delivers, in chunks of 1 to
`BSIZE` bytes.  `main` is the image of a run that exits with status 0.
-/

namespace Xv6.Mkfs

open Fs (Inode Super IPB IBLOCK ROOTINO NDIRECT MAXFILE T_DIR T_FILE)

def NINODES : Nat := 200

/-- Size of the file system in blocks. -/
def FSSIZE : Nat := 2000

def FSMAGIC : Nat := 0x10203040

def nbitmap : Nat := FSSIZE / (BSIZE * 8) + 1

def ninodeblocks : Nat := NINODES / IPB + 1

def nlog : Nat := LOGSIZE

/-- Number of meta blocks: boot, superblock, log, inodes, bitmap. -/
def nmeta : Nat := 2 + nlog + ninodeblocks + nbitmap

def nblocks : Nat := FSSIZE - nmeta

def sb : Super :=
  { size := FSSIZE, ninodes := NINODES, inodestart := 2 + nlog, bmapstart := 2 + nlog + ninodeblocks, nmeta := nmeta
    inodes_le := by decide
    bmap_le := by decide
    nmeta_pos := by decide
    size_lt := by decide
    ninodes_lt := by decide }

/-- `struct superblock`: offsets, widths and values. -/
def superFields : List (Nat × Nat × Nat) :=
  [(0, 4, FSMAGIC), (4, 4, sb.size), (8, 4, nblocks), (12, 4, sb.ninodes), (16, 4, nlog), (20, 4, 2),
    (24, 4, sb.inodestart), (28, 4, sb.bmapstart)]

/-- How a run ends that does not exit with status 0. -/
inductive Exit
  | usage
  | die
  | assertion

structure Img where
  disk : Disk
  /-- The number of blocks of the image file. -/
  len : Nat
  freeinode : Nat
  freeblock : Nat

def rsect (img : Img) (sec : Nat) : Except Exit Block :=
  if sec < img.len then .ok (img.disk sec) else .error .die

def wsect (img : Img) (sec : Nat) (buf : Block) : Img :=
  { img with disk := Function.update img.disk sec buf, len := max img.len (sec + 1) }

def rinode (img : Img) (inum : Nat) : Except Exit Inode := do
  let buf ← rsect img (IBLOCK sb inum)
  pure (Fs.getDinode buf (Fs.dinodeOff inum))

def winode (img : Img) (inum : Nat) (ip : Inode) : Except Exit Img := do
  let buf ← rsect img (IBLOCK sb inum)
  pure (wsect img (IBLOCK sb inum) (Bytes.putFields buf (Fs.dinodeOff inum) (Fs.dinodeFields ip)))

def ialloc (img : Img) (type : Nat) : Except Exit (Nat × Img) := do
  let inum := img.freeinode
  let din : Inode := { type := type, major := 0, minor := 0, nlink := 1, size := 0, addrs := fun _ => 0 }
  let img ← winode { img with freeinode := inum + 1 } inum din
  pure (inum, img)

def bitmap (used : Nat) : Block := (List.range used).foldl Fs.setBit Fs.zeroBlock

def balloc (img : Img) (used : Nat) : Except Exit Img :=
  if used < BSIZE * 8 then .ok (wsect img sb.bmapstart (bitmap used)) else .error .assertion

/-- The part of `iappend`'s loop that finds block `fbn` of the file. -/
def fileBlock (img : Img) (din : Inode) (fbn : Nat) : Except Exit (Nat × Img × Inode) :=
  if h : fbn < 12 then
    let j : Fin 13 := ⟨fbn, Fs.direct_lt h⟩
    if din.addrs j = 0 then
      .ok (img.freeblock, { img with freeblock := img.freeblock + 1 }, Fs.setAddr din j img.freeblock)
    else .ok (din.addrs j, img, din)
  else do
    let (img, din) :=
      if din.addrs Fs.indirect = 0 then
        ({ img with freeblock := img.freeblock + 1 }, Fs.setAddr din Fs.indirect img.freeblock)
      else (img, din)
    let indirect ← rsect img (din.addrs Fs.indirect)
    if Fs.entryAt indirect (fbn - 12) = 0 then
      let x := img.freeblock
      let img := wsect { img with freeblock := x + 1 } (din.addrs Fs.indirect)
        (Bytes.putLE indirect (4 * (fbn - 12)) 4 x)
      pure (x, img, din)
    else pure (Fs.entryAt indirect (fbn - 12), img, din)

/-- The loop of `iappend`; `k` bytes of `p` have been written, `n` are left. -/
def iappendLoop (p : Nat → UInt8) : Nat → Nat → Nat → Nat → Img → Inode → Except Exit (Nat × Img × Inode)
  | 0, _, off, _, img, din => .ok (off, img, din)
  | fuel + 1, n, off, k, img, din =>
    if 0 < n then do
      let fbn := off / BSIZE
      if MAXFILE ≤ fbn then throw .assertion
      let (x, img, din) ← fileBlock img din fbn
      let n1 := min n ((fbn + 1) * BSIZE - off)
      let buf ← rsect img x
      let img := wsect img x (Fs.copyIn buf (off - fbn * BSIZE) (fun y => p (k + y)) n1)
      iappendLoop p fuel (n - n1) (off + n1) (k + n1) img din
    else .ok (off, img, din)

/-- `iappend`; a round of the loop writes at least one byte. -/
def iappend (img : Img) (inum : Nat) (p : Nat → UInt8) (n : Nat) : Except Exit Img := do
  let din ← rinode img inum
  let (off, img, din) ← iappendLoop p n n din.size 0 img din
  winode img inum { din with size := off }

/-- What one `read` into `buf` delivers. -/
structure Chunk where
  bytes : List UInt8
  pos : 0 < bytes.length
  le : bytes.length ≤ BSIZE

/-- An argument; `reads` is `none` when it cannot be opened. -/
structure HostFile where
  path : List UInt8
  reads : Option (List Chunk)

def cstr (s : List UInt8) (x : Nat) : UInt8 := s.getD x 0

def withoutUser (path : List UInt8) : List UInt8 :=
  if path.take 5 = [117, 115, 101, 114, 47] then path.drop 5 else path

/-- The name in the root directory: a leading `_` is skipped too. -/
def shortname (path : List UInt8) : List UInt8 :=
  if (withoutUser path).head? = some 95 then (withoutUser path).drop 1 else withoutUser path

/-- The bytes of an entry, in a `struct dirent` that was cleared. -/
def dirent (name : List UInt8) (inum : Nat) : Nat → UInt8 := Fs.DirMap.newDirent (fun _ => 0) (cstr name) inum

def appendChunks (inum : Nat) : List Chunk → Img → Except Exit Img
  | [], img => .ok img
  | c :: cs, img => do
      let img ← iappend img inum (cstr c.bytes) c.bytes.length
      appendChunks inum cs img

def addFile (rootino : Nat) (img : Img) (f : HostFile) : Except Exit Img := do
  if 47 ∈ withoutUser f.path then throw .assertion
  match f.reads with
  | none => throw .die
  | some chunks =>
    let (inum, img) ← ialloc img T_FILE
    let img ← iappend img rootino (dirent (shortname f.path) inum) 16
    appendChunks inum chunks img

def addFiles (rootino : Nat) : List HostFile → Img → Except Exit Img
  | [], img => .ok img
  | f :: fs, img => do
      let img ← addFile rootino img f
      addFiles rootino fs img

/-- The image with its superblock, and nothing else. -/
def blank : Img where
  disk := Function.update (fun _ => Fs.zeroBlock) 1 (Bytes.putFields Fs.zeroBlock 0 superFields)
  len := FSSIZE
  freeinode := 1
  freeblock := nmeta

def rootImage : Except Exit (Nat × Img) := do
  let (rootino, img) ← ialloc blank T_DIR
  if rootino ≠ ROOTINO then throw .assertion
  let img ← iappend img rootino (dirent Fs.dot rootino) 16
  let img ← iappend img rootino (dirent Fs.dotdot rootino) 16
  pure (rootino, img)

/-- Fix the size of the root directory, and write the bitmap. -/
def finish (rootino : Nat) (img : Img) : Except Exit Img := do
  let din ← rinode img rootino
  let img ← winode img rootino { din with size := (din.size / BSIZE + 1) * BSIZE }
  balloc img img.freeblock

/-- `main` for the arguments after the first.  `image` is the first argument, if
there is one: whether it can be opened. -/
def main (image : Option Bool) (files : List HostFile) : Except Exit Img :=
  match image with
  | none => .error .usage
  | some false => .error .die
  | some true => do
      let (rootino, img) ← rootImage
      let img ← addFiles rootino files img
      finish rootino img

end Xv6.Mkfs
