import Xv6.Lib.Bytes

/-!
# Constants and blocks

The compile-time constants of `kernel/param.h` and `kernel/fs.h` that the
modelled functions read, and the type of a disk block.
-/

namespace Xv6

/-- Maximum number of blocks any file-system operation writes. -/
def MAXOPBLOCKS : Nat := 10

/-- Maximum number of data blocks in the on-disk log. -/
def LOGSIZE : Nat := MAXOPBLOCKS * 3

/-- Size of the disk block cache. -/
def NBUF : Nat := MAXOPBLOCKS * 3

/-- Maximum number of processes. -/
def NPROC : Nat := 64

/-- Open files per process. -/
def NOFILE : Nat := 16

/-- Open files per system. -/
def NFILE : Nat := 100

/-- Maximum number of active inodes. -/
def NINODE : Nat := 50

/-- Maximum major device number. -/
def NDEV : Nat := 10

/-- Block size in bytes. -/
def BSIZE : Nat := 1024

/-- The content of a disk block: only the offsets below `BSIZE` are used. -/
abbrev Block := Bytes.Mem

/-- A disk: block numbers to contents. -/
abbrev Disk := Nat → Block

/-- A 32-bit word read as a C `int`. -/
def toInt32 (v : Nat) : Int := if v % 2 ^ 32 < 2 ^ 31 then (v % 2 ^ 32 : Nat) else (v % 2 ^ 32 : Nat) - 2 ^ 32

theorem toInt32_of_lt (v : Nat) (h : v < 2 ^ 31) : toInt32 v = v := by
  unfold toInt32
  rw [Nat.mod_eq_of_lt (by omega), if_pos h]

end Xv6
