import Xv6Arm.Lib.LittleEndian

/-!
# Sizes and limits

The constants of `param.h` and `fs.h` and the addressing macros of `fs.h`.
-/
namespace Xv6Arm

abbrev NPROC : ℕ := 64
abbrev NOFILE : ℕ := 16
abbrev NFILE : ℕ := 100
abbrev MAXOPBLOCKS : ℕ := 10
abbrev LOGSIZE : ℕ := MAXOPBLOCKS * 3
abbrev NBUF : ℕ := MAXOPBLOCKS * 3
abbrev NINODE : ℕ := 50
abbrev NDEV : ℕ := 10
abbrev ROOTDEV : ℕ := 1

abbrev ROOTINO : ℕ := 1
abbrev BSIZE : ℕ := 1024
abbrev NDIRECT : ℕ := 12
abbrev NINDIRECT : ℕ := BSIZE / 4
abbrev MAXFILE : ℕ := NDIRECT + NINDIRECT
abbrev DIRSIZ : ℕ := 14
abbrev IPB : ℕ := BSIZE / 64
abbrev BPB : ℕ := BSIZE * 8

/-- The contents of a disk block: bytes 0 to `BSIZE - 1`. -/
abbrev Block := Lib.Bytes

abbrev Disk := ℕ → Block

/-- The fields of `struct superblock` that the running kernel reads. -/
structure Superblock where
  size : ℕ
  ninodes : ℕ
  nlog : ℕ
  logstart : ℕ
  inodestart : ℕ
  bmapstart : ℕ

/-- `IBLOCK`: the block that holds inode `i`. -/
def iblock (sb : Superblock) (i : ℕ) : ℕ := i / IPB + sb.inodestart

/-- `BBLOCK`: the block of the free map that holds the bit for block `b`. -/
def bblock (sb : Superblock) (b : ℕ) : ℕ := b / BPB + sb.bmapstart

/-- The first slot of the process table exists. -/
instance : NeZero NPROC := ⟨by decide⟩

end Xv6Arm
