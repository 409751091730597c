/-
# Parameters and the disk layout

The constants of `kernel/param.h` and `kernel/fs.h`, the superblock, and the
superblock that `mkfs` writes.  The disk is

  [ boot block | super block | log | inode blocks | free bit map | data blocks ]

and every later module takes the superblock as a parameter, so that nothing but
the results about the image of `mkfs` depends on its numbers.
-/
import Mathlib.Data.Nat.Basic

/-! ## kernel/param.h -/

/-- The device number of the file system's root disk. -/
def ROOTDEV : ℕ := 1

/-- The largest number of blocks a file-system operation writes. -/
def MAXOPBLOCKS : ℕ := 10

/-- The number of data blocks of the on-disk log. -/
def LOGSIZE : ℕ := MAXOPBLOCKS * 3

/-- The size of the block cache. -/
def NBUF : ℕ := MAXOPBLOCKS * 3

/-- The size of the file system `mkfs` builds, in blocks. -/
def FSSIZE : ℕ := 2000

/-! ## kernel/fs.h -/

/-- The i-number of the root directory. -/
def ROOTINO : ℕ := 1

/-- The size of a block in bytes. -/
def BSIZE : ℕ := 1024

/-- The number of direct block addresses of an inode. -/
def NDIRECT : ℕ := 12

/-- The number of block addresses in the indirect block. -/
def NINDIRECT : ℕ := BSIZE / 4

/-- The largest number of blocks of a file. -/
def MAXFILE : ℕ := NDIRECT + NINDIRECT

/-- Inodes per block: a `struct dinode` has 64 bytes. -/
def IPB : ℕ := BSIZE / 64

/-- Bitmap bits per block. -/
def BPB : ℕ := BSIZE * 8

/-- The length of the name in a directory entry. -/
def DIRSIZ : ℕ := 14

/-- `struct superblock`, without the magic number. -/
structure Superblock where
  size : ℕ
  nblocks : ℕ
  ninodes : ℕ
  nlog : ℕ
  logstart : ℕ
  inodestart : ℕ
  bmapstart : ℕ
  deriving DecidableEq, Repr

/-- The block that contains inode `i`. -/
def IBLOCK (i : ℕ) (sb : Superblock) : ℕ := i / IPB + sb.inodestart

/-- The block of the free map that contains the bit of block `b`. -/
def BBLOCK (b : ℕ) (sb : Superblock) : ℕ := b / BPB + sb.bmapstart

/-! ## The superblock of mkfs -/

namespace Mkfs

def NINODES : ℕ := 200

def nbitmap : ℕ := FSSIZE / (BSIZE * 8) + 1

def ninodeblocks : ℕ := NINODES / IPB + 1

def nlog : ℕ := LOGSIZE

/-- The number of meta blocks: boot, super block, log, inodes, bitmap. -/
def nmeta : ℕ := 2 + nlog + ninodeblocks + nbitmap

/-- The superblock `main` of `mkfs` builds. -/
def sb : Superblock where
  size := FSSIZE
  nblocks := FSSIZE - nmeta
  ninodes := NINODES
  nlog := nlog
  logstart := 2
  inodestart := 2 + nlog
  bmapstart := 2 + nlog + ninodeblocks

end Mkfs
