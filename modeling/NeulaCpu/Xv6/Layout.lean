import Mathlib.Tactic

/-!
# Constants of the file system

`param.h` and `fs.h`, and the disk that `mkfs` lays out: boot block, super block, log, inode blocks,
bitmap, data blocks.
-/

namespace NeulaCpu.Xv6

/-- Blocks that one operation may write. -/
def maxOpBlocks : ℕ := 10

/-- Entries of the log header. -/
def logSize : ℕ := maxOpBlocks * 3

/-- Size of the file system in blocks. -/
def fsSize : ℕ := 2000

/-- Bytes in a block. -/
def bSize : ℕ := 1024

def nDirect : ℕ := 12

def nIndirect : ℕ := bSize / 4

/-- Blocks of the largest file. -/
def maxFile : ℕ := nDirect + nIndirect

/-- Inodes per block: `sizeof(struct dinode)` is 64. -/
def ipb : ℕ := bSize / 64

/-- Bitmap bits per block. -/
def bpb : ℕ := bSize * 8

def dirSiz : ℕ := 14

def rootIno : ℕ := 1

def fsMagic : ℕ := 0x10203040

structure Superblock where
  magic : ℕ
  size : ℕ
  nblocks : ℕ
  ninodes : ℕ
  nlog : ℕ
  logstart : ℕ
  inodestart : ℕ
  bmapstart : ℕ
deriving DecidableEq, Repr

namespace Mkfs

def nInodes : ℕ := 200

def nbitmap : ℕ := fsSize / (bSize * 8) + 1

def ninodeblocks : ℕ := nInodes / ipb + 1

def nlog : ℕ := logSize

/-- Boot block, super block, log, inode blocks and bitmap. -/
def nmeta : ℕ := 2 + nlog + ninodeblocks + nbitmap

/-- The super block that `mkfs` writes. -/
def sb : Superblock where
  magic := fsMagic
  size := fsSize
  nblocks := fsSize - nmeta
  ninodes := nInodes
  nlog := nlog
  logstart := 2
  inodestart := 2 + nlog
  bmapstart := 2 + nlog + ninodeblocks

end Mkfs

end NeulaCpu.Xv6
