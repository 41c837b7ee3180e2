import NeulaCpu.Xv6.Fs

/-!
# Making a file system

`mkfs.c`: the image is written sector by sector, with the super block, the root directory and one
file for every argument. Blocks and inodes are given out in order, so that a counter says which of
them are free; the bitmap is written last. `xshort` and `xint` put the bytes of a number in the
order in which `le16` and `le32` have them.
-/

namespace NeulaCpu.Xv6

open ByteStore

def Superblock.words (sb : Superblock) : List (BitVec 32) :=
  [sb.magic, sb.size, sb.nblocks, sb.ninodes, sb.nlog, sb.logstart, sb.inodestart, sb.bmapstart].map
    (BitVec.ofNat 32)

/-- `readsb` of the kernel. -/
def readsb (d : Disk) : Superblock :=
  let w (k : ℕ) := (word32 (d 1) (4 * k)).toNat
  ⟨w 0, w 1, w 2, w 3, w 4, w 5, w 6, w 7⟩

namespace Mkfs

/-- The image, which is written up to `sectors`, and the counters of `mkfs`. -/
structure Image where
  disk : Disk
  sectors : ℕ
  freeinode : ℕ
  freeblock : ℕ

/-- The ways in which `mkfs` stops: `die` of a read past the end of the image, and its
assertions. -/
inductive Failure
  | read
  | rootino
  | shortname
  | fbn
  | used
deriving DecidableEq, Repr

abbrev MkfsM := StateT Image (Except Failure)

/-- A file of the host: the argument that names it, a C string, and what the calls of `read` on it
return. -/
structure HostFile where
  path : List Byte
  reads : List (List Byte)
  path_ne_zero : ∀ c ∈ path, c ≠ 0
  reads_size : ∀ buf ∈ reads, 0 < buf.length ∧ buf.length ≤ bSize

def HostFile.bytes (f : HostFile) : List Byte := f.reads.flatten

def wsect (sec : ℕ) (buf : Block) : MkfsM Unit :=
  modify fun s => { s with
    disk := Function.update s.disk sec buf, sectors := max s.sectors (sec + 1) }

def rsect (sec : ℕ) : MkfsM Block := do
  let s ← get
  if sec < s.sectors then pure (s.disk sec) else throw .read

def winode (inum : ℕ) (ip : Dinode) : MkfsM Unit := do
  let buf ← rsect (iBlock sb inum)
  wsect (iBlock sb inum) (put buf (inum % ipb * 64) ip.bytes)

def rinode (inum : ℕ) : MkfsM Dinode := do
  let buf ← rsect (iBlock sb inum)
  pure (dinodeAt sb (fun _ => buf) inum)

def ialloc (type : BitVec 16) : MkfsM ℕ := do
  let s ← get
  set { s with freeinode := s.freeinode + 1 }
  winode s.freeinode { Dinode.zero with type := type, nlink := 1 }
  pure s.freeinode

/-- `freeblock++`. -/
def newBlock : MkfsM ℕ := modifyGet fun s => (s.freeblock, { s with freeblock := s.freeblock + 1 })

/-- Give the inode a block under `addrs[k]` if it has none there. -/
def fillAddr (din : Dinode) (k : ℕ) : MkfsM Dinode :=
  if din.addr k = 0 then do
    let b ← newBlock
    pure (din.setAddr k b)
  else pure din

/-- The entry `j` of the indirect block `ind`, which gets a block if it has none. -/
def fillEntry (ind j : ℕ) : MkfsM ℕ := do
  let indirect ← rsect ind
  if entryAt indirect j = 0 then
    let b ← newBlock
    let indirect := setEntryAt indirect j b
    wsect ind indirect
    pure (entryAt indirect j)
  else pure (entryAt indirect j)

/-- The part of `iappend` that finds the block `fbn` of the file. -/
def fileBlock (din : Dinode) (fbn : ℕ) : MkfsM (ℕ × Dinode) :=
  if fbn < nDirect then do
    let din ← fillAddr din fbn
    pure (din.addr fbn, din)
  else do
    let din ← fillAddr din nDirect
    let x ← fillEntry (din.addr nDirect) (fbn - nDirect)
    pure (x, din)

/-- A round of the loop of `iappend`: the first bytes of `p` go to the block at `off`. The result is
`din` and the number of the bytes. -/
def iappendRound (din : Dinode) (off : ℕ) (p : List Byte) : MkfsM (Dinode × ℕ) :=
  if off / bSize < maxFile then do
    let (x, din) ← fileBlock din (off / bSize)
    let n1 := min p.length ((off / bSize + 1) * bSize - off)
    let buf ← rsect x
    wsect x (put buf (off - off / bSize * bSize) (p.take n1))
    pure (din, n1)
  else throw .fbn

/-- The loop of `iappend`, with the bytes that are left. Every round takes at least one. -/
def iappendLoop : ℕ → Dinode → ℕ → List Byte → MkfsM (Dinode × ℕ)
  | 0, din, off, _ => pure (din, off)
  | fuel + 1, din, off, p =>
    if 0 < p.length then do
      let (din, n1) ← iappendRound din off p
      iappendLoop fuel din (off + n1) (p.drop n1)
    else pure (din, off)

def iappend (inum : ℕ) (p : List Byte) : MkfsM Unit := do
  let din ← rinode inum
  let (din, off) ← iappendLoop p.length din din.size.toNat p
  winode inum { din with size := BitVec.ofNat 32 off }

/-- The buffer of `balloc` after the loop. -/
def bitmapOf (used : ℕ) : Block :=
  (List.range used).foldl (fun buf i =>
    Function.update buf (i / 8) (buf (i / 8) ||| 1#8 <<< (i % 8))) fun _ => 0

def balloc (used : ℕ) : MkfsM Unit :=
  if used < bSize * 8 then wsect sb.bmapstart (bitmapOf used) else throw .used

/-- `"user/"`. -/
def userDir : List Byte := [117, 115, 101, 114, 47]

/-- The argument without `user/`. -/
def HostFile.shortname (f : HostFile) : List Byte :=
  if strncmp 5 f.path userDir = 0 then f.path.drop 5 else f.path

/-- The name of the file in the image: a leading `_` is skipped. -/
def HostFile.name (f : HostFile) : List Byte :=
  if f.shortname.headD 0 = 95 then f.shortname.tail else f.shortname

/-- The loop over the reads of a file. -/
def appendAll (inum : ℕ) : List (List Byte) → MkfsM Unit
  | [] => pure ()
  | buf :: bufs => do
    iappend inum buf
    appendAll inum bufs

/-- The body of the loop of `main` over the files. -/
def addFile (rootino : ℕ) (f : HostFile) : MkfsM Unit :=
  if slash ∈ f.shortname then throw .shortname
  else do
    let inum ← ialloc tFile
    iappend rootino (Dirent.bytes ⟨inum, strncpy dirSiz f.name⟩)
    appendAll inum f.reads

def addFiles (rootino : ℕ) : List HostFile → MkfsM Unit
  | [] => pure ()
  | f :: files => do
    addFile rootino f
    addFiles rootino files

/-- "fix size of root inode dir". -/
def fixSize (rootino : ℕ) : MkfsM Unit := do
  let din ← rinode rootino
  winode rootino { din with size := BitVec.ofNat 32 ((din.size.toNat / bSize + 1) * bSize) }

/-- The loop that writes zeroes to the sectors of the image. -/
def wzeroes : List ℕ → MkfsM Unit
  | [] => pure ()
  | i :: is => do
    wsect i fun _ => 0
    wzeroes is

def main (files : List HostFile) : MkfsM Unit := do
  wzeroes (List.range fsSize)
  wsect 1 (put (fun _ => 0) 0 (sb.words.flatMap le32))
  let rootino ← ialloc tDir
  if rootino = rootIno then
    iappend rootino (Dirent.bytes ⟨rootino, strncpy dirSiz dot⟩)
    iappend rootino (Dirent.bytes ⟨rootino, strncpy dirSiz dotdot⟩)
    addFiles rootino files
    fixSize rootino
    let s ← get
    balloc s.freeblock
  else throw .rootino

/-- The image that `mkfs` makes of the files. -/
def mkfs (files : List HostFile) : Except Failure Image := do
  let (_, s) ← main files ⟨fun _ _ => 0, 0, 1, nmeta⟩
  pure s

end Mkfs

end NeulaCpu.Xv6
