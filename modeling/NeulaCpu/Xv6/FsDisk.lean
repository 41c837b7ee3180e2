import NeulaCpu.Lib.Outcome
import NeulaCpu.Xv6.LogDisk

/-!
# Blocks and inodes

The block allocator and the files of `fs.c`: `balloc`, `bfree`, `bmap`, `itrunc`, `iupdate`,
`readi`, `writei` and the search of `ialloc`. They act on the blocks as the buffer cache and the log
show them: `bread` reads a block, and `log_write` makes the change of its buffer last. An inode
whose lock is held is passed to a function as the copy of its `dinode` that `struct inode` holds,
and handed back with the changes.
-/

namespace NeulaCpu.Xv6

open ByteStore Function

abbrev Disk := ℕ → Block

/-- `struct dinode`, and the copy of it in `struct inode`. -/
@[ext] structure Dinode where
  type : BitVec 16
  major : BitVec 16
  minor : BitVec 16
  nlink : BitVec 16
  size : BitVec 32
  addrs : Fin (nDirect + 1) → BitVec 32
deriving DecidableEq

/-- The panics of `fs.c` and `sysfile.c`, named after their messages. -/
inductive FsPanic
  | freeingFreeBlock
  | bmapOutOfRange
  | igetNoInodes
  | ilock
  | ilockNoType
  | dirlookupNotDir
  | dirlookupRead
  | dirlinkRead
  | isdiremptyReadi
  | unlinkNlink
  | unlinkWritei
  /-- Not a panic of the source: `ilock` of an inode whose lock the caller holds sleeps for ever. -/
  | deadlock
deriving DecidableEq, Repr

abbrev DiskM := StateT Disk (Except FsPanic)

namespace Dinode

/-- `memset(dip, 0, sizeof(*dip))`. -/
def zero : Dinode := ⟨0, 0, 0, 0, 0, fun _ => 0⟩

/-- `ip->addrs[k]`. -/
def addr (ip : Dinode) (k : ℕ) : ℕ := if h : k < nDirect + 1 then (ip.addrs ⟨k, h⟩).toNat else 0

/-- `ip->addrs[k] = b`. -/
def setAddr (ip : Dinode) (k b : ℕ) : Dinode :=
  { ip with addrs := fun j => if j.val = k then BitVec.ofNat 32 b else ip.addrs j }

def bytes (ip : Dinode) : List Byte :=
  le16 ip.type ++ le16 ip.major ++ le16 ip.minor ++ le16 ip.nlink ++ le32 ip.size ++
    (List.ofFn ip.addrs).flatMap le32

end Dinode

/-- `IBLOCK`. -/
def iBlock (sb : Superblock) (i : ℕ) : ℕ := i / ipb + sb.inodestart

/-- `BBLOCK`. -/
def bBlock (sb : Superblock) (b : ℕ) : ℕ := b / bpb + sb.bmapstart

section Areas

variable (sb : Superblock) (d : Disk)

/-- The inode `i` on the disk. -/
def dinodeAt (i : ℕ) : Dinode :=
  let data := d (iBlock sb i)
  let a := i % ipb * 64
  ⟨word16 data a, word16 data (a + 2), word16 data (a + 4), word16 data (a + 6),
    word32 data (a + 8), fun k => word32 data (a + 12 + 4 * k)⟩

def setDinode (i : ℕ) (ip : Dinode) : Disk :=
  update d (iBlock sb i) (put (d (iBlock sb i)) (i % ipb * 64) ip.bytes)

/-- Whether the bitmap marks the block `b` as in use. -/
def bitAt (b : ℕ) : Bool := (d (bBlock sb b) (b % bpb / 8)).getLsbD (b % bpb % 8)

/-- `|= m` and `&= ~m` on the byte of the bitmap that holds the bit of `b`. -/
def setBitAt (b : ℕ) (v : Bool) : Disk :=
  let data := d (bBlock sb b)
  let m := 1#8 <<< (b % bpb % 8)
  let x := data (b % bpb / 8)
  update d (bBlock sb b) (update data (b % bpb / 8) (if v then x ||| m else x &&& ~~~m))

end Areas

/-- The entry `a[j]` of an indirect block. -/
def entryAt (data : Block) (j : ℕ) : ℕ := (word32 data (4 * j)).toNat

def setEntryAt (data : Block) (j b : ℕ) : Block := put data (4 * j) (le32 (BitVec.ofNat 32 b))

section Blocks

variable (sb : Superblock)

/-- `balloc`: the first free block, zeroed, or 0 if there is none. The two loops of the source look
at the blocks in order. -/
def balloc : DiskM ℕ := do
  let d ← get
  match (List.range sb.size).find? fun b => !bitAt sb d b with
  | some b =>
    set (update (setBitAt sb d b true) b fun _ => 0 : Disk)
    pure b
  | none => pure 0

def bfree (b : ℕ) : DiskM Unit := do
  let d ← get
  if bitAt sb d b then set (setBitAt sb d b false) else throw .freeingFreeBlock

/-- The end of `bmap`, with the indirect block at hand. -/
def bmapEntry (ind bn : ℕ) : DiskM ℕ := do
  let d ← get
  if entryAt (d ind) bn = 0 then
    let addr ← balloc sb
    if addr = 0 then pure 0
    else
      modify fun d => update d ind (setEntryAt (d ind) bn addr)
      pure addr
  else pure (entryAt (d ind) bn)

/-- `bmap`: the address of the block `bn` of the file, which is allocated if it is missing; 0 if
there is no free block. -/
def bmap (ip : Dinode) (bn : ℕ) : DiskM (ℕ × Dinode) :=
  if bn < nDirect then
    if ip.addr bn = 0 then do
      let addr ← balloc sb
      if addr = 0 then pure (0, ip) else pure (addr, ip.setAddr bn addr)
    else pure (ip.addr bn, ip)
  else if bn - nDirect < nIndirect then
    if ip.addr nDirect = 0 then do
      let ind ← balloc sb
      if ind = 0 then pure (0, ip)
      else
        let addr ← bmapEntry sb ind (bn - nDirect)
        pure (addr, ip.setAddr nDirect ind)
    else do
      let addr ← bmapEntry sb (ip.addr nDirect) (bn - nDirect)
      pure (addr, ip)
  else throw .bmapOutOfRange

/-- Copy the in-memory inode to the disk. -/
def iupdate (inum : ℕ) (ip : Dinode) : DiskM Unit := modify fun d => setDinode sb d inum ip

/-- The loop of `itrunc` over the direct blocks. -/
def itruncDirect : List ℕ → Dinode → DiskM Dinode
  | [], ip => pure ip
  | i :: is, ip =>
    if ip.addr i = 0 then itruncDirect is ip
    else do
      bfree sb (ip.addr i)
      itruncDirect is (ip.setAddr i 0)

/-- The loop of `itrunc` over the entries of the indirect block. -/
def itruncEntries (ind : ℕ) : List ℕ → DiskM Unit
  | [] => pure ()
  | j :: js => do
    let d ← get
    if entryAt (d ind) j = 0 then itruncEntries ind js
    else
      bfree sb (entryAt (d ind) j)
      itruncEntries ind js

def itruncIndirect (ip : Dinode) : DiskM Dinode :=
  if ip.addr nDirect = 0 then pure ip
  else do
    itruncEntries sb (ip.addr nDirect) (List.range nIndirect)
    bfree sb (ip.addr nDirect)
    pure (ip.setAddr nDirect 0)

/-- Discard the contents of a file. -/
def itrunc (inum : ℕ) (ip : Dinode) : DiskM Dinode := do
  let ip ← itruncDirect sb (List.range nDirect) ip
  let ip ← itruncIndirect sb ip
  iupdate sb inum { ip with size := 0 }
  pure { ip with size := 0 }

end Blocks

/-- What `either_copyin` reads: the byte at an offset from the start of the source, or nothing where
the user address is bad. -/
abbrev Source := ℕ → Option Byte

/-- A source in the kernel. -/
def Source.ofBytes (l : List Byte) : Source := fun k => l[k]?

/-- `either_copyin` of `m` bytes from offset `tot` on: the bytes it copied, which stop at a bad
address, and whether it succeeded. -/
def copyIn (src : Source) (tot m : ℕ) : List Byte × Bool :=
  let l := (List.range m).map fun k => src (tot + k)
  ((l.takeWhile Option.isSome).filterMap id, l.all Option.isSome)

/-- Where `either_copyout` writes: the offsets from the start of the destination at which the user
address is good. -/
abbrev Dest := ℕ → Bool

/-- A buffer in the kernel. -/
def Dest.kernel : Dest := fun _ => true

section Files

variable (sb : Superblock)

/-- The loop of `readi`: `n - tot` bytes are left, and `got` are there. The result is negative if a
copy to the destination failed. -/
def readLoop (dst : Dest) : ℕ → Dinode → ℕ → ℕ → ℕ → List Byte → DiskM (ℤ × List Byte × Dinode)
  | 0, ip, _, tot, _, got => pure (tot, got, ip)
  | fuel + 1, ip, off, tot, n, got =>
    if tot < n then do
      let (addr, ip) ← bmap sb ip (off / bSize)
      if addr = 0 then pure (tot, got, ip)
      else
        let d ← get
        let m := min (n - tot) (bSize - off % bSize)
        let ks := List.range m
        if ks.all fun k => dst (tot + k) then
          readLoop dst fuel ip (off + m) (tot + m) n (got ++ ByteStore.get (d addr) (off % bSize) m)
        else
          let ok := (ks.takeWhile fun k => dst (tot + k)).length
          pure (-1, got ++ ByteStore.get (d addr) (off % bSize) ok, ip)
    else pure (tot, got, ip)

/-- `readi`: the number of bytes read or -1, the bytes that reached the destination, and the
inode. -/
def readi (ip : Dinode) (dst : Dest) (off n : ℕ) : DiskM (ℤ × List Byte × Dinode) :=
  if ip.size.toNat < off ∨ (off + n) % 2 ^ 32 < off then pure (0, [], ip)
  else
    let n := if ip.size.toNat < (off + n) % 2 ^ 32 then ip.size.toNat - off else n
    readLoop sb dst n ip off 0 n []

/-- The loop of `writei`; a copy that fails has changed the buffer up to the bad address. -/
def writeLoop (src : Source) : ℕ → Dinode → ℕ → ℕ → ℕ → DiskM (ℕ × ℕ × Dinode)
  | 0, ip, off, tot, _ => pure (off, tot, ip)
  | fuel + 1, ip, off, tot, n =>
    if tot < n then do
      let (addr, ip) ← bmap sb ip (off / bSize)
      if addr = 0 then pure (off, tot, ip)
      else
        let m := min (n - tot) (bSize - off % bSize)
        modify fun d => update d addr (put (d addr) (off % bSize) (copyIn src tot m).1)
        if (copyIn src tot m).2 then writeLoop src fuel ip (off + m) (tot + m) n
        else pure (off, tot, ip)
    else pure (off, tot, ip)

/-- `writei`: the number of bytes written or -1, and the inode. -/
def writei (inum : ℕ) (ip : Dinode) (src : Source) (off n : ℕ) : DiskM (ℤ × Dinode) :=
  if ip.size.toNat < off ∨ (off + n) % 2 ^ 32 < off then pure (-1, ip)
  else if maxFile * bSize < (off + n) % 2 ^ 32 then pure (-1, ip)
  else do
    let (off, tot, ip) ← writeLoop sb src n ip off 0 n
    let ip := if ip.size.toNat < off then { ip with size := BitVec.ofNat 32 off } else ip
    iupdate sb inum ip
    pure (tot, ip)

/-- The search of `ialloc` for an inode whose type is 0, and its allocation on the disk. -/
def iallocDisk (type : BitVec 16) : DiskM (Option ℕ) := do
  let d ← get
  match (List.range' 1 (sb.ninodes - 1)).find? fun i => (dinodeAt sb d i).type == 0 with
  | some i =>
    set (setDinode sb d i { Dinode.zero with type := type })
    pure (some i)
  | none => pure none

end Files

end NeulaCpu.Xv6
