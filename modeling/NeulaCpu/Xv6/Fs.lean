import NeulaCpu.Xv6.FsDisk

/-!
# Inodes in memory, directories and paths

The inode table, directories and names of `fs.c`, and `create`, `sys_link` and `sys_unlink` of
`sysfile.c`. A pointer to an entry of the inode table is the number of its inode: `iget` gives every
inode at most one entry. An operation is carried out as a whole, so the lock of an inode shows only
in that `ilock` loads it, and in that a second `ilock` by the holder would not return. The code
changes a field of an inode in memory and calls `iupdate` right after; `Fs.update` does both.
-/

namespace NeulaCpu.Xv6

open ByteStore Outcome

/-- `T_DIR`, `T_FILE`, `T_DEVICE`. -/
def tDir : BitVec 16 := 1

def tFile : BitVec 16 := 2

def tDevice : BitVec 16 := 3

/-- Entries of the inode table. -/
def nInode : ℕ := 50

/-- `sizeof(struct dirent)`. -/
def direntSize : ℕ := 16

/-- An entry of the inode table; one with `ref = 0` is free. -/
structure Inode where
  ref : ℕ
  valid : Bool
  copy : Dinode

/-- The blocks and the inode table; `used` counts the entries of the table that are not free. -/
structure Fs where
  disk : Disk
  inode : ℕ → Inode
  used : ℕ

abbrev FsM := StateT Fs (Except FsPanic)

/-- `strncmp`; past the end of a string there are zeros. -/
def strncmp : ℕ → List Byte → List Byte → ℤ
  | 0, _, _ => 0
  | n + 1, p, q =>
    if p.headD 0 ≠ 0 ∧ p.headD 0 = q.headD 0 then strncmp n p.tail q.tail
    else (p.headD 0).toNat - (q.headD 0).toNat

/-- The bytes that `strncpy` stores. -/
def strncpy : ℕ → List Byte → List Byte
  | 0, _ => []
  | n + 1, t => t.headD 0 :: if t.headD 0 = 0 then List.replicate n 0 else strncpy n t.tail

def namecmp (s t : List Byte) : ℤ := strncmp dirSiz s t

/-- `'/'`. -/
def slash : Byte := 47

/-- `"."`. -/
def dot : List Byte := [46]

/-- `".."`. -/
def dotdot : List Byte := [46, 46]

/-- `skipelem`: the next element of a path, cut to `DIRSIZ` bytes, and the rest of the path. -/
def skipelem (path : List Byte) : Option (List Byte × List Byte) :=
  let s := path.dropWhile (· = slash)
  if s.headD 0 = 0 then none
  else
    let name := s.takeWhile fun c => c ≠ slash ∧ c ≠ 0
    some (name.take dirSiz, (s.drop name.length).dropWhile (· = slash))

/-- The elements that `namex` meets; every element takes at least one byte of the path. -/
def elements : ℕ → List Byte → List (List Byte)
  | 0, _ => []
  | n + 1, path =>
    match skipelem path with
    | none => []
    | some (name, rest) => name :: elements n rest

/-- `struct dirent`. -/
structure Dirent where
  inum : ℕ
  name : List Byte
deriving DecidableEq

def Dirent.ofBytes (l : List Byte) : Dirent := ⟨(word16 (fun k => l.getD k 0) 0).toNat, l.drop 2⟩

def Dirent.bytes (de : Dirent) : List Byte := le16 (BitVec.ofNat 16 de.inum) ++ de.name

/-- The offsets at which a loop over a directory of `size` bytes reads an entry. -/
def direntOffsets (size : ℕ) : List ℕ := (List.range ((size + direntSize - 1) / direntSize)).map
    (· * direntSize)

namespace Fs

def setInode (s : Fs) (ip : ℕ) (e : Inode) : Fs := { s with inode := Function.update s.inode ip e }

def onDisk {α : Type} (c : DiskM α) : FsM α := zoom Fs.disk (fun d s => { s with disk := d }) c

/-- The copy of the inode in memory. -/
def copy (ip : ℕ) : FsM Dinode := do
  let s ← get
  pure (s.inode ip).copy

def setCopy (ip : ℕ) (c : Dinode) : FsM Unit :=
  modify fun s => s.setInode ip { s.inode ip with copy := c }

/-- `iget`. -/
def iget (inum : ℕ) : FsM Unit := do
  let s ← get
  if 0 < (s.inode inum).ref then
    set (s.setInode inum { s.inode inum with ref := (s.inode inum).ref + 1 })
  else if s.used < nInode then
    set { s.setInode inum { s.inode inum with ref := 1, valid := false } with used := s.used + 1 }
  else throw .igetNoInodes

def idup (ip : ℕ) : FsM Unit :=
  modify fun s => s.setInode ip { s.inode ip with ref := (s.inode ip).ref + 1 }

/-- `ip->ref--`. -/
def drop (ip : ℕ) : FsM Unit := modify fun s =>
  { s.setInode ip { s.inode ip with ref := (s.inode ip).ref - 1 } with
    used := if (s.inode ip).ref = 1 then s.used - 1 else s.used }

section Inodes

variable (sb : Superblock)

def ilock (ip : ℕ) : FsM Unit := do
  let s ← get
  if (s.inode ip).ref < 1 then throw .ilock
  else if (s.inode ip).valid then pure ()
  else
    set (s.setInode ip { s.inode ip with valid := true, copy := dinodeAt sb s.disk ip })
    if (dinodeAt sb s.disk ip).type = 0 then throw .ilockNoType else pure ()

/-- A change of fields of the inode in memory, and `iupdate`. -/
def update (ip : ℕ) (f : Dinode → Dinode) : FsM Unit := do
  let c ← copy ip
  onDisk (iupdate sb ip (f c))
  setCopy ip (f c)

def itrunc (ip : ℕ) : FsM Unit := do
  let c ← copy ip
  let c ← onDisk (Xv6.itrunc sb ip c)
  setCopy ip c

/-- `iput`: the last reference to an inode without links frees it. -/
def iput (ip : ℕ) : FsM Unit := do
  let s ← get
  if (s.inode ip).ref = 1 ∧ (s.inode ip).valid = true ∧ (s.inode ip).copy.nlink = 0 then
    itrunc sb ip
    update sb ip fun c => { c with type := 0 }
    modify fun s => s.setInode ip { s.inode ip with valid := false }
    drop ip
  else drop ip

def ialloc (type : BitVec 16) : FsM (Option ℕ) := do
  match ← onDisk (iallocDisk sb type) with
  | some inum =>
    iget inum
    pure (some inum)
  | none => pure none

def readi (ip : ℕ) (dst : Dest) (off n : ℕ) : FsM (ℤ × List Byte) := do
  let c ← copy ip
  let (r, bytes, c) ← onDisk (Xv6.readi sb c dst off n)
  setCopy ip c
  pure (r, bytes)

def writei (ip : ℕ) (src : Source) (off n : ℕ) : FsM ℤ := do
  let c ← copy ip
  let (r, c) ← onDisk (Xv6.writei sb ip c src off n)
  setCopy ip c
  pure r

end Inodes

section Directories

variable (sb : Superblock)

/-- Read the entry at an offset of a directory. -/
def readDirent (panic : FsPanic) (dp off : ℕ) : FsM Dirent := do
  let (r, bytes) ← readi sb dp .kernel off direntSize
  if r = direntSize then pure (.ofBytes bytes) else throw panic

/-- The loop of `dirlookup`. -/
def lookupLoop (dp : ℕ) (name : List Byte) : List ℕ → FsM (Option (ℕ × ℕ))
  | [] => pure none
  | off :: offs => do
    let de ← readDirent sb .dirlookupRead dp off
    if de.inum ≠ 0 ∧ namecmp name de.name = 0 then
      iget de.inum
      pure (some (de.inum, off))
    else lookupLoop dp name offs

/-- `dirlookup`: the inode that the directory has under a name, and the offset of the entry. -/
def dirlookup (dp : ℕ) (name : List Byte) : FsM (Option (ℕ × ℕ)) := do
  let c ← copy dp
  if c.type ≠ tDir then throw .dirlookupNotDir
  else lookupLoop sb dp name (direntOffsets c.size.toNat)

/-- The loop of `dirlink` for an empty entry; it ends at `size` if there is none. -/
def emptyLoop (dp size : ℕ) : List ℕ → FsM ℕ
  | [] => pure size
  | off :: offs => do
    let de ← readDirent sb .dirlinkRead dp off
    if de.inum = 0 then pure off else emptyLoop dp size offs

/-- `dirlink`: whether the entry was written. -/
def dirlink (dp : ℕ) (name : List Byte) (inum : ℕ) : FsM Bool := do
  match ← dirlookup sb dp name with
  | some (ip, _) =>
    iput sb ip
    pure false
  | none =>
    let c ← copy dp
    let offs := direntOffsets c.size.toNat
    let off ← emptyLoop sb dp (offs.length * direntSize) offs
    let r ← writei sb dp (.ofBytes (Dirent.bytes ⟨inum, strncpy dirSiz name⟩)) off direntSize
    pure (r = direntSize)

/-- The loop of `isdirempty`. -/
def emptyDirLoop (dp : ℕ) : List ℕ → FsM Bool
  | [] => pure true
  | off :: offs => do
    let de ← readDirent sb .isdiremptyReadi dp off
    if de.inum = 0 then emptyDirLoop dp offs else pure false

def isdirempty (dp : ℕ) : FsM Bool := do
  let c ← copy dp
  emptyDirLoop sb dp ((direntOffsets c.size.toNat).drop 2)

end Directories

section Paths

variable (sb : Superblock)

/-- The loop of `namex`. -/
def namexLoop (nameiparent : Bool) (ip : ℕ) : List (List Byte) → FsM (Option (ℕ × List Byte))
  | [] =>
    if nameiparent then do
      iput sb ip
      pure none
    else pure (some (ip, []))
  | name :: rest => do
    ilock sb ip
    let c ← copy ip
    if c.type ≠ tDir then
      iput sb ip
      pure none
    else if nameiparent ∧ rest = [] then pure (some (ip, name))
    else
      match ← dirlookup sb ip name with
      | none =>
        iput sb ip
        pure none
      | some (next, _) =>
        iput sb ip
        namexLoop nameiparent next rest

/-- `namex`, for a process whose current directory is `cwd`. -/
def namex (cwd : ℕ) (nameiparent : Bool) (path : List Byte) : FsM (Option (ℕ × List Byte)) := do
  if path.headD 0 = slash then
    iget rootIno
    namexLoop sb nameiparent rootIno (elements path.length path)
  else
    idup cwd
    namexLoop sb nameiparent cwd (elements path.length path)

def namei (cwd : ℕ) (path : List Byte) : FsM (Option ℕ) := do
  let r ← namex sb cwd false path
  pure (r.map Prod.fst)

def nameiparent (cwd : ℕ) (path : List Byte) : FsM (Option (ℕ × List Byte)) :=
  namex sb cwd true path

end Paths

section Calls

variable (sb : Superblock)

/-- The entries that `create` writes: those of a new directory, and the one for `ip` in `dp`. -/
def createEntries (dp ip : ℕ) (name : List Byte) (type : BitVec 16) : FsM Bool := do
  if type = tDir then
    if ← dirlink sb ip dot ip then
      if ← dirlink sb ip dotdot dp then dirlink sb dp name ip else pure false
    else pure false
  else dirlink sb dp name ip

/-- `create` in the directory `dp`, which is locked. -/
def createIn (dp : ℕ) (name : List Byte) (type major minor : BitVec 16) : FsM (Option ℕ) := do
  match ← dirlookup sb dp name with
  | some (ip, _) =>
    iput sb dp
    ilock sb ip
    let c ← copy ip
    if type = tFile ∧ (c.type = tFile ∨ c.type = tDevice) then pure (some ip)
    else
      iput sb ip
      pure none
  | none =>
    match ← ialloc sb type with
    | none =>
      iput sb dp
      pure none
    | some ip =>
      ilock sb ip
      update sb ip fun c => { c with major := major, minor := minor, nlink := 1 }
      if ← createEntries sb dp ip name type then
        if type = tDir then
          update sb dp fun c => { c with nlink := c.nlink + 1 }
          iput sb dp
          pure (some ip)
        else
          iput sb dp
          pure (some ip)
      else
        update sb ip fun c => { c with nlink := 0 }
        iput sb ip
        iput sb dp
        pure none

/-- `create`: the inode, locked and with a reference for the caller. -/
def create (cwd : ℕ) (path : List Byte) (type major minor : BitVec 16) : FsM (Option ℕ) := do
  match ← nameiparent sb cwd path with
  | none => pure none
  | some (dp, name) =>
    ilock sb dp
    createIn sb dp name type major minor

/-- The end of `sys_unlink`, for the entry at `off` of `dp` that names `ip`. Both are locked. -/
def unlinkEntry (dp ip off : ℕ) : FsM ℤ := do
  let r ← writei sb dp (.ofBytes (List.replicate direntSize 0)) off direntSize
  if r ≠ direntSize then throw .unlinkWritei
  else
    let c ← copy ip
    if c.type = tDir then
      update sb dp fun c => { c with nlink := c.nlink - 1 }
      iput sb dp
      update sb ip fun c => { c with nlink := c.nlink - 1 }
      iput sb ip
      pure 0
    else
      iput sb dp
      update sb ip fun c => { c with nlink := c.nlink - 1 }
      iput sb ip
      pure 0

/-- Whether `ip` is a directory that is not empty. -/
def isFullDir (ip : ℕ) : FsM Bool := do
  let c ← copy ip
  if c.type = tDir then
    let e ← isdirempty sb ip
    pure !e
  else pure false

/-- `sys_unlink` in the directory `dp`, which is locked. -/
def unlinkIn (dp : ℕ) (name : List Byte) : FsM ℤ := do
  if namecmp name dot = 0 ∨ namecmp name dotdot = 0 then
    iput sb dp
    pure (-1)
  else
    match ← dirlookup sb dp name with
    | none =>
      iput sb dp
      pure (-1)
    | some (ip, off) =>
      if ip = dp then throw .deadlock
      else
        ilock sb ip
        let c ← copy ip
        if c.nlink.toInt < 1 then throw .unlinkNlink
        else if ← isFullDir sb ip then
          iput sb ip
          iput sb dp
          pure (-1)
        else unlinkEntry sb dp ip off

def unlink (cwd : ℕ) (path : List Byte) : FsM ℤ := do
  match ← nameiparent sb cwd path with
  | none => pure (-1)
  | some (dp, name) =>
    ilock sb dp
    unlinkIn sb dp name

/-- `bad:` of `sys_link`. -/
def linkBad (ip : ℕ) : FsM ℤ := do
  ilock sb ip
  update sb ip fun c => { c with nlink := c.nlink - 1 }
  iput sb ip
  pure (-1)

def link (cwd : ℕ) (old new : List Byte) : FsM ℤ := do
  match ← namei sb cwd old with
  | none => pure (-1)
  | some ip =>
    ilock sb ip
    let c ← copy ip
    if c.type = tDir then
      iput sb ip
      pure (-1)
    else
      update sb ip fun c => { c with nlink := c.nlink + 1 }
      match ← nameiparent sb cwd new with
      | none => linkBad sb ip
      | some (dp, name) =>
        ilock sb dp
        if ← dirlink sb dp name ip then
          iput sb dp
          iput sb ip
          pure 0
        else
          iput sb dp
          linkBad sb ip

end Calls

end Fs

end NeulaCpu.Xv6
