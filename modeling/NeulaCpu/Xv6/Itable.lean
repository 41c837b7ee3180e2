import NeulaCpu.Xv6.Fs

/-!
# The inode table

`iget`, `idup`, `ilock`, `iunlock`, `iput` and `ialloc` of `fs.c` under any interleaving of any
number of processes. A step is a region under `itable.lock`, or a part of a region under the
sleep-lock of an inode: between `ilock` and `iunlock` the holder changes the fields of the inode and
calls `iupdate` step by step. `iput` takes the sleep-lock inside its first region under
`itable.lock`; the code under the sleep-lock is a step of its own, and so is the second region under
`itable.lock`, in which the reference is dropped. `ialloc` marks an inode on the disk, and then
calls `iget`.

The state has the references that the processes hold. A process may hand a reference to another one,
and it puts a reference only while it does not hold the lock of the inode. A step that panics has no
next state. `iget` is called only for numbers below `ninodes`, which it does not test itself.

`synced` is a history: no field has been changed since the last `iupdate` or since the inode was
read.
-/

namespace NeulaCpu.Xv6

open Function

/-- `struct inode`, the in-memory copy of an inode, without its lock. -/
structure MemInode where
  dev : ℕ
  inum : ℕ
  ref : BitVec 32
  valid : Bool
  /-- The copy of the disk inode. -/
  copy : Dinode

/-- Where a process is. -/
inductive InodeTask
  | idle
  /-- In `iput`, with the sleep-lock, before `itrunc`. -/
  | freeing (e : Fin nInode)
  /-- In `iput`, after `releasesleep`. -/
  | freed (e : Fin nInode)
  /-- In `ialloc`, before `iget`. -/
  | allocated (dev inum : ℕ)
deriving DecidableEq

inductive ItableEvent (P : Type)
  | iget (p : P) (dev inum : ℕ)
  | idup (p : P) (e : Fin nInode)
  | ilock (p : P) (e : Fin nInode)
  | iunlock (p : P) (e : Fin nInode)
  /-- The holder of the lock changes fields; the type is never changed this way. -/
  | change (p : P) (e : Fin nInode) (copy : Dinode)
  | iupdate (p : P) (e : Fin nInode)
  /-- `iput` up to `release(&itable.lock)`. -/
  | iput (p : P) (e : Fin nInode)
  /-- `iput` from `itrunc` to `releasesleep`. -/
  | iputFree (p : P)
  /-- `iput` from the second `acquire(&itable.lock)` on. -/
  | iputEnd (p : P)
  /-- `ialloc` finds the inode `inum` free. -/
  | ialloc (p : P) (dev inum : ℕ) (type : BitVec 16)
  | iallocGet (p : P)
  /-- A reference goes to another process. -/
  | pass (p q : P) (e : Fin nInode)
  /-- A block that holds no inodes is written. -/
  | write (dev b : ℕ) (data : Block)

structure Itable (P : Type) where
  inode : Fin nInode → MemInode
  lock : Fin nInode → Option P
  disk : ℕ → Disk
  task : P → InodeTask
  refs : List (P × Fin nInode)
  synced : Fin nInode → Bool

namespace Itable

variable {P : Type} [DecidableEq P] (sb : Superblock) (s : Itable P)

/-- The table after `iinit`. -/
def init (disk : ℕ → Disk) : Itable P where
  inode _ := ⟨0, 0, 0, false, .zero⟩
  lock _ := none
  disk := disk
  task _ := .idle
  refs := []
  synced _ := false

/-- The device and the number of the inode in an entry. -/
def key (e : Fin nInode) : ℕ × ℕ := ((s.inode e).dev, (s.inode e).inum)

/-- The inode on the disk. -/
def dinode (k : ℕ × ℕ) : Dinode := dinodeAt sb (s.disk k.1) k.2

/-- How many references to an entry are outstanding. -/
def count (e : Fin nInode) : ℕ := (s.refs.map Prod.snd).count e

def setInode (e : Fin nInode) (i : MemInode) : Itable P := { s with inode := update s.inode e i }

def setLock (e : Fin nInode) (owner : Option P) : Itable P :=
  { s with lock := update s.lock e owner }

def setTask (p : P) (task : InodeTask) : Itable P := { s with task := update s.task p task }

def setDisk (dev : ℕ) (d : Disk) : Itable P := { s with disk := update s.disk dev d }

def setSynced (e : Fin nInode) (b : Bool) : Itable P := { s with synced := update s.synced e b }

def addRef (p : P) (e : Fin nInode) : Itable P := { s with refs := (p, e) :: s.refs }

def dropRef (p : P) (e : Fin nInode) : Itable P := { s with refs := s.refs.erase (p, e) }

/-- The entry that `iget` finds. -/
def lookup (dev inum : ℕ) : Option (Fin nInode) := (List.finRange nInode).find? fun e =>
  decide (0 < (s.inode e).ref.toInt) && (s.inode e).dev == dev && (s.inode e).inum == inum

/-- The entry that `iget` recycles. -/
def empty : Option (Fin nInode) := (List.finRange nInode).find? fun e => (s.inode e).ref == 0

def idup (p : P) (e : Fin nInode) : Itable P :=
  (s.setInode e { s.inode e with ref := (s.inode e).ref + 1 }).addRef p e

/-- The entry is used for another inode. -/
def recycle (p : P) (e : Fin nInode) (dev inum : ℕ) : Itable P :=
  (s.setInode e { s.inode e with dev := dev, inum := inum, ref := 1, valid := false }).addRef p e

def iget (p : P) (dev inum : ℕ) : Option (Itable P) :=
  match s.lookup dev inum with
  | some e => some (s.idup p e)
  | none => s.empty.map fun e => s.recycle p e dev inum

/-- The inode is read from the disk. -/
def load (e : Fin nInode) : Itable P :=
  (s.setInode e { s.inode e with valid := true, copy := s.dinode sb (s.key e) }).setSynced e true

def ilock (p : P) (e : Fin nInode) : Option (Itable P) :=
  if (s.inode e).ref.toInt < 1 then none
  else if s.lock e ≠ none then none
  else if (s.inode e).valid then some (s.setLock e (some p))
  else if (s.dinode sb (s.key e)).type = 0 then none
  else some ((s.load sb e).setLock e (some p))

def iunlock (p : P) (e : Fin nInode) : Option (Itable P) :=
  if s.lock e ≠ some p ∨ (s.inode e).ref.toInt < 1 then none else some (s.setLock e none)

/-- Fields of the inode are changed. -/
def change (e : Fin nInode) (copy : Dinode) : Itable P :=
  (s.setInode e { s.inode e with copy := copy }).setSynced e false

def iupdate (e : Fin nInode) : Itable P :=
  (s.setDisk (s.inode e).dev (setDinode sb (s.disk (s.inode e).dev) (s.inode e).inum
    (s.inode e).copy)).setSynced e true

/-- `ip->ref--`. -/
def unref (p : P) (e : Fin nInode) : Itable P :=
  (s.setInode e { s.inode e with ref := (s.inode e).ref - 1 }).dropRef p e

def iput (p : P) (e : Fin nInode) : Option (Itable P) :=
  if (s.inode e).ref = 1 ∧ (s.inode e).valid = true ∧ (s.inode e).copy.nlink = 0 then
    -- acquiresleep
    if s.lock e = none then some ((s.setLock e (some p)).setTask p (.freeing e)) else none
  else some (s.unref p e)

/-- The end of the region under the sleep-lock: `itrunc` has given the inode `ip` and the blocks
`d`. -/
def free (p : P) (e : Fin nInode) (ip : Dinode) (d : Disk) : Itable P :=
  (((s.setInode e { s.inode e with valid := false, copy := { ip with type := 0 } }).setDisk
    (s.inode e).dev
    (setDinode sb d (s.inode e).inum { ip with type := 0 })).setLock e none).setTask p (.freed e)

def iputFree (p : P) (e : Fin nInode) : Option (Itable P) :=
  match itrunc sb (s.inode e).inum (s.inode e).copy (s.disk (s.inode e).dev) with
  | .error _ => none
  | .ok (ip, d) => some (s.free sb p e ip d)

def step (s : Itable P) : ItableEvent P → Option (Itable P)
  | .iget p dev inum => if s.task p = .idle ∧ inum < sb.ninodes then s.iget p dev inum else none
  | .idup p e => if s.task p = .idle ∧ (p, e) ∈ s.refs then some (s.idup p e) else none
  | .ilock p e => if s.task p = .idle ∧ (p, e) ∈ s.refs then s.ilock sb p e else none
  | .iunlock p e => if s.task p = .idle then s.iunlock p e else none
  | .change p e copy =>
    if s.task p = .idle ∧ s.lock e = some p ∧ copy.type = (s.inode e).copy.type then
      some (s.change e copy)
    else none
  | .iupdate p e => if s.task p = .idle ∧ s.lock e = some p then some (s.iupdate sb e) else none
  | .iput p e => if s.task p = .idle ∧ (p, e) ∈ s.refs ∧ s.lock e ≠ some p then s.iput p e else none
  | .iputFree p =>
    match s.task p with
    | .freeing e => s.iputFree sb p e
    | _ => none
  | .iputEnd p =>
    match s.task p with
    | .freed e => some ((s.unref p e).setTask p .idle)
    | _ => none
  | .ialloc p dev inum type =>
    if s.task p = .idle ∧ 1 ≤ inum ∧ inum < sb.ninodes ∧ (s.dinode sb (dev, inum)).type = 0 then
      some ((s.setDisk dev
        (setDinode sb (s.disk dev) inum { Dinode.zero with type := type })).setTask p
          (.allocated dev inum))
    else none
  | .iallocGet p =>
    match s.task p with
    | .allocated dev inum => (s.iget p dev inum).map fun t => t.setTask p .idle
    | _ => none
  | .pass p q e =>
    if s.task p = .idle ∧ (p, e) ∈ s.refs ∧ s.lock e ≠ some p then some ((s.dropRef p e).addRef q e)
      else none
  | .write dev b data =>
    if b < sb.inodestart ∨ sb.bmapstart ≤ b then some (s.setDisk dev (update (s.disk dev) b data))
      else none

end Itable

end NeulaCpu.Xv6
