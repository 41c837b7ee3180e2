import NeulaCpu.Xv6.Log
import NeulaCpu.Lib.ByteStore
import NeulaCpu.Lib.Trace

/-!
# The log on the disk

`commit`, `write_log`, `write_head`, `install_trans`, `read_head` and `recover_from_log` of `log.c`
over the buffer cache of `bio.c`, as a machine that does one disk write at a time. Operations change
a block in its buffer and hand it to `log_write`; other processes read blocks; a buffer that nobody
holds may be recycled at any time; and the machine may crash between any two disk writes, also while
it recovers. Of the buffer cache, the order of recycling, the number of buffers and the sleep locks
are left out: a process that waits for a buffer does nothing, and `bget`'s panic when all buffers
are held is a crash.
-/

namespace NeulaCpu.Xv6

open ByteStore

/-- The bytes of a block; those from `bSize` on are not used. -/
abbrev Block := ℕ → Byte

/-- A valid buffer. `refcnt` counts the pins: a process that reads a block releases it in the same
event. -/
structure Buf where
  data : Block
  refcnt : ℕ

/-- Where `commit` or `recover_from_log` is. -/
inductive Phase
  -- neither of them is under way
  | running
  | writeLog (tail : ℕ)
  | writeHead
  | installTrans (recovering : Bool) (tail : ℕ)
  -- `log.lh.n = 0; write_head()`
  | clear (recovering : Bool)
  | readHead
  -- after a panic
  | halted
deriving DecidableEq, Repr

structure LogDisk where
  disk : ℕ → Block
  cache : ℕ → Option Buf
  log : Log
  phase : Phase

inductive DiskEvent
  | beginOp
  -- `bread` of block `b`, a change of its buffer to `data`, `log_write`, `brelse`
  | logWrite (b : ℕ) (data : Block)
  | endOp
  | read (b : ℕ)
  | recycle (b : ℕ)
  -- the next disk write of `commit` or `recover_from_log`
  | tick
  | crash

/-- The header block with `n` and the first `n` entries set. -/
def putHead (hb : Block) (lh : List ℕ) : Block :=
  putWords hb 0 (BitVec.ofNat 32 lh.length :: lh.map (BitVec.ofNat 32))

/-- What `read_head` takes from the header block. -/
def getHead (hb : Block) : List ℕ := (words hb 4 (word32 hb 0).toNat).map BitVec.toNat

namespace LogDisk

variable (s : LogDisk)

/-- The data of the buffer that `bread` returns. -/
def content (b : ℕ) : Block := (s.cache b).elim (s.disk b) Buf.data

def refcnt (b : ℕ) : ℕ := (s.cache b).elim 0 Buf.refcnt

/-- Put `data` in the buffer of block `b`. -/
def setBuf (b : ℕ) (data : Block) (refcnt : ℕ) : LogDisk :=
  { s with cache := Function.update s.cache b (some ⟨data, refcnt⟩) }

def bread (b : ℕ) : LogDisk := s.setBuf b (s.content b) (s.refcnt b)

/-- Change the buffer of block `b` to `data` and write it to the disk. -/
def bwrite (b : ℕ) (data : Block) : LogDisk :=
  { s.setBuf b data (s.refcnt b) with disk := Function.update s.disk b data }

def bunpin (b : ℕ) : LogDisk := s.setBuf b (s.content b) (s.refcnt b - 1)

/-- `log_write` after a change of the buffer. -/
def logWrite (b : ℕ) (data : Block) : LogDisk :=
  match s.log.logWrite b with
  | .ok log =>
    { s.setBuf b data (if b ∈ s.log.lh then s.refcnt b else s.refcnt b + 1) with log := log }
  | .error _ => { s with phase := .halted }

/-- `end_op` up to the first disk write of `commit`. -/
def endOp : LogDisk :=
  match s.log.endOp with
  | .ok (log, true) =>
    if log.lh = [] then { s with log := log.endCommit }
    else { s with log := log, phase := .writeLog 0 }
  | .ok (log, false) => { s with log := log }
  | .error _ => { s with phase := .halted }

/-- One round of the loop of `write_log`. -/
def writeLog (tail b : ℕ) : LogDisk :=
  let s' := ((s.bread (s.log.start + tail + 1)).bread b).bwrite (s.log.start + tail + 1)
    (s.content b)
  { s' with phase := if tail + 1 < s.log.lh.length then .writeLog (tail + 1) else .writeHead }

def writeHead : LogDisk := s.bwrite s.log.start (putHead (s.content s.log.start) s.log.lh)

/-- One round of the loop of `install_trans`. -/
def installTrans (recovering : Bool) (tail b : ℕ) : LogDisk :=
  let s' := ((s.bread (s.log.start + tail + 1)).bread b).bwrite b
    (s.content (s.log.start + tail + 1))
  { if recovering then s' else s'.bunpin b with
    phase := if tail + 1 < s.log.lh.length then .installTrans recovering (tail + 1)
      else .clear recovering }

def readHead : LogDisk :=
  let lh := getHead (s.content s.log.start)
  { s.bread s.log.start with
    log := { s.log with lh := lh }
    phase := if lh = [] then .clear true else .installTrans true 0 }

/-- The end of `commit` and of `recover_from_log`. -/
def clear : LogDisk :=
  { { s with log := { s.log with lh := [] } }.writeHead with
    log := s.log.endCommit
    phase := .running }

/-- The next disk write. -/
def tick : Option LogDisk :=
  match s.phase with
  | .running | .halted => none
  | .writeLog tail => s.log.lh[tail]?.map (s.writeLog tail)
  | .writeHead => some { s.writeHead with phase := .installTrans false 0 }
  | .installTrans recovering tail => s.log.lh[tail]?.map (s.installTrans recovering tail)
  | .clear _ => some s.clear
  | .readHead => some s.readHead

/-- The machine starts with an empty cache; `initlog` takes the place of the log from the super
block. -/
def boot (sb : Superblock) (disk : ℕ → Block) : LogDisk :=
  ⟨disk, fun _ => none, .initlog sb, .readHead⟩

def step (sb : Superblock) : DiskEvent → Option LogDisk
  | .beginOp => if s.phase = .running then s.log.beginOp.map fun log =>
    { s with log := log } else none
  | .logWrite b data => if s.phase = .running then some (s.logWrite b data) else none
  | .endOp => if s.phase = .running then some s.endOp else none
  | .read b => if s.phase = .halted then none else some (s.bread b)
  | .recycle b =>
    if s.refcnt b = 0 then some { s with cache := Function.update s.cache b none } else none
  | .tick => s.tick
  | .crash => some (boot sb s.disk)

end LogDisk

end NeulaCpu.Xv6
