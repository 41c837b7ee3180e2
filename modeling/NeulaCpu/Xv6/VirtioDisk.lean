import NeulaCpu.Lib.Trace
import NeulaCpu.Xv6.Layout

/-!
# The virtio disk driver

`virtio_disk.c`: the driver hands chains of three descriptors to the device through the `avail` ring
and gets them back, in any order, through the `used` ring. Its functions hold `vdisk_lock` except
while they sleep, so a call of `virtio_disk_rw` is a sequence of turns, each from `acquire` or the
return of `sleep` to the next release of the lock. The device does not take the lock: it may act
between any two rounds of the loop of `virtio_disk_intr`, and between two turns. During a turn of
`virtio_disk_rw` it reads or writes nothing that the turn writes or reads, apart from the new entry
of the `avail` ring.

Addresses are names of what they point to. Numbers of chain heads are kept as the driver wrote them;
they are below `NUM`.
-/

namespace NeulaCpu.Xv6

open Function

/-- `NUM`. -/
def numDesc : ℕ := 8

/-- What the addresses in the descriptors point to: nothing, a header of `disk.ops`, the data of a
buffer, or the status byte of an entry of `disk.info`. -/
inductive DmaAddr
  | null
  | op (i : ℕ)
  | data (b : ℕ)
  | status (i : ℕ)
deriving DecidableEq, Repr

structure VirtqDesc where
  addr : DmaAddr
  len : ℕ
  flagNext : Bool
  flagWrite : Bool
  next : ℕ
deriving DecidableEq, Repr

/-- `struct virtio_blk_req`: the direction and the sector. -/
structure VirtioBlkReq where
  write : Bool
  sector : BitVec 64
deriving DecidableEq, Repr

structure DiskInfo where
  b : Option ℕ
  status : BitVec 8
deriving DecidableEq, Repr

/-- `struct disk`, with the rings it points to. -/
structure VirtioDisk where
  desc : ℕ → VirtqDesc
  availRing : ℕ → ℕ
  availIdx : BitVec 16
  usedRing : ℕ → ℕ
  usedIdx : BitVec 16
  free : ℕ → Bool
  /-- `disk.used_idx`. -/
  seen : BitVec 16
  info : ℕ → DiskInfo
  ops : ℕ → VirtioBlkReq

/-- The three descriptors of a request. -/
structure Chain where
  i0 : ℕ
  i1 : ℕ
  i2 : ℕ
deriving DecidableEq, Repr

/-- The panics, and the fault of `b->disk = 0` for a null `b`. -/
inductive VirtioPanic
  | freeDesc1
  | freeDesc2
  | intrStatus
  | nullBuf
deriving DecidableEq, Repr

namespace VirtioDisk

def descZero : VirtqDesc := ⟨.null, 0, false, false, 0⟩

/-- After `virtio_disk_init`: the pages of the queue are zeroed, all descriptors free. -/
def init : VirtioDisk where
  desc _ := descZero
  availRing _ := 0
  availIdx := 0
  usedRing _ := 0
  usedIdx := 0
  free i := decide (i < numDesc)
  seen := 0
  info _ := ⟨none, 0⟩
  ops _ := ⟨false, 0⟩

variable (d : VirtioDisk)

/-- `alloc_desc`. -/
def allocDesc : Option (ℕ × VirtioDisk) :=
  ((List.range numDesc).find? d.free).map fun i => (i, { d with free := update d.free i false })

/-- `free_desc`. -/
def freeDesc (i : ℕ) : Except VirtioPanic VirtioDisk :=
  if numDesc ≤ i then .error .freeDesc1
  else if d.free i then .error .freeDesc2
  else .ok { d with
    desc := update d.desc i descZero
    free := update d.free i true }

/-- The loop of `free_chain`. After `numDesc` rounds all descriptors are free and the next
`free_desc` would panic. -/
def freeChainFrom : ℕ → ℕ → VirtioDisk → Except VirtioPanic VirtioDisk
  | 0, i, _ => .error (if numDesc ≤ i then .freeDesc1 else .freeDesc2)
  | fuel + 1, i, d => do
    let flag := (d.desc i).flagNext
    let nxt := (d.desc i).next
    let d ← d.freeDesc i
    if flag then freeChainFrom fuel nxt d else pure d

/-- `free_chain`. -/
def freeChain (i : ℕ) : Except VirtioPanic VirtioDisk := freeChainFrom numDesc i d

/-- `alloc3_desc`, its loop written out; `none` is the return value -1. -/
def alloc3Desc : Except VirtioPanic (VirtioDisk × Option Chain) :=
  match d.allocDesc with
  | none => .ok (d, none)
  | some (i0, d0) =>
    match d0.allocDesc with
    | none => do
      let d ← d0.freeDesc i0
      pure (d, none)
    | some (i1, d1) =>
      match d1.allocDesc with
      | none => do
        let d ← d1.freeDesc i0
        let d ← d.freeDesc i1
        pure (d, none)
      | some (i2, d2) => .ok (d2, some ⟨i0, i1, i2⟩)

/-- `b->blockno * (BSIZE / 512)`, computed in 32 bits. -/
def sector (blockno : BitVec 32) : BitVec 64 :=
  (blockno * BitVec.ofNat 32 (bSize / 512)).setWidth 64

/-- `virtio_disk_rw` from the allocation of the chain to the notification of the device, apart from
`b->disk = 1`. -/
def submit (ch : Chain) (b : ℕ) (write : Bool) (blockno : BitVec 32) : VirtioDisk :=
  { d with
    ops := update d.ops ch.i0 ⟨write, sector blockno⟩
    desc :=
      update
        (update
          (update d.desc ch.i0 ⟨.op ch.i0, 16, true, false, ch.i1⟩)
          ch.i1 ⟨.data b, bSize, true, !write, ch.i2⟩)
        ch.i2 ⟨.status ch.i0, 1, false, true, 0⟩
    info := update d.info ch.i0 ⟨some b, 0xff⟩
    availRing := update d.availRing (d.availIdx.toNat % numDesc) ch.i0
    availIdx := d.availIdx + 1 }

/-- The end of `virtio_disk_rw`. -/
def finish (ch : Chain) : Except VirtioPanic VirtioDisk :=
  freeChain { d with info := update d.info ch.i0 { d.info ch.i0 with b := none } } ch.i0

/-- A round of the loop of `virtio_disk_intr`: the buffer that the disk is done with. -/
def intrRound : Except VirtioPanic (VirtioDisk × ℕ) :=
  let id := d.usedRing (d.seen.toNat % numDesc)
  if (d.info id).status ≠ 0 then .error .intrStatus
  else
    match (d.info id).b with
    | none => .error .nullBuf
    | some b => .ok ({ d with seen := d.seen + 1 }, b)

/-! ## The device -/

/-- What the device does for a chain: the request it reads and the buffer it transfers. -/
structure Service where
  req : VirtioBlkReq
  b : ℕ
deriving DecidableEq, Repr

/-- The second and third descriptor of the chain at `head`. -/
def second (head : ℕ) : VirtqDesc := d.desc (d.desc head).next

def third (head : ℕ) : VirtqDesc := d.desc (d.second head).next

/-- What the device finds in the chain at `head`, if it is a request. -/
def service (head : ℕ) : Option Service :=
  match (d.desc head).addr, (d.second head).addr with
  | .op i, .data b =>
    if (d.desc head).flagNext && (d.second head).flagNext &&
        (d.second head).flagWrite != (d.ops i).write then
      some ⟨d.ops i, b⟩
    else none
  | _, _ => none

/-- The device writes status 0 where the third descriptor of the chain says. -/
def writeStatus (head : ℕ) : VirtioDisk :=
  match (d.third head).addr with
  | .status i => { d with info := update d.info i { d.info i with status := 0 } }
  | _ => d

/-- The device puts `head` into the `used` ring. -/
def pushUsed (head : ℕ) : VirtioDisk :=
  { d with
    usedRing := update d.usedRing (d.usedIdx.toNat % numDesc) head
    usedIdx := d.usedIdx + 1 }

end VirtioDisk

/-! ## Calls, interrupts and the device together -/

/-- A call of `virtio_disk_rw`. -/
structure RwReq where
  b : ℕ
  write : Bool
  blockno : BitVec 32
deriving DecidableEq, Repr

/-- Where a call is: before it has its descriptors, after it has submitted them as the `k`-th
request since the start, or returned. -/
inductive RwCall
  | starting (r : RwReq)
  | waiting (r : RwReq) (k : ℕ) (ch : Chain)
  | returned (r : RwReq) (k : ℕ)
deriving DecidableEq, Repr

/-- The driver, the buffers, the calls by number, whether `virtio_disk_intr` has the lock, and the
device: its index into the `avail` ring, the chains it works on and what it has completed, all by
the number of the request. `submitted`, `fetched`, `completed` and `processed` are the heads that
went through the ends of the two rings since the start; `panicked` is set by a panic. -/
structure VirtioSys where
  disk : VirtioDisk
  bufDisk : ℕ → Bool
  /-- The call whose caller has the lock of the buffer. -/
  bufLock : ℕ → Option ℕ
  calls : ℕ → Option RwCall
  intr : Bool
  devIdx : BitVec 16
  pending : List (ℕ × ℕ)
  log : List (ℕ × Option VirtioDisk.Service)
  submitted : List ℕ
  fetched : List ℕ
  completed : List ℕ
  processed : List ℕ
  panicked : Option VirtioPanic

inductive VirtioEvent
  | rw (c : ℕ) (r : RwReq)
  | turn (c : ℕ)
  | intr
  | intrRound
  | fetch
  | complete (k head : ℕ)
deriving DecidableEq, Repr

namespace VirtioSys

def init : VirtioSys where
  disk := .init
  bufDisk _ := false
  bufLock _ := none
  calls _ := none
  intr := false
  devIdx := 0
  pending := []
  log := []
  submitted := []
  fetched := []
  completed := []
  processed := []
  panicked := none

variable (s : VirtioSys)

/-- A turn of a call without descriptors. -/
def startTurn (c : ℕ) (r : RwReq) : VirtioSys :=
  match s.disk.alloc3Desc with
  | .error p => { s with panicked := some p }
  | .ok (d, none) => { s with disk := d }
  | .ok (d, some ch) =>
    { s with
      disk := d.submit ch r.b r.write r.blockno
      bufDisk := update s.bufDisk r.b true
      submitted := s.submitted ++ [ch.i0]
      calls := update s.calls c (some (.waiting r s.submitted.length ch)) }

/-- A turn of a call that waits for its request. -/
def waitTurn (c : ℕ) (r : RwReq) (k : ℕ) (ch : Chain) : VirtioSys :=
  if s.bufDisk r.b then s
  else
    match s.disk.finish ch with
    | .error p => { s with panicked := some p }
    | .ok d =>
      { s with
        disk := d
        bufLock := update s.bufLock r.b none
        calls := update s.calls c (some (.returned r k)) }

def intrTurn : VirtioSys :=
  if s.disk.seen = s.disk.usedIdx then { s with intr := false }
  else
    match s.disk.intrRound with
    | .error p => { s with panicked := some p }
    | .ok (d, b) =>
      { s with
        disk := d
        bufDisk := update s.bufDisk b false
        processed := s.processed ++ [s.disk.usedRing (s.disk.seen.toNat % numDesc)] }

/-- The device takes the next entry of the `avail` ring. -/
def fetchNext : VirtioSys :=
  let head := s.disk.availRing (s.devIdx.toNat % numDesc)
  { s with
    devIdx := s.devIdx + 1
    pending := (s.fetched.length, head) :: s.pending
    fetched := s.fetched ++ [head] }

/-- The device completes request `k`, whose chain is at `head`. -/
def completeOne (k head : ℕ) : VirtioSys :=
  { s with
    disk := (s.disk.writeStatus head).pushUsed head
    pending := s.pending.erase (k, head)
    log := s.log ++ [(k, s.disk.service head)]
    completed := s.completed ++ [head] }

/-- A call is made with the lock of its buffer held. -/
def step : VirtioEvent → Option VirtioSys
  | .rw c r =>
    if s.panicked.isSome || (s.calls c).isSome || (s.bufLock r.b).isSome then none
    else some { s with
      calls := update s.calls c (some (.starting r))
      bufLock := update s.bufLock r.b (some c) }
  | .turn c =>
    if s.panicked.isSome || s.intr then none
    else
      match s.calls c with
      | some (.starting r) => some (s.startTurn c r)
      | some (.waiting r k ch) => some (s.waitTurn c r k ch)
      | _ => none
  | .intr => if s.panicked.isSome || s.intr then none else some { s with intr := true }
  | .intrRound => if s.panicked.isNone && s.intr then some s.intrTurn else none
  | .fetch => if s.devIdx = s.disk.availIdx then none else some s.fetchNext
  | .complete k head => if (k, head) ∈ s.pending then some (s.completeOne k head) else none

end VirtioSys

end NeulaCpu.Xv6
