import NeulaCpu.Lib.LinkedRing
import NeulaCpu.Lib.Trace
import NeulaCpu.Xv6.Layout

/-!
# The buffer cache

`bio.c`. The regions under `bcache.lock` are functions on `Bcache`; around them `bread` and `brelse`
take and give up the sleep lock of a buffer and read the disk, and other processes may run between
any two of these steps. A `BufRef` is a call of `bread` and the use of its buffer up to the end of
`brelse`.

The history in a `Bio` state is not part of the program: how often `bpin` has been called without a
`bunpin`, when `brelse` last moved a buffer to the front of the list, and how often the disk has
been read into a buffer since the buffer was taken for its block.
-/

namespace NeulaCpu.Xv6

open Function

/-- `NBUF`. -/
def nBuf : ℕ := maxOpBlocks * 3

instance : NeZero nBuf := ⟨by decide⟩

/-- `struct buf`, without its links and the flag of the disk driver; `locked` is its sleep lock. -/
structure Bcache.Buf (α : Type) where
  valid : Bool
  dev : BitVec 32
  blockno : BitVec 32
  locked : Bool
  refcnt : BitVec 32
  data : α
deriving DecidableEq, Repr

structure Bcache (α : Type) where
  buf : Fin nBuf → Bcache.Buf α
  links : Links (Fin nBuf)

namespace Bcache

variable {α : Type}

/-- `binit`, on buffers that hold zeros. -/
def binit (zero : α) : Bcache α where
  buf _ := ⟨false, 0, 0, false, 0, zero⟩
  links := (List.finRange nBuf).foldl Links.pushFront .nil

variable (c : Bcache α)

@[simps] def set (b : Fin nBuf) (x : Buf α) : Bcache α := { c with buf := update c.buf b x }

/-- The first loop of `bget`. -/
def lookup (dev blockno : BitVec 32) : Option (Fin nBuf) :=
  c.links.search (fun b => (c.buf b).dev == dev && (c.buf b).blockno == blockno) nBuf
    (c.links.next none)

/-- The second loop of `bget`. -/
def unused : Option (Fin nBuf) :=
  c.links.flip.search (fun b => (c.buf b).refcnt == 0) nBuf (c.links.prev none)

/-- `bget` up to `acquiresleep`; `none` is the panic. -/
def bget (dev blockno : BitVec 32) : Option (Fin nBuf × Bcache α) :=
  match c.lookup dev blockno with
  | some b => some (b, c.set b { c.buf b with refcnt := (c.buf b).refcnt + 1 })
  | none =>
    c.unused.map fun b =>
      (b, c.set b { c.buf b with dev := dev, blockno := blockno, valid := false, refcnt := 1 })

/-- `brelse` after `releasesleep`. -/
def brelse (b : Fin nBuf) : Bcache α :=
  let c := c.set b { c.buf b with refcnt := (c.buf b).refcnt - 1 }
  if (c.buf b).refcnt = 0 then { c with links := (c.links.unlink b).pushFront b } else c

def bpin (b : Fin nBuf) : Bcache α := c.set b { c.buf b with refcnt := (c.buf b).refcnt + 1 }

def bunpin (b : Fin nBuf) : Bcache α := c.set b { c.buf b with refcnt := (c.buf b).refcnt - 1 }

end Bcache

/-! ## Calls -/

/-- Where a call is: before `acquiresleep`, before the test of `b->valid`, in `virtio_disk_rw`,
between `bread` and `brelse`, in `brelse` after `releasesleep`. -/
inductive RefStage
  | waiting | testing | reading | held | releasing
deriving DecidableEq, Repr

namespace RefStage

/-- The caller has the sleep lock. -/
def owns : RefStage → Bool
  | .testing | .reading | .held => true
  | .waiting | .releasing => false

@[simp] theorem owns_waiting : owns .waiting = false := rfl

@[simp] theorem owns_testing : owns .testing = true := rfl

@[simp] theorem owns_reading : owns .reading = true := rfl

@[simp] theorem owns_held : owns .held = true := rfl

@[simp] theorem owns_releasing : owns .releasing = false := rfl

end RefStage

/-- A reference to a buffer: the call that has it and the block that it asked for. -/
structure BufRef where
  b : Fin nBuf
  dev : BitVec 32
  blockno : BitVec 32
  stage : RefStage
deriving DecidableEq, Repr

inductive BioEvent (α : Type)
  | bget (dev blockno : BitVec 32)
  | acquiresleep (r : BufRef)
  | test (r : BufRef)
  | read (r : BufRef)
  | modify (r : BufRef) (data : α)
  | bwrite (r : BufRef)
  | releasesleep (r : BufRef)
  | brelse (r : BufRef)
  | bpin (b : Fin nBuf)
  | bunpin (b : Fin nBuf)

structure Bio (α : Type) where
  cache : Bcache α
  /-- The disk, by block number: `virtio_disk_rw` does not look at `b->dev`. -/
  disk : BitVec 32 → α
  refs : Multiset BufRef
  pins : Fin nBuf → ℕ
  /-- How often `brelse` has moved a buffer, and for each buffer the number of its last move, 0 for
  none. -/
  moves : ℕ
  moved : Fin nBuf → ℕ
  reads : Fin nBuf → ℕ

namespace Bio

variable {α : Type}

def init (zero : α) (disk : BitVec 32 → α) : Bio α where
  cache := .binit zero
  disk := disk
  refs := 0
  pins _ := 0
  moves := 0
  moved _ := 0
  reads _ := 0

variable (s : Bio α)

def buf (b : Fin nBuf) : Bcache.Buf α := s.cache.buf b

/-- The call `r`, which is at `stage`, goes on to `stage'` and leaves its buffer as `x`. -/
def advance (r : BufRef) (stage stage' : RefStage) (x : Bcache.Buf α) : Option (Bio α) :=
  if r ∈ s.refs ∧ r.stage = stage then
    some { s with
      cache := s.cache.set r.b x, refs := { r with stage := stage' } ::ₘ s.refs.erase r }
  else none

def step : BioEvent α → Option (Bio α)
  | .bget dev blockno =>
    (s.cache.bget dev blockno).map fun (b, c) =>
      { s with
        cache := c
        refs := ⟨b, dev, blockno, .waiting⟩ ::ₘ s.refs
        reads := if s.cache.lookup dev blockno = none then update s.reads b 0 else s.reads }
  | .acquiresleep r =>
    if (s.buf r.b).locked then none
    else s.advance r .waiting .testing { s.buf r.b with locked := true }
  | .test r => s.advance r .testing (if (s.buf r.b).valid then .held else .reading) (s.buf r.b)
  | .read r =>
    (s.advance r .reading .held
      { s.buf r.b with valid := true, data := s.disk (s.buf r.b).blockno }).map
      fun t => { t with reads := update s.reads r.b (s.reads r.b + 1) }
  | .modify r data => s.advance r .held .held { s.buf r.b with data := data }
  | .bwrite r =>
    (s.advance r .held .held (s.buf r.b)).map fun t =>
      { t with disk := update s.disk (s.buf r.b).blockno (s.buf r.b).data }
  | .releasesleep r => s.advance r .held .releasing { s.buf r.b with locked := false }
  | .brelse r =>
    if r ∈ s.refs ∧ r.stage = .releasing then
      let t := { s with cache := s.cache.brelse r.b, refs := s.refs.erase r }
      if (t.buf r.b).refcnt = 0 then
        some { t with moves := s.moves + 1, moved := update s.moved r.b (s.moves + 1) }
      else some t
    else none
  | .bpin b => some { s with cache := s.cache.bpin b, pins := update s.pins b (s.pins b + 1) }
  | .bunpin b =>
    if 0 < s.pins b then
      some { s with cache := s.cache.bunpin b, pins := update s.pins b (s.pins b - 1) }
    else none

/-! ## What a state is about -/

/-- The outstanding references to a buffer. -/
def refsOf (b : Fin nBuf) : ℕ := s.refs.countP fun r => r.b = b

/-- `a` was moved to the front less recently than `b`; buffers that never were come first, in the
order of `binit`. -/
def Older (a b : Fin nBuf) : Prop :=
  s.moved a < s.moved b ∨ s.moved a = 0 ∧ s.moved b = 0 ∧ a < b

/-- The block that a buffer holds. -/
def block (b : Fin nBuf) : BitVec 32 × BitVec 32 := ((s.buf b).dev, (s.buf b).blockno)

end Bio

end NeulaCpu.Xv6
