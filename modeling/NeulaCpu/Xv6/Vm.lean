import Mathlib.Tactic

/-!
# Physical pages and user page tables

`kalloc.c`, `vm.c` and the page table functions of `proc.c`. Physical memory is a function from page
numbers to 512 page table entries each; the pages that hold no page table are looked at in the same
way. The free list is the list of its pages: the links are in the free pages, which nobody else
writes. Addresses are natural numbers below `2 ^ 64`. The loops over user addresses count their
rounds; they would wrap around only after more pages than there are.

`kalloc` fails if the list is empty, and also whenever `deny` says so.
-/

namespace NeulaCpu.Xv6

def pgSize : ℕ := 4096

/-- `PGROUNDUP`, in 64 bits. -/
def pgRoundUp (sz : ℕ) : ℕ := (sz + pgSize - 1) % 2 ^ 64 / pgSize * pgSize

/-- `PGROUNDDOWN`. -/
def pgRoundDown (a : ℕ) : ℕ := a / pgSize * pgSize

def maxVa : ℕ := 2 ^ 38

/-- `PHYSTOP`. -/
def physStop : ℕ := 0x80000000 + 128 * 1024 * 1024

/-- `TRAMPOLINE`. -/
def trampolineVa : ℕ := maxVa - pgSize

/-- `TRAPFRAME`. -/
def trapframeVa : ℕ := trampolineVa - pgSize

/-- A page table entry: the physical page and the ten flag bits. -/
structure Pte where
  ppn : ℕ
  flags : BitVec 10
deriving DecidableEq, Repr

namespace Pte

def flagV : BitVec 10 := 1

def flagR : BitVec 10 := 2

def flagW : BitVec 10 := 4

def flagX : BitVec 10 := 8

def flagU : BitVec 10 := 16

def zero : Pte := ⟨0, 0⟩

/-- `pte & PTE_V`. -/
def valid (e : Pte) : Bool := e.flags &&& flagV != 0

/-- `pte & (PTE_R|PTE_W|PTE_X)`. -/
def rwx (e : Pte) : Bool := e.flags &&& (flagR ||| flagW ||| flagX) != 0

end Pte

/-- The panics of `kalloc.c` and `vm.c`, named after their messages. -/
inductive VmPanic
  | kfree
  | walk
  | mapSize
  | remap
  | notAligned
  | unmapWalk
  | notMapped
  | notLeaf
  | freewalkLeaf
  | copyPte
  | copyPresent
  /-- Not a panic of the source: `freewalk` calls itself at most three deep. -/
  | depth
deriving DecidableEq, Repr

/-- Physical memory and the allocator. `kend` is the end of the kernel, `trampoline` the page of the
trampoline code, `deny` says which calls of `kalloc` fail in any case, and `calls` counts the
calls. -/
structure VmState where
  mem : ℕ → Fin 512 → Pte
  freelist : List ℕ
  kend : ℕ
  trampoline : ℕ
  deny : ℕ → Bool
  calls : ℕ

namespace VmState

instance : NeZero 512 := ⟨by decide⟩

/-- `PX`. -/
def px (level va : ℕ) : Fin 512 := Fin.ofNat 512 (va / 2 ^ (12 + 9 * level))

variable (s : VmState)

/-- `memset` or `memmove` of a whole page. -/
def setPage (p : ℕ) (content : Fin 512 → Pte) : VmState :=
  { s with mem := Function.update s.mem p content }

/-- `*pte = e`. -/
def setPte (n : ℕ) (k : Fin 512) (e : Pte) : VmState := s.setPage n (Function.update (s.mem n) k e)

/-- `kfree`: the page is filled with ones and put on the free list. -/
def kfree (p : ℕ) : Except VmPanic VmState :=
  if p * pgSize < s.kend ∨ physStop ≤ p * pgSize then .error .kfree
  else .ok { s.setPage p (fun _ => ⟨0x404040404040, 0x101⟩) with freelist := p :: s.freelist }

/-- `kalloc`: the page is filled with fives. -/
def kalloc : Option ℕ × VmState :=
  if s.deny s.calls then (none, { s with calls := s.calls + 1 })
  else
    match s.freelist with
    | [] => (none, { s with calls := s.calls + 1 })
    | p :: l =>
      (some p, { s.setPage p (fun _ => ⟨0x1414141414141, 0x105⟩) with
        freelist := l, calls := s.calls + 1 })

/-- The levels of `walk` above the last. -/
def walkFrom (alloc : Bool) (va : ℕ) : ℕ → ℕ → VmState → Option (ℕ × Fin 512) × VmState
  | 0, pt, s => (some (pt, px 0 va), s)
  | level + 1, pt, s =>
    let pte := s.mem pt (px (level + 1) va)
    if pte.valid then walkFrom alloc va level pte.ppn s
    else if !alloc then (none, s)
    else
      match s.kalloc with
      | (none, s) => (none, s)
      | (some page, s) =>
        walkFrom alloc va level page
          ((s.setPage page fun _ => .zero).setPte pt (px (level + 1) va) ⟨page, Pte.flagV⟩)

/-- `walk`: where the entry for `va` is. -/
def walk (pt va : ℕ) (alloc : Bool) : Except VmPanic (Option (ℕ × Fin 512) × VmState) :=
  if maxVa ≤ va then .error .walk else .ok (walkFrom alloc va 2 pt s)

/-- The loop of `mappages`, with `left` pages to go after the one at `a`; `false` is the return
value -1. -/
def mapLoop (pt : ℕ) (perm : BitVec 10) : ℕ → ℕ → ℕ → VmState → Except VmPanic (Bool × VmState)
  | left, a, ppn, s => do
    match ← s.walk pt a true with
    | (none, s) => pure (false, s)
    | (some (n, k), s) =>
      if (s.mem n k).valid then throw .remap
      let s := s.setPte n k ⟨ppn, perm ||| Pte.flagV⟩
      match left with
      | 0 => pure (true, s)
      | left + 1 => mapLoop pt perm left (a + pgSize) (ppn + 1) s

/-- `mappages`, for a physical address that starts page `ppn`. -/
def mappages (pt va size ppn : ℕ) (perm : BitVec 10) : Except VmPanic (Bool × VmState) :=
  if size = 0 then .error .mapSize
  else mapLoop pt perm ((pgRoundDown (va + size - 1) - pgRoundDown va) / pgSize) (pgRoundDown va)
    ppn s

/-- The loop of `uvmunmap`. -/
def unmapLoop (pt : ℕ) (doFree : Bool) : ℕ → ℕ → VmState → Except VmPanic VmState
  | 0, _, s => .ok s
  | left + 1, a, s => do
    match ← s.walk pt a false with
    | (none, _) => throw .unmapWalk
    | (some (n, k), s) =>
      if !(s.mem n k).valid then throw .notMapped
      if (s.mem n k).flags = Pte.flagV then throw .notLeaf
      let s' ← if doFree then s.kfree (s.mem n k).ppn else pure s
      unmapLoop pt doFree left (a + pgSize) (s'.setPte n k .zero)

/-- `uvmunmap`. -/
def uvmunmap (pt va npages : ℕ) (doFree : Bool) : Except VmPanic VmState :=
  if va % pgSize ≠ 0 then .error .notAligned else unmapLoop pt doFree npages va s

/-- `uvmcreate`. -/
def uvmcreate : Option ℕ × VmState :=
  match s.kalloc with
  | (none, s) => (none, s)
  | (some pt, s) => (some pt, s.setPage pt fun _ => .zero)

/-- `uvmdealloc`: the new size. -/
def uvmdealloc (pt oldsz newsz : ℕ) : Except VmPanic (ℕ × VmState) :=
  if oldsz ≤ newsz then .ok (oldsz, s)
  else do
    let s ←
      if pgRoundUp newsz < pgRoundUp oldsz then
        s.uvmunmap pt (pgRoundUp newsz) ((pgRoundUp oldsz - pgRoundUp newsz) / pgSize) true
      else pure s
    pure (newsz, s)

/-- The loop of `uvmalloc` from `a`, after `oldsz` is rounded up; `false` is an error. -/
def growLoop (pt oldsz : ℕ) (perm : BitVec 10) : ℕ → ℕ → VmState → Except VmPanic (Bool × VmState)
  | 0, _, s => .ok (true, s)
  | left + 1, a, s =>
    match s.kalloc with
    | (none, s) => do
      let (_, s) ← s.uvmdealloc pt a oldsz
      pure (false, s)
    | (some m, s) => do
      let (ok, s) ← (s.setPage m fun _ => .zero).mappages pt a pgSize m perm
      if ok then growLoop pt oldsz perm left (a + pgSize) s
      else
        let s ← s.kfree m
        let (_, s) ← s.uvmdealloc pt a oldsz
        pure (false, s)

/-- `uvmalloc`: the new size, or 0. -/
def uvmalloc (pt oldsz newsz : ℕ) (xperm : BitVec 10) : Except VmPanic (ℕ × VmState) :=
  if newsz < oldsz then .ok (oldsz, s)
  else do
    let (ok, s) ← growLoop pt (pgRoundUp oldsz) (Pte.flagR ||| Pte.flagU ||| xperm)
      ((newsz - pgRoundUp oldsz + pgSize - 1) / pgSize) (pgRoundUp oldsz) s
    pure (if ok then newsz else 0, s)

/-- `freewalk`, at most `depth` deep. -/
def freewalk : ℕ → ℕ → VmState → Except VmPanic VmState
  | 0, _, _ => .error .depth
  | depth + 1, pt, s => do
    let s ← (List.finRange 512).foldlM (fun s i =>
      if (s.mem pt i).valid && !(s.mem pt i).rwx then do
        let s' ← freewalk depth (s.mem pt i).ppn s
        pure (s'.setPte pt i .zero)
      else if (s.mem pt i).valid then throw .freewalkLeaf
      else pure s) s
    s.kfree pt

/-- `uvmfree`. -/
def uvmfree (pt sz : ℕ) : Except VmPanic VmState := do
  let s ← if 0 < sz then s.uvmunmap pt 0 (pgRoundUp sz / pgSize) true else pure s
  s.freewalk 3 pt

/-- The loop of `uvmcopy`; `false` is the return value -1. -/
def copyLoop (old new : ℕ) : ℕ → ℕ → VmState → Except VmPanic (Bool × VmState)
  | 0, _, s => .ok (true, s)
  | left + 1, i, s => do
    match ← s.walk old i false with
    | (none, _) => throw .copyPte
    | (some (n, k), s) =>
      let pte := s.mem n k
      if !pte.valid then throw .copyPresent
      match s.kalloc with
      | (none, s) =>
        let s ← s.uvmunmap new 0 (i / pgSize) true
        pure (false, s)
      | (some m, s) =>
        let (ok, s) ← (s.setPage m (s.mem pte.ppn)).mappages new i pgSize m pte.flags
        if ok then copyLoop old new left (i + pgSize) s
        else
          let s ← s.kfree m
          let s ← s.uvmunmap new 0 (i / pgSize) true
          pure (false, s)

/-- `uvmcopy`. -/
def uvmcopy (old new sz : ℕ) : Except VmPanic (Bool × VmState) :=
  copyLoop old new ((sz + pgSize - 1) / pgSize) 0 s

/-- `proc_pagetable`, for a process with its trapframe in page `trapframe`. -/
def procPagetable (trapframe : ℕ) : Except VmPanic (Option ℕ × VmState) :=
  match s.uvmcreate with
  | (none, s) => .ok (none, s)
  | (some pt, s) => do
    let (ok, s) ← s.mappages pt trampolineVa pgSize s.trampoline (Pte.flagR ||| Pte.flagX)
    if !ok then
      let s ← s.uvmfree pt 0
      return (none, s)
    let (ok, s) ← s.mappages pt trapframeVa pgSize trapframe (Pte.flagR ||| Pte.flagW)
    if !ok then
      let s ← s.uvmunmap pt trampolineVa 1 false
      let s ← s.uvmfree pt 0
      return (none, s)
    return (some pt, s)

/-- `proc_freepagetable`. -/
def procFreepagetable (pt sz : ℕ) : Except VmPanic VmState := do
  let s ← s.uvmunmap pt trampolineVa 1 false
  let s ← s.uvmunmap pt trapframeVa 1 false
  s.uvmfree pt sz

end VmState

end NeulaCpu.Xv6
