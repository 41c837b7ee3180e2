import NeulaCpu.Lib.Paging
import NeulaCpu.Xv6.Vm

/-!
# Copies between the kernel and a user address space

`walkaddr`, `copyout`, `copyin` and `copyinstr` of `vm.c`. A page is looked at as 512 entries or as
4096 bytes: an entry is a little-endian word of 64 bits with the flags in the low ten. Kernel
buffers are lists of bytes outside of the memory that is modelled. Each loop is given the number of
bytes as the bound of its rounds. The next page after the last one of 64 bits is never reached,
since `walkaddr` fails from `MAXVA` on.
-/

namespace NeulaCpu.Xv6

open ByteStore (Byte)

namespace Pte

/-- `pte & PTE_U`. -/
def user (e : Pte) : Bool := e.flags &&& flagU != 0

/-- `pte & PTE_W`. -/
def writable (e : Pte) : Bool := e.flags &&& flagW != 0

/-- The entry as it stands in memory. -/
def word (e : Pte) : BitVec 64 := BitVec.ofNat 54 e.ppn ++ e.flags

def ofWord (w : BitVec 64) : Pte := ⟨(w.extractLsb' 10 54).toNat, w.extractLsb' 0 10⟩

end Pte

namespace VmState

/-- The word of a page that holds the byte at a physical address. -/
def wordIdx (pa : ℕ) : Fin 512 := ⟨pa / 8 % 512, Nat.mod_lt _ (by decide)⟩

variable (s : VmState)

/-- The byte at a physical address. -/
def byte (pa : ℕ) : Byte := Paging.lane (s.mem (pa / pgSize) (wordIdx pa)).word (pa % 8)

def setByte (pa : ℕ) (b : Byte) : VmState :=
  s.setPte (pa / pgSize) (wordIdx pa)
    (.ofWord (Paging.setLane (s.mem (pa / pgSize) (wordIdx pa)).word (pa % 8) b))

/-- `memmove` to the physical address `pa`. -/
def memmove (pa : ℕ) : List Byte → VmState → VmState
  | [], s => s
  | b :: l, s => memmove (pa + 1) l (s.setByte pa b)

/-- `walkaddr`: the physical address of the page, or 0. -/
def walkaddr (pt va : ℕ) : ℕ :=
  if maxVa ≤ va then 0
  else
    match s.walk pt va false with
    | .ok (some (n, k), _) =>
      if !(s.mem n k).valid then 0
      else if !(s.mem n k).user then 0
      else (s.mem n k).ppn * pgSize
    | _ => 0

/-- The loop of `copyout`; `false` is the return value -1. -/
def copyoutLoop (pt : ℕ) : ℕ → ℕ → List Byte → VmState → Bool × VmState
  | 0, _, _, s => (true, s)
  | fuel + 1, dstva, src, s =>
    if src.length = 0 then (true, s)
    else
      let va0 := pgRoundDown dstva
      let pa0 := s.walkaddr pt va0
      if pa0 = 0 then (false, s)
      else
        let n := min (pgSize - (dstva - va0)) src.length
        copyoutLoop pt fuel (va0 + pgSize) (src.drop n)
          (s.memmove (pa0 + (dstva - va0)) (src.take n))

/-- `copyout`. -/
def copyout (pt dstva : ℕ) (src : List Byte) : Bool × VmState :=
  copyoutLoop pt src.length dstva src s

/-- The loop of `copyin`, with the bytes that are in the destination. -/
def copyinLoop (pt : ℕ) : ℕ → ℕ → ℕ → List Byte → Bool × List Byte
  | 0, _, _, dst => (true, dst)
  | fuel + 1, srcva, len, dst =>
    if len = 0 then (true, dst)
    else
      let va0 := pgRoundDown srcva
      let pa0 := s.walkaddr pt va0
      if pa0 = 0 then (false, dst)
      else
        let n := min (pgSize - (srcva - va0)) len
        copyinLoop pt fuel (va0 + pgSize) (len - n)
          (dst ++ ByteStore.get s.byte (pa0 + (srcva - va0)) n)

/-- `copyin`: whether it succeeded, and what it wrote to the destination. -/
def copyin (pt srcva len : ℕ) : Bool × List Byte := s.copyinLoop pt len srcva len []

/-- The inner loop of `copyinstr`: the bytes from `p` on up to a zero byte, at most `n`, and whether
there was a zero byte. -/
def copyinstrPage : ℕ → ℕ → Bool × List Byte
  | 0, _ => (false, [])
  | n + 1, p =>
    if s.byte p = 0 then (true, [0])
    else
      let (gotNull, l) := copyinstrPage n (p + 1)
      (gotNull, s.byte p :: l)

/-- The loop of `copyinstr`. -/
def copyinstrLoop (pt : ℕ) : ℕ → ℕ → ℕ → List Byte → Bool × List Byte
  | 0, _, _, dst => (false, dst)
  | fuel + 1, srcva, max, dst =>
    if max = 0 then (false, dst)
    else
      let va0 := pgRoundDown srcva
      let pa0 := s.walkaddr pt va0
      if pa0 = 0 then (false, dst)
      else
        let n := min (pgSize - (srcva - va0)) max
        let (gotNull, l) := s.copyinstrPage n (pa0 + (srcva - va0))
        if gotNull then (true, dst ++ l)
          else copyinstrLoop pt fuel (va0 + pgSize) (max - n) (dst ++ l)

/-- `copyinstr`. -/
def copyinstr (pt srcva max : ℕ) : Bool × List Byte := s.copyinstrLoop pt max srcva max []

end VmState

end NeulaCpu.Xv6
