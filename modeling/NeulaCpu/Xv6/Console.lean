import NeulaCpu.Lib.ByteStore
import NeulaCpu.Lib.Trace

/-!
# The console

`consoleintr` and `consoleread` of `console.c`: a ring of `INPUT_BUF_SIZE` bytes with three 32-bit
indices that are never reset. `consoleintr` holds the lock of the console from beginning to end.
`consoleread` gives it up while it sleeps, so a call is a sequence of turns, each from `acquire` or
the return of `sleep` to the next release of the lock; between two turns of a call there may be
interrupts and turns of other calls. A call that sleeps may have a turn at any time, woken up or
not, and whether the process has been killed is an input of the turn. Every copy to user memory
succeeds. The echo of the characters is left out.

`Tty` is what the console is for: lines that are edited until they are committed, and reads from the
committed bytes.
-/

namespace NeulaCpu.Xv6

open ByteStore (Byte)

/-- `INPUT_BUF_SIZE`. -/
def inputBufSize : ℕ := 128

/-- `C(x)`. -/
def ctrl (x : Char) : Byte := BitVec.ofNat 8 (x.toNat - '@'.toNat)

/-- `'\n'`. -/
def newline : Byte := 10

/-- `'\r'`. -/
def carriageReturn : Byte := 13

/-- `'\x7f'`. -/
def deleteKey : Byte := 0x7f

/-- `cons` without the lock; `buf` is used below `inputBufSize`. -/
structure Cons where
  buf : ℕ → Byte
  r : BitVec 32
  w : BitVec 32
  e : BitVec 32

/-- How a turn of `consoleread` ends. -/
inductive ReadEnd
  /-- Asleep, with this many bytes to go. -/
  | sleeps (left : ℕ)
  | returns (ret : ℤ)
deriving DecidableEq, Repr

namespace Cons

variable (s : Cons)

/-- The loop of `C('U')`, at most `fuel` rounds. -/
def killLine : ℕ → Cons → Cons
  | 0, s => s
  | fuel + 1, s =>
    if s.e ≠ s.w ∧ s.buf ((s.e - 1).toNat % inputBufSize) ≠ newline then killLine fuel
      { s with e := s.e - 1 } else s

/-- `cons.buf[cons.e++ % INPUT_BUF_SIZE] = c`. -/
def append (c : Byte) : Cons :=
  { s with
    buf := Function.update s.buf (s.e.toNat % inputBufSize) c
    e := s.e + 1 }

/-- `consoleintr`. -/
def consoleintr (c : Byte) : Cons :=
  if c = ctrl 'P' then s
  else if c = ctrl 'U' then killLine (s.e - s.w).toNat s
  else if c = ctrl 'H' ∨ c = deleteKey then
    if s.e ≠ s.w then { s with e := s.e - 1 } else s
  else if c ≠ 0 ∧ (s.e - s.r).toNat < inputBufSize then
    let c := if c = carriageReturn then newline else c
    let s := s.append c
    if c = newline ∨ c = ctrl 'D' ∨ (s.e - s.r).toNat = inputBufSize then { s with w := s.e } else s
  else s

/-- The loop of `consoleread` with `n` bytes to go: the console, the bytes copied to the user, and
how the turn ends. -/
def readLoop (target : ℕ) (killed : Bool) : ℕ → Cons → Cons × List Byte × ReadEnd
  | 0, s => (s, [], .returns target)
  | n + 1, s =>
    if s.r = s.w then
      if killed then (s, [], .returns (-1)) else (s, [], .sleeps (n + 1))
    else
      let c := s.buf (s.r.toNat % inputBufSize)
      let s := { s with r := s.r + 1 }
      if c = ctrl 'D' then
        let s := if n + 1 < target then { s with r := s.r - 1 } else s
        (s, [], .returns (target - (n + 1) : ℕ))
      else if c = newline then (s, [c], .returns (target - n : ℕ))
      else
        let r := readLoop target killed n s
        (r.1, c :: r.2.1, r.2.2)

end Cons

/-- A call of `consoleread` for `target` bytes, with `left` of them to go; and one that has
returned. A length that is not positive is taken as 0: the loop is not entered and 0 is returned. -/
inductive ConsCall
  | reading (target left : ℕ)
  | read (target : ℕ) (ret : ℤ)
deriving DecidableEq, Repr

inductive ConsEvent
  | intr (c : Byte)
  | read (call : ℕ) (n : ℤ)
  | turn (call : ℕ) (killed : Bool)

/-- The console with the calls that were made, by number, and the bytes that were copied to user
memory, each with its call. -/
structure ConsSys where
  cons : Cons
  calls : ℕ → Option ConsCall
  delivered : List (ℕ × Byte)

namespace ConsSys

/-- `cons` is static. -/
def init : ConsSys := ⟨⟨fun _ => 0, 0, 0, 0⟩, fun _ => none, []⟩

variable (s : ConsSys)

def readTurn (call target left : ℕ) (killed : Bool) : ConsSys :=
  let x := s.cons.readLoop target killed left
  { cons := x.1
    calls := Function.update s.calls call <| some <|
      match x.2.2 with
      | .sleeps left => .reading target left
      | .returns ret => .read target ret
    delivered := s.delivered ++ x.2.1.map fun b => (call, b) }

def step : ConsEvent → Option ConsSys
  | .intr c => some { s with cons := s.cons.consoleintr c }
  | .read call n =>
    match s.calls call with
    | none =>
      some { s with calls := Function.update s.calls call (some (.reading n.toNat n.toNat)) }
    | some _ => none
  | .turn call killed =>
    match s.calls call with
    | some (.reading target left) => some (s.readTurn call target left killed)
    | _ => none

end ConsSys

/-! ## A terminal -/

/-- The bytes that were committed, the line that is being typed, the bytes that calls have taken,
and the calls. -/
structure Tty where
  committed : List Byte
  line : List Byte
  taken : List (ℕ × Byte)
  calls : ℕ → Option ConsCall

namespace Tty

def init : Tty := ⟨[], [], [], fun _ => none⟩

variable (t : Tty)

/-- The committed bytes that no call has taken. -/
def unread : List Byte := t.committed.drop t.taken.length

/-- A character is typed. Only the line is edited; a character for which there is no room is
dropped. -/
def input (c : Byte) : Tty :=
  if c = ctrl 'P' then t
  else if c = ctrl 'U' then { t with line := [] }
  else if c = ctrl 'H' ∨ c = deleteKey then { t with line := t.line.dropLast }
  else if c = 0 ∨ inputBufSize ≤ t.unread.length + t.line.length then t
  else
    let c := if c = carriageReturn then newline else c
    let line := t.line ++ [c]
    if c = newline ∨ c = ctrl 'D' ∨ t.unread.length + line.length = inputBufSize then
      { t with committed := t.committed ++ line, line := [] }
    else { t with line := line }

/-- What a read takes that has room for `n` more bytes: up to a newline or the end of the room, and
nothing from a `^D` on. A `^D` is taken if the read has `got` nothing before. The second component
tells whether the read is over. -/
def takeLine (got : Bool) : ℕ → List Byte → List Byte × Bool
  | 0, _ => ([], true)
  | _ + 1, [] => ([], false)
  | n + 1, b :: l =>
    if b = ctrl 'D' then (if got then [] else [b], true)
    else if b = newline then ([b], true)
    else (b :: (takeLine true n l).1, (takeLine true n l).2)

/-- The bytes that the reader gets. -/
def text (l : List Byte) : List Byte := l.filter (· ≠ ctrl 'D')

def readTurn (call target left : ℕ) (killed : Bool) : Tty :=
  let x := takeLine (left < target) left t.unread
  let left := left - (text x.1).length
  { t with
    taken := t.taken ++ x.1.map fun b => (call, b)
    calls := Function.update t.calls call <| some <|
      if x.2 then .read target (target - left : ℕ)
      else if killed then .read target (-1)
      else .reading target left }

def step : ConsEvent → Option Tty
  | .intr c => some (t.input c)
  | .read call n =>
    match t.calls call with
    | none =>
      some { t with calls := Function.update t.calls call (some (.reading n.toNat n.toNat)) }
    | some _ => none
  | .turn call killed =>
    match t.calls call with
    | some (.reading target left) => some (t.readTurn call target left killed)
    | _ => none

end Tty

end NeulaCpu.Xv6
