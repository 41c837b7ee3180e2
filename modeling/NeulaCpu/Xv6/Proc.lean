import NeulaCpu.Lib.Trace
import Mathlib.Tactic

/-!
# Processes

`fork`, `exit`, `wait` and `kill` of `proc.c`, with what they use of the rest of the file. Each
region under `p->lock` or `wait_lock` is one step, and any process may run between two of them. A
process that is preempted or asleep keeps its place in the kernel, so the place is part of the
state.

What `fork` and `exit` do to memory, files and the current directory is left out; whether the
allocations of `fork` and the copy of `wait` succeed is chosen by the event. The histories are not
part of the program.
-/

namespace NeulaCpu.Xv6

/-- `NPROC`. -/
def nProc : ℕ := 64

instance : NeZero nProc := ⟨by decide⟩

/-- `enum procstate`. -/
inductive ProcState
  | unused | used | sleeping | runnable | running | zombie
deriving DecidableEq, Repr

/-- What a process sleeps on: a `struct proc`, which is what `wait` uses, or something else. -/
inductive Chan
  | proc (i : Fin nProc)
  | other (n : ℕ)
deriving DecidableEq, Repr

/-- Where a process is in the kernel. -/
inductive ProcPc
  /-- Outside of the functions below. -/
  | idle
  /-- In `fork`, the loop of `allocproc` is about to look at slot `i`. -/
  | allocproc (i : Fin nProc)
  /-- In `fork`, before `acquire(&wait_lock)`. -/
  | setParent (np : Fin nProc)
  /-- In `fork`, before the last `acquire(&np->lock)`. -/
  | setRunnable (np : Fin nProc)
  /-- In `wait`, before the loop over the table or asleep after it; the argument tells whether
  `addr` is nonzero. -/
  | wait (addr : Bool)
  /-- In `kill`, the loop is about to look at slot `i`. -/
  | kill (pid : BitVec 32) (i : Fin nProc)
deriving DecidableEq, Repr

structure Proc where
  state : ProcState
  chan : Option Chan
  killed : Bool
  xstate : BitVec 32
  pid : BitVec 32
  parent : Option (Fin nProc)
  pc : ProcPc
deriving DecidableEq, Repr

/-- How a call of `wait` ends. -/
inductive WaitReturn
  | child (pid xstate : BitVec 32)
  | badAddr
  | noChildren
  | killed
deriving DecidableEq, Repr

structure Procs where
  proc : Fin nProc → Proc
  nextpid : BitVec 32
  /-- The pids of the children that `fork` has linked and of their parents. -/
  births : List (BitVec 32 × BitVec 32)
  /-- The pids and statuses of the calls of `exit`. -/
  exits : List (BitVec 32 × BitVec 32)
  /-- The pids of the callers of `wait` and what they got. -/
  waits : List (BitVec 32 × WaitReturn)

inductive ProcEvent
  | scheduler (p : Fin nProc)
  | yield (p : Fin nProc)
  | sleep (p : Fin nProc) (chan : ℕ)
  /-- A `wakeup` by an interrupt or in another part of the kernel has come to slot `i`. -/
  | wakeup (i : Fin nProc)
  | fork (p : Fin nProc)
  | allocproc (p : Fin nProc) (ok : Bool)
  | setParent (p : Fin nProc)
  | setRunnable (p : Fin nProc)
  | exit (p : Fin nProc) (status : BitVec 32)
  | wait (p : Fin nProc) (addr : Bool)
  | scan (p : Fin nProc) (copyout : Bool)
  | kill (p : Fin nProc) (pid : BitVec 32)
  | killScan (p : Fin nProc)
deriving DecidableEq, Repr

/-- `freeproc`. -/
def freeproc : Proc := ⟨.unused, none, false, 0, 0, none, .idle⟩

/-- `userinit` has taken the first slot. -/
def initproc : Fin nProc := 0

namespace Procs

/-- After `userinit`. -/
def init : Procs where
  proc i := if i = initproc then { freeproc with state := .runnable, pid := 1 } else freeproc
  nextpid := 2
  births := []
  exits := []
  waits := []

variable (s : Procs)

def set (i : Fin nProc) (x : Proc) : Procs := { s with proc := Function.update s.proc i x }

def setPc (p : Fin nProc) (pc : ProcPc) : Procs := s.set p { s.proc p with pc := pc }

/-- The loops over the table go on to the next slot, or end. -/
def nextSlot (i : Fin nProc) : Option (Fin nProc) :=
  if h : i + 1 < nProc then some ⟨i + 1, h⟩ else none

/-- `wakeup`, called by `p`. -/
def wakeup (p : Fin nProc) (chan : Chan) : Procs :=
  { s with
    proc := fun i =>
      if i ≠ p ∧ (s.proc i).state = .sleeping ∧ (s.proc i).chan = some chan then
        { s.proc i with state := .runnable }
      else s.proc i }

/-- `fork` from the `acquire` of a slot in `allocproc` to the `release` of the slot; `ok` tells
whether all pages could be allocated. -/
def allocproc (p i : Fin nProc) (ok : Bool) : Procs :=
  if (s.proc i).state = .unused then
    let t := { s with nextpid := s.nextpid + 1 }
    if ok then
      (t.set i { s.proc i with pid := s.nextpid, state := .used, pc := .idle }).setPc p
        (.setParent i)
    else
      (t.set i freeproc).setPc p .idle
  else s.setPc p ((nextSlot i).elim .idle .allocproc)

/-- `fork` under `wait_lock`. -/
def setParent (p np : Fin nProc) : Procs :=
  { (s.set np { s.proc np with parent := some p }).setPc p (.setRunnable np) with
    births := ((s.proc np).pid, (s.proc p).pid) :: s.births }

/-- The end of `fork`. -/
def setRunnable (p np : Fin nProc) : Procs :=
  (s.set np { s.proc np with state := .runnable }).setPc p .idle

/-- A round of the loop of `reparent`. -/
def reparentRound (p : Fin nProc) (s : Procs) (pp : Fin nProc) : Procs :=
  if (s.proc pp).parent = some p then
    (s.set pp { s.proc pp with parent := some initproc }).wakeup p (.proc initproc)
  else s

def reparent (p : Fin nProc) : Procs := (List.finRange nProc).foldl (reparentRound p) s

/-- The end of `exit`. -/
def setZombie (p : Fin nProc) (status : BitVec 32) : Procs :=
  { s.set p { s.proc p with xstate := status, state := .zombie } with
    exits := ((s.proc p).pid, status) :: s.exits }

/-- `wakeup(p->parent)`. -/
def wakeParent (p : Fin nProc) : Procs := (s.proc p).parent.elim s fun q => s.wakeup p (.proc q)

/-- `exit` from `acquire(&wait_lock)` on. -/
def exit (p : Fin nProc) (status : BitVec 32) : Procs :=
  ((s.reparent p).wakeParent p).setZombie p status

/-- The loop of `wait` over the table: whether there are children, and the first one that has
exited. -/
def waitScan (p : Fin nProc) : List (Fin nProc) → Bool → Bool × Option (Fin nProc)
  | [], havekids => (havekids, none)
  | pp :: rest, havekids =>
    if (s.proc pp).parent = some p then
      if (s.proc pp).state = .zombie then (true, some pp) else waitScan p rest true
    else waitScan p rest havekids

/-- `wait` returns. -/
def waitReturn (p : Fin nProc) (r : WaitReturn) : Procs :=
  { s.setPc p .idle with waits := ((s.proc p).pid, r) :: s.waits }

/-- `wait` under `wait_lock`; `addr` tells whether the status is wanted and `copyout` whether it can
be copied. -/
def scan (p : Fin nProc) (addr copyout : Bool) : Procs :=
  match s.waitScan p (List.finRange nProc) false with
  | (_, some pp) =>
    if addr && !copyout then s.waitReturn p .badAddr
    else (s.set pp freeproc).waitReturn p (.child (s.proc pp).pid (s.proc pp).xstate)
  | (havekids, none) =>
    if !havekids then s.waitReturn p .noChildren
    else if (s.proc p).killed then s.waitReturn p .killed
    else s.set p { s.proc p with chan := some (.proc p), state := .sleeping }

/-- A round of the loop of `kill`. -/
def killScan (p : Fin nProc) (pid : BitVec 32) (i : Fin nProc) : Procs :=
  if (s.proc i).pid = pid then
    let x := { s.proc i with killed := true }
    (s.set i (if x.state = .sleeping then { x with state := .runnable } else x)).setPc p .idle
  else s.setPc p ((nextSlot i).elim .idle (.kill pid))

/-- `p` is running and is at `pc`. -/
def At (p : Fin nProc) (pc : ProcPc) : Prop := (s.proc p).state = .running ∧ (s.proc p).pc = pc

instance (p : Fin nProc) (pc : ProcPc) : Decidable (s.At p pc) :=
  inferInstanceAs (Decidable (_ ∧ _))

/-- What an event does; `none` if it cannot happen. `exit` by the first process is a panic. -/
def step : ProcEvent → Option Procs
  | .scheduler p =>
    if (s.proc p).state = .runnable then
      some (s.set p { s.proc p with state := .running, chan := none }) else none
  | .yield p =>
    if (s.proc p).state = .running then some (s.set p { s.proc p with state := .runnable })
      else none
  | .sleep p n =>
    if s.At p .idle then some (s.set p
      { s.proc p with chan := some (.other n), state := .sleeping }) else none
  | .wakeup i =>
    if (s.proc i).state = .sleeping then some (s.set i { s.proc i with state := .runnable })
      else none
  | .fork p => if s.At p .idle then some (s.setPc p (.allocproc 0)) else none
  | .allocproc p ok =>
    match (s.proc p).state, (s.proc p).pc with
    | .running, .allocproc i => some (s.allocproc p i ok)
    | _, _ => none
  | .setParent p =>
    match (s.proc p).state, (s.proc p).pc with
    | .running, .setParent np => some (s.setParent p np)
    | _, _ => none
  | .setRunnable p =>
    match (s.proc p).state, (s.proc p).pc with
    | .running, .setRunnable np => some (s.setRunnable p np)
    | _, _ => none
  | .exit p status => if s.At p .idle ∧ p ≠ initproc then some (s.exit p status) else none
  | .wait p addr => if s.At p .idle then some (s.setPc p (.wait addr)) else none
  | .scan p copyout =>
    match (s.proc p).state, (s.proc p).pc with
    | .running, .wait addr => some (s.scan p addr copyout)
    | _, _ => none
  | .kill p pid => if s.At p .idle then some (s.setPc p (.kill pid 0)) else none
  | .killScan p =>
    match (s.proc p).state, (s.proc p).pc with
    | .running, .kill pid i => some (s.killScan p pid i)
    | _, _ => none

end Procs

end NeulaCpu.Xv6
