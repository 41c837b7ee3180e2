import NeulaCpu.Xv6.Proc

/-!
# Sleep and wakeup

`sleep`, `wakeup`, `scheduler`, `sched` and `yield` of `proc.c`, one step for each `acquire` and
each `release`, with the code up to the next one. Any number of CPUs runs the processes. A lock
belongs to the thread that is going to release it: a process, or the scheduler of a CPU; `swtch`
hands `p->lock` over from the one to the other.

The processes use `sleep` and `wakeup` as the kernel does. Each pair of a spinlock and a channel has
a name `k`. A process tests a condition `g` on the shared data under the lock and calls `sleep`
while the condition is false; or it changes the data under the lock and calls `wakeup` before it
releases the lock. Between these it may be preempted, and it may be woken by `kill`.

`since` is a history: the condition that a process has tested has been true continuously since a
`wakeup` on its channel that began after the test.
-/

namespace NeulaCpu.Xv6

open Function

/-- What a process wants the lock for. -/
inductive SleepJob (γ : Type)
  /-- `while(!g) sleep(chan, lk);` -/
  | await (g : γ)
  /-- Change the data, `wakeup(chan);` -/
  | update
deriving DecidableEq, Repr

/-- Where a process is in the kernel. -/
inductive SleepPc (κ γ : Type)
  | idle
  /-- Before `acquire(lk)`. -/
  | acquire (k : κ) (job : SleepJob γ)
  /-- `lk` is held; the condition is tested or the data changed next. -/
  | locked (k : κ) (job : SleepJob γ)
  /-- In `sleep`, before `acquire(&p->lock)`. -/
  | sleepAcquire (k : κ) (g : γ)
  /-- In `sleep`, before `release(lk)`. -/
  | sleepRelease (k : κ) (g : γ)
  /-- In `sleep`, before `p->chan = chan`. -/
  | sleepSched (k : κ) (g : γ)
  /-- In `sleep`, in `sched`. -/
  | asleep (k : κ) (g : γ)
  /-- In `wakeup`, the loop is at slot `j`. -/
  | wakeup (k : κ) (j : ℕ)
  /-- In `wakeup`, the lock of slot `j` is held. -/
  | wakeupLocked (k : κ) (j : Fin nProc)
  /-- Before `release(lk)`. -/
  | release (k : κ)
  /-- In `yield`, before `acquire(&p->lock)` and before `sched`; the argument is where the process
  was. -/
  | yieldAcquire (next : Option (κ × SleepJob γ))
  | yieldSched (next : Option (κ × SleepJob γ))
  /-- In `sched` called by `yield`, or not yet started. -/
  | yielded (next : Option (κ × SleepJob γ))
  /-- In `kill`, before the `acquire` of the lock of slot `i` and with that lock. -/
  | killAcquire (i : Fin nProc)
  | killLocked (i : Fin nProc)
deriving DecidableEq, Repr

/-- The pair and the condition that a process has tested and found false. -/
def SleepPc.tested {κ γ : Type} : SleepPc κ γ → Option (κ × γ)
  | .sleepAcquire k g | .sleepRelease k g | .sleepSched k g | .asleep k g => some (k, g)
  | _ => none

/-- Where the scheduler of a CPU is. -/
inductive CpuPc
  /-- Before `acquire(&p->lock)`. -/
  | acquire (i : Fin nProc)
  /-- The lock of slot `i` is held and its state is looked at next. -/
  | locked (i : Fin nProc)
  /-- Process `i` runs. -/
  | running (i : Fin nProc)
  /-- Before `release(&p->lock)`. -/
  | release (i : Fin nProc)
deriving DecidableEq, Repr

/-- The owner of a lock. -/
inductive Thread (χ : Type)
  | proc (i : Fin nProc)
  | cpu (c : χ)
deriving DecidableEq, Repr

/-- What a process decides. -/
inductive SleepChoice (κ γ D : Type)
  | go
  | lock (k : κ) (job : SleepJob γ)
  | yield
  | kill (i : Fin nProc)
  | write (d : D)

inductive SleepEvent (κ γ χ D : Type)
  | scheduler (c : χ)
  /-- The process that runs on `c`. -/
  | proc (c : χ) (choice : SleepChoice κ γ D)

structure SleepSys (κ γ χ D : Type) where
  state : Fin nProc → ProcState
  chan : Fin nProc → Option κ
  pc : Fin nProc → SleepPc κ γ
  cpu : χ → CpuPc
  lk : κ → Option (Fin nProc)
  plock : Fin nProc → Option (Thread χ)
  data : D
  since : Fin nProc → Bool

namespace SleepSys

variable {κ γ χ D : Type}

/-- Processes that are ready to start, and CPUs that are about to look for one. -/
def init (ready : Fin nProc → Bool) (data : D) : SleepSys κ γ χ D where
  state i := if ready i then .runnable else .unused
  chan _ := none
  pc _ := .yielded none
  cpu _ := .acquire 0
  lk _ := none
  plock _ := none
  data := data
  since _ := false

variable [DecidableEq κ] [DecidableEq χ] (cond : γ → D → Bool) (s : SleepSys κ γ χ D)

def setPc (p : Fin nProc) (pc : SleepPc κ γ) : SleepSys κ γ χ D := { s with pc := update s.pc p pc }

def setLk (k : κ) (owner : Option (Fin nProc)) : SleepSys κ γ χ D :=
  { s with lk := update s.lk k owner }

def setPlock (i : Fin nProc) (owner : Option (Thread χ)) : SleepSys κ γ χ D :=
  { s with plock := update s.plock i owner }

/-- The data change; a condition that has become false has not been true continuously. -/
def write (d : D) : SleepSys κ γ χ D :=
  { s with
    data := d
    since := fun q => (s.pc q).tested.elim (s.since q) fun (_, g) => s.since q && cond g d }

/-- A `wakeup` on the channel of `k` begins. -/
def beginWakeup (k : κ) : SleepSys κ γ χ D :=
  { s with
    since := fun q => (s.pc q).tested.elim (s.since q) fun (k', g) =>
      if k' = k then s.since q || cond g s.data else s.since q }

/-- The state of a sleeping process becomes `RUNNABLE`. -/
def wake (i : Fin nProc) : SleepSys κ γ χ D := { s with state := update s.state i .runnable }

/-- `sched`: process `p`, whose state is set, hands its lock to the scheduler of `c`. -/
def sched (c : χ) (p : Fin nProc) (st : ProcState) (pc : SleepPc κ γ) : SleepSys κ γ χ D :=
  { (s.setPlock p (some (.cpu c))).setPc p pc with
    state := update s.state p st
    cpu := update s.cpu c (.release p) }

/-- The end of `yield` and the start of a process. -/
def resume (next : Option (κ × SleepJob γ)) : SleepPc κ γ :=
  next.elim .idle fun (k, job) => .acquire k job

/-- A step of process `p`, which runs on `c`; `none` if the process has to wait for a lock, or in a
panic. -/
def procStep (c : χ) (p : Fin nProc) : SleepPc κ γ → SleepChoice κ γ D → Option (SleepSys κ γ χ D)
  | .idle, .lock k job => some (s.setPc p (.acquire k job))
  | .idle, .yield => some (s.setPc p (.yieldAcquire none))
  | .idle, .kill i => some (s.setPc p (.killAcquire i))
  | .acquire k job, .go =>
    if s.lk k = none then some ((s.setLk k (some p)).setPc p (.locked k job)) else none
  | .acquire k job, .yield => some (s.setPc p (.yieldAcquire (some (k, job))))
  | .locked k (.await g), .write d =>
    if cond g s.data then some ((s.write cond d).setPc p (.release k)) else none
  | .locked k (.await g), .go =>
    if cond g s.data then none
    else some { s.setPc p (.sleepAcquire k g) with since := update s.since p false }
  | .locked k .update, .write d =>
    some (((s.write cond d).beginWakeup cond k).setPc p (.wakeup k 0))
  | .sleepAcquire k g, .go =>
    if s.plock p = none then some ((s.setPlock p (some (.proc p))).setPc p (.sleepRelease k g))
      else none
  | .sleepRelease k g, .go =>
    if s.lk k = some p then some ((s.setLk k none).setPc p (.sleepSched k g)) else none
  | .sleepSched k g, .go =>
    if s.plock p = some (.proc p) then
      some { s.sched c p .sleeping (.asleep k g) with chan := update s.chan p (some k) }
    else none
  | .asleep k g, .go =>
    if s.plock p = some (.proc p) then
      some { (s.setPlock p none).setPc p (.acquire k (.await g)) with chan := update s.chan p none }
    else none
  | .wakeup k j, .go =>
    if h : j < nProc then
      if j = p then some (s.setPc p (.wakeup k (j + 1)))
      else if s.plock ⟨j, h⟩ = none then
        some ((s.setPlock ⟨j, h⟩ (some (.proc p))).setPc p (.wakeupLocked k ⟨j, h⟩))
      else none
    else some (s.setPc p (.release k))
  | .wakeupLocked k j, .go =>
    if s.plock j = some (.proc p) then
      let t := (s.setPlock j none).setPc p (.wakeup k (j + 1))
      some (if s.state j = .sleeping ∧ s.chan j = some k then t.wake j else t)
    else none
  | .release k, .go => if s.lk k = some p then some ((s.setLk k none).setPc p .idle) else none
  | .yieldAcquire next, .go =>
    if s.plock p = none then some ((s.setPlock p (some (.proc p))).setPc p (.yieldSched next))
      else none
  | .yieldSched next, .go =>
    if s.plock p = some (.proc p) then some (s.sched c p .runnable (.yielded next)) else none
  | .yielded next, .go =>
    if s.plock p = some (.proc p) then some ((s.setPlock p none).setPc p (resume next)) else none
  | .killAcquire i, .go =>
    if s.plock i = none then some ((s.setPlock i (some (.proc p))).setPc p (.killLocked i))
      else none
  | .killLocked i, .go =>
    if s.plock i = some (.proc p) then
      let t := (s.setPlock i none).setPc p .idle
      some (if s.state i = .sleeping then t.wake i else t)
    else none
  | _, _ => none

/-- A step of the scheduler of `c`. -/
def cpuStep (c : χ) : CpuPc → Option (SleepSys κ γ χ D)
  | .acquire i =>
    if s.plock i = none then
      some { s.setPlock i (some (.cpu c)) with cpu := update s.cpu c (.locked i) }
    else none
  | .locked i =>
    if s.state i = .runnable then
      some { s.setPlock i (some (.proc i)) with
        state := update s.state i .running
        cpu := update s.cpu c (.running i) }
    else some { s with cpu := update s.cpu c (.release i) }
  | .running _ => none
  | .release i =>
    if s.plock i = some (.cpu c) then
      some { s.setPlock i none with cpu := update s.cpu c (.acquire (i + 1)) }
    else none

def step (s : SleepSys κ γ χ D) : SleepEvent κ γ χ D → Option (SleepSys κ γ χ D)
  | .scheduler c => s.cpuStep c (s.cpu c)
  | .proc c choice =>
    match s.cpu c with
    | .running p => s.procStep cond c p (s.pc p) choice
    | _ => none

end SleepSys

end NeulaCpu.Xv6
