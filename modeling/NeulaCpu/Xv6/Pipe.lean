import NeulaCpu.Lib.ByteStore
import NeulaCpu.Lib.Ring
import NeulaCpu.Lib.Trace

/-!
# Pipes

`pipe.c`: a ring of `PIPESIZE` bytes with 32-bit counters that are never reset. `pipewrite` and
`piperead` hold the lock of the pipe except while they sleep, so a call is a sequence of turns, each
of them what the call does from `acquire` or the return of `sleep` to the next release of the lock.
Between two turns of a call there may be turns of any others. Whether the process has been killed
and whether a user address is mapped are inputs of the turn. A call that sleeps may have a turn at
any time, woken up or not. No call is made on a pipe that is closed at both ends, so the `kfree` of
`pipeclose` is left out.
-/

namespace NeulaCpu.Xv6

open ByteStore Function

def pipeSize : ℕ := 512

/-- `struct pipe` without the lock; `data` is used below `pipeSize`. -/
structure Pipe where
  data : ℕ → Byte
  nread : BitVec 32
  nwrite : BitVec 32
  readopen : Bool
  writeopen : Bool

/-- How a turn ends. -/
inductive Exit
  | sleeps
  | returns (ret : ℤ)
deriving DecidableEq, Repr

namespace Pipe

/-- `pipealloc`: the bytes are what the page has. -/
def alloc (junk : ℕ → Byte) : Pipe := ⟨junk, 0, 0, true, true⟩

variable (pi : Pipe)

/-- `pipeclose`. -/
def close (writable : Bool) : Pipe :=
  if writable then { pi with writeopen := false } else { pi with readopen := false }

def full : Bool := pi.nwrite == pi.nread + BitVec.ofNat 32 pipeSize

def empty : Bool := pi.nread == pi.nwrite

/-- `pi->data[pi->nwrite++ % PIPESIZE] = ch`. -/
def put (ch : Byte) : Pipe :=
  { pi with
    data := update pi.data (pi.nwrite.toNat % pipeSize) ch
    nwrite := pi.nwrite + 1 }

/-- `pi->data[pi->nread++ % PIPESIZE]`. -/
def next : Byte := pi.data (pi.nread.toNat % pipeSize)

def take : Pipe := { pi with nread := pi.nread + 1 }

/-- The loop of `pipewrite` with `left` bytes to go after the first `i`: the pipe and the number of
bytes written when the lock is released, and how the turn ends. `src` is what `copyin` finds in user
memory and `killed i` what `killed` says before byte `i`. -/
def pipewrite (src : ℕ → Option Byte) (killed : ℕ → Bool) : ℕ → ℕ → Pipe → Pipe × ℕ × Exit
  | 0, i, pi => (pi, i, .returns i)
  | left + 1, i, pi =>
    if !pi.readopen || killed i then (pi, i, .returns (-1))
    else if pi.full then (pi, i, .sleeps)
    else
      match src i with
      | none => (pi, i, .returns i)
      | some ch => pipewrite src killed left (i + 1) (pi.put ch)

/-- The copying loop of `piperead` with `left` bytes to go after the first `i`: the pipe, the bytes
that were taken out of the ring, and the return value. `dst i` says whether `copyout` of byte `i`
succeeds; a byte that cannot be copied has been taken out. -/
def copyOut (dst : ℕ → Bool) : ℕ → ℕ → Pipe → Pipe × List Byte × ℕ
  | 0, i, pi => (pi, [], i)
  | left + 1, i, pi =>
    if pi.empty then (pi, [], i)
    else if dst i then
      let r := copyOut dst left (i + 1) pi.take
      (r.1, pi.next :: r.2.1, r.2.2)
    else (pi.take, [pi.next], i)

/-- A turn of `piperead`. -/
def piperead (dst : ℕ → Bool) (killed : Bool) (n : ℤ) : Pipe × List Byte × Exit :=
  if pi.empty && pi.writeopen then
    if killed then (pi, [], .returns (-1)) else (pi, [], .sleeps)
  else
    let r := copyOut dst n.toNat 0 pi
    (r.1, r.2.1, .returns r.2.2)

end Pipe

/-! ## Calls -/

/-- A call: `pipewrite` of the first `n` bytes of `src` with `i` of them written, or `piperead`; and
a call that has returned. -/
inductive PipeCall
  | writing (src : ℕ → Option Byte) (n : ℤ) (i : ℕ)
  | wrote (src : ℕ → Option Byte) (i : ℕ) (ret : ℤ)
  | reading (n : ℤ)
  | read (ret : ℤ)

/-- A pipe with the calls that were made on it, by number, the bytes that were put into the ring,
each with its call, and the bytes that were taken out. -/
structure PipeSys where
  pipe : Pipe
  calls : ℕ → Option PipeCall
  put : List (ℕ × Byte)
  taken : List Byte

inductive PipeEvent
  | write (c : ℕ) (src : ℕ → Option Byte) (n : ℤ)
  | read (c : ℕ) (n : ℤ)
  | turn (c : ℕ) (killed : ℕ → Bool) (dst : ℕ → Bool)
  | close (writable : Bool)

namespace PipeSys

def init (junk : ℕ → Byte) : PipeSys := ⟨.alloc junk, fun _ => none, [], []⟩

variable (s : PipeSys)

def writeTurn (c : ℕ) (src : ℕ → Option Byte) (n : ℤ) (i : ℕ) (killed : ℕ → Bool) : PipeSys :=
  let r := Pipe.pipewrite src killed (n.toNat - i) i s.pipe
  { pipe := r.1
    calls := update s.calls c <| some <|
      match r.2.2 with
      | .sleeps => .writing src n r.2.1
      | .returns ret => .wrote src r.2.1 ret
    put := s.put ++ ((List.range' i (r.2.1 - i)).filterMap src).map fun ch => (c, ch)
    taken := s.taken }

def readTurn (c : ℕ) (n : ℤ) (killed : Bool) (dst : ℕ → Bool) : PipeSys :=
  let r := s.pipe.piperead dst killed n
  { pipe := r.1
    calls := update s.calls c <| some <|
      match r.2.2 with
      | .sleeps => .reading n
      | .returns ret => .read ret
    put := s.put
    taken := s.taken ++ r.2.1 }

def step : PipeEvent → Option PipeSys
  | .write c src n =>
    match s.calls c with
    | none => some { s with calls := update s.calls c (some (.writing src n 0)) }
    | some _ => none
  | .read c n =>
    match s.calls c with
    | none => some { s with calls := update s.calls c (some (.reading n)) }
    | some _ => none
  | .turn c killed dst =>
    match s.calls c with
    | some (.writing src n i) => some (s.writeTurn c src n i killed)
    | some (.reading n) => some (s.readTurn c n (killed 0) dst)
    | _ => none
  | .close writable => some { s with pipe := s.pipe.close writable }

end PipeSys

/-! ## The ring -/

namespace Pipe

/-- The pipe is a queue with the bytes that were put in and taken out. -/
def Holds (pi : Pipe) (taken written : List Byte) : Prop :=
  Ring.Holds pipeSize pi.data pi.nread pi.nwrite taken written

theorem pipeSize_dvd : pipeSize ∣ 2 ^ 32 := by decide

theorem pipeSize_lt : pipeSize < 2 ^ 32 := by decide

variable {pi : Pipe} {taken written : List Byte}

namespace Holds

section

variable (h : pi.Holds taken written)

include h

theorem put (hfull : ¬ pi.full = true) (ch : Byte) : (pi.put ch).Holds taken (written ++ [ch]) := by
  have hne : written.length ≠ taken.length + pipeSize := fun he =>
    hfull (beq_iff_eq.mpr ((h.full_iff pipeSize_lt).mpr he))
  exact Ring.Holds.push h pipeSize_dvd (lt_of_le_of_ne h.room hne) ch

theorem take (hempty : ¬ pi.empty = true) : pi.take.Holds (taken ++ [pi.next]) written := by
  have hne : taken.length ≠ written.length := fun he =>
    hempty (beq_iff_eq.mpr ((h.empty_iff pipeSize_lt).mpr he))
  exact Ring.Holds.pop h pipeSize_dvd hne

/-- A turn of `pipewrite` puts the next bytes of its source into the ring, in order. -/
theorem pipewrite (src : ℕ → Option Byte) (killed : ℕ → Bool) (left i : ℕ) :
    let r := Pipe.pipewrite src killed left i pi
    i ≤ r.2.1 ∧ r.1.Holds taken (written ++ (List.range' i (r.2.1 - i)).filterMap src) ∧
      (∀ k, i ≤ k → k < r.2.1 → (src k).isSome = true) ∧
      ∀ ret, r.2.2 = .returns ret → 0 ≤ ret → ret = r.2.1 := by
  induction left generalizing pi written i with
  | zero =>
    simp only [Pipe.pipewrite, Nat.sub_self, List.range'_zero, List.filterMap_nil, List.append_nil]
    exact ⟨le_rfl, h, fun k h1 h2 => by omega, fun ret hr _ => (Exit.returns.inj hr).symm⟩
  | succ left ih =>
    simp only [Pipe.pipewrite]
    split_ifs with hstop hfull
    · simp only [Nat.sub_self, List.range'_zero, List.filterMap_nil, List.append_nil]
      refine ⟨le_rfl, h, fun k h1 h2 => by omega, fun ret hr hpos => ?_⟩
      rw [← Exit.returns.inj hr] at hpos
      omega
    · simp only [Nat.sub_self, List.range'_zero, List.filterMap_nil, List.append_nil]
      exact ⟨le_rfl, h, fun k h1 h2 => by omega, fun ret hr => nomatch hr⟩
    · cases hsrc : src i with
      | none =>
        simp only [Nat.sub_self, List.range'_zero, List.filterMap_nil, List.append_nil]
        exact ⟨le_rfl, h, fun k h1 h2 => by omega, fun ret hr _ => (Exit.returns.inj hr).symm⟩
      | some ch =>
        obtain ⟨hle, hholds, hsome, hret⟩ := ih (h.put hfull ch) (i + 1)
        simp only at hle hholds hsome hret ⊢
        refine ⟨by omega, ?_, fun k h1 h2 => ?_, hret⟩
        · rw [List.append_assoc] at hholds
          have hsplit : (Pipe.pipewrite src killed left (i + 1) (pi.put ch)).2.1 - i =
              (Pipe.pipewrite src killed left (i + 1) (pi.put ch)).2.1 - (i + 1) + 1 := by omega
          rw [hsplit, List.range'_succ, List.filterMap_cons_some hsrc]
          exact hholds
        · rcases Nat.eq_or_lt_of_le h1 with rfl | hlt
          · rw [hsrc]
            rfl
          · exact hsome k hlt h2

theorem copyOut {dst : ℕ → Bool} (left i : ℕ) :
    (Pipe.copyOut dst left i pi).1.Holds (taken ++ (Pipe.copyOut dst left i pi).2.1) written := by
  induction left generalizing pi taken i with
  | zero =>
    rw [Pipe.copyOut, List.append_nil]
    exact h
  | succ left ih =>
    rw [Pipe.copyOut]
    split_ifs with hempty hdst
    · rw [List.append_nil]
      exact h
    · have hnext := ih (h.take hempty) (i + 1)
      rw [List.append_assoc] at hnext
      exact hnext
    · exact h.take hempty

theorem piperead {dst : ℕ → Bool} {killed : Bool} {n : ℤ} :
    (pi.piperead dst killed n).1.Holds (taken ++ (pi.piperead dst killed n).2.1) written := by
  unfold Pipe.piperead
  split_ifs
  · rw [List.append_nil]
    exact h
  · rw [List.append_nil]
    exact h
  · exact h.copyOut _ _

end

end Holds

end Pipe

/-! ## Runs -/

namespace PipeCall

/-- What the bytes `bs` that a call has put into the ring are: the first bytes of its source for a
`pipewrite`, as many as the call returns unless it returns -1, and none for a `piperead` or for a
call that was not made. -/
def Wrote (bs : List Byte) : Option PipeCall → Prop
  | some (.writing src _ i) => bs.map some = (List.range i).map src
  | some (.wrote src i ret) => bs.map some = (List.range i).map src ∧ (0 ≤ ret → ret = i)
  | _ => bs = []

end PipeCall

namespace PipeSys

/-- The bytes that a call has put into the ring. -/
def bytesOf (s : PipeSys) (c : ℕ) : List Byte := (s.put.filter fun p => p.1 == c).map Prod.snd

/-- The ring is a queue, and each call has put the first bytes of its source into it. -/
structure PipeInv (s : PipeSys) : Prop where
  ring : s.pipe.Holds s.taken (s.put.map Prod.snd)
  wrote : ∀ c, PipeCall.Wrote (s.bytesOf c) (s.calls c)

variable {s t : PipeSys}

theorem bytesOf_append_self {put : List (ℕ × Byte)} {bs : List Byte} {c : ℕ} :
    ((put ++ bs.map fun ch => (c, ch)).filter fun p => p.1 == c).map Prod.snd =
      (put.filter fun p => p.1 == c).map Prod.snd ++ bs := by
  simp [List.filter_append, List.filter_map, Function.comp_def]

theorem bytesOf_append_of_ne {put : List (ℕ × Byte)} {bs : List Byte} {c d : ℕ} (h : d ≠ c) :
    ((put ++ bs.map fun ch => (c, ch)).filter fun p => p.1 == d).map Prod.snd =
      (put.filter fun p => p.1 == d).map Prod.snd := by
  simp [List.filter_append, List.filter_map, Function.comp_def, h.symm]

/-- The first bytes of a source, continued. -/
theorem firstBytes_append {src : ℕ → Option Byte} {bs : List Byte} {i j : ℕ} (hij : i ≤ j)
    (h : bs.map some = (List.range i).map src)
    (hsome : ∀ k, i ≤ k → k < j → (src k).isSome = true) :
    (bs ++ (List.range' i (j - i)).filterMap src).map some = (List.range j).map src := by
  have hmap : ((List.range' i (j - i)).filterMap src).map some =
      (List.range' i (j - i)).map src := by
    rw [List.map_filterMap]
    rw [← List.filterMap_eq_map]
    refine List.filterMap_congr fun k hk => ?_
    rw [List.mem_range'_1] at hk
    obtain ⟨b, hb⟩ := Option.isSome_iff_exists.mp (hsome k hk.1 (by omega))
    simp [hb]
  have hrange : List.range i ++ List.range' i (j - i) = List.range j := by
    have hsplit := List.range'_append_1 (s := 0) (m := i) (n := j - i)
    rwa [Nat.zero_add, Nat.add_sub_cancel' hij, ← List.range_eq_range', ← List.range_eq_range']
      at hsplit
  rw [List.map_append, h, hmap, ← List.map_append, hrange]

namespace PipeInv

theorem init (junk : ℕ → Byte) : PipeInv (init junk) where
  ring := Ring.holds_nil pipeSize junk
  wrote _ := rfl

/-- The calls are as before except `c`, which has put in nothing so far or now. -/
theorem update_calls (h : PipeInv s) {c : ℕ} {call : PipeCall} {pi : Pipe} {taken : List Byte}
    (hring : pi.Holds taken (s.put.map Prod.snd))
    (hcall : PipeCall.Wrote (s.bytesOf c) (some call)) :
    PipeInv ⟨pi, update s.calls c (some call), s.put, taken⟩ where
  ring := hring
  wrote d := by
    rcases eq_or_ne d c with rfl | hne
    · show PipeCall.Wrote _ (update s.calls d (some call) d)
      rw [update_self]
      exact hcall
    · show PipeCall.Wrote _ (update s.calls c (some call) d)
      rw [update_of_ne hne]
      exact h.wrote d

theorem writeTurn (h : PipeInv s) {c : ℕ} {src : ℕ → Option Byte} {n : ℤ} {i : ℕ}
    {killed : ℕ → Bool} (hcall : s.calls c = some (.writing src n i)) :
    PipeInv (s.writeTurn c src n i killed) := by
  obtain ⟨hle, hholds, hsome, hret⟩ := h.ring.pipewrite src killed (n.toNat - i) i
  have hsofar := h.wrote c
  rw [hcall] at hsofar
  have hnow := firstBytes_append hle hsofar hsome
  refine ⟨?_, fun d => ?_⟩
  · simpa [PipeSys.writeTurn, Function.comp_def] using hholds
  · rcases eq_or_ne d c with rfl | hne
    · simp only [bytesOf, PipeSys.writeTurn, bytesOf_append_self, update_self]
      cases hexit : (Pipe.pipewrite src killed (n.toNat - i) i s.pipe).2.2 with
      | sleeps => exact hnow
      | returns ret => exact ⟨hnow, hret ret hexit⟩
    · simp only [bytesOf, PipeSys.writeTurn, bytesOf_append_of_ne hne, update_of_ne hne]
      exact h.wrote d

theorem readTurn (h : PipeInv s) {c : ℕ} {n : ℤ} {killed : Bool} {dst : ℕ → Bool}
    (hcall : s.calls c = some (.reading n)) : PipeInv (s.readTurn c n killed dst) := by
  have hnone := h.wrote c
  rw [hcall] at hnone
  refine h.update_calls h.ring.piperead ?_
  cases (s.pipe.piperead dst killed n).2.2 with
  | sleeps => exact hnone
  | returns ret => exact hnone

/-- Every event keeps the invariant. -/
theorem step (h : PipeInv s) {e : PipeEvent} (hstep : s.step e = some t) : PipeInv t := by
  cases e with
  | write c src n =>
    have hnone := h.wrote c
    simp only [PipeSys.step] at hstep
    split at hstep
    · next hcall =>
      rw [hcall] at hnone
      rw [← Option.some.inj hstep]
      exact h.update_calls h.ring (congrArg (List.map some) hnone)
    · simp at hstep
  | read c n =>
    have hnone := h.wrote c
    simp only [PipeSys.step] at hstep
    split at hstep
    · next hcall =>
      rw [hcall] at hnone
      rw [← Option.some.inj hstep]
      exact h.update_calls h.ring hnone
    · simp at hstep
  | turn c killed dst =>
    simp only [PipeSys.step] at hstep
    split at hstep
    · next hcall =>
      rw [← Option.some.inj hstep]
      exact h.writeTurn hcall
    · next hcall =>
      rw [← Option.some.inj hstep]
      exact h.readTurn hcall
    · simp at hstep
  | close writable =>
    rw [← Option.some.inj hstep]
    refine ⟨?_, h.wrote⟩
    cases writable with
    | false => exact h.ring
    | true => exact h.ring

end PipeInv

/-- In every run of writers, readers and closes on a new pipe the number of bytes in the ring, as
the 32-bit counters have it, is at most `pipeSize`; what has been taken out are the first of the
bytes that were put in, and those not yet taken out are in the ring; each `pipewrite` has put in the
first bytes of its source in order, as many as it returned unless it returned -1. -/
theorem pipe_is_fifo (junk : ℕ → Byte) (es : List PipeEvent) (s : PipeSys)
    (run : Trace.exec step (init junk) es = some s) :
    (s.pipe.nwrite - s.pipe.nread).toNat ≤ pipeSize ∧ s.taken <+: s.put.map Prod.snd ∧
      (∀ k, s.taken.length ≤ k →
        ∀ b, (s.put.map Prod.snd)[k]? = some b → s.pipe.data (k % pipeSize) = b) ∧
      (∀ c src n i, s.calls c = some (.writing src n i) →
        (s.bytesOf c).map some = (List.range i).map src) ∧
      ∀ c src i ret, s.calls c = some (.wrote src i ret) →
        (s.bytesOf c).map some = (List.range i).map src ∧ (0 ≤ ret → ret = i) := by
  have inv : PipeInv s := Trace.always (fun _ _ _ h => h.step) (PipeInv.init junk) run
  refine ⟨?_, inv.ring.fifo, fun k hk b => inv.ring.slots k b hk, fun c src n i hc => ?_,
    fun c src i ret hc => ?_⟩
  · have hroom := inv.ring.room
    rw [inv.ring.toNat_sub Pipe.pipeSize_lt]
    omega
  · have hwrote := inv.wrote c
    rw [hc] at hwrote
    exact hwrote
  · have hwrote := inv.wrote c
    rw [hc] at hwrote
    exact hwrote

/-- A reader sleeps on the empty pipe, two writers put in three bytes and two bytes, and the reader
wakes up and takes four; the second writer's third byte is not mapped. -/
def twoWriters : List PipeEvent :=
  [.read 0 4, .turn 0 (fun _ => false) fun _ => true,
    .write 1 (fun k => some (BitVec.ofNat 8 (k + 1))) 3, .turn 1 (fun _ => false) fun _ => true,
    .write 2 (fun k => if k < 2 then some (BitVec.ofNat 8 (k + 11)) else none) 5,
    .turn 2 (fun _ => false) fun _ => true,
    .turn 0 (fun _ => false) fun _ => true]

theorem pipe_is_fifo_two_writers :
    ∃ s, Trace.exec step (init fun _ => 0) twoWriters = some s ∧
      s.taken = [1, 2, 3, 11] ∧ s.put = [(1, 1), (1, 2), (1, 3), (2, 11), (2, 12)] ∧
      (s.pipe.nwrite - s.pipe.nread).toNat ≤ pipeSize ∧ s.taken <+: s.put.map Prod.snd := by
  have hsome : ((Trace.exec step (init fun _ => 0) twoWriters).any fun u =>
      decide (u.taken = [1, 2, 3, 11] ∧ u.put = [(1, 1), (1, 2), (1, 3), (2, 11), (2, 12)])) =
        true := by
    decide +kernel
  obtain ⟨s, hs, hd⟩ := (Option.any_eq_true _ _).mp hsome
  obtain ⟨htaken, hput⟩ := of_decide_eq_true hd
  obtain ⟨hroom, hfifo, _⟩ := pipe_is_fifo (fun _ => 0) twoWriters s hs
  exact ⟨s, hs, htaken, hput, hroom, hfifo⟩

end PipeSys

end NeulaCpu.Xv6
