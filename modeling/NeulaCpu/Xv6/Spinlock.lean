import NeulaCpu.Lib.Clocked

/-!
# Spinlocks

`spinlock.c` on any number of cpus. Each access to a lock is a step of its own; `push_off` and
`pop_off` only touch the cpu that runs them and are one step, and so is `holding`, since a lock
names a cpu only while that one has it.
-/

namespace NeulaCpu.Xv6

/-- Between calls, before an access in `acquire` or `release`, or in `panic`. -/
inductive LockPc (L : Type)
  | idle
  | check (l : L)
  | spin (l : L)
  | record (l : L)
  | clear (l : L)
  | unlock (l : L)
  | popOff
  | panic (message : String)

/-- A `struct cpu` with its interrupt flag, and the locks it has taken and not given back. -/
structure LockCpu (L : Type) where
  pc : LockPc L
  intr : Bool
  noff : ℕ
  intena : Bool
  held : List L

structure Spinlock (C : Type) where
  locked : Bool
  cpu : Option C

structure LockSys (C L : Type) where
  cpus : C → LockCpu L
  locks : L → Spinlock C

/-- A cpu calls `acquire`, `release` or `push_off` (with `pop_off` to follow, as in `myproc`), sets
its interrupt flag or, in `sched`, its `intena`, or goes on in its call. -/
inductive LockEvent (L : Type)
  | acquire (l : L)
  | release (l : L)
  | pushOff
  | intr (b : Bool)
  | intena (b : Bool)
  | next

namespace LockCpu

variable {L : Type} (p : LockCpu L)

@[grind] def pushOff : LockCpu L :=
  { p with intr := false, intena := if p.noff = 0 then p.intr else p.intena, noff := p.noff + 1 }

@[grind] def popOff : LockCpu L :=
  if p.intr then { p with pc := .panic "pop_off - interruptible" }
  else if p.noff < 1 then { p with pc := .panic "pop_off" }
  else { p with pc := .idle, noff := p.noff - 1, intr := p.noff - 1 = 0 && p.intena }

/-- There is a `push_off` that is not that of a lock in `held`. -/
@[grind] def outside : Bool :=
  match p.pc with
  | .check _ | .spin _ | .popOff => true
  | .panic m => m = "acquire"
  | _ => false

@[grind] def Ok : Prop :=
  p.held.Nodup ∧ p.noff = p.held.length + p.outside.toNat ∧ (p.noff ≠ 0 → p.intr = false) ∧
  ∀ m, p.pc = .panic m → m = "acquire" ∨ m = "release"

end LockCpu

namespace LockSys

variable {C L : Type} [DecidableEq C] [DecidableEq L] (s : LockSys C L)

def init : LockSys C L := ⟨fun _ => ⟨.idle, false, 0, false, []⟩, fun _ => ⟨false, none⟩⟩

@[grind] def holding (c : C) (l : L) : Bool := (s.locks l).locked && (s.locks l).cpu = some c

def setCpu (c : C) (p : LockCpu L) : LockSys C L :=
  { s with cpus := fun d => if d = c then p else s.cpus d }

def setLock (l : L) (k : Spinlock C) : LockSys C L :=
  { s with locks := fun m => if m = l then k else s.locks m }

/-- An event that cannot happen changes nothing. -/
def step (e : C × LockEvent L) : LockSys C L :=
  let c := e.1
  let p := s.cpus c
  match e.2, p.pc with
  | .acquire l, .idle => s.setCpu c { p.pushOff with pc := .check l }
  | .release l, .idle =>
    s.setCpu c { p with pc := if s.holding c l then .clear l else .panic "release" }
  | .pushOff, .idle => s.setCpu c { p.pushOff with pc := .popOff }
  | .intena b, .idle => s.setCpu c { p with intena := b }
  | .intr b, .idle => if p.noff = 0 then s.setCpu c { p with intr := b } else s
  | .next, .check l =>
    s.setCpu c { p with pc := if s.holding c l then .panic "acquire" else .spin l }
  | .next, .spin l =>
    if (s.locks l).locked then s
    else (s.setCpu c { p with pc := .record l, held := l :: p.held }).setLock l
      { s.locks l with locked := true }
  | .next, .record l =>
    (s.setCpu c { p with pc := .idle }).setLock l { s.locks l with cpu := some c }
  | .next, .clear l =>
    (s.setCpu c { p with pc := .unlock l }).setLock l { s.locks l with cpu := none }
  | .next, .unlock l =>
    (s.setCpu c { p with pc := .popOff, held := p.held.erase l }).setLock l
      { s.locks l with locked := false }
  | .next, .popOff => s.setCpu c p.popOff
  | _, _ => s

/-- A lock names the cpu that has it, except right after it is taken and right before it is given
back. -/
structure LockInv (s : LockSys C L) : Prop where
  ok : ∀ c, (s.cpus c).Ok
  unique : ∀ c d l, l ∈ (s.cpus c).held → l ∈ (s.cpus d).held → c = d
  locked : ∀ l, (s.locks l).locked = true ↔ ∃ c, l ∈ (s.cpus c).held
  cpu : ∀ c l, (s.locks l).cpu = some c ↔
    l ∈ (s.cpus c).held ∧ (s.cpus c).pc ≠ .record l ∧ (s.cpus c).pc ≠ .unlock l
  inside : ∀ c l, (s.cpus c).pc = .record l ∨ (s.cpus c).pc = .clear l ∨ (s.cpus c).pc = .unlock l →
    l ∈ (s.cpus c).held

variable {s}

omit [DecidableEq L] in
/-- A cpu that is not between two accesses to a lock goes on, with the locks it has. -/
theorem LockInv.setCpu (h : LockInv s) {c : C} {p : LockCpu L} (ok : p.Ok)
    (held : p.held = (s.cpus c).held)
    (old : ∀ l, (s.cpus c).pc ≠ .record l ∧ (s.cpus c).pc ≠ .unlock l)
    (new : ∀ l, p.pc ≠ .record l ∧ p.pc ≠ .unlock l ∧ (p.pc = .clear l → l ∈ p.held)) :
    LockInv (s.setCpu c p) := by
  obtain ⟨hok, unique, locked, cpu, inside⟩ := h
  rw [LockSys.setCpu]
  constructor <;> grind

theorem LockInv.step (h : LockInv s) (e : C × LockEvent L) : LockInv (s.step e) := by
  obtain ⟨c, e⟩ := e
  have ⟨ok, unique, locked, cpu, inside⟩ := h
  simp only [LockSys.step]
  split
  case h_5 =>
    split_ifs
    · refine h.setCpu ?_ ?_ ?_ ?_ <;> grind
    · exact h
  case h_7 =>
    split_ifs
    · exact h
    · -- No cpu has the lock, by `locked`.
      simp only [LockSys.setCpu, setLock]
      constructor <;> grind
  case h_8 | h_9 | h_10 =>
    simp only [LockSys.setCpu, setLock]
    constructor <;> grind [List.Nodup.mem_erase_iff]
  case h_12 => exact h
  all_goals refine h.setCpu ?_ ?_ ?_ ?_ <;> grind

/-- In every interleaving a lock is with one cpu at most, and locked just while it is with one;
`holding` tells whether the cpu has the lock, so that `acquire` and `release` panic only on a lock
taken twice or given back without being held; a cpu that has a lock has its interrupts off; and
`noff` counts the locks, so that `pop_off` never panics. -/
theorem spinlock_excludes (es : ℕ → C × LockEvent L) (n : ℕ) :
    let s := Clocked.run step init es n
    (∀ c d l, l ∈ (s.cpus c).held → l ∈ (s.cpus d).held → c = d) ∧
    (∀ l, (s.locks l).locked = true ↔ ∃ c, l ∈ (s.cpus c).held) ∧
    (∀ c l, (s.cpus c).pc ≠ .record l → (s.cpus c).pc ≠ .unlock l →
      (s.holding c l = true ↔ l ∈ (s.cpus c).held)) ∧
    (∀ c, (s.cpus c).held ≠ [] → (s.cpus c).intr = false) ∧
    (∀ c, (s.cpus c).pc = .idle → (s.cpus c).noff = (s.cpus c).held.length) ∧
    ∀ c, (s.cpus c).pc ≠ .panic "pop_off - interruptible" ∧ (s.cpus c).pc ≠ .panic "pop_off" := by
  intro s
  have h : LockInv s := Clocked.invariant (A := fun _ _ => True)
    (by constructor <;> simp [init, LockCpu.Ok, LockCpu.outside]) (fun _ e h _ => h.step e) n
      fun _ _ => trivial
  refine ⟨h.unique, h.locked, fun c l hr hu => ?_, fun c hc => ?_, fun c hc => ?_, fun c => ?_⟩
  · rw [holding, Bool.and_eq_true, decide_eq_true_eq, h.cpu, h.locked]
    exact ⟨fun hl => hl.2.1, fun hl => ⟨⟨c, hl⟩, hl, hr, hu⟩⟩
  · obtain ⟨-, noff, off, -⟩ := h.ok c
    have hlen := List.length_pos_iff.mpr hc
    exact off (by omega)
  · rw [(h.ok c).2.1, LockCpu.outside, hc]
    rfl
  · obtain ⟨-, -, -, panic⟩ := h.ok c
    exact ⟨fun hp => by simpa using panic _ hp, fun hp => by simpa using panic _ hp⟩

end LockSys

end NeulaCpu.Xv6
