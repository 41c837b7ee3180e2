import NeulaCpu.Xv6.Layout

/-!
# The log in memory

`begin_op`, `log_write` and `end_op` of `log.c`, each as what it does while it holds `log.lock`. A
call that goes to sleep has no result; a waiting process runs the same code again when it is woken.
-/

namespace NeulaCpu.Xv6

/-- `struct log` without the lock and the device. `lh` lists the first `lh.n` entries of
`lh.block`. -/
structure Log where
  start : ℕ
  size : ℕ
  outstanding : ℤ
  committing : Bool
  lh : List ℕ
deriving DecidableEq, Repr

/-- The panics of `log.c`, named after their messages. -/
inductive LogPanic
  | tooBig | outsideTrans | committing
deriving DecidableEq, Repr

instance : DecidableEq (Except LogPanic Log) := fun
  | .ok l, .ok k => decidable_of_iff (l = k) (by simp)
  | .error p, .error q => decidable_of_iff (p = q) (by simp)
  | .ok _, .error _ => .isFalse nofun
  | .error _, .ok _ => .isFalse nofun

namespace Log

/-- `initlog` up to the recovery. -/
def initlog (sb : Superblock) : Log where
  start := sb.logstart
  size := sb.nlog
  outstanding := 0
  committing := false
  lh := []

variable (log : Log)

/-- `begin_op`: the operation is let in, or has to wait for a commit. -/
def beginOp : Option Log :=
  if log.committing then none
  else if (log.lh.length : ℤ) + (log.outstanding + 1) * maxOpBlocks > logSize then none
  else some { log with outstanding := log.outstanding + 1 }

/-- `log_write` of block `b`. The limit is looked at before absorption. -/
def logWrite (b : ℕ) : Except LogPanic Log :=
  if log.lh.length ≥ logSize ∨ log.lh.length ≥ log.size - 1 then .error .tooBig
  else if log.outstanding < 1 then .error .outsideTrans
  else if b ∈ log.lh then .ok log
  else .ok { log with lh := log.lh ++ [b] }

/-- `end_op` up to the commit: whether this operation has to commit. -/
def endOp : Except LogPanic (Log × Bool) :=
  if log.committing then .error .committing
  else if log.outstanding - 1 = 0 then
    .ok ({ log with outstanding := log.outstanding - 1, committing := true }, true)
  else .ok ({ log with outstanding := log.outstanding - 1 }, false)

/-- `end_op` after the commit, which has emptied the header. -/
def endCommit : Log := { log with committing := false, lh := [] }

variable {log} {log' : Log} {b : ℕ} {commits : Bool}

theorem beginOp_eq_some (h : log.beginOp = some log') :
    log' = { log with outstanding := log.outstanding + 1 } := by
  unfold beginOp at h
  split_ifs at h
  exact (Option.some.inj h).symm

theorem logWrite_eq_ok (h : log.logWrite b = .ok log') :
    log.lh.length < logSize ∧ log.lh.length < log.size - 1 ∧
      log' = { log with lh := if b ∈ log.lh then log.lh else log.lh ++ [b] } := by
  unfold logWrite at h
  split_ifs at h with hfull hout hmem
  · refine ⟨by omega, by omega, ?_⟩
    rw [if_pos hmem]
    exact (Except.ok.inj h).symm
  · refine ⟨by omega, by omega, ?_⟩
    rw [if_neg hmem]
    exact (Except.ok.inj h).symm

theorem lh_endOp (h : log.endOp = .ok (log', commits)) :
    log'.start = log.start ∧ log'.size = log.size ∧ log'.lh = log.lh := by
  unfold endOp at h
  split_ifs at h
  · rw [← (Prod.mk.inj (Except.ok.inj h)).1]
    exact ⟨rfl, rfl, rfl⟩
  · rw [← (Prod.mk.inj (Except.ok.inj h)).1]
    exact ⟨rfl, rfl, rfl⟩

end Log

end NeulaCpu.Xv6
