import NeulaCpu.Xv6.Log
import NeulaCpu.Lib.Trace

/-!
# Admission to the log

`begin_op` reserves `MAXOPBLOCKS` blocks for each operation in progress and compares with `LOGSIZE`.
The log on the disk has one block less: `mkfs` makes it `LOGSIZE` blocks long and the header takes
one of them, and `log_write` refuses to go on when all the others are in use, before it looks
whether the block is in the log already. Operations that use their whole reservation can therefore
run into the panic. Operations that leave one block of it unused cannot.
-/

namespace NeulaCpu.Xv6

open Function

/-- The log, the processes that are inside an operation, and the blocks each of them has logged in
it. -/
structure LogSys where
  log : Log
  active : Finset ℕ
  logged : ℕ → Finset ℕ

inductive LogEvent
  | beginOp (p : ℕ)
  | logWrite (p b : ℕ)
  | endOp (p : ℕ)
  | commit
deriving DecidableEq, Repr

namespace LogSys

def init (sb : Superblock) : LogSys := ⟨.initlog sb, ∅, fun _ => ∅⟩

/-- A process takes one of its steps. A panic stops the system. -/
def step (s : LogSys) : LogEvent → Option LogSys
  | .beginOp p =>
    if p ∈ s.active then none
    else s.log.beginOp.map fun log => ⟨log, insert p s.active, update s.logged p ∅⟩
  | .logWrite p b =>
    if p ∈ s.active then
      match s.log.logWrite b with
      | .ok log => some ⟨log, s.active, update s.logged p (insert b (s.logged p))⟩
      | .error _ => none
    else none
  | .endOp p =>
    if p ∈ s.active then
      match s.log.endOp with
      | .ok (log, _) => some ⟨log, s.active.erase p, s.logged⟩
      | .error _ => none
    else none
  | .commit => if s.log.committing then some { s with log := s.log.endCommit } else none

/-- An operation logs at most `m` distinct blocks. -/
def Within (m : ℕ) (s : LogSys) : LogEvent → Prop
  | .logWrite p b => (insert b (s.logged p)).card ≤ m
  | _ => True

instance (m : ℕ) (s : LogSys) (e : LogEvent) : Decidable (Within m s e) := by
  cases e <;> unfold Within <;> infer_instance

/-- What the operations in progress may still add to the log. -/
def unused (m : ℕ) (s : LogSys) : ℕ := ∑ p ∈ s.active, (m - (s.logged p).card)

/-- One block less than an operation reserves. -/
def quota : ℕ := maxOpBlocks - 1

/-- The blocks in the log, with those that the operations in progress may still add, leave one block
of the log on the disk free. -/
structure Admitted (s : LogSys) : Prop where
  size : s.log.size = logSize
  outstanding : s.log.outstanding = s.active.card
  committing : s.log.committing = true → s.active = ∅
  -- without an operation or a commit in progress the log is empty
  empty : s.active = ∅ → s.log.committing = false → s.log.lh = []
  logged : ∀ p ∈ s.active, ∀ b ∈ s.logged p, b ∈ s.log.lh
  room : s.log.lh.length + s.unused quota + 2 ≤ logSize

theorem admitted_init : Admitted (init Mkfs.sb) where
  size := rfl
  outstanding := rfl
  committing h := by simp [init, Log.initlog] at h
  empty _ _ := rfl
  logged p hp := absurd hp (Finset.notMem_empty p)
  room := by decide

variable {s t : LogSys} {p b : ℕ}

namespace Admitted

/-- While the invariant holds `log_write` does not find the log full. -/
theorem logWrite_ne_tooBig (h : Admitted s) (b : ℕ) : s.log.logWrite b ≠ .error .tooBig := by
  have hroom := h.room
  have hsize := h.size
  unfold Log.logWrite
  rw [if_neg (by omega)]
  split_ifs <;> simp

/-- An operation is admitted only with room for its blocks. -/
theorem step_beginOp (h : Admitted s) (hs : s.step (.beginOp p) = some t) : Admitted t := by
  simp only [step] at hs
  split_ifs at hs with hp
  obtain ⟨log, hlog, rfl⟩ := Option.map_eq_some_iff.mp hs
  unfold Log.beginOp at hlog
  split_ifs at hlog with hc hfull
  obtain rfl := Option.some.inj hlog
  have hcard := h.outstanding
  have hfree : unused quota ⟨{ s.log with outstanding := s.log.outstanding + 1 }, insert p s.active,
      update s.logged p ∅⟩ = quota + s.unused quota := by
    simp only [unused, Finset.sum_insert hp, update_self, Finset.card_empty, Nat.sub_zero]
    congr 1
    refine Finset.sum_congr rfl fun q hq => ?_
    rw [update_of_ne (by rintro rfl; exact hp hq)]
  have hle : s.unused quota ≤ s.active.card * quota :=
    Finset.sum_le_card_nsmul _ _ _ fun q _ => Nat.sub_le _ _
  refine ⟨h.size, ?_, fun hc' => absurd hc' hc, fun he => absurd he (Finset.insert_ne_empty _ _),
    ?_, ?_⟩
  · show s.log.outstanding + 1 = ((insert p s.active).card : ℤ)
    rw [Finset.card_insert_of_notMem hp, hcard]
    push_cast
    ring
  · show ∀ q ∈ insert p s.active, ∀ b ∈ update s.logged p ∅ q, b ∈ s.log.lh
    intro q hq b hb
    rcases Finset.mem_insert.mp hq with rfl | hq'
    · simp at hb
    · refine h.logged q hq' b ?_
      rwa [update_of_ne (by rintro rfl; exact hp hq')] at hb
  · show s.log.lh.length + unused quota _ + 2 ≤ logSize
    rw [hfree]
    -- The first operation of a transaction finds the log empty; a later one leaves two blocks of
    -- the reservations unused, its own and one more.
    by_cases hact : s.active = ∅
    · rw [h.empty hact (by simpa using hc)]
      simp [unused, hact, quota, maxOpBlocks, logSize]
    · have hpos : 0 < s.active.card := Finset.card_pos.mpr (Finset.nonempty_iff_ne_empty.mpr hact)
      simp only [maxOpBlocks, logSize, quota, hcard] at hfull hle ⊢
      omega

/-- What an operation adds to its blocks it no longer has in reserve. -/
theorem unused_logWrite (hp : p ∈ s.active) (hw : (insert b (s.logged p)).card ≤ quota) :
    ∑ q ∈ s.active, (quota - (update s.logged p (insert b (s.logged p)) q).card) +
      (insert b (s.logged p)).card = s.unused quota + (s.logged p).card := by
  have hold : (s.logged p).card ≤ quota := (Finset.card_le_card (Finset.subset_insert _ _)).trans hw
  have hothers :
      ∑ q ∈ s.active \ {p}, (quota - (update s.logged p (insert b (s.logged p)) q).card) =
      ∑ q ∈ s.active \ {p}, (quota - (s.logged q).card) := by
    refine Finset.sum_congr rfl fun q hq => ?_
    rw [update_of_ne (by simpa using (Finset.mem_sdiff.mp hq).2)]
  simp only [unused]
  rw [← Finset.sum_sdiff (Finset.singleton_subset_iff.mpr hp),
    ← Finset.sum_sdiff (Finset.singleton_subset_iff.mpr hp), hothers]
  simp only [Finset.sum_singleton, update_self]
  omega

/-- A `log_write` within the quota leaves room for the others. -/
theorem step_logWrite (h : Admitted s) (hw : Within quota s (.logWrite p b))
    (hs : s.step (.logWrite p b) = some t) : Admitted t := by
  simp only [step] at hs
  split_ifs at hs with hp
  have hfree := unused_logWrite hp hw
  have hne : s.active ≠ ∅ := Finset.ne_empty_of_mem hp
  have hroom := h.room
  -- in both cases the header has the block afterwards
  have hlogged : ∀ lh : List ℕ, s.log.lh ⊆ lh → b ∈ lh → ∀ q ∈ s.active,
      ∀ c ∈ update s.logged p (insert b (s.logged p)) q, c ∈ lh := by
    intro lh hsub hb q hq c hc
    by_cases hqp : q = p
    · subst hqp
      rw [update_self] at hc
      rcases Finset.mem_insert.mp hc with rfl | hc'
      · exact hb
      · exact hsub (h.logged q hq c hc')
    · rw [update_of_ne hqp] at hc
      exact hsub (h.logged q hq c hc)
  unfold Log.logWrite at hs
  split_ifs at hs with hfull hout hmem
  · -- absorbed: the log does not grow
    obtain rfl := Option.some.inj hs
    have hcard := Finset.card_le_card (Finset.subset_insert b (s.logged p))
    refine ⟨h.size, h.outstanding, h.committing, fun he => absurd he hne,
      hlogged _ (List.Subset.refl _) hmem, ?_⟩
    show s.log.lh.length +
      ∑ q ∈ s.active, (quota - (update s.logged p (insert b (s.logged p)) q).card) + 2 ≤ logSize
    omega
  · obtain rfl := Option.some.inj hs
    -- a block that is not in the log was not logged by this operation either
    have hnew : b ∉ s.logged p := fun hb => hmem (h.logged p hp b hb)
    have hcard := Finset.card_insert_of_notMem hnew
    refine ⟨h.size, h.outstanding, h.committing, fun he => absurd he hne,
      hlogged _ (List.subset_append_left _ _) (by simp), ?_⟩
    show (s.log.lh ++ [b]).length +
      ∑ q ∈ s.active, (quota - (update s.logged p (insert b (s.logged p)) q).card) + 2 ≤ logSize
    rw [List.length_append, List.length_singleton]
    omega

theorem step_endOp (h : Admitted s) (hs : s.step (.endOp p) = some t) : Admitted t := by
  simp only [step] at hs
  split_ifs at hs with hp
  have hcard := h.outstanding
  have herase := Finset.card_erase_add_one hp
  have hroom := h.room
  have hfree : ∑ q ∈ s.active.erase p, (quota - (s.logged q).card) ≤ s.unused quota :=
    Finset.sum_le_sum_of_subset (Finset.erase_subset _ _)
  have hlogged : ∀ q ∈ s.active.erase p, ∀ b ∈ s.logged q, b ∈ s.log.lh :=
    fun q hq => h.logged q (Finset.mem_of_mem_erase hq)
  unfold Log.endOp at hs
  split_ifs at hs with hc hlast
  · obtain rfl := Option.some.inj hs
    have hempty : s.active.erase p = ∅ := Finset.card_eq_zero.mp (by omega)
    refine ⟨h.size, ?_, fun _ => hempty, fun _ hc' => by simp at hc', hlogged, ?_⟩
    · show s.log.outstanding - 1 = ((s.active.erase p).card : ℤ)
      omega
    · show s.log.lh.length + ∑ q ∈ s.active.erase p, (quota - (s.logged q).card) + 2 ≤ logSize
      omega
  · obtain rfl := Option.some.inj hs
    have hne : s.active.erase p ≠ ∅ :=
      fun he => hlast (by rw [he, Finset.card_empty] at herase; omega)
    refine ⟨h.size, ?_, fun hc' => absurd hc' hc, fun he => absurd he hne, hlogged, ?_⟩
    · show s.log.outstanding - 1 = ((s.active.erase p).card : ℤ)
      omega
    · show s.log.lh.length + ∑ q ∈ s.active.erase p, (quota - (s.logged q).card) + 2 ≤ logSize
      omega

theorem step_commit (h : Admitted s) (hs : s.step .commit = some t) : Admitted t := by
  simp only [step] at hs
  split_ifs at hs with hc
  obtain rfl := Option.some.inj hs
  have hempty := h.committing hc
  refine ⟨h.size, h.outstanding, fun hc' => by simp [Log.endCommit] at hc', fun _ _ => rfl, ?_, ?_⟩
  · intro p hp
    exact absurd (hempty ▸ hp) (Finset.notMem_empty p)
  · simp [unused, hempty, Log.endCommit, logSize, maxOpBlocks]

theorem step {e : LogEvent} (h : Admitted s) (hw : Within quota s e) (hs : s.step e = some t) :
    Admitted t := by
  cases e with
  | beginOp p => exact h.step_beginOp hs
  | logWrite p b => exact h.step_logWrite hw hs
  | endOp p => exact h.step_endOp hs
  | commit => exact h.step_commit hs

end Admitted

/-! ## Traces -/

/-- On the disk of `mkfs`, in every interleaving of operations of which each logs at least one block
less than it reserves, the log on the disk has room, and no `log_write` finds it full. -/
theorem log_never_too_big (es : List LogEvent) (t : LogSys)
    (run : Trace.exec step (init Mkfs.sb) es = some t)
    (within : Trace.Meets step (Within (maxOpBlocks - 1)) (init Mkfs.sb) es) :
    t.log.lh.length < Mkfs.sb.nlog - 1 ∧ ∀ b, t.log.logWrite b ≠ .error .tooBig := by
  have hinv : Admitted t :=
    Trace.invariant (fun _ _ _ h hw hs => h.step hw hs) admitted_init within run
  have hroom := hinv.room
  refine ⟨?_, hinv.logWrite_ne_tooBig⟩
  show t.log.lh.length < logSize - 1
  omega

/-- Three operations at once, of `k` new blocks each. -/
def threeOps (k : ℕ) : List LogEvent :=
  [.beginOp 0, .beginOp 1, .beginOp 2] ++
    ((List.range k).map fun b => .logWrite 0 (100 + b)) ++
    ((List.range k).map fun b => .logWrite 1 (200 + b)) ++
    ((List.range k).map fun b => .logWrite 2 (300 + b))

theorem log_never_too_big_three :
    ∃ t, Trace.exec step (init Mkfs.sb) (threeOps 9) = some t ∧ t.log.lh.length = 27 ∧
      t.log.lh.length < Mkfs.sb.nlog - 1 := by
  have hsome : ((Trace.exec step (init Mkfs.sb) (threeOps 9)).any fun u =>
      decide (u.log.lh.length = 27)) = true := by
    decide +kernel
  obtain ⟨t, ht, hd⟩ := (Option.any_eq_true _ _).mp hsome
  exact ⟨t, ht, of_decide_eq_true hd, (log_never_too_big _ t ht (by decide +kernel)).1⟩

/-- Operations that use their whole reservation: the thirtieth block does not fit. -/
theorem log_too_big_three :
    Trace.Meets step (Within maxOpBlocks) (init Mkfs.sb) (threeOps 10) ∧
      ∃ t, Trace.exec step (init Mkfs.sb) ((threeOps 10).dropLast) = some t ∧
        (threeOps 10).getLast? = some (.logWrite 2 309) ∧ 2 ∈ t.active ∧
        t.log.lh.length = Mkfs.sb.nlog - 1 ∧ t.log.logWrite 309 = .error .tooBig := by
  refine ⟨by decide +kernel, ?_⟩
  have hsome : ((Trace.exec step (init Mkfs.sb) ((threeOps 10).dropLast)).any fun u =>
      decide (2 ∈ u.active ∧ u.log.lh.length = Mkfs.sb.nlog - 1 ∧
        u.log.logWrite 309 = .error .tooBig)) = true := by
    decide +kernel
  obtain ⟨t, ht, hd⟩ := (Option.any_eq_true _ _).mp hsome
  exact ⟨t, ht, by decide +kernel, of_decide_eq_true hd⟩

end LogSys

end NeulaCpu.Xv6
