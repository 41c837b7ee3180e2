import NeulaCpu.Lib.Trace
import NeulaCpu.Xv6.Sleep

/-!
# No lost wakeup

A process that has found its condition false holds the spinlock until it holds its own `p->lock`,
and that one until it is `SLEEPING`. A `wakeup` that follows the test holds the spinlock, so it
begins after the process has its own lock, and when it comes to the slot of the process it waits for
that lock and finds the process asleep. Hence a process whose condition has been true since such a
`wakeup` is asleep only as long as the `wakeup` has not come to its slot.
-/

namespace NeulaCpu.Xv6

open Function

namespace SleepPc

variable {κ γ : Type}

/-- A process at this place holds the lock of `k`. -/
def Holds (k : κ) : SleepPc κ γ → Prop
  | .locked k' _ | .sleepAcquire k' _ | .sleepRelease k' _ | .wakeup k' _ | .wakeupLocked k'
    _ | .release k' => k' = k
  | _ => False

/-- A process at this place is in `wakeup` on the channel of `k` and has not passed slot `q` yet. -/
def Reaches (k : κ) (q : Fin nProc) : SleepPc κ γ → Prop
  | .wakeup k' j => k' = k ∧ j ≤ q
  | .wakeupLocked k' j => k' = k ∧ j ≤ q
  | _ => False

/-- A process at this place is in `wakeup`. -/
def InWakeup : SleepPc κ γ → Prop
  | .wakeup .. | .wakeupLocked .. => True
  | _ => False

instance (pc : SleepPc κ γ) : Decidable pc.InWakeup := by
  cases pc <;> first | exact .isTrue trivial | exact .isFalse id

/-- Steps of process `p` that touch no lock and no data. -/
inductive Turn (p : Fin nProc) : SleepPc κ γ → SleepPc κ γ → Prop
  | lock (k : κ) (job : SleepJob γ) : Turn p .idle (.acquire k job)
  | yield (next : Option (κ × SleepJob γ)) (pc : SleepPc κ γ) (h : pc = SleepSys.resume next) :
    Turn p pc (.yieldAcquire next)
  | kill (i : Fin nProc) : Turn p .idle (.killAcquire i)
  | wakeupSelf (k : κ) : Turn p (.wakeup k p) (.wakeup k (p + 1))
  | wakeupEnd (k : κ) (j : ℕ) (h : nProc ≤ j) : Turn p (.wakeup k j) (.release k)

/-- Steps of process `p` that acquire the lock of slot `i`. -/
inductive Takes (p : Fin nProc) : Fin nProc → SleepPc κ γ → SleepPc κ γ → Prop
  | sleep (k : κ) (g : γ) : Takes p p (.sleepAcquire k g) (.sleepRelease k g)
  | wakeup (k : κ) (i : Fin nProc) (h : i ≠ p) : Takes p i (.wakeup k i) (.wakeupLocked k i)
  | yield (next : Option (κ × SleepJob γ)) : Takes p p (.yieldAcquire next) (.yieldSched next)
  | kill (i : Fin nProc) : Takes p i (.killAcquire i) (.killLocked i)

/-- Steps of process `p` that release the lock of slot `i`. -/
inductive Drops (p : Fin nProc) : Fin nProc → SleepPc κ γ → SleepPc κ γ → Prop
  | wakeup (k : κ) (i : Fin nProc) : Drops p i (.wakeupLocked k i) (.wakeup k (i + 1))
  | yield (next : Option (κ × SleepJob γ)) : Drops p p (.yielded next) (SleepSys.resume next)
  | kill (i : Fin nProc) : Drops p i (.killLocked i) .idle

end SleepPc

namespace SleepSys

variable {κ γ χ D : Type} [DecidableEq κ] [DecidableEq χ] {cond : γ → D → Bool}
  {s t : SleepSys κ γ χ D}

omit [DecidableEq κ] in
theorem resume_cases (next : Option (κ × SleepJob γ)) :
    resume next = .idle ∨ ∃ k job, resume next = .acquire k job := by
  cases next with
  | none => exact .inl rfl
  | some n => exact .inr ⟨n.1, n.2, rfl⟩

/-- Everything that a step of process `p` on `c` can do. -/
inductive ProcChange (cond : γ → D → Bool) (s : SleepSys κ γ χ D) (c : χ) (p : Fin nProc) :
    SleepSys κ γ χ D → Prop
  | turn (pc : SleepPc κ γ) (h : (s.pc p).Turn p pc) : ProcChange cond s c p (s.setPc p pc)
  | test (k : κ) (g : γ) (h : s.pc p = .locked k (.await g)) :
    ProcChange cond s c p { s.setPc p (.sleepAcquire k g) with since := update s.since p false }
  | use (k : κ) (g : γ) (d : D) (h : s.pc p = .locked k (.await g)) :
    ProcChange cond s c p ((s.write cond d).setPc p (.release k))
  | update (k : κ) (d : D) (h : s.pc p = .locked k .update) :
    ProcChange cond s c p (((s.write cond d).beginWakeup cond k).setPc p (.wakeup k 0))
  | acquire (k : κ) (job : SleepJob γ) (h : s.pc p = .acquire k job) (hfree : s.lk k = none) :
    ProcChange cond s c p ((s.setLk k (some p)).setPc p (.locked k job))
  | sleepRelease (k : κ) (g : γ) (h : s.pc p = .sleepRelease k g) :
    ProcChange cond s c p ((s.setLk k none).setPc p (.sleepSched k g))
  | release (k : κ) (h : s.pc p = .release k) :
    ProcChange cond s c p ((s.setLk k none).setPc p .idle)
  | take (i : Fin nProc) (pc : SleepPc κ γ) (h : (s.pc p).Takes p i pc) (hfree : s.plock i = none) :
    ProcChange cond s c p ((s.setPlock i (some (.proc p))).setPc p pc)
  | drop (i : Fin nProc) (pc : SleepPc κ γ) (h : (s.pc p).Drops p i pc)
      (hown : s.plock i = some (.proc p))
      (hkeep : ∀ k, s.pc p = .wakeupLocked k i → ¬ (s.state i = .sleeping ∧ s.chan i = some k)) :
    ProcChange cond s c p ((s.setPlock i none).setPc p pc)
  | wake (i : Fin nProc) (pc : SleepPc κ γ) (h : (s.pc p).Drops p i pc)
      (hown : s.plock i = some (.proc p)) (hsleep : s.state i = .sleeping) :
    ProcChange cond s c p (((s.setPlock i none).setPc p pc).wake i)
  | awake (k : κ) (g : γ) (h : s.pc p = .asleep k g) (hown : s.plock p = some (.proc p)) :
    ProcChange cond s c p
      { (s.setPlock p none).setPc p (.acquire k (.await g)) with chan := update s.chan p none }
  | sleepSched (k : κ) (g : γ) (h : s.pc p = .sleepSched k g) (hown : s.plock p = some (.proc p)) :
    ProcChange cond s c p
      { s.sched c p .sleeping (.asleep k g) with chan := update s.chan p (some k) }
  | yieldSched (next : Option (κ × SleepJob γ)) (h : s.pc p = .yieldSched next)
      (hown : s.plock p = some (.proc p)) :
        ProcChange cond s c p (s.sched c p .runnable (.yielded next))

/-- A process does nothing else. -/
theorem ProcChange.of_procStep {c : χ} {p : Fin nProc} {choice : SleepChoice κ γ D}
    (ht : s.procStep cond c p (s.pc p) choice = some t) : s.ProcChange cond c p t := by
  generalize hpc : s.pc p = pc at ht
  unfold procStep at ht
  split at ht
  all_goals (try split_ifs at ht)
  all_goals (try (obtain rfl := Option.some.inj ht))
  · exact .turn _ (hpc ▸ .lock ..)
  · exact .turn _ (hpc ▸ .yield none _ rfl)
  · exact .turn _ (hpc ▸ .kill ..)
  · exact .acquire _ _ hpc ‹_›
  · exact .turn _ (hpc ▸ .yield (some _) _ rfl)
  · exact .use _ _ _ hpc
  · exact .test _ _ hpc
  · exact .update _ _ hpc
  · exact .take _ _ (hpc ▸ .sleep ..) ‹_›
  · exact .sleepRelease _ _ hpc
  · exact .sleepSched _ _ hpc ‹_›
  · exact .awake _ _ hpc ‹_›
  · rename_i hj
    subst hj
    exact .turn _ (hpc ▸ .wakeupSelf _)
  · rename_i hj hne hfree
    exact .take _ _ (hpc ▸ .wakeup _ ⟨_, hj⟩ fun he => hne (congrArg Fin.val he)) hfree
  · exact .turn _ (hpc ▸ .wakeupEnd _ _ (by omega))
  · rename_i hown hwake
    exact .wake _ _ (hpc ▸ .wakeup ..) hown hwake.1
  · rename_i hown hkeep
    refine .drop _ _ (hpc ▸ .wakeup ..) hown fun k hk => ?_
    cases hpc.symm.trans hk
    exact hkeep
  · exact .release _ hpc
  · exact .take _ _ (hpc ▸ .yield ..) ‹_›
  · exact .yieldSched _ hpc ‹_›
  · exact .drop _ _ (hpc ▸ .yield ..) ‹_› fun k hk => nomatch hpc.symm.trans hk
  · exact .take _ _ (hpc ▸ .kill ..) ‹_›
  · rename_i hown hwake
    exact .wake _ _ (hpc ▸ .kill ..) hown hwake
  · exact .drop _ _ (hpc ▸ .kill ..) ‹_› fun k hk => nomatch hpc.symm.trans hk
  · cases ht

namespace ProcChange

variable {c : χ} {p q i : Fin nProc} {k : κ}

section

variable (h : s.ProcChange cond c p t)

include h

/-- A step of one process leaves the others where they are; it can only wake them. -/
theorem frame (hq : q ≠ p) :
    t.pc q = s.pc q ∧ t.chan q = s.chan q ∧
      (t.state q = s.state q ∨ s.state q = .sleeping ∧ t.state q = .runnable) := by
  cases h <;>
    simp only [setPc, setLk, setPlock, SleepSys.write, beginWakeup, SleepSys.wake, sched,
      update_apply] <;>
    grind

theorem cpu_cases (c' : χ) : t.cpu c' = s.cpu c' ∨ c' = c ∧ t.cpu c' = .release p := by
  cases h <;>
    simp only [setPc, setLk, setPlock, SleepSys.write, beginWakeup, SleepSys.wake, sched,
      update_apply] <;>
    grind

/-- A process stops running only in `sched`, and sleeps then only if it comes from `sleep`. -/
theorem state_cases (hst : s.state p = .running) : t.state p = .running ∨ t.cpu c = .release p ∧
      (t.state p = .sleeping → ∃ k g, t.pc p = .asleep k g ∧ t.chan p = some k) := by
  cases h <;>
    simp only [setPc, setLk, setPlock, SleepSys.write, beginWakeup, SleepSys.wake, sched,
      update_apply] <;>
    grind

/-- The lock of `k` changes only with the place of the process that acquires or releases it. -/
theorem lk_cases (k : κ) :
    t.lk k = s.lk k ∧ ((t.pc p).Holds k → (s.pc p).Holds k) ∨ s.lk k = none ∧ t.lk k = some p ∨
      (s.pc p).Holds k ∧ ¬ (t.pc p).Holds k := by
  cases h <;>
    simp only [setPc, setLk, setPlock, SleepSys.write, beginWakeup, SleepSys.wake, sched,
      update_apply] <;>
    grind [SleepPc.Holds, resume_cases, SleepPc.Turn, SleepPc.Takes, SleepPc.Drops]

/-- The lock of slot `i` is acquired when it is free and released by its owner. -/
theorem plock_cases (i : Fin nProc) :
    t.plock i = s.plock i ∨ s.plock i = none ∧ t.plock i = some (.proc p) ∨
      s.plock i = some (.proc p) := by
  cases h <;>
    simp only [setPc, setLk, setPlock, SleepSys.write, beginWakeup, SleepSys.wake, sched,
      update_apply] <;>
    grind

/-- In `sleep` the process keeps its own lock from `acquire(&p->lock)` to `sched`. -/
theorem own_cases {k : κ} {g : γ} (ht : t.pc p = .sleepRelease k g ∨ t.pc p = .sleepSched k g) :
    t.plock p = some (.proc p) ∨ s.pc p = .sleepRelease k g ∧ t.plock p = s.plock p := by
  cases h <;>
    simp only [setPc, setLk, setPlock, SleepSys.write, beginWakeup, SleepSys.wake, sched,
      update_apply] at * <;>
    grind [resume_cases, SleepPc.Turn, SleepPc.Takes, SleepPc.Drops]

/-- The places of `sleep` follow one another, and the test starts a new history. -/
theorem sleep_cases {k : κ} {g : γ} :
    (t.pc p = .sleepAcquire k g → t.since p = false) ∧
      (t.pc p = .sleepRelease k g → s.pc p = .sleepAcquire k g ∧ t.since p = s.since p) ∧
      (t.pc p = .sleepSched k g → s.pc p = .sleepRelease k g ∧ t.since p = s.since p) ∧
      (t.pc p = .asleep k g → s.pc p = .sleepSched k g ∧ t.since p = s.since p) := by
  cases h <;>
    simp only [setPc, setLk, setPlock, SleepSys.write, beginWakeup, SleepSys.wake, sched,
      update_apply] <;>
    grind [resume_cases, SleepPc.Turn, SleepPc.Takes, SleepPc.Drops]

/-- A history begins with a `wakeup` on the channel of the process. -/
theorem since_cases (hq : t.since q = true) : s.since q = true ∨
    ∃ k g, (s.pc q).tested = some (k, g) ∧ s.pc p = .locked k .update ∧ t.pc p = .wakeup k 0 := by
  cases h
  case update k d hpc =>
    simp only [setPc, SleepSys.write, beginWakeup, update_self] at hq ⊢
    cases htest : (s.pc q).tested <;> grind
  case use k g d hpc =>
    simp only [setPc, SleepSys.write] at hq
    cases htest : (s.pc q).tested <;> grind
  case test => grind [setPc, update_apply]
  all_goals exact .inl hq

/-- The loop of `wakeup` passes slot `q` with the lock of the slot, and the process does not sleep
on then. -/
theorem reaches_cases (hq : q ≠ p) (hr : (s.pc p).Reaches k q) :
    (t.pc p).Reaches k q ∨
      s.plock q = some (.proc p) ∧ (t.state q = .sleeping → t.chan q ≠ some k) := by
  cases h <;>
    simp only [setPc, setLk, setPlock, SleepSys.write, beginWakeup, SleepSys.wake, sched,
      update_apply] <;>
    grind [SleepPc.Reaches, resume_cases, SleepPc.Turn, SleepPc.Takes, SleepPc.Drops]

end

end ProcChange

/-- Everything that a step of the scheduler of `c` can do. -/
inductive CpuChange (s : SleepSys κ γ χ D) (c : χ) : SleepSys κ γ χ D → Prop
  | acquire (i : Fin nProc) (h : s.cpu c = .acquire i) (hfree : s.plock i = none) :
    CpuChange s c { s.setPlock i (some (.cpu c)) with cpu := update s.cpu c (.locked i) }
  | dispatch (i : Fin nProc) (h : s.cpu c = .locked i) (hst : s.state i = .runnable) :
    CpuChange s c { s.setPlock i (some (.proc i)) with
      state := update s.state i .running
      cpu := update s.cpu c (.running i) }
  | pass (i : Fin nProc) (h : s.cpu c = .locked i) :
    CpuChange s c { s with cpu := update s.cpu c (.release i) }
  | release (i : Fin nProc) (h : s.cpu c = .release i) (hown : s.plock i = some (.cpu c)) :
    CpuChange s c { s.setPlock i none with cpu := update s.cpu c (.acquire (i + 1)) }

omit [DecidableEq κ] in
theorem CpuChange.of_cpuStep {c : χ} (ht : s.cpuStep c (s.cpu c) = some t) : s.CpuChange c t := by
  generalize hpc : s.cpu c = pc at ht
  unfold cpuStep at ht
  split at ht
  all_goals (try split_ifs at ht)
  all_goals (try (obtain rfl := Option.some.inj ht))
  · exact .acquire _ hpc ‹_›
  · exact .dispatch _ hpc ‹_›
  · exact .pass _ hpc
  · cases ht
  · exact .release _ hpc ‹_›

/-! ## Invariants -/

/-- Who runs, who sleeps and who holds which lock. -/
structure LockInv (s : SleepSys κ γ χ D) : Prop where
  running : ∀ c p, s.cpu c = .running p → s.state p = .running
  cpu_inj : ∀ c c' p, s.cpu c = .running p → s.cpu c' = .running p → c = c'
  cpu_lock : ∀ c i, s.cpu c = .locked i → s.plock i = some (.cpu c)
  sleeping : ∀ q, s.state q = .sleeping → ∃ k g, s.pc q = .asleep k g ∧ s.chan q = some k
  lk : ∀ q k, (s.pc q).Holds k → s.lk k = some q
  own : ∀ q k g, s.pc q = .sleepRelease k g ∨ s.pc q = .sleepSched k g → s.plock q = some (.proc q)

omit [DecidableEq κ] in
theorem LockInv.cpuChange {c : χ} (h : s.LockInv) (hc : s.CpuChange c t) : t.LockInv := by
  obtain ⟨h1, h2, h3, h4, h5, h6⟩ := h
  cases hc
  all_goals constructor <;> simp only [setPlock, update_apply] <;> grind

/-- A step of a process keeps each lock with its owner. -/
theorem LockInv.procChange {c : χ} {p : Fin nProc} (h : s.LockInv) (hrun : s.cpu c = .running p)
    (hc : s.ProcChange cond c p t) : t.LockInv := by
  have hst : s.state p = .running := h.running c p hrun
  have hself := hc.state_cases hst
  constructor
  case running =>
    intro c' q hq
    rcases eq_or_ne q p with rfl | hne
    · have := h.cpu_inj c c' q hrun
      grind [hc.cpu_cases c']
    · have := h.running c' q
      grind [hc.frame hne, hc.cpu_cases c']
  case cpu_inj =>
    intro c₁ c₂ q h₁ h₂
    exact h.cpu_inj c₁ c₂ q (by grind [hc.cpu_cases c₁]) (by grind [hc.cpu_cases c₂])
  case cpu_lock =>
    intro c' i hi
    have := h.cpu_lock c' i
    grind [hc.plock_cases i, hc.cpu_cases c']
  case sleeping =>
    intro q hq
    rcases eq_or_ne q p with rfl | hne
    · grind
    · obtain ⟨hpc, hchan, hstate⟩ := hc.frame hne
      rw [hpc, hchan]
      exact h.sleeping q (by grind)
  case lk =>
    intro q k hq
    rcases eq_or_ne q p with rfl | hne
    · grind [hc.lk_cases k, h.lk q k]
    · rw [(hc.frame hne).1] at hq
      have := h.lk q k hq
      grind [hc.lk_cases k, h.lk p k]
  case own =>
    intro q k g hq
    rcases eq_or_ne q p with rfl | hne
    · rcases hc.own_cases hq with hown | ⟨hpc, hown⟩
      · exact hown
      · exact hown.trans (h.own q k g (.inl hpc))
    · rw [(hc.frame hne).1] at hq
      have := h.own q k g hq
      grind [hc.plock_cases q]

/-- A `wakeup` on the channel of a process begins after the process has its own lock, and a process
whose condition has been true since such a `wakeup` is about to be woken by one. -/
structure WakeInv (s : SleepSys κ γ χ D) : Prop where
  fresh : ∀ q k g, s.pc q = .sleepAcquire k g ∨ s.pc q = .sleepRelease k g → s.since q = false
  pending : ∀ q k g, s.since q = true →
    s.pc q = .sleepSched k g ∨ s.pc q = .asleep k g ∧ s.state q = .sleeping →
    ∃ w, (s.pc w).Reaches k q

omit [DecidableEq κ] in
theorem WakeInv.cpuChange {c : χ} (h : s.WakeInv) (hc : s.CpuChange c t) : t.WakeInv := by
  obtain ⟨hpc, hsince, hstate⟩ : t.pc = s.pc ∧ t.since = s.since ∧
      ∀ q, t.state q = .sleeping → s.state q = .sleeping := by
    cases hc <;> simp only [setPlock, update_apply] <;> grind
  constructor
  case fresh => rw [hpc, hsince]; exact h.fresh
  case pending =>
    rw [hpc, hsince]
    exact fun q k g hq hs => h.pending q k g hq (hs.imp_right (And.imp_right (hstate q)))

/-- No step of a process loses a wakeup. -/
theorem WakeInv.procChange {c : χ} {p : Fin nProc} (h : s.WakeInv) (hl : s.LockInv)
    (hc : s.ProcChange cond c p t) : t.WakeInv := by
  constructor
  case fresh =>
    intro q k g hq
    rcases eq_or_ne q p with rfl | hne
    · have := h.fresh q k g
      grind [hc.sleep_cases (k := k) (g := g)]
    · rw [(hc.frame hne).1] at hq
      refine Bool.eq_false_iff.mpr fun ht => ?_
      rcases hc.since_cases ht with hs | ⟨k', g', htest, hp, -⟩
      · exact absurd hs (Bool.eq_false_iff.mp (h.fresh q k g hq))
      · -- both processes would hold the lock of `k`
        have hlk := hl.lk q k (by grind [SleepPc.Holds])
        have hlk' := hl.lk p k (by grind [SleepPc.Holds, SleepPc.tested])
        grind
  case pending =>
    intro q k g hq hs
    rcases eq_or_ne q p with rfl | hne
    · obtain ⟨-, -, hsched, hasleep⟩ := hc.sleep_cases (k := k) (g := g)
      rcases hs with hs | ⟨hs, -⟩
      · have := h.fresh q k g (.inr (hsched hs).1)
        grind
      · have hpc := (hasleep hs).1
        obtain ⟨w, hw⟩ := h.pending q k g ((hasleep hs).2 ▸ hq) (.inl hpc)
        have hwq : w ≠ q := by rintro rfl; simp [hpc, SleepPc.Reaches] at hw
        exact ⟨w, (hc.frame hwq).1 ▸ hw⟩
    · obtain ⟨hpc, hchan, hstate⟩ := hc.frame hne
      rw [hpc] at hs
      rcases hc.since_cases hq with hold | ⟨k', g', htest, -, hp⟩
      · have hs' : s.pc q = .sleepSched k g ∨ s.pc q = .asleep k g ∧ s.state q = .sleeping := by
          grind
        obtain ⟨w, hw⟩ := h.pending q k g hold hs'
        rcases eq_or_ne w p with rfl | hwp
        · rcases hc.reaches_cases hne hw with hw' | ⟨hown, hnot⟩
          · exact ⟨w, hw'⟩
          · rcases hs with hs | ⟨hs, hsl⟩
            · have := hl.own q k g (.inr hs)
              grind
            · have := hl.sleeping q (by grind)
              grind
        · exact ⟨w, (hc.frame hwp).1 ▸ hw⟩
      · refine ⟨p, ?_⟩
        have hk : k' = k := by grind [SleepPc.tested]
        rw [hp, hk]
        exact ⟨rfl, Nat.zero_le _⟩

/-! ## Every run -/

structure Inv (s : SleepSys κ γ χ D) : Prop where
  locks : s.LockInv
  wakes : s.WakeInv

omit [DecidableEq κ] [DecidableEq χ] in
theorem inv_init (ready : Fin nProc → Bool) (data : D) :
    (init ready data : SleepSys κ γ χ D).Inv where
  locks := by constructor <;> grind [init, SleepPc.Holds]
  wakes := by constructor <;> grind [init]

theorem Inv.step {e : SleepEvent κ γ χ D} (h : s.Inv) (ht : s.step cond e = some t) : t.Inv := by
  cases e with
  | scheduler c =>
    have hc := CpuChange.of_cpuStep ht
    exact ⟨h.locks.cpuChange hc, h.wakes.cpuChange hc⟩
  | proc c choice =>
    simp only [SleepSys.step] at ht
    split at ht
    · rename_i p hrun
      have hc := ProcChange.of_procStep ht
      exact ⟨h.locks.procChange hrun hc, h.wakes.procChange h.locks hc⟩
    · cases ht

/-- No process holds the lock of `k` or any `p->lock`, and no `wakeup` is in progress. -/
structure Quiet (k : κ) (s : SleepSys κ γ χ D) : Prop where
  lk : s.lk k = none
  plock : ∀ i, s.plock i = none
  wakeup : ∀ w, ¬ (s.pc w).InWakeup

/-- In every interleaving: when nothing is in progress, no process sleeps on the channel of `k`
although the condition that it tested has been true since a `wakeup` on the channel that followed
its test. -/
theorem no_lost_wakeup (cond : γ → D → Bool) (ready : Fin nProc → Bool) (data : D)
    (es : List (SleepEvent κ γ χ D)) (run : Trace.exec (step cond) (init ready data) es = some s)
    (k : κ) (quiet : s.Quiet k) (q : Fin nProc) :
    ¬ (s.state q = .sleeping ∧ s.chan q = some k ∧ s.since q = true) := by
  have hinv : s.Inv := Trace.always (fun _ _ _ h => h.step) (inv_init ready data) run
  rintro ⟨hstate, hchan, hsince⟩
  obtain ⟨k', g, hpc, hk'⟩ := hinv.locks.sleeping q hstate
  obtain rfl : k' = k := Option.some.inj (hk'.symm.trans hchan)
  obtain ⟨w, hw⟩ := hinv.wakes.pending q k' g hsince (.inr ⟨hpc, hstate⟩)
  refine quiet.wakeup w ?_
  cases hw' : s.pc w <;> simp_all [SleepPc.Reaches, SleepPc.InWakeup]

/-- On two CPUs, process 0 finds the condition false and sleeps; process 1 makes it true and wakes
it up. -/
def sleepThenWakeup : List (SleepEvent Unit Unit Bool Bool) :=
  [.scheduler false, .scheduler false, .proc false .go,
    .scheduler true, .scheduler true, .scheduler true, .scheduler true, .scheduler true,
      .proc true .go,
    .proc true (.lock () .update), .proc false (.lock () (.await ()))] ++
  List.replicate 5 (.proc false .go) ++ [.proc true .go, .scheduler false,
    .proc true (.write true)] ++
  List.replicate 129 (.proc true .go)

theorem no_lost_wakeup_sleepThenWakeup :
    ∃ s : SleepSys Unit Unit Bool Bool,
      Trace.exec (step fun _ d => d) (init (fun _ => true) false) sleepThenWakeup = some s ∧
      s.Quiet () ∧ s.since 0 = true ∧
      ∀ q, ¬ (s.state q = .sleeping ∧ s.chan q = some () ∧ s.since q = true) := by
  have hsome : ((Trace.exec (step fun _ d => d) (init (fun _ => true) false) sleepThenWakeup).any
      fun s => decide (s.lk () = none ∧ (∀ i, s.plock i = none) ∧ (∀ w, ¬ (s.pc w).InWakeup) ∧
        s.since 0 = true)) = true := by
    decide +kernel
  obtain ⟨s, hs, hq⟩ := (Option.any_eq_true _ _).mp hsome
  obtain ⟨hlk, hplock, hwakeup, hsince⟩ := of_decide_eq_true hq
  have quiet : s.Quiet () := ⟨hlk, hplock, hwakeup⟩
  exact ⟨s, hs, quiet, hsince, no_lost_wakeup _ _ _ sleepThenWakeup hs () quiet⟩

end SleepSys

end NeulaCpu.Xv6
