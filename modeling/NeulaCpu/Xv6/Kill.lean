import NeulaCpu.Xv6.Proc

/-!
# Killing a process

`kill` looks for a pid and does not look at the state. The slots that are not in use have pid 0, so
the search for pid 0 finds one of them, and what it leaves there is what the next process in the
slot starts with. For any other pid `kill` acts on a process or does nothing.

`kill` is the call as a whole. It is the steps of `Procs.step` when nothing comes between them
(`exec_kill`); the runs are those of `Procs.step`, where each slot is looked at in a step of its
own.
-/

namespace NeulaCpu.Xv6

open Function

/-- What `kill` does to the process that it finds. -/
def Proc.hit (x : Proc) : Proc :=
  let x := { x with killed := true }
  if x.state = .sleeping then { x with state := .runnable } else x

theorem Proc.hit_state_eq_unused {x : Proc} : x.hit.state = .unused ↔ x.state = .unused := by
  unfold hit
  dsimp only
  split
  · rename_i h
    simp [h]
  · rfl

theorem Proc.hit_pid (x : Proc) : x.hit.pid = x.pid := by
  unfold hit
  dsimp only
  split <;> rfl

theorem Proc.hit_killed (x : Proc) : x.hit.killed = true := by
  unfold hit
  dsimp only
  split <;> rfl

theorem Proc.hit_setPc (x : Proc) (pc : ProcPc) :
    Proc.hit { x with pc := pc } = { x.hit with pc := pc } := by
  unfold hit
  dsimp only
  split <;> rfl

namespace Procs

variable {s t : Procs} {p i : Fin nProc} {pid : BitVec 32}

/-- The loop of `kill`: the slot where it ends, if the pid is found. -/
def killLoop (pid : BitVec 32) (s : Procs) : List (Fin nProc) → Option (Fin nProc) × Procs
  | [] => (none, s)
  | i :: rest => if (s.proc i).pid = pid then (some i,
    s.set i (s.proc i).hit) else killLoop pid s rest

/-- `kill`: the slot of the process that was found, where the return value is 0, or -1, and the
table. -/
def kill (s : Procs) (pid : BitVec 32) : Option (Fin nProc) × Procs :=
  killLoop pid s (List.finRange nProc)

theorem killScan_eq (s : Procs) (p : Fin nProc) (pid : BitVec 32) (i : Fin nProc) :
    s.killScan p pid i = if (s.proc i).pid = pid then (s.set i (s.proc i).hit).setPc p .idle
    else s.setPc p ((nextSlot i).elim .idle (.kill pid)) := rfl

/-! ## A call that is not interrupted -/

theorem setPc_setPc (s : Procs) (p : Fin nProc) (pc pc' : ProcPc) :
    (s.setPc p pc).setPc p pc' = s.setPc p pc' := by
  simp only [setPc, set, update_idem, update_self]

theorem setPc_eq_self {pc : ProcPc} (h : (s.proc p).pc = pc) : s.setPc p pc = s := by
  subst h
  simp only [setPc, set, update_eq_self]

theorem proc_setPc (s : Procs) (p i : Fin nProc) (pc : ProcPc) :
    (s.setPc p pc).proc i = { s.proc i with pc := if i = p then pc else (s.proc i).pc } := by
  simp only [setPc, set, update_apply]
  split_ifs with h
  · rw [h]
  · rfl

/-- The place of the caller in the kernel does not matter to the process that is found. -/
theorem set_hit_setPc (hp : (s.proc p).pc = .idle) (pc : ProcPc) :
    ((s.setPc p pc).set i ((s.setPc p pc).proc i).hit).setPc p .idle = s.set i (s.proc i).hit := by
  have hproc : (((s.setPc p pc).set i ((s.setPc p pc).proc i).hit).setPc p .idle).proc =
      (s.set i (s.proc i).hit).proc := by
    funext j
    have hpc : (s.proc i).hit.pc = (s.proc i).pc := by
      unfold Proc.hit
      dsimp only
      split <;> rfl
    rw [proc_setPc, proc_setPc, Proc.hit_setPc]
    by_cases hji : j = i
    · subst hji
      simp only [set, update_self]
      by_cases hjp : j = p
      · subst hjp
        rw [if_pos rfl, ← hp, ← hpc]
      · rw [if_neg hjp, if_neg hjp, ← hpc]
    · simp only [set, update_of_ne hji, proc_setPc]
      by_cases hjp : j = p
      · subst hjp
        rw [if_pos rfl, ← hp]
      · rw [if_neg hjp, if_neg hjp]
  calc ((s.setPc p pc).set i ((s.setPc p pc).proc i).hit).setPc p .idle
      = { s with proc := (((s.setPc p pc).set i ((s.setPc p pc).proc i).hit).setPc p
        .idle).proc } := rfl
    _ = s.set i (s.proc i).hit := by rw [hproc]; rfl

theorem drop_finRange (i : Fin nProc) :
    (List.finRange nProc).drop i = i :: (List.finRange nProc).drop (i + 1) := by
  rw [List.drop_eq_getElem_cons (by rw [List.length_finRange]; exact i.isLt), List.getElem_finRange]
  rfl

theorem step_killScan (hrun : (s.proc p).state = .running) (hpc : (s.proc p).pc = .kill pid i) :
    s.step (.killScan p) = some (s.killScan p pid i) := by
  simp only [step, hrun, hpc]

/-- The search from slot `i` on. -/
theorem exec_killScan (hp : s.At p .idle) (pid : BitVec 32) (i : Fin nProc) :
    ∃ n, Trace.exec step (s.setPc p (.kill pid i)) (List.replicate n (.killScan p)) =
      some (killLoop pid s ((List.finRange nProc).drop i)).2 := by
  have hpid : ((s.setPc p (.kill pid i)).proc i).pid = (s.proc i).pid := by rw [proc_setPc]
  have hstep : (s.setPc p (.kill pid i)).step (.killScan p) =
      some ((s.setPc p (.kill pid i)).killScan p pid i) := by
    refine step_killScan ?_ ?_
    · rw [proc_setPc]
      exact hp.1
    · rw [proc_setPc, if_pos rfl]
  rw [killScan_eq, hpid, setPc_setPc, set_hit_setPc hp.2] at hstep
  rw [drop_finRange, killLoop]
  by_cases hfound : (s.proc i).pid = pid
  · rw [if_pos hfound] at hstep ⊢
    exact ⟨1, by rw [List.replicate_one, Trace.exec_cons, hstep]; rfl⟩
  · rw [if_neg hfound] at hstep ⊢
    unfold nextSlot at hstep
    split_ifs at hstep with hnext
    · obtain ⟨n, hn⟩ := exec_killScan hp pid ⟨i + 1, hnext⟩
      refine ⟨n + 1, ?_⟩
      rw [List.replicate_succ, Trace.exec_cons, hstep]
      exact hn
    · refine ⟨1, ?_⟩
      have hend : (List.finRange nProc).drop (i + 1) = [] := by
        rw [List.drop_eq_nil_iff, List.length_finRange]
        omega
      rw [List.replicate_one, Trace.exec_cons, hstep, hend]
      exact congrArg some (setPc_eq_self hp.2)
termination_by nProc - i

/-- `kill` is what the steps of a call do when no other process runs in between. -/
theorem exec_kill (hp : s.At p .idle) (pid : BitVec 32) :
    ∃ n, Trace.exec step s (.kill p pid :: List.replicate n (.killScan p)) =
      some (s.kill pid).2 := by
  obtain ⟨n, hn⟩ := exec_killScan hp pid 0
  refine ⟨n, ?_⟩
  rw [Trace.exec_cons, step, if_pos hp]
  exact hn

/-! ## The slots that are not in use -/

/-- What the slots that are not in use hold. -/
def Unused (P : BitVec 32 → Bool → Prop) (s : Procs) : Prop :=
  ∀ i, (s.proc i).state = .unused → P (s.proc i).pid (s.proc i).killed

section Unused

variable {P : BitVec 32 → Bool → Prop}

section

variable (h : Unused P s)

include h

theorem Unused.set {x : Proc} (hx : x.state = .unused → P x.pid x.killed) :
    Unused P (s.set i x) := by
  intro j
  simp only [Procs.set, update_apply]
  split_ifs with hj
  · exact hx
  · exact h j

theorem Unused.setPc (p : Fin nProc) (pc : ProcPc) : Unused P (s.setPc p pc) := h.set (h p)

theorem Unused.wakeup (p : Fin nProc) (chan : Chan) : Unused P (s.wakeup p chan) := by
  intro j
  unfold Procs.wakeup
  dsimp only
  split
  · exact fun hj => ProcState.noConfusion hj
  · exact h j

theorem Unused.reparent (p : Fin nProc) : Unused P (s.reparent p) := by
  have hround (s : Procs) (pp : Fin nProc) (h : Unused P s) : Unused P (reparentRound p s pp) := by
    unfold reparentRound
    split_ifs
    · exact (h.set (i := pp) (x := { s.proc pp with parent := some initproc }) (h pp)).wakeup p _
    · exact h
  unfold Procs.reparent
  generalize List.finRange nProc = l
  induction l generalizing s with
  | nil => exact h
  | cons pp l ih => exact ih (hround s pp h)

theorem Unused.wakeParent (p : Fin nProc) : Unused P (s.wakeParent p) := by
  unfold Procs.wakeParent
  cases (s.proc p).parent with
  | none => exact h
  | some q => exact h.wakeup p _

theorem Unused.setZombie (p : Fin nProc) (status : BitVec 32) : Unused P (s.setZombie p status) :=
  h.set (i := p) (x := { s.proc p with xstate := status, state := .zombie }) fun hz =>
    ProcState.noConfusion hz

theorem Unused.exit (p : Fin nProc) (status : BitVec 32) : Unused P (s.exit p status) :=
  ((h.reparent p).wakeParent p).setZombie p status

theorem Unused.scan (hfree : P 0 false) (p : Fin nProc) (addr copyout : Bool) :
    Unused P (s.scan p addr copyout) := by
  unfold Procs.scan
  split
  · split_ifs
    · exact h.setPc p _
    · exact (h.set fun _ => hfree).setPc p _
  · split_ifs
    · exact h.setPc p _
    · exact h.setPc p _
    · exact h.set fun hs => ProcState.noConfusion hs

theorem Unused.allocproc (hfree : P 0 false) (p i : Fin nProc) (ok : Bool) :
    Unused P (s.allocproc p i ok) := by
  have ht : Unused P { s with nextpid := s.nextpid + 1 } := h
  unfold Procs.allocproc
  split_ifs
  · exact (ht.set fun hs => ProcState.noConfusion hs).setPc p _
  · exact (ht.set fun _ => hfree).setPc p _
  · exact h.setPc p _

theorem Unused.killScan (hkill : (s.proc i).state = .unused → (s.proc i).pid = pid → P pid true) :
    Unused P (s.killScan p pid i) := by
  rw [killScan_eq]
  split_ifs with hfound
  · refine (h.set fun hs => ?_).setPc p _
    rw [Proc.hit_pid, Proc.hit_killed, hfound]
    exact hkill (Proc.hit_state_eq_unused.mp hs) hfound
  · exact h.setPc p _

/-- A step keeps what the slots not in use hold, if a freed slot holds it and `kill` does not put
anything else there. -/
theorem Unused.step {e : ProcEvent} (hfree : P 0 false)
    (hkill : ∀ p pid i, e = .killScan p → (s.proc p).pc = .kill pid i → (s.proc i).state = .unused →
      (s.proc i).pid = pid → P pid true)
    (ht : s.step e = some t) : Unused P t := by
  cases e with
  | scheduler p | yield p | wakeup p | sleep p _ =>
    obtain ⟨_, ht⟩ := Option.ite_none_right_eq_some.mp ht
    obtain rfl := Option.some.inj ht
    exact h.set fun hs => ProcState.noConfusion hs
  | fork p | wait p _ | kill p _ =>
    obtain ⟨_, ht⟩ := Option.ite_none_right_eq_some.mp ht
    obtain rfl := Option.some.inj ht
    exact h.setPc p _
  | allocproc p ok =>
    simp only [Procs.step] at ht
    split at ht
    · obtain rfl := Option.some.inj ht
      exact h.allocproc hfree p _ ok
    · cases ht
  | setParent p =>
    simp only [Procs.step] at ht
    split at ht
    · rename_i np _ _
      obtain rfl := Option.some.inj ht
      exact (h.set (i := np) (x := { s.proc np with parent := some p }) (h np)).setPc p
        (.setRunnable np)
    · cases ht
  | setRunnable p =>
    simp only [Procs.step] at ht
    split at ht
    · obtain rfl := Option.some.inj ht
      exact (h.set fun hs => ProcState.noConfusion hs).setPc p _
    · cases ht
  | exit p status =>
    obtain ⟨_, ht⟩ := Option.ite_none_right_eq_some.mp ht
    obtain rfl := Option.some.inj ht
    exact h.exit p status
  | scan p copyout =>
    simp only [Procs.step] at ht
    split at ht
    · obtain rfl := Option.some.inj ht
      exact h.scan hfree p _ copyout
    · cases ht
  | killScan p =>
    simp only [Procs.step] at ht
    split at ht
    · rename_i pid i _ hpc
      obtain rfl := Option.some.inj ht
      exact h.killScan fun hs hfound => hkill p pid i rfl hpc hs hfound
    · cases ht

end

theorem Unused.init (hfree : P 0 false) : Unused P init := by
  intro i
  unfold Procs.init
  dsimp only
  split
  · exact fun hs => ProcState.noConfusion hs
  · exact fun _ => hfree

end Unused

/-! ## What kill finds -/

/-- A process in slot `i` has the pid. -/
def Lives (s : Procs) (pid : BitVec 32) (i : Fin nProc) : Prop :=
  (s.proc i).state ≠ .unused ∧ (s.proc i).pid = pid

instance (s : Procs) (pid : BitVec 32) (i : Fin nProc) : Decidable (s.Lives pid i) :=
  inferInstanceAs (Decidable (_ ∧ _))

/-- `kill` returns 0 if and only if a process has the pid, then it acts on a process with the pid
alone, and otherwise it changes nothing. -/
structure KillLaw (s : Procs) (pid : BitVec 32) : Prop where
  found : (s.kill pid).1.isSome = true ↔ ∃ i, s.Lives pid i
  acts : ∀ i, (s.kill pid).1 = some i → s.Lives pid i ∧ (s.kill pid).2 = s.set i (s.proc i).hit
  fails : (s.kill pid).1 = none → (s.kill pid).2 = s

/-- The pid is not 0, or a process with pid 0 comes before all slots that are not in use. -/
def Aimed (s : Procs) (pid : BitVec 32) : Prop :=
  pid ≠ 0 ∨ ∀ i, (s.proc i).state = .unused → ∃ j < i, s.Lives 0 j

theorem killLoop_cases (pid : BitVec 32) (s : Procs) (l : List (Fin nProc)) :
    (killLoop pid s l = (none, s) ∧ ∀ i ∈ l, (s.proc i).pid ≠ pid) ∨
      ∃ before i rest, l = before ++ i :: rest ∧ (∀ j ∈ before, (s.proc j).pid ≠ pid) ∧
        (s.proc i).pid = pid ∧ killLoop pid s l = (some i, s.set i (s.proc i).hit) := by
  induction l with
  | nil => exact .inl ⟨rfl, fun i hi => absurd hi List.not_mem_nil⟩
  | cons i l ih =>
    rw [killLoop]
    by_cases hfound : (s.proc i).pid = pid
    · rw [if_pos hfound]
      exact .inr ⟨[], i, l, rfl, fun j hj => absurd hj List.not_mem_nil, hfound, rfl⟩
    · rw [if_neg hfound]
      rcases ih with ⟨heq, hnone⟩ | ⟨before, j, rest, rfl, hbefore, hj, heq⟩
      · exact .inl ⟨heq, fun k hk => (List.mem_cons.mp hk).elim (fun h => h ▸ hfound) (hnone k)⟩
      · exact .inr ⟨i :: before, j, rest, rfl,
          fun k hk => (List.mem_cons.mp hk).elim (fun h => h ▸ hfound) (hbefore k), hj, heq⟩

/-- `kill` finds the first slot with the pid. -/
theorem kill_cases (pid : BitVec 32) (s : Procs) :
      (s.kill pid = (none, s) ∧ ∀ i, (s.proc i).pid ≠ pid) ∨ ∃ i, (∀ j < i, (s.proc j).pid ≠ pid) ∧
        (s.proc i).pid = pid ∧ s.kill pid = (some i, s.set i (s.proc i).hit) := by
  rcases killLoop_cases pid s (List.finRange nProc)
    with ⟨heq, hnone⟩ | ⟨before, i, rest, hl, hbefore, hi, heq⟩
  · exact .inl ⟨heq, fun i => hnone i (List.mem_finRange i)⟩
  · refine .inr ⟨i, fun j hj => hbefore j ?_, hi, heq⟩
    -- the slots are in order, so a smaller one is before
    have hsorted := List.pairwise_lt_finRange nProc
    rw [hl, List.pairwise_append, List.pairwise_cons] at hsorted
    have hmem := List.mem_finRange j
    rw [hl, List.mem_append, List.mem_cons] at hmem
    rcases hmem with hmem | rfl | hmem
    · exact hmem
    · exact absurd hj (lt_irrefl _)
    · exact absurd (hsorted.2.1.1 j hmem) (not_lt_of_gt hj)

theorem killLaw_iff (h : Unused (fun pid _ => pid = 0) s) (pid : BitVec 32) :
    KillLaw s pid ↔ Aimed s pid := by
  rcases kill_cases pid s with ⟨heq, hnone⟩ | ⟨i, hbefore, hi, heq⟩
  · refine iff_of_true ⟨?_, ?_, fun _ => by rw [heq]⟩ ?_
    · rw [heq]
      refine iff_of_false Bool.false_ne_true ?_
      rintro ⟨i, _, hi⟩
      exact hnone i hi
    · rw [heq]
      exact fun i hi => absurd hi.symm (Option.some_ne_none i)
    · by_cases hpid : pid = 0
      · subst hpid
        exact .inr fun i hs => absurd (h i hs) (hnone i)
      · exact .inl hpid
  · by_cases hs : (s.proc i).state = .unused
    · have hpid : pid = 0 := hi.symm.trans (h i hs)
      subst hpid
      refine iff_of_false (fun law => ?_) ?_
      · exact (law.acts i (by rw [heq])).1.1 hs
      · rintro (hne | haimed)
        · exact hne rfl
        · obtain ⟨j, hj, _, hlives⟩ := haimed i hs
          exact hbefore j hj hlives
    · refine iff_of_true ⟨?_, fun j hj => ?_, fun hnone => ?_⟩ ?_
      · rw [heq]
        exact iff_of_true rfl ⟨i, hs, hi⟩
      · rw [heq] at hj ⊢
        obtain rfl := Option.some.inj hj
        exact ⟨⟨hs, hi⟩, rfl⟩
      · rw [heq] at hnone
        exact absurd hnone (Option.some_ne_none i)
      · by_cases hpid : pid = 0
        · subst hpid
          refine .inr fun j hj => ⟨i, ?_, hs, hi⟩
          rcases lt_trichotomy i j with hlt | rfl | hgt
          · exact hlt
          · exact absurd hj hs
          · exact absurd (h j hj) (hbefore j hgt)
        · exact .inl hpid

/-- A search for pid 0 does not look at a slot that is not in use. -/
def AimedStep (s : Procs) : ProcEvent → Prop
  | .killScan p => ∀ i, (s.proc p).pc = .kill 0 i → (s.proc i).state ≠ .unused
  | _ => True

instance (s : Procs) (e : ProcEvent) : Decidable (s.AimedStep e) :=
  match e with
  | .killScan p => inferInstanceAs (Decidable (∀ i, (s.proc p).pc = .kill 0 i →
    (s.proc i).state ≠ .unused))
  | .scheduler _ | .yield _ | .sleep _ _ | .wakeup _ | .fork _ | .allocproc _ _ | .setParent
    _ | .setRunnable _
  | .exit _ _ | .wait _ _ | .scan _ _ | .kill _ _ => .isTrue trivial

/-- A slot that `allocproc` takes. -/
def Born (s t : Procs) (i : Fin nProc) : Prop :=
  (s.proc i).state = .unused ∧ (t.proc i).state = .used

instance (s t : Procs) (i : Fin nProc) : Decidable (Born s t i) :=
  inferInstanceAs (Decidable (_ ∧ _))

theorem killed_of_born {ok : Bool} (h : Unused (fun _ killed => killed = false) s)
    (ht : s.step (.allocproc p ok) = some t) (hborn : Born s t i) : (t.proc i).killed = false := by
  have hkilled := h i hborn.1
  simp only [step] at ht
  split at ht
  · rename_i j hp hpc
    obtain rfl := Option.some.inj ht
    unfold Procs.allocproc
    split_ifs with hj hok
    · rw [proc_setPc]
      simp only [set, update_apply]
      split_ifs with hij
      · exact hij ▸ hkilled
      · exact hkilled
    · rw [proc_setPc]
      simp only [set, update_apply]
      split_ifs
      · rfl
      · exact hkilled
    · rw [proc_setPc]
      exact hkilled
  · cases ht

/-- For every table that a run reaches and every pid, `kill` acts on a process with the pid and
nothing else, if and only if the pid is not 0 or no slot that is not in use is found for it. In
every run in which no search for pid 0 looks at a slot that is not in use, a process that
`allocproc` returns is not killed. -/
theorem kill_acts_on_processes (es : List ProcEvent) (run : Trace.exec step init es = some s) :
    (∀ pid, KillLaw s pid ↔ Aimed s pid) ∧
      (Trace.Meets step AimedStep init es →
        ∀ p ok t i, s.step (.allocproc p ok) = some t → Born s t i →
          (t.proc i).killed = false) := by
  have hpid : Unused (fun pid _ => pid = 0) s := by
    refine Trace.always (fun s e t h ht => ?_) (Unused.init rfl) run
    exact h.step rfl (fun _ _ i _ _ hs hi => hi ▸ h i hs) ht
  refine ⟨fun pid => killLaw_iff hpid pid, fun meets p ok t i ht hborn => ?_⟩
  have hkilled : Unused (fun pid killed => pid = 0 ∧ killed = false) s := by
    refine Trace.invariant (fun s e t h haimed ht => ?_) (Unused.init ⟨rfl, rfl⟩) meets run
    refine h.step ⟨rfl, rfl⟩ (fun p pid i he hpc hs hi => ?_) ht
    subst he
    rw [(h i hs).1] at hi
    subst hi
    exact absurd hs (haimed i hpc)
  exact killed_of_born (fun i hs => (hkilled i hs).2) ht hborn

/-- The first process calls `kill(0)`, which looks at two slots, and then `fork`. -/
def killZeroThenFork : List ProcEvent :=
  [.scheduler 0, .kill 0 0, .killScan 0, .killScan 0, .fork 0, .allocproc 0 true]

/-- The first process calls `kill(1)`, which finds itself, and then `fork`. -/
def killFirstThenFork : List ProcEvent :=
  [.scheduler 0, .kill 0 1, .killScan 0, .fork 0, .allocproc 0 true]

/-- `kill(0)` returns 0 although no process has pid 0: it marks slot 1, and the process that `fork`
makes there is killed from the start. -/
theorem kill_zero_marks_free_slot : ((Trace.exec step init [.scheduler 0]).any fun s =>
      (s.kill 0).1 = some 1 ∧ (s.proc 1).state = .unused ∧ ∀ i, ¬ s.Lives 0 i) = true ∧
    ((Trace.exec step init killZeroThenFork).any fun s =>
      (s.step (.allocproc 0 true)).any fun t => Born s t 1 ∧ (t.proc 1).killed = true) = true := by
  decide +kernel

/-- A kill of pid 1, the first process itself, and then a fork. -/
theorem kill_acts_on_processes_sample :
    ∃ s t, Trace.exec step init killFirstThenFork = some s ∧
      Trace.Meets step AimedStep init killFirstThenFork ∧ KillLaw s 1 ∧
      s.step (.allocproc 0 true) = some t ∧ Born s t 1 ∧ (t.proc 1).killed = false := by
  have hrun : ((Trace.exec step init killFirstThenFork).any fun s =>
      (s.step (.allocproc 0 true)).any fun t => Born s t 1) = true := by decide +kernel
  have hmeets : Trace.Meets step AimedStep init killFirstThenFork := by decide +kernel
  obtain ⟨s, hs, hnext⟩ := (Option.any_eq_true _ _).mp hrun
  obtain ⟨t, ht, hborn⟩ := (Option.any_eq_true _ _).mp hnext
  obtain ⟨hlaw, hclean⟩ := kill_acts_on_processes killFirstThenFork hs
  have hborn := of_decide_eq_true hborn
  exact ⟨s, t, hs, hmeets, (hlaw 1).mpr (.inl (by decide)), ht, hborn,
    hclean hmeets 0 true t 1 ht hborn⟩

end Procs

end NeulaCpu.Xv6
