import Mathlib.Data.BitVec
import NeulaCpu.Lib.Family
import NeulaCpu.Xv6.Proc

/-!
# The life of processes

The process table is a family: its steps are steps of the family with root `initproc`, or steps that
the family does not see (scheduling, sleeping, killing, the searches through the table).
-/

namespace NeulaCpu.Xv6

open Function

/-! ## The family in the table -/

def ProcState.phase : ProcState → Family.Phase
  | .unused => .free
  | .used => .made
  | .sleeping | .runnable | .running => .live
  | .zombie => .zombie

def ProcPc.making : ProcPc → Option (Fin nProc × Bool)
  | .setParent np => some (np, false)
  | .setRunnable np => some (np, true)
  | .idle | .allocproc _ | .wait _ | .kill _ _ => none

/-- The successful calls among the calls of `wait`. -/
def WaitReturn.report : BitVec 32 × WaitReturn → Option (Family.Report (BitVec 32))
  | (caller, .child pid xstate) => some ⟨caller.toNat, pid.toNat, xstate⟩
  | (_, .badAddr) | (_, .noChildren) | (_, .killed) => none

namespace Procs

def family (s : Procs) : Family.State (Fin nProc) (BitVec 32) where
  phase i := (s.proc i).state.phase
  pid i := (s.proc i).pid.toNat
  parent i := (s.proc i).parent
  status i := (s.proc i).xstate
  making i := (s.proc i).pc.making
  next := s.nextpid.toNat
  births := s.births.map (Prod.map BitVec.toNat BitVec.toNat)
  exits := s.exits.map (Prod.map BitVec.toNat id)
  reports := s.waits.filterMap WaitReturn.report

variable {s t : Procs} {p i : Fin nProc} {x : Proc}

theorem family_set (s : Procs) (i : Fin nProc) (x : Proc) : (s.set i x).family =
    { s.family with
      phase := update s.family.phase i x.state.phase
      pid := update s.family.pid i x.pid.toNat
      parent := update s.family.parent i x.parent
      status := update s.family.status i x.xstate
      making := update s.family.making i x.pc.making } := by
  apply Family.State.ext
  all_goals first
    | rfl
    | funext j
      simp only [family, set, update_apply]
      split <;> rfl

/-- A change of a process that the family does not see. -/
theorem family_set_eq (hs : x.state.phase = (s.proc i).state.phase) (hpid : x.pid = (s.proc i).pid)
    (hpar : x.parent = (s.proc i).parent) (hx : x.xstate = (s.proc i).xstate)
    (hm : x.pc.making = (s.proc i).pc.making) : (s.set i x).family = s.family := by
  have same {β : Type} (f : Fin nProc → β) (y : β) (hy : y = f i) : update f i y = f := by
    rw [hy, update_eq_self]
  rw [family_set, same s.family.phase _ hs, same s.family.pid _ (congrArg BitVec.toNat hpid),
    same s.family.parent _ hpar, same s.family.status _ hx, same s.family.making _ hm]

theorem family_setPc (s : Procs) (p : Fin nProc) (pc : ProcPc) : (s.setPc p pc).family =
    { s.family with making := update s.family.making p pc.making } := by
  rw [setPc, family_set]
  apply Family.State.ext
  all_goals first
    | rfl
    | exact update_eq_self ..

theorem family_setPc_eq {pc : ProcPc} (hm : pc.making = (s.proc p).pc.making) :
    (s.setPc p pc).family = s.family := family_set_eq rfl rfl rfl rfl hm

theorem family_wakeup (s : Procs) (p : Fin nProc) (chan : Chan) :
    (s.wakeup p chan).family = s.family := by
  apply Family.State.ext
  all_goals first
    | rfl
    | funext j
      simp only [family, wakeup]
      split
      · rename_i h
        simp [h.2.1, ProcState.phase]
      · rfl

/-! ## The regions -/

/-- `fork` finds a free slot but no memory. -/
theorem family_allocproc_fail (hi : (s.proc i).state = .unused) (hpid : (s.proc i).pid = 0)
    (hpar : (s.proc i).parent = none) (hx : (s.proc i).xstate = 0)
    (hm : (s.proc i).pc.making = none)
    (hp : (s.proc p).pc.making = none) :
    (s.allocproc p i false).family = { s.family with next := (s.nextpid + 1).toNat } := by
  have hset : (Procs.set { s with nextpid := s.nextpid + 1 } i freeproc).family =
      { s.family with next := (s.nextpid + 1).toNat } := by
    refine (family_set_eq (s := { s with nextpid := s.nextpid + 1 }) (x := freeproc) ?_ hpid.symm
      hpar.symm hx.symm hm.symm).trans rfl
    show ProcState.phase .unused = (s.proc i).state.phase
    rw [hi]
  rw [allocproc, if_pos hi, if_neg (by simp), family_setPc, hset]
  apply Family.State.ext
  all_goals first
    | rfl
    | exact update_eq_self_iff.mpr hp.symm

/-- `fork` takes the free slot `i`. -/
theorem family_allocproc_ok (hi : (s.proc i).state = .unused) (hm : (s.proc i).pc.making = none)
    (hn : (s.nextpid + 1).toNat = s.nextpid.toNat + 1) :
    (s.allocproc p i true).family = s.family.make p i := by
  rw [allocproc, if_pos hi, if_pos rfl, family_setPc, family_set]
  apply Family.State.ext
  case next => exact hn
  case making =>
    have hnone : update s.family.making i none = s.family.making :=
      update_eq_self_iff.mpr hm.symm
    exact congrArg (fun f => update f p (some (i, false))) hnone
  all_goals first
    | rfl
    | exact update_eq_self ..

theorem family_setParent (s : Procs) (p np : Fin nProc) :
    (s.setParent p np).family = s.family.link p np := by
  have hset : (s.set np { s.proc np with parent := some p }).family =
      { s.family with parent := update s.family.parent np (some p) } := by
    rw [family_set]
    apply Family.State.ext
    all_goals first
      | rfl
      | exact update_eq_self ..
  have hpc := family_setPc (s.set np { s.proc np with parent := some p }) p (.setRunnable np)
  rw [hset] at hpc
  exact congrArg (fun f : Family.State (Fin nProc) (BitVec 32) =>
    { f with births := ((s.proc np).pid.toNat, (s.proc p).pid.toNat) :: f.births }) hpc

theorem family_setRunnable (s : Procs) (p np : Fin nProc) :
    (s.setRunnable p np).family = s.family.start p np := by
  rw [setRunnable, family_setPc, family_set]
  apply Family.State.ext
  case making =>
    exact congrArg (fun f => update f p none) (update_eq_self np s.family.making)
  all_goals first
    | rfl
    | exact update_eq_self ..

/-- A round of `reparent` changes the parent in its slot, and only if that is the exiting
process. -/
theorem family_reparentRound (s : Procs) (p pp : Fin nProc) : (reparentRound p s pp).family =
    { s.family with
      parent := fun i => if i = pp ∧ s.family.parent i = some p then some initproc
        else s.family.parent i } := by
  unfold reparentRound
  split
  · rename_i hpp
    rw [family_wakeup, family_set]
    apply Family.State.ext
    case parent =>
      funext i
      simp only [update_apply]
      by_cases hi : i = pp
      · rw [if_pos hi, if_pos ⟨hi, hi ▸ hpp⟩]
      · rw [if_neg hi, if_neg fun h => hi h.1]
    all_goals first
      | rfl
      | exact update_eq_self ..
  · rename_i hpp
    apply Family.State.ext
    case parent =>
      funext i
      refine (if_neg ?_).symm
      rintro ⟨rfl, hi⟩
      exact hpp hi
    all_goals rfl

/-- The parents after the loop of `reparent` has passed the slots in `l`. -/
theorem family_reparent_foldl (p : Fin nProc) (l : List (Fin nProc)) (s : Procs) :
    (l.foldl (reparentRound p) s).family =
      { s.family with
        parent := fun i => if i ∈ l ∧ s.family.parent i = some p then some initproc
          else s.family.parent i } := by
  induction l generalizing s with
  | nil => simp
  | cons pp l ih =>
    rw [List.foldl_cons, ih, family_reparentRound]
    apply Family.State.ext
    case parent =>
      funext i
      simp only [List.mem_cons]
      -- A parent that has become `initproc` stays it, whatever the loop does with it later.
      grind
    all_goals rfl

theorem family_reparent (s : Procs) (p : Fin nProc) : (s.reparent p).family =
    { s.family with
      parent := fun i => if s.family.parent i = some p then some initproc
        else s.family.parent i } := by
  rw [reparent, family_reparent_foldl]
  simp only [List.mem_finRange, true_and]

theorem family_wakeParent (s : Procs) (p : Fin nProc) : (s.wakeParent p).family = s.family := by
  unfold wakeParent
  cases (s.proc p).parent with
  | none => rfl
  | some q => exact family_wakeup s p (.proc q)

theorem family_setZombie (s : Procs) (p : Fin nProc) (status : BitVec 32) :
    (s.setZombie p status).family = { s.family with
      phase := update s.family.phase p .zombie
      status := update s.family.status p status
      exits := (s.family.pid p, status) :: s.family.exits } := by
  have hset : (s.set p { s.proc p with xstate := status, state := .zombie }).family =
      { s.family with
        phase := update s.family.phase p .zombie
        status := update s.family.status p status } := by
    rw [family_set]
    apply Family.State.ext
    all_goals first
      | rfl
      | exact update_eq_self ..
  exact congrArg (fun f : Family.State (Fin nProc) (BitVec 32) =>
    { f with exits := (s.family.pid p, status) :: s.family.exits }) hset

theorem family_exit (s : Procs) (p : Fin nProc) (status : BitVec 32) :
    (s.exit p status).family = s.family.exit initproc p status := by
  rw [exit, family_setZombie, family_wakeParent, family_reparent]
  rfl

/-- A call of `wait` that returns is a report if it returns a child. -/
theorem family_waitReturn (r : WaitReturn) (hp : (s.proc p).pc.making = none) :
    (s.waitReturn p r).family = { s.family with
      reports := (WaitReturn.report ((s.proc p).pid, r)).toList ++ s.family.reports } := by
  have hpc : (s.setPc p .idle).family = s.family := family_setPc_eq hp.symm
  have hrep : (s.waitReturn p r).family.reports =
      (WaitReturn.report ((s.proc p).pid, r)).toList ++ s.family.reports := by
    simp only [family, waitReturn, List.filterMap_cons]
    cases WaitReturn.report ((s.proc p).pid, r) <;> rfl
  rw [← hrep, ← hpc]
  rfl

theorem family_scan_reap {pp : Fin nProc} (hpp : p ≠ pp) (hp : (s.proc p).pc.making = none)
    (hm : (s.proc pp).pc.making = none) :
    ((s.set pp freeproc).waitReturn p (.child (s.proc pp).pid (s.proc pp).xstate)).family =
      s.family.reap p pp := by
  have hproc : (s.set pp freeproc).proc p = s.proc p := update_of_ne hpp _ _
  rw [family_waitReturn _ (by rw [hproc]; exact hp), hproc, family_set]
  apply Family.State.ext
  case making => exact update_eq_self_iff.mpr hm.symm
  all_goals rfl

/-! ## The loop of `wait` -/

theorem waitScan_some {l : List (Fin nProc)} {kids kids' : Bool} {pp : Fin nProc}
    (h : s.waitScan p l kids = (kids', some pp)) :
    (s.proc pp).parent = some p ∧ (s.proc pp).state = .zombie := by
  induction l generalizing kids with
  | nil => cases h
  | cons q l ih =>
    rw [waitScan] at h
    split_ifs at h with hpar hz
    · obtain ⟨-, hq⟩ := Prod.mk.inj h
      obtain rfl := Option.some.inj hq
      exact ⟨hpar, hz⟩
    · exact ih h
    · exact ih h

theorem waitScan_none {l : List (Fin nProc)} {kids : Bool}
    (h : s.waitScan p l kids = (false, none)) :
    kids = false ∧ ∀ i ∈ l, (s.proc i).parent ≠ some p := by
  induction l generalizing kids with
  | nil => exact ⟨(Prod.mk.inj h).1, fun i hi => absurd hi List.not_mem_nil⟩
  | cons q l ih =>
    rw [waitScan] at h
    split_ifs at h with hpar hz
    · cases h
    · cases (ih h).1
    · obtain ⟨hk, hl⟩ := ih h
      refine ⟨hk, fun i hi => ?_⟩
      rcases List.mem_cons.mp hi with rfl | hi
      · exact hpar
      · exact hl i hi

/-- What a call of `wait` does under `wait_lock`: it collects a child that has exited, it returns
without one, or it goes to sleep. -/
theorem scan_cases (s : Procs) (p : Fin nProc) (addr copyout : Bool) :
    (∃ pp, (s.proc pp).parent = some p ∧ (s.proc pp).state = .zombie ∧ s.scan p addr copyout =
      (s.set pp freeproc).waitReturn p (.child (s.proc pp).pid (s.proc pp).xstate)) ∨
    (s.scan p addr copyout = s.waitReturn p .noChildren ∧ ∀ i, (s.proc i).parent ≠ some p) ∨
    s.scan p addr copyout = s.waitReturn p .badAddr ∨ s.scan p addr copyout =
      s.waitReturn p .killed ∨
    s.scan p addr copyout = s.set p
      { s.proc p with chan := some (.proc p), state := .sleeping } := by
  unfold scan
  rcases hscan : s.waitScan p (List.finRange nProc) false with ⟨kids, _ | pp⟩
  · cases kids with
    | false => exact Or.inr (Or.inl ⟨rfl, fun i => (waitScan_none hscan).2 i (List.mem_finRange i)⟩)
    | true =>
      dsimp only
      rw [if_neg (by simp)]
      split
      · exact Or.inr (Or.inr (Or.inr (Or.inl rfl)))
      · exact Or.inr (Or.inr (Or.inr (Or.inr rfl)))
  · obtain ⟨hpar, hz⟩ := waitScan_some hscan
    dsimp only
    split
    · exact Or.inr (Or.inr (Or.inl rfl))
    · exact Or.inl ⟨pp, hpar, hz, rfl⟩

/-! ## The steps -/

/-- `INT_MAX`. -/
def intMax : ℕ := 2 ^ 31 - 1

theorem Slots.making_none (h : Family.Slots initproc s.family)
    (hi : (s.proc i).state.phase ≠ .live) : (s.proc i).pc.making = none := by
  by_contra hm
  obtain ⟨⟨c, b⟩, hcb⟩ := Option.ne_none_iff_exists'.mp hm
  exact hi (h.making_live i c b hcb).1

theorem refines_allocproc (h : Family.Slots initproc s.family) (hn : s.nextpid.toNat ≤ intMax)
    (hp : (s.proc p).state = .running) (hpc : (s.proc p).pc = .allocproc i) (ok : Bool) :
    (s.allocproc p i ok).family = s.family ∨
      Family.Step initproc s.family (s.allocproc p i ok).family := by
  have hmp : (s.proc p).pc.making = none := by rw [hpc]; rfl
  by_cases hi : (s.proc i).state = .unused
  · have hfree : s.family.phase i = .free := by
      show (s.proc i).state.phase = .free
      rw [hi]
      rfl
    have hmi := Slots.making_none (i := i) h (by rw [hi]; decide)
    have hsucc : (s.nextpid + 1).toNat = s.nextpid.toNat + 1 := by
      rw [intMax] at hn
      bv_omega
    right
    cases ok with
    | true =>
      rw [family_allocproc_ok hi hmi hsucc]
      exact .make p i (by show (s.proc p).state.phase = .live; rw [hp]; rfl) hmp hfree
    | false =>
      obtain ⟨hpid, hpar, hx⟩ := h.free i hfree
      have hpid' : (s.proc i).pid = 0 := BitVec.eq_of_toNat_eq hpid
      rw [family_allocproc_fail hi hpid' hpar hx hmi hmp, hsucc]
      exact .skip
  · left
    rw [allocproc, if_neg hi]
    refine family_setPc_eq ?_
    rw [hmp]
    cases nextSlot i <;> rfl

theorem refines_scan (h : Family.Slots initproc s.family) (hp : (s.proc p).state = .running)
    {addr : Bool} (hpc : (s.proc p).pc = .wait addr) (copyout : Bool) :
    (s.scan p addr copyout).family = s.family ∨
      Family.Step initproc s.family (s.scan p addr copyout).family := by
  have hmp : (s.proc p).pc.making = none := by rw [hpc]; rfl
  rcases scan_cases s p addr copyout with ⟨pp, hpar, hz, heq⟩ | ⟨heq, -⟩ | heq | heq | heq <;>
    rw [heq]
  · right
    have hpp : p ≠ pp := by
      rintro rfl
      rw [hp] at hz
      cases hz
    rw [family_scan_reap hpp hmp (Slots.making_none h (by rw [hz]; decide))]
    exact .reap p pp (by show (s.proc p).state.phase = .live; rw [hp]; rfl) hpar
      (by show (s.proc pp).state.phase = .zombie; rw [hz]; rfl)
  · exact Or.inl (family_waitReturn _ hmp)
  · exact Or.inl (family_waitReturn _ hmp)
  · exact Or.inl (family_waitReturn _ hmp)
  · refine Or.inl (family_set_eq ?_ rfl rfl rfl rfl)
    rw [hp]
    rfl

theorem family_killScan {pid : BitVec 32} (hpc : (s.proc p).pc = .kill pid i) :
    (s.killScan p pid i).family = s.family := by
  have hmp : (s.proc p).pc.making = none := by rw [hpc]; rfl
  unfold killScan
  split
  · have hset (x : Proc) (hs : x.state.phase = (s.proc i).state.phase)
        (hx : x = { s.proc i with killed := true, state := x.state }) :
        ((s.set i x).setPc p .idle).family = s.family := by
      have hfam : (s.set i x).family = s.family := by
        rw [hx]
        exact family_set_eq hs rfl rfl rfl rfl
      have hm : ((s.set i x).proc p).pc.making = none := by
        have hmaking := congrFun (congrArg Family.State.making hfam) p
        exact hmaking.trans hmp
      exact (family_setPc_eq (show ProcPc.making .idle = _ from hm.symm)).trans hfam
    dsimp only
    split
    · rename_i hsl
      exact hset _ (by simp [hsl, ProcState.phase]) rfl
    · exact hset _ rfl rfl
  · refine family_setPc_eq ?_
    rw [hmp]
    cases nextSlot i <;> rfl

theorem step_scan {copyout : Bool} (ht : s.step (.scan p copyout) = some t) :
    (s.proc p).state = .running ∧
      ∃ addr, (s.proc p).pc = .wait addr ∧ t = s.scan p addr copyout := by
  simp only [step] at ht
  split at ht
  · rename_i addr hp hpc
    exact ⟨hp, addr, hpc, (Option.some.inj ht).symm⟩
  · cases ht

/-- Every step of the table is a step of the family, or one that the family does not see. -/
theorem refines {e : ProcEvent} (h : Family.Slots initproc s.family) (hn : s.nextpid.toNat ≤ intMax)
    (ht : s.step e = some t) : t.family = s.family ∨ Family.Step initproc s.family t.family := by
  cases e with
  | scheduler p | yield p | wakeup p =>
    obtain ⟨hp, ht⟩ := Option.ite_none_right_eq_some.mp ht
    obtain rfl := Option.some.inj ht
    exact Or.inl (family_set_eq (by rw [hp]; rfl) rfl rfl rfl rfl)
  | sleep p n =>
    obtain ⟨⟨hp, hpc⟩, ht⟩ := Option.ite_none_right_eq_some.mp ht
    obtain rfl := Option.some.inj ht
    exact Or.inl (family_set_eq (by rw [hp]; rfl) rfl rfl rfl rfl)
  | fork p | wait p addr | kill p pid =>
    obtain ⟨⟨hp, hpc⟩, ht⟩ := Option.ite_none_right_eq_some.mp ht
    obtain rfl := Option.some.inj ht
    exact Or.inl (family_setPc_eq (by rw [hpc]; rfl))
  | allocproc p ok =>
    simp only [step] at ht
    split at ht
    · rename_i i hp hpc
      obtain rfl := Option.some.inj ht
      exact refines_allocproc h hn hp hpc ok
    · cases ht
  | setParent p =>
    simp only [step] at ht
    split at ht
    · rename_i np hp hpc
      obtain rfl := Option.some.inj ht
      rw [family_setParent]
      exact Or.inr (.link p np (by show (s.proc p).pc.making = some (np, false); rw [hpc]; rfl))
    · cases ht
  | setRunnable p =>
    simp only [step] at ht
    split at ht
    · rename_i np hp hpc
      obtain rfl := Option.some.inj ht
      rw [family_setRunnable]
      exact Or.inr (.start p np (by show (s.proc p).pc.making = some (np, true); rw [hpc]; rfl))
    · cases ht
  | exit p status =>
    obtain ⟨⟨⟨hp, hpc⟩, hne⟩, ht⟩ := Option.ite_none_right_eq_some.mp ht
    obtain rfl := Option.some.inj ht
    rw [family_exit]
    exact Or.inr (.exit p status (by show (s.proc p).state.phase = .live; rw [hp]; rfl)
      (by show (s.proc p).pc.making = none; rw [hpc]; rfl) hne)
  | scan p copyout =>
    obtain ⟨hp, addr, hpc, rfl⟩ := step_scan ht
    exact refines_scan h hp hpc copyout
  | killScan p =>
    simp only [step] at ht
    split at ht
    · rename_i pid i hp hpc
      obtain rfl := Option.some.inj ht
      exact Or.inl (family_killScan hpc)
    · cases ht

/-! ## Every run -/

/-- `nextpid` does not exceed `INT_MAX`. -/
def PidsLeft (s : Procs) (e : ProcEvent) : Prop := ∀ t ∈ s.step e, t.nextpid.toNat ≤ intMax

instance (s : Procs) (e : ProcEvent) : Decidable (s.PidsLeft e) :=
  inferInstanceAs (Decidable (∀ t ∈ s.step e, _))

structure Inv (s : Procs) : Prop where
  sound : Family.Sound initproc s.family
  pids : s.nextpid.toNat ≤ intMax

theorem inv_init : Inv init where
  sound := by
    refine Family.Sound.single rfl ?_ (by decide) ?_ ?_ ?_ rfl rfl rfl
    all_goals decide +kernel
  pids := by decide

theorem Inv.step {e : ProcEvent} (h : s.Inv) (hn : s.PidsLeft e) (ht : s.step e = some t) :
    t.Inv where
  sound := by
    rcases refines h.sound.slots h.pids ht with heq | hstep
    · rw [heq]
      exact h.sound
    · exact h.sound.step hstep
  pids := hn t ht

/-! ### In terms of the table -/

/-- The pids that calls of `wait` have returned. -/
def collected (s : Procs) : List (BitVec 32) :=
  s.waits.filterMap fun
    | (_, .child pid _) => some pid
    | (_, .badAddr) | (_, .noChildren) | (_, .killed) => none

/-- `parent` created the process `pid`, or is `initproc` and the creator has exited. -/
def Raises (s : Procs) (parent pid : BitVec 32) : Prop :=
  ∃ creator, (pid, creator) ∈ s.births ∧
    (parent = creator ∨ parent = (s.proc initproc).pid ∧ ∃ xstate, (creator, xstate) ∈ s.exits)

theorem mem_births {a b : BitVec 32} :
    (a.toNat, b.toNat) ∈ s.family.births ↔ (a, b) ∈ s.births := by
  simp only [family, List.mem_map, Prod.exists, Prod.map_apply, Prod.mk.injEq, BitVec.toNat_inj]
  constructor
  · rintro ⟨x, y, h, rfl, rfl⟩
    exact h
  · exact fun h => ⟨a, b, h, rfl, rfl⟩

theorem mem_exits {a x : BitVec 32} : (a.toNat, x) ∈ s.family.exits ↔ (a, x) ∈ s.exits := by
  simp only [family, List.mem_map, Prod.exists, Prod.map_apply, Prod.mk.injEq, BitVec.toNat_inj, id]
  constructor
  · rintro ⟨y, z, h, rfl, rfl⟩
    exact h
  · exact fun h => ⟨a, x, h, rfl, rfl⟩

theorem mem_reports {a c x : BitVec 32} :
    ⟨a.toNat, c.toNat, x⟩ ∈ s.family.reports ↔ (a, WaitReturn.child c x) ∈ s.waits := by
  simp only [family, List.mem_filterMap]
  constructor
  · rintro ⟨⟨w, r⟩, h, heq⟩
    cases r with
    | child pid xstate =>
      simp only [WaitReturn.report, Option.some.injEq, Family.Report.mk.injEq,
        BitVec.toNat_inj] at heq
      obtain ⟨rfl, rfl, rfl⟩ := heq
      exact h
    | badAddr | noChildren | killed => cases heq
  · exact fun h => ⟨_, h, rfl⟩

theorem map_child_reports (s : Procs) :
    s.family.reports.map Family.Report.child = s.collected.map BitVec.toNat := by
  simp only [family, collected, List.map_filterMap]
  congr 1
  funext ⟨w, r⟩
  cases r <;> rfl

/-- The family's view of who raises whom, read in the table. -/
theorem raises_of_family {parent pid : BitVec 32}
    (h : s.family.Raises initproc parent.toNat pid.toNat) : s.Raises parent pid := by
  obtain ⟨creator, hborn, hpar⟩ := h
  obtain ⟨⟨a, b⟩, hab, heq⟩ := List.mem_map.mp hborn
  obtain ⟨ha, rfl⟩ := Prod.mk.inj heq
  obtain rfl : a = pid := BitVec.eq_of_toNat_eq ha
  refine ⟨b, hab, hpar.imp BitVec.eq_of_toNat_eq fun ⟨hinit, xstate, hx⟩ => ?_⟩
  exact ⟨BitVec.eq_of_toNat_eq hinit, xstate, mem_exits.mp hx⟩

/-- The table in a state: pids, parents, and what calls of `wait` have returned. -/
structure Lifecycle (s : Procs) : Prop where
  pid_pos : ∀ i, (s.proc i).state ≠ .unused → 0 < (s.proc i).pid.toInt
  pid_inj : ∀ i j, (s.proc i).state ≠ .unused → (s.proc j).state ≠ .unused →
    (s.proc i).pid = (s.proc j).pid → i = j
  /-- The parent of a process is in the table and was not returned by a `wait`. -/
  parent : ∀ i, i ≠ initproc → (s.proc i).state ≠ .unused → (s.proc i).state ≠ .used →
    ∃ j, (s.proc i).parent = some j ∧ (s.proc j).state ≠ .unused ∧ (s.proc j).pid ∉ s.collected ∧
      s.Raises (s.proc j).pid (s.proc i).pid
  once : s.collected.Nodup
  /-- A `wait` returns a process that has exited with the status returned, to the one that raises
  it. -/
  returned : ∀ caller pid xstate, (caller, WaitReturn.child pid xstate) ∈ s.waits →
    (pid, xstate) ∈ s.exits ∧ s.Raises caller pid

/-- What a step does with processes that have exited, and when `wait` finds no child. -/
structure Keeps (s : Procs) (e : ProcEvent) (t : Procs) : Prop where
  zombie : ∀ i, (s.proc i).state = .zombie →
    ((t.proc i).state = .zombie ∧ (t.proc i).pid = (s.proc i).pid ∧
      (t.proc i).xstate = (s.proc i).xstate) ∨
    ∃ p, (s.proc i).parent = some p ∧ (t.proc i).state = .unused ∧ (s.proc i).pid ∉ s.collected ∧
      ((s.proc p).pid, WaitReturn.child (s.proc i).pid (s.proc i).xstate) ∈ t.waits
  /-- A successful `wait` returns a child of the caller. -/
  child : ∀ p copyout pid xstate, e = .scan p copyout →
    t.waits = ((s.proc p).pid, .child pid xstate) :: s.waits →
    ∃ i, (s.proc i).parent = some p ∧ (s.proc i).state = .zombie ∧ (s.proc i).pid = pid ∧
      (s.proc i).xstate = xstate
  /-- A `wait` that finds no child: nobody's parent is the caller, and every process that the caller
  created was returned by a `wait`. -/
  noChildren :
    ∀ p copyout, e = .scan p copyout → t.waits = ((s.proc p).pid, .noChildren) :: s.waits →
    (∀ i, (s.proc i).parent ≠ some p) ∧ ∀ pid, (pid, (s.proc p).pid) ∈ s.births → pid ∈ s.collected

theorem phase_eq_free {x : ProcState} : x.phase = .free ↔ x = .unused := by
  cases x <;> simp [ProcState.phase]

theorem phase_eq_zombie {x : ProcState} : x.phase = .zombie ↔ x = .zombie := by
  cases x <;> simp [ProcState.phase]

theorem mem_collected {pid : BitVec 32} :
    pid ∈ s.collected ↔ ∃ r ∈ s.family.reports, r.child = pid.toNat := by
  rw [← List.mem_map, map_child_reports, List.mem_map]
  constructor
  · exact fun h => ⟨pid, h, rfl⟩
  · rintro ⟨x, hx, heq⟩
    exact BitVec.eq_of_toNat_eq heq ▸ hx

theorem Inv.lifecycle (h : s.Inv) : s.Lifecycle where
  pid_pos i hi := by
    obtain ⟨hpos, hlt⟩ := h.sound.slots.pid i (phase_eq_free.not.mpr hi)
    have hmax := h.pids
    have hpid : 0 < (s.proc i).pid.toNat ∧ (s.proc i).pid.toNat < 2 ^ 31 - 1 :=
      ⟨hpos, lt_of_lt_of_le hlt hmax⟩
    rw [BitVec.toInt_eq_toNat_of_lt (by omega)]
    exact_mod_cast hpid.1
  pid_inj i j hi hj heq :=
    h.sound.slots.inj i j (phase_eq_free.not.mpr hi) (phase_eq_free.not.mpr hj)
      (congrArg BitVec.toNat heq)
  parent i hi hunused hused := by
    have hphase : s.family.phase i = .live ∨ s.family.phase i = .zombie := by
      show (s.proc i).state.phase = .live ∨ (s.proc i).state.phase = .zombie
      cases hst : (s.proc i).state <;> simp_all [ProcState.phase]
    obtain ⟨j, hj⟩ := Option.ne_none_iff_exists'.mp (h.sound.slots.has_parent i hi hphase)
    have hlive := h.sound.slots.parent_live i j hj
    have hfree : s.family.phase j ≠ .free := by simp [hlive]
    refine ⟨j, hj, phase_eq_free.not.mp hfree, fun hmem => ?_,
      raises_of_family (h.sound.births.parent i j hj)⟩
    obtain ⟨r, hr, hchild⟩ := mem_collected.mp hmem
    exact h.sound.reports.gone r hr j hfree hchild.symm
  once := by
    have hnodup := h.sound.reports.nodup
    rw [map_child_reports] at hnodup
    exact List.Nodup.of_map _ hnodup
  returned caller pid xstate hmem := by
    have hr := mem_reports.mpr hmem
    exact ⟨mem_exits.mp (h.sound.reports.exited _ hr),
      raises_of_family (h.sound.reports.parent _ hr)⟩

theorem Inv.keeps_zombie {e : ProcEvent} (h : s.Inv) (ht : s.step e = some t)
    (hi : (s.proc i).state = .zombie) :
    ((t.proc i).state = .zombie ∧ (t.proc i).pid = (s.proc i).pid ∧
      (t.proc i).xstate = (s.proc i).xstate) ∨
    ∃ p, (s.proc i).parent = some p ∧ (t.proc i).state = .unused ∧ (s.proc i).pid ∉ s.collected ∧
      ((s.proc p).pid, WaitReturn.child (s.proc i).pid (s.proc i).xstate) ∈ t.waits := by
  have hz : s.family.phase i = .zombie := phase_eq_zombie.mpr hi
  -- The family keeps the zombie, or its parent has collected it.
  have hfamily : (t.family.phase i = .zombie ∧ t.family.pid i = s.family.pid i ∧
      t.family.status i = s.family.status i) ∨
      ∃ p, s.family.parent i = some p ∧ t.family = s.family.reap p i := by
    rcases refines h.sound.slots h.pids ht with heq | hstep
    · rw [heq]
      exact Or.inl ⟨hz, rfl, rfl⟩
    · exact hstep.zombie h.sound.slots hz
  rcases hfamily with ⟨hphase, hpid, hstatus⟩ | ⟨p, hpar, hreap⟩
  · exact Or.inl ⟨phase_eq_zombie.mp hphase, BitVec.eq_of_toNat_eq hpid, hstatus⟩
  · refine Or.inr ⟨p, hpar, phase_eq_free.mp ?_, fun hmem => ?_, mem_reports.mp ?_⟩
    · show t.family.phase i = .free
      rw [hreap]
      exact update_self ..
    · obtain ⟨r, hr, hchild⟩ := mem_collected.mp hmem
      exact h.sound.reports.gone r hr i (by simp [hz]) hchild.symm
    · rw [hreap]
      exact List.mem_cons_self

theorem waits_waitReturn (s : Procs) (p : Fin nProc) (r : WaitReturn) :
    (s.waitReturn p r).waits = ((s.proc p).pid, r) :: s.waits := rfl

theorem Inv.keeps {e : ProcEvent} (h : s.Inv) (ht : s.step e = some t) : s.Keeps e t where
  zombie i hi := h.keeps_zombie ht hi
  child := by
    rintro p copyout pid xstate rfl hw
    obtain ⟨-, addr, -, rfl⟩ := step_scan ht
    rcases scan_cases s p addr copyout with ⟨pp, hpar, hz, heq⟩ | ⟨heq, -⟩ | heq | heq | heq <;>
      rw [heq] at hw
    · simp only [waits_waitReturn, set, List.cons.injEq, Prod.mk.injEq,
        WaitReturn.child.injEq] at hw
      exact ⟨pp, hpar, hz, hw.1.2.1, hw.1.2.2⟩
    · simp [waits_waitReturn] at hw
    · simp [waits_waitReturn] at hw
    · simp [waits_waitReturn] at hw
    · exact absurd hw.symm (List.cons_ne_self _ _)
  noChildren := by
    rintro p copyout rfl hw
    obtain ⟨hp, addr, -, rfl⟩ := step_scan ht
    rcases scan_cases s p addr copyout with ⟨pp, hpar, hz, heq⟩ | ⟨heq, hnone⟩ | heq | heq | heq <;>
      rw [heq] at hw
    · simp [waits_waitReturn] at hw
    · have hlive : s.family.phase p = .live := by
        show (s.proc p).state.phase = .live
        rw [hp]
        rfl
      exact ⟨hnone, fun pid hborn =>
        mem_collected.mpr (h.sound.collected hlive hnone (mem_births.mpr hborn))⟩
    · simp [waits_waitReturn] at hw
    · simp [waits_waitReturn] at hw
    · exact absurd hw.symm (List.cons_ne_self _ _)

/-- In every interleaving of `fork`, `exit`, `wait` and `kill` in which `nextpid` does not exceed
`INT_MAX`. -/
theorem process_lifecycle (es : List ProcEvent) (pidsLeft : Trace.Meets step PidsLeft init es)
    (run : Trace.exec step init es = some s) :
    s.Lifecycle ∧ ∀ e t, s.step e = some t → s.Keeps e t := by
  have hinv : s.Inv := Trace.invariant (fun _ _ _ h hn ht => h.step hn ht) inv_init pidsLeft run
  exact ⟨hinv.lifecycle, fun e t ht => hinv.keeps ht⟩

/-- The first process forks and waits; the child exits with status 7 and is returned. -/
def forkAndWait : List ProcEvent :=
  [.scheduler 0, .fork 0, .allocproc 0 true, .allocproc 0 true, .setParent 0, .setRunnable 0,
    .scheduler 1, .wait 0 true, .scan 0 true, .exit 1 7, .scheduler 0, .scan 0 true]

theorem process_lifecycle_forkAndWait :
    ∃ s, Trace.Meets step PidsLeft init forkAndWait ∧ Trace.exec step init forkAndWait = some s ∧
      s.waits = [(1, .child 2 7)] ∧ s.Lifecycle ∧ ∀ e t, s.step e = some t → s.Keeps e t := by
  have hsome : ((Trace.exec step init forkAndWait).any fun s =>
    decide (s.waits = [(1, .child 2 7)])) = true := by
    decide +kernel
  have hmeets : Trace.Meets step PidsLeft init forkAndWait := by decide +kernel
  obtain ⟨s, hs, hw⟩ := (Option.any_eq_true _ _).mp hsome
  exact ⟨s, hmeets, hs, of_decide_eq_true hw, process_lifecycle forkAndWait hmeets hs⟩

end Procs

end NeulaCpu.Xv6
