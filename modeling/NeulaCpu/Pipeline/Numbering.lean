import NeulaCpu.Pipeline.Fetch
import NeulaCpu.Lib.Conveyor

/-!
# Numbered instructions

Every instruction gets a number as it enters `exe_stage`, in program order, and keeps it until it
has left `wb_stage`. The stages are a conveyor that `pip_ctrl` holds, clears or advances. What an
instruction does outside the pipeline (a memory request, a redirect, a register or a CSR write) can
then be attributed to its number, and this module says which numbers there can be at all: each one
is in flight, has left `mem2_stage`, or was cleared away by an exception in front of it.
-/

namespace NeulaCpu.Rtl

open Conveyor (Belt Motion)

/-! ## Numbers -/

/-- The numbers of the instructions in flight, and the number that the next one gets. -/
structure Ids where
  tags : Tags ℕ
  wb : Option ℕ
  next : ℕ
deriving DecidableEq, Repr

/-- What a cycle does to the conveyor. -/
def Core.motion (s : Core) (i : CoreIn) : Motion :=
  match s.move i with
  | .hold => .hold
  | .flush => .clear
  | .bubble => .advance false
  | .go => .advance s.handsOver

namespace Ids

def start : Ids := ⟨.empty, none, 0⟩

def observe (g : Ids) (s : Core) (i : CoreIn) : Ids where
  tags := g.tags.step (s.move i) (s.tagIn g.next)
  wb :=
    match s.move i with
    | .hold => g.wb
    | .flush => none
    | .bubble | .go => g.tags.ms2
  next := if s.move i == .go && s.handsOver then g.next + 1 else g.next

/-- `exe_stage` to `mem2_stage`. -/
def belt (g : Ids) : Belt := ⟨[g.tags.ms2, g.tags.ms1, g.tags.dt, g.tags.es], g.next⟩

/-- `exe_stage` to `wb_stage`. -/
def beltWb (g : Ids) : Belt := ⟨g.wb :: g.belt.slots, g.next⟩

variable (g : Ids) (s : Core) (i : CoreIn)

theorem belt_observe : (g.observe s i).belt = g.belt.step (s.motion i) := by
  unfold belt observe Core.motion Core.tagIn
  cases s.move i <;> cases s.handsOver <;> rfl

theorem beltWb_observe : (g.observe s i).beltWb = g.beltWb.step (s.motion i) := by
  unfold beltWb belt observe Core.motion Core.tagIn
  cases s.move i <;> cases s.handsOver <;> rfl

end Ids

theorem Core.motion_of_advances {s : Core} {i : CoreIn} (h : (s.move i).advances = true) :
    ∃ enters, s.motion i = .advance enters := by
  unfold Core.motion
  cases hm : s.move i with
  | hold | flush => rw [hm] at h; cases h
  | bubble => exact ⟨false, rfl⟩
  | go => exact ⟨s.handsOver, rfl⟩

/-- Stages without a number hold bubbles, and the numbers are in order. -/
structure NumberInv (g : Ids) (s : Core) : Prop where
  tagInv : s.TagInv g.tags
  ws : g.wb = none → s.ws.regWe = false
  sorted : g.beltWb.Sorted

theorem NumberInv.step {g : Ids} {s : Core} (h : NumberInv g s) (i : CoreIn) :
    NumberInv (g.observe s i) (s.step i) := by
  refine ⟨h.tagInv.step g.next, ?_, ?_⟩
  · intro hwb
    rw [Core.step_ws]
    unfold Ids.observe at hwb
    cases hm : s.move i with
    | hold =>
      rw [hm] at hwb
      exact h.ws hwb
    | flush => rfl
    | bubble | go =>
      rw [hm] at hwb
      exact (h.tagInv.ms2 hwb).regWe
  · rw [Ids.beltWb_observe]
    exact h.sorted.step _

/-! ## Runs -/

namespace CoreRun

variable (r : CoreRun)

/-- The numbers in cycle `n`. -/
def ids (n : ℕ) : Ids := Clocked.ghost Core.step Ids.observe r.start .start r.inp n

theorem numberInv (n : ℕ) : NumberInv (r.ids n) (r.core n) := by
  refine Clocked.ghost_invariant (P := NumberInv) (A := fun _ _ _ => True) ?_ ?_ n (fun _ _ =>
    trivial)
  · exact ⟨Core.tagInv_reset _ _ _, fun _ => rfl, List.pairwise_singleton _ _⟩
  · exact fun _ _ i h _ => h.step i

theorem sorted (n : ℕ) : (r.ids n).belt.Sorted := (r.numberInv n).sorted.tail

theorem belt_succ (n : ℕ) :
    (r.ids (n + 1)).belt = (r.ids n).belt.step ((r.core n).motion (r.inp n)) :=
  Ids.belt_observe _ _ _

theorem beltWb_succ (n : ℕ) :
    (r.ids (n + 1)).beltWb = (r.ids n).beltWb.step ((r.core n).motion (r.inp n)) :=
  Ids.beltWb_observe _ _ _

/-! ### What an instruction does -/

/-- Instruction `e` commits in `mem2_stage` with an exception or as an `ertn`. -/
def Commits (t e : ℕ) : Prop := r.move t = .flush ∧ (r.ids t).tags.ms2 = some e

/-- Instruction `x` leaves `mem2_stage` for `wb_stage`. -/
def Retires (k x : ℕ) : Prop := (r.move k).advances = true ∧ (r.ids k).tags.ms2 = some x

/-- Instruction `x` asserts `data_sram_en`. -/
def Accesses (k x : ℕ) : Prop := (r.core k).dataSram.en = true ∧ (r.ids k).tags.dt = some x

/-- Instruction `x` redirects the fetch pc. -/
def Redirects (k x : ℕ) : Prop := (r.core k).brBus.brTaken = true ∧ (r.ids k).tags.es = some x

/-- Instruction `x` writes a register. -/
def WritesReg (k x : ℕ) : Prop := (r.core k).ws.regWe = true ∧ (r.ids k).wb = some x

/-- Instruction `x` writes a CSR. -/
def WritesCsr (k x : ℕ) : Prop :=
  ((r.inp k).stallreqCache = false ∧ (r.core k).exceptEn = false ∧
    (r.core k).ms2Bus.csrBus.csrWe = true) ∧ (r.ids k).tags.ms2 = some x

/-- What happens outside the pipeline in cycle `k` is done by a numbered instruction. -/
structure Attributed (k : ℕ) : Prop where
  access : (r.core k).dataSram.en = true → ∃ x, r.Accesses k x
  redirect : (r.core k).brBus.brTaken = true → ∃ x, r.Redirects k x
  reg : (r.core k).ws.regWe = true → ∃ x, r.WritesReg k x
  csr : (r.inp k).stallreqCache = false → (r.core k).exceptEn = false →
    (r.core k).ms2Bus.csrBus.csrWe = true → ∃ x, r.WritesCsr k x

theorem attributed (k : ℕ) : r.Attributed k := by
  have h := r.numberInv k
  refine ⟨fun hen => ?_, fun hbr => ?_, fun hwe => ?_, fun hc he hwe => ?_⟩
  · cases hx : (r.ids k).tags.dt with
    | none => exact absurd hen (by rw [Core.dataSram, (h.tagInv.dt hx).2]; decide)
    | some x => exact ⟨x, hen, hx⟩
  · cases hx : (r.ids k).tags.es with
    | none => exact absurd hbr (by rw [Core.brBus_of_quiet (h.tagInv.es hx)]; decide)
    | some x => exact ⟨x, hbr, hx⟩
  · cases hx : (r.ids k).wb with
    | none => exact absurd hwe (by rw [h.ws hx]; decide)
    | some x => exact ⟨x, hwe, hx⟩
  · cases hx : (r.ids k).tags.ms2 with
    | none => exact absurd hwe (by rw [(h.tagInv.ms2 hx).csrWe]; decide)
    | some x => exact ⟨x, ⟨hc, he, hwe⟩, hx⟩

/-! ### Numbers that are gone -/

variable {r} {k n m x e : ℕ}

theorem belt_atLeast (hkn : k ≤ n) (h : (r.ids k).belt.AtLeast m) : (r.ids n).belt.AtLeast m := by
  induction n, hkn using Nat.le_induction with
  | base => exact h
  | succ n _ ih =>
    rw [belt_succ]
    exact ih.step _

theorem beltWb_atLeast (hkn : k ≤ n) (h : (r.ids k).beltWb.AtLeast m) :
    (r.ids n).beltWb.AtLeast m := by
  induction n, hkn using Nat.le_induction with
  | base => exact h
  | succ n _ ih =>
    rw [beltWb_succ]
    exact ih.step _

/-- After a flush only later numbers are seen. -/
theorem beltWb_of_flush (hm : r.move k = .flush) (hkn : k < n) :
    (r.ids n).beltWb.AtLeast (r.ids k).next := by
  refine beltWb_atLeast hkn ?_
  have hmotion : (r.core k).motion (r.inp k) = .clear := by
    have hm' : (r.core k).move (r.inp k) = .flush := hm
    rw [Core.motion, hm']
  rw [beltWb_succ, hmotion]
  exact Conveyor.Belt.atLeast_clear (r.ids k).beltWb

/-- Once an instruction has left `mem2_stage`, only younger ones are in front of `wb_stage`. -/
theorem Retires.belt (h : r.Retires k x) (hkn : k < n) : (r.ids n).belt.AtLeast (x + 1) := by
  refine belt_atLeast hkn ?_
  obtain ⟨enters, hmotion⟩ := Core.motion_of_advances h.1
  have hsorted := r.sorted k
  rw [belt_succ, hmotion]
  unfold Ids.belt at hsorted ⊢
  rw [h.2] at hsorted ⊢
  exact hsorted.atLeast_advance enters

theorem ms2_mem (h : (r.ids n).tags.ms2 = some x) : some x ∈ (r.ids n).belt.slots := by
  simp [Ids.belt, h]

theorem ms1_mem (h : (r.ids n).tags.ms1 = some x) : some x ∈ (r.ids n).belt.slots := by
  simp [Ids.belt, h]

theorem dt_mem (h : (r.ids n).tags.dt = some x) : some x ∈ (r.ids n).belt.slots := by
  simp [Ids.belt, h]

theorem es_mem (h : (r.ids n).tags.es = some x) : some x ∈ (r.ids n).belt.slots := by
  simp [Ids.belt, h]

/-- An instruction on the belt has not left `mem2_stage` before. -/
theorem not_retires_of_mem (h : some x ∈ (r.ids n).belt.slots) (hkn : k < n) : ¬ r.Retires k x := by
  intro hr
  have := (hr.belt hkn).slot x h
  omega

/-- A flush leaves nothing on the belt that was there before. -/
theorem not_flush_of_mem (h : some x ∈ (r.ids n).belt.slots) (hkn : k < n)
    (hx : x < (r.ids k).next) : r.move k ≠ .flush := by
  intro hm
  have := (beltWb_of_flush hm hkn).slot x (List.mem_cons_of_mem _ h)
  omega

/-! ### Where a number is -/

/-- Instruction `x` was cleared away by an exception that committed before cycle `t`, or was that
exception. -/
def Annulled (r : CoreRun) (x t : ℕ) : Prop :=
  ∃ k < t, ∃ e ≤ x, r.Commits k e ∧ x < (r.ids k).next

/-- A commit finds its instruction in `mem2_stage`, older than everything else on the belt. -/
theorem commits_of_flush (hm : r.move n = .flush) :
    ∃ e, r.Commits n e ∧ ∀ x, some x ∈ (r.ids n).belt.slots → e ≤ x := by
  obtain ⟨e, he⟩ := (r.numberInv n).tagInv.ms2_of_exceptEn ((Core.move_eq_flush _ _).mp hm).2
  refine ⟨e, ⟨hm, he⟩, ?_⟩
  have hsorted := r.sorted n
  unfold Ids.belt at hsorted ⊢
  rw [he] at hsorted ⊢
  exact hsorted.atLeast_head.slot

/-- Every number that was given out is in flight, has left `mem2_stage` or was annulled. -/
theorem fate (n : ℕ) : ∀ x < (r.ids n).next,
    some x ∈ (r.ids n).belt.slots ∨ (∃ k < n, r.Retires k x) ∨ r.Annulled x n := by
  induction n with
  | zero => intro x hx; cases hx
  | succ n ih =>
    intro x hx
    have hnext : x < ((r.ids n).belt.step ((r.core n).motion (r.inp n))).next := by
      rw [← belt_succ]
      exact hx
    rw [belt_succ]
    rcases Conveyor.Belt.lt_next_step hnext with hlt | hmem
    · rcases ih x hlt with hmem | ⟨k, hk, hr⟩ | ⟨k, hk, e, he, hc, hxk⟩
      · rcases Conveyor.Belt.mem_step hmem ((r.core n).motion (r.inp n))
          with hstay | hclear | ⟨b, hadv, hhead⟩
        · exact Or.inl hstay
        · -- The belt is cleared: the exception that does it is at least as old.
          have hm : r.move n = .flush := by
            unfold Core.motion at hclear
            unfold move
            cases hm : (r.core n).move (r.inp n) <;> rw [hm] at hclear <;>
              first | rfl | cases hclear
          obtain ⟨e, hc, hle⟩ := commits_of_flush hm
          exact Or.inr (Or.inr ⟨n, by omega, e, hle x hmem, hc, hlt⟩)
        · have ha : (r.move n).advances = true := by
            unfold Core.motion at hadv
            unfold move
            cases hm : (r.core n).move (r.inp n) <;> rw [hm] at hadv <;> first | rfl | cases hadv
          have hx2 : (r.ids n).tags.ms2 = some x := Option.some.inj hhead
          exact Or.inr (Or.inl ⟨n, by omega, ha, hx2⟩)
      · exact Or.inr (Or.inl ⟨k, by omega, hr⟩)
      · exact Or.inr (Or.inr ⟨k, by omega, e, he, hc, hxk⟩)
    · exact Or.inl hmem

end CoreRun

end NeulaCpu.Rtl
