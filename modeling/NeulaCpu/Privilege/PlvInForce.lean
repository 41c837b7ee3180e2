import NeulaCpu.Pipeline.Tags

/-!
# The privilege level an instruction was decoded with

`id_stage` decodes with `csr_plv`, the level after the instruction in `mem2_stage`. Exceptions and
`ertn` flush everything behind them, so for them that is the right level. A write to `CRMD` does not
flush: what follows it in `exe_stage`, `dt_stage` and `mem1_stage` was decoded with the old level,
and the level that `id_stage` sees while the write is in `mem2_stage` is taken from the raw write
data, without the mask of `csrxchg`. The tag of an instruction is here the level it was decoded
with.
-/

namespace NeulaCpu.Rtl

/-! ## Statement -/

namespace Core

def plvTags (t : Tags (BitVec 2)) (s : Core) (i : CoreIn) : Tags (BitVec 2) :=
  t.step (s.move i) (s.tagIn s.csrPlv)

/-- An instruction that arrives in `mem2_stage` was decoded with the level in force there; in
particular `excp_ipe` is right. Its own CSR write comes later, and `stall_flag` is clear only in the
cycle of arrival. -/
def PlvInForce (t : Tags (BitVec 2)) (s : Core) : Prop :=
  ∀ p, t.ms2 = some p → s.ms2.stallFlag = false →
    p = Csr.plv s.ms2.csr.crmd ∧
      s.ms2Bus.csrVec.excpIpe =
        (Decoder.kernelInst s.ms2Bus.inst && Csr.plv s.ms2.csr.crmd == 0b11#2)

/-- A stage with nothing but a bubble in it. -/
def Vacant (inst : Word) (v : CsrVec) : Prop := inst = 0 ∧ v.any = false

/-- A write to `CRMD` in `mem2_stage` that changes the level finds the three stages behind it
vacant. -/
def ChangesAlone (s : Core) (i : CoreIn) : Prop :=
  i.stallreqCache = false → s.exceptEn = false → Csr.writesCrmd s.ms2Bus = true →
    Csr.plv (s.ms2.csr.csrWdataTemp s.ms2Bus) ≠ Csr.plv s.ms2.csr.crmd →
    Vacant s.esBus.inst s.esBus.csrVec ∧ Vacant s.dt.toMs.inst s.dt.toMs.csrVec ∧
      Vacant s.ms1.inst s.ms1.csrVec

/-- An instruction that leaves `id_stage` in a cycle with a `CRMD` write sees the level that is
written. -/
def SeesWritten (s : Core) (i : CoreIn) : Prop :=
  s.move i = .go → s.handsOver = true → Csr.writesCrmd s.ms2Bus = true →
    Csr.plv s.ms2Bus.csrBus.csrWdata = Csr.plv (s.ms2.csr.csrWdataTemp s.ms2Bus)

def PlvSettled (s : Core) (i : CoreIn) : Prop := s.ChangesAlone i ∧ s.SeesWritten i

instance (inst : Word) (v : CsrVec) : Decidable (Vacant inst v) :=
  inferInstanceAs (Decidable (_ ∧ _))

instance (s : Core) (i : CoreIn) : Decidable (s.ChangesAlone i) :=
  inferInstanceAs (Decidable (_ → _ → _ → _ → _))

instance (s : Core) (i : CoreIn) : Decidable (s.SeesWritten i) :=
  inferInstanceAs (Decidable (_ → _ → _ → _))

instance (s : Core) (i : CoreIn) : Decidable (s.PlvSettled i) :=
  inferInstanceAs (Decidable (_ ∧ _))

end Core

/-- The levels with which the instructions in flight were decoded. -/
def CoreRun.plvTags (r : CoreRun) (n : ℕ) : Tags (BitVec 2) :=
  Clocked.ghost Core.step Core.plvTags r.start .empty r.inp n

/-! ## One cycle -/

namespace Core

variable {t : Tags (BitVec 2)} {s : Core} {i : CoreIn} {p : BitVec 2}

/-- What is known of an instruction in flight that was decoded with level `p`: the level is the one
of `crmd`, the stage is not vacant, and `excp_ipe` was computed with `p`. -/
structure DecodedWith (crmd inst : Word) (v : CsrVec) (p : BitVec 2) : Prop where
  plv : p = Csr.plv crmd
  occupied : inst ≠ 0 ∨ v.excpIne = true
  ipe : v.excpIpe = Decoder.excpIpe inst p

theorem DecodedWith.not_vacant {crmd inst : Word} {v : CsrVec} (h : DecodedWith crmd inst v p) :
    ¬ Vacant inst v := by
  rintro ⟨hi, hv⟩
  rcases h.occupied with ho | ho
  · exact ho hi
  · simp [CsrVec.any, ho] at hv

structure PlvInv (t : Tags (BitVec 2)) (s : Core) : Prop where
  es : ∀ p, t.es = some p → DecodedWith s.ms2.csr.crmd s.esBus.inst s.esBus.csrVec p
  dt : ∀ p, t.dt = some p → DecodedWith s.ms2.csr.crmd s.dt.toMs.inst s.dt.toMs.csrVec p
  ms1 : ∀ p, t.ms1 = some p → DecodedWith s.ms2.csr.crmd s.ms1.inst s.ms1.csrVec p
  ms2 : ∀ p, t.ms2 = some p → s.ms2.stallFlag = false →
    DecodedWith s.ms2.csr.crmd s.ms2Bus.inst s.ms2Bus.csrVec p

theorem PlvInv.plvInForce (h : PlvInv t s) : PlvInForce t s := by
  intro p hp hf
  have hd := h.ms2 p hp hf
  refine ⟨hd.plv, ?_⟩
  rw [hd.ipe, Decoder.excpIpe, hd.plv]

theorem plvInv_reset (a b c : Word) : PlvInv .empty (reset a b c) := by
  constructor <;> intro p hp <;> cases hp

/-- The level after a cycle without a flush. -/
theorem plv_step_of_not_flush (hm : s.move i ≠ .flush) : Csr.plv (s.step i).ms2.csr.crmd =
      if !i.stallreqCache && Csr.writesCrmd s.ms2Bus then
        Csr.plv (s.ms2.csr.csrWdataTemp s.ms2Bus)
      else Csr.plv s.ms2.csr.crmd := by
  rw [step_csr]
  cases hc : i.stallreqCache with
  | true =>
    rw [Csr.step_crmd_of_stall]
    rfl
  | false =>
    have he : s.exceptEn = false := by
      by_contra he
      exact hm ((move_eq_flush s i).mpr ⟨hc, by simpa using he⟩)
    rw [Csr.plv_step he]
    rfl

/-- As long as an instruction in `exe_stage`, `dt_stage` or `mem1_stage` depends on it, the level
stays. -/
theorem PlvSettled.plv_eq (h : PlvSettled s i) (hm : s.move i ≠ .flush)
    (hv : ¬ (Vacant s.esBus.inst s.esBus.csrVec ∧ Vacant s.dt.toMs.inst s.dt.toMs.csrVec ∧
      Vacant s.ms1.inst s.ms1.csrVec)) :
    Csr.plv (s.step i).ms2.csr.crmd = Csr.plv s.ms2.csr.crmd := by
  rw [plv_step_of_not_flush hm]
  split_ifs with hw
  · simp only [Bool.and_eq_true, Bool.not_eq_true'] at hw
    by_contra hne
    have he : s.exceptEn = false := by
      by_contra he
      exact hm ((move_eq_flush s i).mpr ⟨hw.1, by simpa using he⟩)
    exact hv (h.1 hw.1 he hw.2 hne)
  · rfl

theorem DecodedWith.kept {crmd inst : Word} {v : CsrVec}
    (h : DecodedWith s.ms2.csr.crmd inst v p) (hc : Csr.plv crmd = Csr.plv s.ms2.csr.crmd) :
    DecodedWith crmd inst v p :=
  ⟨by rw [hc, h.plv], h.occupied, h.ipe⟩

section

variable (h : PlvInv t s) (hs : PlvSettled s i) (hm : s.move i ≠ .flush)

include h hs hm

theorem PlvInv.es_kept (hp : t.es = some p) :
    DecodedWith (s.step i).ms2.csr.crmd s.esBus.inst s.esBus.csrVec p :=
  (h.es p hp).kept (hs.plv_eq hm fun hv => (h.es p hp).not_vacant hv.1)

theorem PlvInv.dt_kept (hp : t.dt = some p) :
    DecodedWith (s.step i).ms2.csr.crmd s.dt.toMs.inst s.dt.toMs.csrVec p :=
  (h.dt p hp).kept (hs.plv_eq hm fun hv => (h.dt p hp).not_vacant hv.2.1)

theorem PlvInv.ms1_kept (hp : t.ms1 = some p) :
    DecodedWith (s.step i).ms2.csr.crmd s.ms1.inst s.ms1.csrVec p :=
  (h.ms1 p hp).kept (hs.plv_eq hm fun hv => (h.ms1 p hp).not_vacant hv.2.2)

end

/-- The instruction that leaves `id_stage` takes the level with it that is in force after the
edge. -/
theorem decodedWith_entering (hs : PlvSettled s i) (hm : s.move i = .go)
    (hp : s.tagIn s.csrPlv = some p) :
    DecodedWith (s.step i).ms2.csr.crmd (s.step i).esBus.inst (s.step i).esBus.csrVec p := by
  have hho : s.handsOver = true := by
    by_contra hno
    simp [tagIn, hno] at hp
  obtain rfl : s.csrPlv = p := by simpa [tagIn, hho] using hp
  obtain ⟨hv, hb⟩ : s.id.pcValid = true ∧ s.brTaken = false := by simpa [handsOver] using hho
  obtain ⟨hcache, hexc, -, -⟩ := (move_eq_go s i).mp hm
  have hbus : (s.step i).esBus = s.dsToEsBus := by
    rw [step_esBus, hm]
    simp [hb]
  rw [hbus]
  refine ⟨?_, ?_, ?_⟩
  · -- No exception is committing, so `csr_plv` is the raw data of a `CRMD` write or the old level.
    have hany : s.ms2Bus.csrVec.any = false := hexc
    have hertn : s.ms2Bus.csrVec.instErtn = false := by
      simp only [CsrVec.any, Bool.or_eq_false_iff] at hany
      exact hany.1.2
    have hplv : s.csrPlv = if Csr.writesCrmd s.ms2Bus then Csr.plv s.ms2Bus.csrBus.csrWdata
        else Csr.plv s.ms2.csr.crmd := by
      simp only [csrPlv, Csr.plvOut, Csr.exceptEn, hany, hertn, Csr.writesCrmd]
      rfl
    rw [plv_step_of_not_flush (by rw [hm]; decide), hplv, hcache]
    by_cases hw : Csr.writesCrmd s.ms2Bus = true
    · rw [if_pos hw, if_pos (by simpa using hw), hs.2 hm hho hw]
    · rw [if_neg hw, if_neg (by simpa using hw)]
  · -- The word 0 is not an instruction.
    by_cases hz : s.id.instSramRdataR = 0
    · right
      simp only [dsToEsBus, Id.dsToEsBus, Id.inst, hv, if_true, hz]
      rfl
    · left
      simpa [dsToEsBus, Id.dsToEsBus, Id.inst, hv] using hz
  · simp only [dsToEsBus, Id.dsToEsBus, Id.inst, hv, if_true]
    rfl

theorem PlvInv.step (h : PlvInv t s) (hs : PlvSettled s i) : PlvInv (plvTags t s i) (s.step i) := by
  obtain ⟨hes, hdt, hms1, hms2⟩ := stages_step (s := s) (i := i)
    (E := fun m x => ∀ p, (t.step m (s.tagIn s.csrPlv)).es = some p →
      DecodedWith (s.step i).ms2.csr.crmd x.inst x.csrVec p)
    (D := fun m x => ∀ p, (t.step m (s.tagIn s.csrPlv)).dt = some p →
      DecodedWith (s.step i).ms2.csr.crmd x.toMs.inst x.toMs.csrVec p)
    (A := fun m x => ∀ p, (t.step m (s.tagIn s.csrPlv)).ms1 = some p →
      DecodedWith (s.step i).ms2.csr.crmd x.inst x.csrVec p)
    (B := fun m x => ∀ p, (t.step m (s.tagIn s.csrPlv)).ms2 = some p → (s.step i).ms2.stallFlag =
      false → DecodedWith (s.step i).ms2.csr.crmd x.inst x.csrVec p)
    (fun hm => by
      have hnf : s.move i ≠ .flush := by rw [hm]; decide
      refine ⟨fun p => h.es_kept hs hnf, fun p => h.dt_kept hs hnf, fun p => h.ms1_kept hs hnf, ?_⟩
      -- What stays in `mem2_stage` has been looked at in its first cycle there.
      intro p _ hf
      rw [step_ms2_stallFlag, hm] at hf
      cases hf)
    ⟨nofun, nofun, nofun, nofun⟩ nofun
    (fun hm p hp => by
      have hd := decodedWith_entering hs hm hp
      rw [step_esBus, hm] at hd
      exact hd)
    (fun m hm hadv => by
      have hnf := hm ▸ Move.ne_flush_of_advances hadv
      obtain ⟨hdt, hms1, hms2⟩ := t.step_of_advances (s.tagIn s.csrPlv) hadv
      rw [hdt, hms1, hms2]
      refine ⟨fun p hp => ?_, fun p => h.dt_kept hs hnf, fun p hp _ => h.ms1_kept hs hnf hp⟩
      have hk := h.es_kept hs hnf hp
      exact ⟨hk.plv, hk.occupied, hk.ipe⟩)
  exact ⟨hes, hdt, hms1, hms2⟩

end Core

/-! ## Runs -/

namespace CoreRun

/-- In every run in which every change of the level by a CSR write is settled, the level an
instruction was decoded with is the one in force when it reaches `mem2_stage`. -/
theorem plv_in_force (r : CoreRun) (n : ℕ) (settled : ∀ k < n, (r.core k).PlvSettled (r.inp k)) :
    Core.PlvInForce (r.plvTags n) (r.core n) := by
  apply Core.PlvInv.plvInForce
  refine Clocked.ghost_invariant (P := Core.PlvInv) (A := fun _ s i => s.PlvSettled i)
    (Core.plvInv_reset _ _ _) ?_ n ?_
  · intro t s i h hs
    exact h.step hs
  · exact settled

/-- `addi.w $r4, $r0, level`, `csrwr $r4, CRMD`, `csrrd $r5, CRMD`. -/
def crmdWrite (level : BitVec 12) : CoreRun :=
  ofWords (fun n => if n = 3 then 0b0000001010#10 ++ level ++ 0x004#10 else if n = 4 then 0x04000024
    else if n = 5 then 0x04000005 else 0x02800000) 0 0

/-- A write that keeps level 0: the `csrrd` behind it reaches `mem2_stage` in cycle 10. -/
theorem plv_in_force_crmdWrite :
    (∀ k < 10, ((crmdWrite 8).core k).PlvSettled ((crmdWrite 8).inp k)) ∧
      ((crmdWrite 8).core 10).ms2Bus.inst = 0x04000005 ∧
    Core.PlvInForce ((crmdWrite 8).plvTags 10) ((crmdWrite 8).core 10) := by
  have hset : ∀ k < 10, ((crmdWrite 8).core k).PlvSettled ((crmdWrite 8).inp k) := by
    decide +kernel
  exact ⟨hset, by decide +kernel, plv_in_force _ 10 hset⟩

/-- A write that changes to level 3: the `csrrd` behind it was decoded at level 0 and reads `CRMD`
at level 3 without an exception. -/
theorem crmdWrite_to_user_mode :
    ((crmdWrite 3).core 10).ms2Bus.inst = 0x04000005 ∧
      ((crmdWrite 3).core 10).ms2.stallFlag = false ∧
      ((crmdWrite 3).plvTags 10).ms2 = some 0 ∧ Csr.plv ((crmdWrite 3).core 10).ms2.csr.crmd = 3 ∧
      ((crmdWrite 3).core 10).ms2Bus.csrVec.any = false ∧
      ¬ Core.PlvInForce ((crmdWrite 3).plvTags 10) ((crmdWrite 3).core 10) := by
  have htag : ((crmdWrite 3).plvTags 10).ms2 = some 0 := by decide +kernel
  have hplv : Csr.plv ((crmdWrite 3).core 10).ms2.csr.crmd = 3 := by decide +kernel
  have hflag : ((crmdWrite 3).core 10).ms2.stallFlag = false := by decide +kernel
  refine ⟨by decide +kernel, hflag, htag, hplv, by decide +kernel, fun h => ?_⟩
  have hp := (h 0 htag hflag).1
  rw [hplv] at hp
  exact absurd hp (by decide)

end CoreRun

end NeulaCpu.Rtl
