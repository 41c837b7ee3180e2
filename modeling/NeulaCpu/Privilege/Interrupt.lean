import NeulaCpu.Pipeline.Tags

/-!
# When an interrupt is taken

`id_stage` marks an instruction as an interrupt when `has_int` of the `csr` is high, and the mark
travels with it to `mem2_stage`. Nothing looks at `has_int` again there. Between the two, older CSR
writes commit and the external lines are sampled anew, so the mark can outlive its reason:
`csr_crmd[IE]` may have been cleared, or the line may be masked or gone.
-/

namespace NeulaCpu.Rtl

open BitField (splice)

/-! ## What keeps `has_int` high -/

namespace Csr

/-- Writing `w` to this register leaves interrupts enabled and an enabled line pending. -/
def keepsInt (s : Csr) (n : CsrName) (w : Word) : Bool :=
  match n with
  | .crmd => ie w == 1
  | .ecfg => lines (copyField (copyField s.ecfg 0 10 w) 11 2 w) &&& lines s.estat != 0
  | .estat => lines s.ecfg &&& lines (copyField s.estat 0 2 w) != 0
  | .ticlr => !w.getLsbD 0 || lines s.ecfg &&& lines (splice s.estat 11 0#1) != 0
  | _ => true

/-- The instruction in `mem2_stage` writes no CSR and an enabled line stays pending, or its write
keeps interrupts on. -/
def edgeKeepsInt (s : Csr) (m : DtToMsBus) (extInt : BitVec 8) : Bool :=
  if m.csrBus.csrWe then
    match CsrName.ofAddr m.csrBus.csrAddr with
    | some n => s.keepsInt n (s.csrWdataTemp m)
    | none => true
  else lines s.ecfg &&& lines (splice s.estat 2 extInt) != 0

theorem hasIntOut_iff (s : Csr) :
    s.hasIntOut = true ↔ lines s.ecfg &&& lines s.estat ≠ 0 ∧ ie s.crmd = 1 := by
  simp [hasIntOut]

theorem ie_write_crmd (s : Csr) (w : Word) : ie (s.write .crmd w).crmd = ie w := by
  have keep (x : Word) (lo width : ℕ) (h : 3 ≤ lo) : ie (copyField x lo width w) = ie x :=
    ie_splice _ _ (Or.inr h)
  simp only [write]
  rw [keep _ _ _ (by omega), keep _ _ _ (by omega), keep _ _ _ (by omega), keep _ _ _ (by omega),
    copyField, ie_splice_self]
  rfl

theorem hasIntOut_write {s : Csr} {n : CsrName} {w : Word} (h : s.hasIntOut = true)
    (hk : s.keepsInt n w = true) : (s.write n w).hasIntOut = true := by
  rw [hasIntOut_iff] at h ⊢
  cases n with
  | crmd =>
    rw [ie_write_crmd]
    exact ⟨h.1, by simpa [keepsInt] using hk⟩
  | ecfg => exact ⟨bne_iff_ne.mp hk, h.2⟩
  | estat => exact ⟨bne_iff_ne.mp hk, h.2⟩
  | ticlr =>
    by_cases hw : w.getLsbD 0 = true
    · have hl : lines s.ecfg &&& lines (splice s.estat 11 0#1) ≠ 0 := by
        simp only [keepsInt, hw, Bool.not_true, Bool.false_or] at hk
        exact bne_iff_ne.mp hk
      have he : s.write .ticlr w = { s with estat := splice s.estat 11 0#1 } := by
        simp only [write]
        rw [if_pos hw]
      rw [he]
      exact ⟨hl, h.2⟩
    · have he : s.write .ticlr w = s := by
        simp only [write]
        rw [if_neg hw]
      rw [he]
      exact h
  | _ => exact h

/-- The timer only adds a pending line. -/
theorem lines_and_splice_timer (a x : Word) (extInt : BitVec 8)
    (h : lines a &&& lines (splice x 2 extInt) ≠ 0) :
    lines a &&& lines (splice (splice x 11 1#1) 2 extInt) ≠ 0 := by
  contrapose! h
  apply BitVec.eq_of_getLsbD_eq
  intro j hj
  have hbit := congrArg (fun v => v.getLsbD j) h
  simp only [lines, BitVec.getLsbD_and, BitVec.getLsbD_extractLsb', hj, decide_true, Bool.true_and,
    Nat.zero_add] at hbit ⊢
  rw [BitField.getLsbD_splice _ _ _ _ (by omega), BitField.getLsbD_splice _ _ _ _ (by omega)]
    at hbit
  rw [BitField.getLsbD_splice _ _ _ _ (by omega)]
  by_cases hext : 2 ≤ j ∧ j < 2 + 8
  · rw [if_pos hext] at hbit ⊢
    exact hbit
  · rw [if_neg hext] at hbit ⊢
    by_cases ht : 11 ≤ j ∧ j < 11 + 1
    · obtain rfl : j = 11 := by omega
      have ha : a.getLsbD 11 = false := by simpa using hbit
      rw [ha]
      rfl
    · rw [if_neg ht] at hbit
      exact hbit

theorem hasIntOut_tick {s : Csr} {extInt : BitVec 8} (h : s.hasIntOut = true)
    (hk : lines s.ecfg &&& lines (splice s.estat 2 extInt) ≠ 0) :
    (s.tick extInt).hasIntOut = true := by
  rw [hasIntOut_iff] at h ⊢
  refine ⟨?_, h.2⟩
  simp only [tick]
  split_ifs
  · exact lines_and_splice_timer _ _ _ hk
  · exact hk

/-- An edge without an exception that keeps interrupts on. -/
theorem hasIntOut_step {s : Csr} {m : DtToMsBus} {extInt : BitVec 8} (he : exceptEn m = false)
    (h : s.hasIntOut = true) (hk : s.edgeKeepsInt m extInt = true) :
    (s.step m false extInt).hasIntOut = true := by
  have hu : (s.step m false extInt).hasIntOut = (s.update m false extInt).hasIntOut := rfl
  rw [hu, update, if_neg (by simp), if_neg (by simp [he])]
  by_cases hw : m.csrBus.csrWe = true
  · rw [edgeKeepsInt, if_pos hw] at hk
    rw [if_pos hw]
    cases hn : CsrName.ofAddr m.csrBus.csrAddr with
    | none => exact h
    | some n =>
      rw [hn] at hk
      exact hasIntOut_write h hk
  · rw [edgeKeepsInt, if_neg hw] at hk
    rw [if_neg hw]
    exact hasIntOut_tick h (by simpa using hk)

end Csr

/-! ## One cycle -/

namespace Core

variable {s : Core} {i : CoreIn}

/-- An instruction commits as an interrupt: `has_int` selects the code `ECODE_INT`. -/
def TakesInterrupt (s : Core) (i : CoreIn) : Prop :=
  s.move i = .flush ∧ s.ms2Bus.csrVec.hasInt = true ∧ s.ms2Bus.csrVec.excpAdef = false

/-- Interrupts are enabled and an enabled line is pending. -/
def IntEnabled (s : Core) : Prop :=
  Csr.ie s.ms2.csr.crmd = 1 ∧ Csr.lines s.ms2.csr.ecfg &&& Csr.lines s.ms2.csr.estat ≠ 0

/-- There is an instruction marked as an interrupt behind `mem2_stage`, or one is leaving
`id_stage`. -/
def intInFlight (s : Core) (i : CoreIn) : Bool :=
  s.esBus.csrVec.hasInt || s.dt.toMs.csrVec.hasInt || s.ms1.csrVec.hasInt ||
    (s.move i == .go && s.handsOver && s.csrHasInt)

/-- As long as a marked instruction is under way, the `csr` keeps interrupts on. -/
def IntKept (s : Core) (i : CoreIn) : Prop :=
  i.stallreqCache = false → s.exceptEn = false → s.intInFlight i = true →
    s.ms2.csr.edgeKeepsInt s.ms2Bus i.extInt = true

instance (s : Core) (i : CoreIn) : Decidable (s.TakesInterrupt i) :=
  inferInstanceAs (Decidable (_ ∧ _ ∧ _))

instance (s : Core) : Decidable s.IntEnabled := inferInstanceAs (Decidable (_ ∧ _))

instance (s : Core) (i : CoreIn) : Decidable (s.IntKept i) :=
  inferInstanceAs (Decidable (_ → _ → _ → _))

/-- Every mark in the pipeline is still justified. -/
structure IntInv (s : Core) : Prop where
  es : s.esBus.csrVec.hasInt = true → s.ms2.csr.hasIntOut = true
  dt : s.dt.toMs.csrVec.hasInt = true → s.ms2.csr.hasIntOut = true
  ms1 : s.ms1.csrVec.hasInt = true → s.ms2.csr.hasIntOut = true
  ms2 : s.ms2Bus.csrVec.hasInt = true → s.ms2.csr.hasIntOut = true

theorem intInv_reset (a b c : Word) : (reset a b c).IntInv := by
  constructor <;> intro h <;> cases h

theorem IntInv.intEnabled (h : s.IntInv) (ht : s.TakesInterrupt i) : s.IntEnabled := by
  obtain ⟨hl, hie⟩ := (Csr.hasIntOut_iff _).mp (h.ms2 ht.2.1)
  exact ⟨hie, hl⟩

/-- In a cycle without a flush, `has_int` stays high for a marked instruction. -/
theorem IntKept.hasIntOut (hk : s.IntKept i) (hm : s.move i ≠ .flush)
    (hf : s.intInFlight i = true) (h : s.ms2.csr.hasIntOut = true) :
    (s.step i).ms2.csr.hasIntOut = true := by
  rw [step_csr]
  cases hc : i.stallreqCache with
  | true => exact h
  | false =>
    have he : s.exceptEn = false := by
      by_contra he
      exact hm ((move_eq_flush s i).mpr ⟨hc, by simpa using he⟩)
    exact Csr.hasIntOut_step he h (hk hc he hf)

section

variable (h : s.IntInv) (hk : s.IntKept i) (hm : s.move i ≠ .flush)

include h hk hm

theorem IntInv.es_kept (hx : s.esBus.csrVec.hasInt = true) : (s.step i).ms2.csr.hasIntOut = true :=
  hk.hasIntOut hm (by simp [intInFlight, hx]) (h.es hx)

theorem IntInv.dt_kept (hx : s.dt.toMs.csrVec.hasInt = true) :
    (s.step i).ms2.csr.hasIntOut = true :=
  hk.hasIntOut hm (by simp [intInFlight, hx]) (h.dt hx)

theorem IntInv.ms1_kept (hx : s.ms1.csrVec.hasInt = true) : (s.step i).ms2.csr.hasIntOut = true :=
  hk.hasIntOut hm (by simp [intInFlight, hx]) (h.ms1 hx)

end

/-- A marked instruction is held in `mem2_stage` by a memory stall only, and that freezes the
`csr`. -/
theorem IntInv.ms2_kept (h : s.IntInv) (hm : s.move i = .hold)
    (hx : s.ms2Bus.csrVec.hasInt = true) : (s.step i).ms2.csr.hasIntOut = true := by
  have he : s.exceptEn = true := by
    simp [exceptEn, Csr.exceptEn, CsrVec.any, hx]
  -- The other reasons to hold need `except_en` low.
  rcases (move_eq_hold s i).mp hm with hc | ⟨hne, -⟩
  · rw [step_csr, hc]
    exact h.ms2 hx
  · rw [he] at hne
    cases hne

/-- The mark of the instruction that leaves `id_stage` is `has_int` of this cycle. -/
theorem entering_kept (hk : s.IntKept i) (hm : s.move i = .go)
    (hx : (s.step i).esBus.csrVec.hasInt = true) : (s.step i).ms2.csr.hasIntOut = true := by
  rw [step_esBus, hm] at hx
  by_cases hb : s.brTaken = true
  · simp [hb] at hx
  · by_cases hv : s.id.pcValid = true
    · have hint : s.csrHasInt = true := by
        simpa [hb, dsToEsBus, Id.dsToEsBus, hv, Decoder.csrVecL] using hx
      have hho : s.handsOver = true := by simp [handsOver, hv, hb]
      exact hk.hasIntOut (by rw [hm]; decide) (by simp [intInFlight, hm, hho, hint]) hint
    · have hq := (dsToEsBus_quiet (s := s) (by simpa using hv)).csrVec
      simp only [hb, if_false, Bool.false_eq_true, hq] at hx
      cases hx

theorem IntInv.step (h : s.IntInv) (hk : s.IntKept i) : (s.step i).IntInv := by
  obtain ⟨hes, hdt, hms1, hms2⟩ := stages_step (s := s) (i := i)
    (E := fun _ x => x.csrVec.hasInt = true → (s.step i).ms2.csr.hasIntOut = true)
    (D := fun _ x => x.toMs.csrVec.hasInt = true → (s.step i).ms2.csr.hasIntOut = true)
    (A := fun _ x => x.csrVec.hasInt = true → (s.step i).ms2.csr.hasIntOut = true)
    (B := fun _ x => x.csrVec.hasInt = true → (s.step i).ms2.csr.hasIntOut = true)
    (fun hm => by
      have hnf : s.move i ≠ .flush := by rw [hm]; decide
      exact ⟨h.es_kept hk hnf, h.dt_kept hk hnf, h.ms1_kept hk hnf, h.ms2_kept hm⟩)
    ⟨nofun, nofun, nofun, nofun⟩ nofun
    (fun hm hx => entering_kept hk hm (by rw [step_esBus, hm]; exact hx))
    (fun m hm hadv => by
      have hnf := hm ▸ Move.ne_flush_of_advances hadv
      exact ⟨h.es_kept hk hnf, h.dt_kept hk hnf, h.ms1_kept hk hnf⟩)
  exact ⟨hes, hdt, hms1, hms2⟩

end Core

/-! ## Runs -/

namespace CoreRun

/-- In every run in which the `csr` keeps interrupts on while a marked instruction is under way,
interrupts are taken only when they are enabled. -/
theorem interrupt_only_if_enabled (r : CoreRun) (n : ℕ)
    (kept : ∀ k < n, (r.core k).IntKept (r.inp k)) (taken : (r.core n).TakesInterrupt (r.inp n)) :
    (r.core n).IntEnabled := by
  have hinv : (r.core n).IntInv :=
    Clocked.invariant (A := Core.IntKept) (Core.intInv_reset _ _ _)
      (fun _ _ h hk => h.step hk) n kept
  exact hinv.intEnabled taken

/-- With external line 0 high: `addi.w $r4, $r0, 4`, `addi.w $r5, $r0, 4`, `csrwr $r4, ECFG`,
`csrwr $r5, CRMD`, which turns interrupts on, then `next` and nops. -/
def enableThen (next : Word) : CoreRun :=
  ofWords (fun n => if n = 3 then 0x02801004 else if n = 4 then 0x02801005
    else if n = 5 then 0x04001024 else if n = 6 then 0x04000025 else if n = 7 then next
    else 0x02800000) 0 1

/-- Nothing turns them off again: the interrupt is taken in cycle 16. -/
theorem interrupt_only_if_enabled_enableThenNop :
    (∀ k < 16, ((enableThen 0x02800000).core k).IntKept ((enableThen 0x02800000).inp k)) ∧
    ((enableThen 0x02800000).core 16).TakesInterrupt ((enableThen 0x02800000).inp 16) ∧
    ((enableThen 0x02800000).core 16).IntEnabled := by
  have hkept :
      ∀ k < 16, ((enableThen 0x02800000).core k).IntKept ((enableThen 0x02800000).inp k) := by
    decide +kernel
  have htaken : ((enableThen 0x02800000).core 16).TakesInterrupt
      ((enableThen 0x02800000).inp 16) := by
    decide +kernel
  exact ⟨hkept, htaken, interrupt_only_if_enabled _ 16 hkept htaken⟩

/-- `csrwr $r0, CRMD` turns them off in cycle 12, and the interrupt is taken all the same. -/
theorem interrupt_taken_after_disable :
    Csr.writesCrmd ((enableThen 0x04000020).core 12).ms2Bus = true ∧
      Csr.ie ((enableThen 0x04000020).core 13).ms2.csr.crmd = 0 ∧
      ((enableThen 0x04000020).core 16).TakesInterrupt ((enableThen 0x04000020).inp 16) ∧
      ¬ ((enableThen 0x04000020).core 16).IntEnabled := by
  decide +kernel

end CoreRun

end NeulaCpu.Rtl
