import NeulaCpu.Pipeline.Cancel

/-!
# Following instructions down the pipeline

A tag is attached to every valid instruction as it enters `exe_stage` and moves with it through
`dt_stage` and `mem1_stage` to `mem2_stage`. Tags are ghost state: the core does not know them. A
stage without a tag holds a bubble, and a bubble has no effect of any kind.
-/

namespace NeulaCpu.Rtl

/-! ## Bubbles -/

/-- A bubble in `exe_stage`: it raises no exception, takes no branch, makes no memory access, starts
no multiplication and writes nothing. -/
structure DsToEsBus.Quiet (r : DsToEsBus) : Prop where
  csrVec : r.csrVec = .zero
  branchOp : r.branchOp = .zero
  loadOp : r.loadOp = .zero
  storeOp : r.storeOp = .zero
  mulDivOp : r.mulDivOp = .zero
  regWe : r.regWe = false
  csrWe : r.csrWe = false

/-- A bubble past `exe_stage`. -/
structure DtToMsBus.Quiet (m : DtToMsBus) : Prop where
  csrVec : m.csrVec.any = false
  regWe : m.regWe = false
  csrWe : m.csrBus.csrWe = false

theorem DsToEsBus.Quiet.zero : DsToEsBus.zero.Quiet := ⟨rfl, rfl, rfl, rfl, rfl, rfl, rfl⟩

theorem DtToMsBus.Quiet.zero : DtToMsBus.zero.Quiet := ⟨rfl, rfl, rfl⟩

namespace Exe

variable {r : DsToEsBus}

theorem csrVec_of_quiet (h : r.Quiet) (src1 : Word) : (csrVec r src1).any = false := by
  rw [csrVec, h.csrVec, excpAle, h.loadOp, h.storeOp, Lsu.excpAle_zero]
  rfl

theorem dataSram_of_quiet (h : r.Quiet) (cancel : Bool) (src1 src2 : Word) :
    (dataSram r cancel src1 src2).en = false := by
  simp only [dataSram, h.loadOp, h.storeOp, Lsu.dataSramEn, StoreOp.any_zero, LoadOp.any_zero,
    Bool.or_self, ite_self]

theorem brBus_of_quiet (h : r.Quiet) (cancel : Bool) (src1 src2 : Word) :
    (brBus r cancel src1 src2).brTaken = false := by
  simp only [brBus, h.branchOp, Bru.brTaken_zero, Bool.false_and]

end Exe

namespace Core

variable {s : Core} {i : CoreIn}

/-- `id_stage` without a valid pc decodes the word 0 and masks the rest. -/
theorem dsToEsBus_quiet (h : s.id.pcValid = false) : s.dsToEsBus.Quiet := by
  have hinst : s.id.inst = 0 := by simp [Id.inst, h]
  constructor <;> simp only [dsToEsBus, Id.dsToEsBus, h, hinst, Bool.and_false] <;> rfl

theorem esToDtsBus_quiet (h : s.esBus.Quiet) :
    s.esToDtsBus.toMs.Quiet ∧ s.esToDtsBus.dataSram.en = false :=
  ⟨⟨Exe.csrVec_of_quiet h _, h.regWe, h.csrWe⟩, Exe.dataSram_of_quiet h _ _ _⟩

theorem brBus_of_quiet (h : s.esBus.Quiet) : s.brBus.brTaken = false :=
  Exe.brBus_of_quiet h _ _ _

end Core

/-! ## Tags -/

/-- The tags of the instructions in `exe_stage`, `dt_stage`, `mem1_stage` and `mem2_stage`. -/
structure Tags (α : Type) where
  es : Option α
  dt : Option α
  ms1 : Option α
  ms2 : Option α
deriving DecidableEq, Repr

namespace Tags

variable {α : Type}

@[simps] def empty : Tags α := ⟨none, none, none, none⟩

/-- The tags after a clock edge; `entering` is the tag of what `id_stage` hands over. -/
def step (t : Tags α) (m : Move) (entering : Option α) : Tags α :=
  match m with
  | .hold => t
  | .flush => empty
  | .bubble => ⟨none, t.es, t.dt, t.ms1⟩
  | .go => ⟨entering, t.es, t.dt, t.ms1⟩

theorem step_of_advances (t : Tags α) {m : Move} (entering : Option α) (h : m.advances = true) :
    (t.step m entering).dt = t.es ∧ (t.step m entering).ms1 = t.dt ∧
      (t.step m entering).ms2 = t.ms1 := by
  cases m with
  | hold | flush => cases h
  | bubble | go => exact ⟨rfl, rfl, rfl⟩

end Tags

namespace Core

/-- `id_stage` hands a valid instruction to `exe_stage`, if the pipeline moves. -/
def handsOver (s : Core) : Bool := s.id.pcValid && !s.brTaken

/-- The tag `a` for the instruction that `id_stage` hands over, if there is one. -/
def tagIn {α : Type} (s : Core) (a : α) : Option α := if s.handsOver then some a else none

/-- Stages without a tag hold bubbles. -/
structure TagInv {α : Type} (t : Tags α) (s : Core) : Prop where
  es : t.es = none → s.esBus.Quiet
  dt : t.dt = none → s.dt.toMs.Quiet ∧ s.dt.dataSram.en = false
  ms1 : t.ms1 = none → s.ms1.Quiet
  ms2 : t.ms2 = none → s.ms2Bus.Quiet

variable {α : Type} {t : Tags α} {s : Core} {i : CoreIn}

theorem tagInv_reset (a b c : Word) : TagInv (Tags.empty : Tags α) (reset a b c) :=
  ⟨fun _ => .zero, fun _ => ⟨.zero, rfl⟩, fun _ => .zero, fun _ => .zero⟩

/-- What enters `exe_stage` without a tag is a bubble. -/
theorem entering_quiet (a : α) (h : s.tagIn a = none) :
    (if s.brTaken then DsToEsBus.zero else s.dsToEsBus).Quiet := by
  cases hb : s.brTaken with
  | true => exact .zero
  | false =>
    apply dsToEsBus_quiet
    by_contra hv
    simp [tagIn, handsOver, hb, hv] at h

theorem TagInv.step (h : TagInv t s) (a : α) :
    TagInv (t.step (s.move i) (s.tagIn a)) (s.step i) := by
  obtain ⟨hes, hdt, hms1, hms2⟩ := stages_step (s := s) (i := i)
    (E := fun m x => (t.step m (s.tagIn a)).es = none → x.Quiet)
    (D := fun m x => (t.step m (s.tagIn a)).dt = none → x.toMs.Quiet ∧ x.dataSram.en = false)
    (A := fun m x => (t.step m (s.tagIn a)).ms1 = none → x.Quiet)
    (B := fun m x => (t.step m (s.tagIn a)).ms2 = none → x.Quiet)
    (fun _ => ⟨h.es, h.dt, h.ms1, h.ms2⟩)
    ⟨fun _ => .zero, fun _ => ⟨.zero, rfl⟩, fun _ => .zero, fun _ => .zero⟩
    (fun _ => .zero) (fun _ => entering_quiet a) (by
      intro m _ hadv
      obtain ⟨hdt, hms1, hms2⟩ := t.step_of_advances (s.tagIn a) hadv
      rw [hdt, hms1, hms2]
      exact ⟨fun hx => esToDtsBus_quiet (h.es hx), fun hx => (h.dt hx).1, h.ms1⟩)
  exact ⟨hes, hdt, hms1, hms2⟩

/-- In a flush `mem2_stage` holds an instruction. -/
theorem TagInv.ms2_of_exceptEn (h : TagInv t s) (he : s.exceptEn = true) : ∃ x, t.ms2 = some x := by
  cases hx : t.ms2 with
  | none =>
    have := (h.ms2 hx).csrVec
    rw [exceptEn, Csr.exceptEn, this] at he
    cases he
  | some x => exact ⟨x, rfl⟩

end Core

end NeulaCpu.Rtl
