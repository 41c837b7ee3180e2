import NeulaCpu.Pipeline.Tags

/-!
# The path in the front end

`if1_stage`, `if2_stage`, `if3_stage` and `id_stage` hold pcs of one sequential path, with gaps
where a stage holds no valid pc. This module says where the pcs go in each kind of cycle, and that
the path is kept: the pc expected in `id_stage` is in the oldest stage that holds a valid pc, and
every stage behind it holds the pc after.
-/

namespace NeulaCpu.Rtl

/-- The pc of the first instruction. -/
def resetPc : Word := 0x1c000000

namespace Core

variable {e : Word} {s : Core} {i : CoreIn}

/-! ## Where the valid pcs go -/

section

variable (hm : s.move i = .hold ∨ s.move i = .bubble)

include hm

theorem id_bus_of_held : (s.step i).id.fs2ToDsBusR = s.id.fs2ToDsBusR := by
  rw [step_id_bus]
  rcases hm with hm | hm <;> rw [hm]

theorem if1_of_held : (s.step i).if1 = s.if1 := by
  rw [step_if1]
  rcases hm with hm | hm <;> rw [hm]

theorem if2_of_held (hb : s.brTaken = false) : (s.step i).if2 = s.if2 := by
  rw [step_if2]
  rcases hm with hm | hm <;> rw [hm] <;> simp [hb]

theorem if3_of_held (hb : s.brTaken = false) : (s.step i).if3 = s.if3 := by
  rw [step_if3]
  rcases hm with hm | hm <;> rw [hm] <;> simp [hb]

end

section

variable (hm : s.move i = .go) (hb : s.brTaken = false)

include hm hb

theorem id_bus_of_go : (s.step i).id.fs2ToDsBusR = s.if3 := by
  rw [step_id_bus, hm]
  simp [hb]

theorem if3_of_go : (s.step i).if3 = s.if2 := by
  rw [step_if3, hm]
  simp [hb]

theorem if2_of_go : (s.step i).if2 = ⟨s.if1.pcValid, s.if1.excpAdef, s.if1.fsPc⟩ := by
  rw [step_if2, hm]
  simp [hb, If1.fs1ToFs2Bus, brBusReal]

theorem if1_of_go : (s.step i).if1 = ⟨true, s.if1.fsPc + 4, If1.misaligned (s.if1.fsPc + 4)⟩ := by
  rw [step_if1, hm]
  simp [hb, If1.nextPc, brBusReal]

end

section

variable (hm : s.move i = .go) (hb : s.brTaken = true)

include hm hb

theorem id_bus_of_redirect : (s.step i).id.fs2ToDsBusR = .zero := by
  rw [step_id_bus, hm]
  simp [hb]

theorem if3_of_redirect : (s.step i).if3 = .zero := by
  rw [step_if3, hm]
  simp [hb]

theorem if2_of_redirect : (s.step i).if2 = .zero := by
  rw [step_if2, hm]
  simp [hb]

theorem if1_of_redirect : (s.step i).if1 = ⟨true, s.brTarget, If1.misaligned s.brTarget⟩ := by
  rw [step_if1, hm]
  simp [hb, If1.nextPc, brBusReal]

end

theorem if1_of_flush (hm : s.move i = .flush) :
    (s.step i).if1 = ⟨true, s.newPc, If1.misaligned s.newPc⟩ := by rw [step_if1, hm]

/-! ## The path -/

/-- The pc expected behind a stage in which `pc` is expected. -/
def behind (valid : Bool) (pc : Word) : Word := if valid then pc + 4 else pc

/-- The front end holds the sequential path from `e`, the pc expected in `id_stage`. -/
structure Path (e : Word) (s : Core) : Prop where
  id : s.id.pcValid = true → s.id.fs2ToDsBusR.fsPc = e
  if3 : s.if3.pcValid = true → s.if3.fsPc = behind s.id.pcValid e
  if2 : s.if2.pcValid = true → s.if2.fsPc = behind s.if3.pcValid (behind s.id.pcValid e)
  if1 : s.if1.fsPc + 4 =
    behind s.if1.pcValid (behind s.if2.pcValid (behind s.if3.pcValid (behind s.id.pcValid e)))

theorem path_reset (a b c : Word) : Path resetPc (reset a b c) := by
  refine ⟨?_, ?_, ?_, rfl⟩ <;> intro h <;> cases h

theorem Path.step_held (h : Path e s) (hm : s.move i = .hold ∨ s.move i = .bubble)
    (hb : s.brTaken = false) : Path e (s.step i) := by
  have hbus := id_bus_of_held hm
  have hvalid : (s.step i).id.pcValid = s.id.pcValid := by rw [Id.pcValid, hbus]; rfl
  have hif1 := if1_of_held hm
  have hif2 := if2_of_held hm hb
  have hif3 := if3_of_held hm hb
  constructor
  · rw [hvalid, hbus]
    exact h.id
  · rw [hif3, hvalid]
    exact h.if3
  · rw [hif2, hif3, hvalid]
    exact h.if2
  · rw [hif1, hif2, hif3, hvalid]
    exact h.if1

/-- When everything moves, `id_stage` expects the pc behind the one that leaves. -/
theorem Path.step_go (h : Path e s) (hm : s.move i = .go) (hb : s.brTaken = false) :
    Path (behind s.id.pcValid e) (s.step i) := by
  have hbus := id_bus_of_go hm hb
  have hvalid : (s.step i).id.pcValid = s.if3.pcValid := by rw [Id.pcValid, hbus]
  have hif1 := if1_of_go hm hb
  have hif2 := if2_of_go hm hb
  have hif3 := if3_of_go hm hb
  constructor
  · rw [hvalid, hbus]
    exact h.if3
  · rw [hif3, hvalid]
    exact h.if2
  · intro hv
    rw [hif2] at hv ⊢
    rw [hif3, hvalid]
    have hpc := h.if1
    have hv' : s.if1.pcValid = true := hv
    rw [hv', behind, if_pos rfl] at hpc
    simpa using hpc
  · rw [hif1, hif2, hif3, hvalid]
    change s.if1.fsPc + 4 + 4 = _ + 4
    rw [h.if1]

/-- A front end with nothing but `pc` in it. -/
theorem path_of_if1 {pc : Word} {adef : Bool} (hid : s.id.fs2ToDsBusR = .zero)
    (hif3 : s.if3 = .zero) (hif2 : s.if2 = .zero) (hif1 : s.if1 = ⟨true, pc, adef⟩) :
    Path pc s := by
  have hvalid : s.id.pcValid = false := by rw [Id.pcValid, hid]; rfl
  have zero_invalid {p : Prop} (hz : FsBus.zero.pcValid = true) : p := by cases hz
  constructor
  · intro hv
    rw [hvalid] at hv
    cases hv
  · rw [hif3]
    exact fun hz => zero_invalid hz
  · rw [hif2]
    exact fun hz => zero_invalid hz
  · rw [hif1, hif2, hif3, hvalid]
    rfl

theorem path_redirect (hm : s.move i = .go) (hb : s.brTaken = true) : Path s.brTarget (s.step i) :=
  path_of_if1 (id_bus_of_redirect hm hb) (if3_of_redirect hm hb) (if2_of_redirect hm hb)
    (if1_of_redirect hm hb)

theorem path_flush (hm : s.move i = .flush) : Path s.newPc (s.step i) := by
  apply path_of_if1
  · rw [step_id_bus, hm]
  · rw [step_if3, hm]
  · rw [step_if2, hm]
  · exact if1_of_flush hm

end Core

end NeulaCpu.Rtl
