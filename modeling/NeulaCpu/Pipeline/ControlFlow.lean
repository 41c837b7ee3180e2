import NeulaCpu.Pipeline.Fetch

/-!
# Control flow is exact

The instructions that leave `exe_stage` are compared with the sequential execution from the reset
pc. A redirect that meets a stalled front end waits in `br_taken_buffer`; the word of the pc in
`if3_stage` is either on `inst_sram_rdata` or, once the front end has been held, in the skid buffer
of `id_stage`. The invariant ties the path in the front end to the pc that the sequential execution
expects next.
-/

namespace NeulaCpu.Rtl

/-! ## The sequential order -/

/-- An instruction as it is handed to `dt_stage`, with what `bru` says about it. -/
structure Handed where
  pc : Word
  inst : Word
  bru : BrBus
deriving DecidableEq, Repr

/-- The pc that comes next. -/
def Handed.nextPc (e : Handed) : Word := if e.bru.brTaken then e.bru.brTarget else e.pc + 4

/-- The pc that comes after the instructions in the list. -/
def nextPc (l : List Handed) : Word := (l.getLast?.map Handed.nextPc).getD resetPc

/-- The list is the beginning of the sequential execution of `imem` from the reset pc. -/
structure InOrder (imem : Word → Word) (l : List Handed) : Prop where
  first : ∀ e, l.head? = some e → e.pc = resetPc
  follows : l.IsChain fun a b => b.pc = a.nextPc
  word : ∀ e ∈ l, e.inst = imem e.pc

theorem nextPc_append (l : List Handed) (e : Handed) : nextPc (l ++ [e]) = e.nextPc := by
  simp [nextPc]

theorem InOrder.nil (imem : Word → Word) : InOrder imem [] :=
  ⟨by simp, List.isChain_nil, by simp⟩

theorem InOrder.append {imem : Word → Word} {l : List Handed} {e : Handed} (h : InOrder imem l)
    (hpc : e.pc = nextPc l) (hw : e.inst = imem e.pc) : InOrder imem (l ++ [e]) := by
  refine ⟨?_, ?_, ?_⟩
  · intro x hx
    cases l with
    | nil =>
      obtain rfl : e = x := by simpa using hx
      exact hpc
    | cons a as => exact h.first x (by simpa using hx)
  · refine h.follows.append (List.isChain_singleton e) ?_
    intro x hx y hy
    obtain rfl : e = y := by simpa using hy
    rw [hpc, nextPc, Option.mem_def.mp hx]
    rfl
  · intro x hx
    rcases List.mem_append.mp hx with hx | hx
    · exact h.word x hx
    · obtain rfl := List.mem_singleton.mp hx
      exact hw

/-! ## What is observed -/

/-- What is known of a run beside the registers: where there are instructions, the address of an
icache access of the previous cycle, what has been handed over, and in how many cycles the whole
pipeline moved. -/
structure Flow where
  tags : Tags Unit
  fetched : Option Word
  handed : List Handed
  moved : ℕ

namespace Flow

def start : Flow := ⟨.empty, none, [], 0⟩

/-- The instruction in `exe_stage` as it would be handed over now. -/
def leaving (s : Core) : Handed where
  pc := s.esBus.dsPc
  inst := s.esBus.inst
  bru := ⟨Bru.brTaken s.esBus.branchOp s.src1 s.src2,
    Bru.brTarget s.esBus.branchOp s.esBus.dsPc s.src1 s.esBus.imm⟩

/-- What has been handed over once `exe_stage` moves. -/
def handOver (g : Flow) (s : Core) : List Handed :=
  if g.tags.es.isSome then g.handed ++ [leaving s] else g.handed

def observe (g : Flow) (s : Core) (i : CoreIn) : Flow where
  tags := g.tags.step (s.move i) (s.tagIn ())
  fetched := if s.instSramEn && !i.stallreqIcache then some s.instSramAddr else none
  handed := if (s.move i).advances then g.handOver s else g.handed
  moved := if s.move i = .go then g.moved + 1 else g.moved

end Flow

/-- What is observed of a run in `n` cycles. -/
def CoreRun.flow (r : CoreRun) (n : ℕ) : Flow :=
  Clocked.ghost Core.step Flow.observe r.start .start r.inp n

/-! ## The words in the front end -/

namespace Core

variable {imem : Word → Word} {fetched : Option Word} {e : Word} {s : Core} {i : CoreIn}

/-- `id_stage` holds the word of its pc; the word of the pc in `if3_stage` is in the skid buffer, or
it was asked for in the previous cycle. -/
structure Words (imem : Word → Word) (fetched : Option Word) (s : Core) : Prop where
  id : s.id.pcValid = true → s.id.instSramRdataR = imem s.id.fs2ToDsBusR.fsPc
  buffer : s.if3.pcValid = true → s.id.stallFlag = true → s.id.instSramRdataBuffer = imem s.if3.fsPc
  fetched : s.if3.pcValid = true → s.id.stallFlag = false → fetched = some s.if3.fsPc

/-- The word that was asked for in the previous cycle arrives. -/
def Arrives (imem : Word → Word) (fetched : Option Word) (i : CoreIn) : Prop :=
  ∀ p, fetched = some p → i.instSramRdata = imem p

/-- The word of the pc in `if3_stage`, when it is taken into the skid buffer or into `id_stage`. -/
theorem Words.if3 (h : Words imem fetched s) (hw : Arrives imem fetched i)
    (hv : s.if3.pcValid = true) :
    (if s.id.stallFlag then s.id.instSramRdataBuffer else i.instSramRdata) = imem s.if3.fsPc := by
  by_cases hf : s.id.stallFlag = true
  · rw [if_pos hf, h.buffer hv hf]
  · rw [if_neg hf, hw _ (h.fetched hv (by simpa using hf))]

theorem Words.step_held (h : Words imem fetched s) (hm : s.move i = .hold ∨ s.move i = .bubble)
    (hb : s.brTaken = false) (hw : Arrives imem fetched i) (fetched' : Option Word) :
    Words imem fetched' (s.step i) := by
  have hbus := id_bus_of_held hm
  have hvalid : (s.step i).id.pcValid = s.id.pcValid := by rw [Id.pcValid, hbus]; rfl
  have hword : (s.step i).id.instSramRdataR = s.id.instSramRdataR := by
    rw [step_id_instSramRdataR]
    rcases hm with hm | hm <;> rw [hm]
  have hflag : (s.step i).id.stallFlag = true := by
    rw [step_id_stallFlag]
    rcases hm with hm | hm <;> rw [hm]
  constructor
  · rw [hvalid, hword, hbus]
    exact h.id
  · intro hv _
    rw [if3_of_held hm hb] at hv ⊢
    rw [step_id_buffer s i hm]
    simpa [hb] using h.if3 hw hv
  · intro _ hf
    rw [hflag] at hf
    cases hf

theorem Words.step_go (h : Words imem fetched s) (hm : s.move i = .go) (hb : s.brTaken = false)
    (hw : Arrives imem fetched i) :
    Words imem (if s.instSramEn && !i.stallreqIcache then some s.instSramAddr else none)
      (s.step i) := by
  have hbus := id_bus_of_go hm hb
  have hvalid : (s.step i).id.pcValid = s.if3.pcValid := by rw [Id.pcValid, hbus]
  have hword : (s.step i).id.instSramRdataR =
      if s.id.stallFlag then s.id.instSramRdataBuffer else i.instSramRdata := by
    rw [step_id_instSramRdataR, hm]
    simp [hb]
  have hflag : (s.step i).id.stallFlag = false := by rw [step_id_stallFlag, hm]
  have hcache : i.stallreqIcache = false := by
    have hc := ((move_eq_go s i).mp hm).1
    simp only [CoreIn.stallreqCache, Bool.or_eq_false_iff] at hc
    exact hc.1.2
  constructor
  · intro hv
    rw [hvalid] at hv
    rw [hword, hbus, h.if3 hw hv]
  · intro _ hf
    rw [hflag] at hf
    cases hf
  · -- The access of this cycle is the one of the pc that moves to `if3_stage`.
    intro hv _
    rw [if3_of_go hm hb] at hv ⊢
    have hen : s.instSramEn = true := by rw [instSramEn, hb, hv]; rfl
    rw [hen, hcache]
    rfl

/-- After a redirect there is no word to be right or wrong. -/
theorem words_redirect (hm : s.move i = .go) (hb : s.brTaken = true) (fetched' : Option Word) :
    Words imem fetched' (s.step i) := by
  have zero_invalid {p : Prop} (hz : FsBus.zero.pcValid = true) : p := by cases hz
  constructor
  · rw [Id.pcValid, id_bus_of_redirect hm hb]
    exact fun hz => zero_invalid hz
  · rw [if3_of_redirect hm hb]
    exact fun hz => zero_invalid hz
  · rw [if3_of_redirect hm hb]
    exact fun hz => zero_invalid hz

/-- The front end holds the path from `e` and its words. -/
structure Front (imem : Word → Word) (fetched : Option Word) (e : Word) (s : Core) : Prop where
  path : Path e s
  words : Words imem fetched s

theorem front_reset (a b c : Word) : Front imem none resetPc (reset a b c) := by
  refine ⟨path_reset a b c, ?_, ?_, ?_⟩ <;> intro h <;> cases h

end Core

/-! ## The invariant of a run -/

open NeulaCpu.Rtl.Core (TagInv Front behind)

variable {imem : Word → Word} {g : Flow} {s : Core} {i : CoreIn}

/-- The instruction in `exe_stage` raises no exception. -/
def Core.Unexceptional (s : Core) : Prop := s.esToDtsBus.toMs.csrVec.any = false

/-- The redirect that waits in `br_taken_buffer` is the one of the taken branch held in `exe_stage`,
or of the last instruction handed over. -/
def Flow.Pending (g : Flow) (s : Core) : Prop :=
  if g.tags.es.isSome then s.brBus.brTaken = true ∧ s.brTargetBuffer = s.brBus.brTarget
  else s.brTargetBuffer = nextPc g.handed

structure FlowInv (imem : Word → Word) (g : Flow) (s : Core) : Prop where
  tagInv : TagInv g.tags s
  cancelInv : s.CancelInv
  calm : s.es.csrCancelReg = false
  order : InOrder imem g.handed
  es_pc : g.tags.es.isSome = true → s.esBus.dsPc = nextPc g.handed
  es_word : g.tags.es.isSome = true → s.esBus.inst = imem s.esBus.dsPc
  front : s.brTakenBuffer = false →
    Front imem g.fetched (behind g.tags.es.isSome (nextPc g.handed)) s
  pending : s.brTakenBuffer = true → g.Pending s

theorem flowInv_reset (a b c : Word) : FlowInv imem .start (.reset a b c) where
  tagInv := Core.tagInv_reset a b c
  cancelInv := Core.cancelInv_reset a b c
  calm := rfl
  order := .nil imem
  es_pc := by intro h; cases h
  es_word := by intro h; cases h
  front := fun _ => Core.front_reset a b c
  pending := by intro h; cases h

namespace FlowInv

section

variable (h : FlowInv imem g s)

include h

/-- Without an exception in the pipeline there is no flush. -/
theorem not_flush : s.move i ≠ .flush := by
  intro hm
  have he := ((Core.move_eq_flush s i).mp hm).2
  have hc := h.cancelInv.ms2 he
  rw [h.calm] at hc
  cases hc

/-- Outside the shadow of an exception `br_bus` is what `bru` says. -/
theorem brBus_eq (hu : s.Unexceptional) : s.brBus = (Flow.leaving s).bru := by
  have hcancel : Exe.csrCancel s.esBus s.src1 = false := by
    rw [Exe.csrCancel_eq]
    exact hu
  have hb : s.brBus = Exe.brBus s.esBus s.es.csrCancelReg s.src1 s.src2 := rfl
  rw [hb, h.calm, Exe.brBus, hcancel]
  simp [Flow.leaving]

theorem es_of_brTaken (hb : s.brBus.brTaken = true) : g.tags.es.isSome = true := by
  by_contra hes
  have hq := h.tagInv.es (by simpa using hes)
  rw [Core.brBus_of_quiet hq] at hb
  cases hb

/-- If an instruction is in `exe_stage` then a redirect is its own. -/
theorem brBus_of_es (hes : g.tags.es.isSome = true) (hb : s.brTaken = true) :
    s.brBus.brTaken = true := by
  by_cases hbuf : s.brTakenBuffer = true
  · have hp := h.pending hbuf
    rw [Flow.Pending, if_pos hes] at hp
    exact hp.1
  · simpa [Core.brTaken, hbuf] using hb

/-- Once `exe_stage` has moved, a redirect leads to the pc that comes next. -/
theorem brTarget_eq (hu : s.Unexceptional) (hb : s.brTaken = true) :
    s.brTarget = nextPc (g.handOver s) := by
  by_cases hes : g.tags.es.isSome = true
  · have ht := h.brBus_of_es hes hb
    have hbru := h.brBus_eq hu
    rw [Flow.handOver, if_pos hes, nextPc_append, Handed.nextPc, ← hbru, Core.brTarget, if_pos ht,
      if_pos ht]
  · have ht : s.brBus.brTaken = false := by
      by_contra ht
      exact hes (h.es_of_brTaken (by simpa using ht))
    have hbuf : s.brTakenBuffer = true := by simpa [Core.brTaken, ht] using hb
    have hp := h.pending hbuf
    rw [Flow.Pending, if_neg hes] at hp
    rw [Flow.handOver, if_neg hes, Core.brTarget, if_neg (by simp [ht]), if_pos hbuf, hp]

/-- Without a redirect it is the pc behind. -/
theorem nextPc_eq (hu : s.Unexceptional) (hb : s.brTaken = false) :
    nextPc (g.handOver s) = behind g.tags.es.isSome (nextPc g.handed) := by
  by_cases hes : g.tags.es.isSome = true
  · have hnt : (Flow.leaving s).bru.brTaken = false := by
      rw [← h.brBus_eq hu]
      simp only [Core.brTaken, Bool.or_eq_false_iff] at hb
      exact hb.1
    rw [Flow.handOver, if_pos hes, nextPc_append, Handed.nextPc, if_neg (by simp [hnt]), behind,
      if_pos hes, ← h.es_pc hes]
    rfl
  · rw [Flow.handOver, if_neg hes, behind, if_neg hes]

theorem order_handOver : InOrder imem (g.handOver s) := by
  rw [Flow.handOver]
  split_ifs with hes
  · exact h.order.append (h.es_pc hes) (h.es_word hes)
  · exact h.order

theorem calm_step (hu : s.Unexceptional) : (s.step i).es.csrCancelReg = false := by
  rw [Core.step_csrCancelReg, Core.csrCancel_eq]
  cases s.move i <;> simp only [] <;> rw [hu, h.calm] <;> rfl

/-- The front end is not redirected and there is no pending redirect. -/
theorem front_of_not_brTaken (hb : s.brTaken = false) :
    Front imem g.fetched (behind g.tags.es.isSome (nextPc g.handed)) s := by
  simp only [Core.brTaken, Bool.or_eq_false_iff] at hb
  exact h.front hb.2

/-! ### Cycles that hold everything -/

/-- Nothing changes in `exe_stage` while it is held. -/
theorem brBus_step_of_hold (hu : s.Unexceptional) (hm : s.move i = .hold) :
    (s.step i).brBus = s.brBus := by
  have hes : (s.step i).es.dsToEsBusR = s.es.dsToEsBusR := by
    have := Core.step_esBus s i
    rwa [hm] at this
  have hfwd : (s.step i).fwd = s.fwd := by rw [Core.step_fwd, hm]
  have hc := h.calm_step (i := i) hu
  rw [← h.calm] at hc
  simp only [Core.brBus, Es.brBus, Es.src1, Es.src2, hes, hfwd, hc]

theorem step_hold (hu : s.Unexceptional) (hm : s.move i = .hold)
    (hw : Core.Arrives imem g.fetched i) : FlowInv imem (g.observe s i) (s.step i) := by
  have htags : (g.observe s i).tags = g.tags := by simp only [Flow.observe, hm, Tags.step]
  have hhanded : (g.observe s i).handed = g.handed := by
    simp only [Flow.observe, hm, Move.advances]
    rfl
  have hbus : (s.step i).esBus = s.esBus := by rw [Core.step_esBus, hm]
  have hbuf : (s.step i).brTakenBuffer = s.brTaken := by rw [Core.step_brTakenBuffer, hm]
  refine ⟨h.tagInv.step (), h.cancelInv.step i, h.calm_step hu, ?_, ?_, ?_, ?_, ?_⟩
  · rw [hhanded]
    exact h.order
  · rw [htags, hhanded, hbus]
    exact h.es_pc
  · rw [htags, hbus]
    exact h.es_word
  · intro hb
    rw [hbuf] at hb
    rw [htags, hhanded]
    have hf := h.front_of_not_brTaken hb
    exact ⟨hf.path.step_held (Or.inl hm) hb, hf.words.step_held (Or.inl hm) hb hw _⟩
  · intro hb
    rw [hbuf] at hb
    have htarget : (s.step i).brTargetBuffer =
        if s.brTakenBuffer then s.brTargetBuffer else s.brBus.brTarget := by
      rw [Core.step_brTargetBuffer, hm]
    rw [Flow.Pending, htags, hhanded, h.brBus_step_of_hold hu hm, htarget]
    -- The redirect is the held branch's own, or it has been waiting since before.
    by_cases hes : g.tags.es.isSome = true
    · rw [if_pos hes]
      refine ⟨h.brBus_of_es hes hb, ?_⟩
      by_cases hp : s.brTakenBuffer = true
      · have hpend := h.pending hp
        rw [Flow.Pending, if_pos hes] at hpend
        rw [if_pos hp, hpend.2]
      · rw [if_neg hp]
    · have hp : s.brTakenBuffer = true := by
        by_contra hp
        have ht : s.brBus.brTaken = true := by simpa [Core.brTaken, hp] using hb
        exact hes (h.es_of_brTaken ht)
      have hpend := h.pending hp
      rw [Flow.Pending, if_neg hes] at hpend
      rw [if_neg hes, if_pos hp, hpend]

/-! ### Cycles that move the back end only -/

/-- The target that is remembered is the one the redirect goes to. -/
theorem brTargetBuffer_step (hb : s.brTaken = true) :
    (if s.brTakenBuffer then s.brTargetBuffer else s.brBus.brTarget) = s.brTarget := by
  by_cases ht : s.brBus.brTaken = true
  · rw [Core.brTarget, if_pos ht]
    by_cases hp : s.brTakenBuffer = true
    · have hpend := h.pending hp
      rw [Flow.Pending, if_pos (h.es_of_brTaken ht)] at hpend
      rw [if_pos hp, hpend.2]
    · rw [if_neg hp]
  · have hp : s.brTakenBuffer = true := by simpa [Core.brTaken, ht] using hb
    rw [Core.brTarget, if_neg ht, if_pos hp, if_pos hp]

theorem step_bubble (hu : s.Unexceptional) (hm : s.move i = .bubble)
    (hw : Core.Arrives imem g.fetched i) : FlowInv imem (g.observe s i) (s.step i) := by
  have hes : (g.observe s i).tags.es.isSome = false := by
    simp only [Flow.observe, hm, Tags.step, Option.isSome_none]
  have hhanded : (g.observe s i).handed = g.handOver s := by
    simp only [Flow.observe, hm, Move.advances, if_true]
  have hbuf : (s.step i).brTakenBuffer = s.brTaken := by rw [Core.step_brTakenBuffer, hm]
  -- `exe_stage` gets a bubble, so there is nothing to show about its contents.
  have no_es {p : Prop} (hx : (g.observe s i).tags.es.isSome = true) : p := by
    rw [hes] at hx
    cases hx
  refine ⟨h.tagInv.step (), h.cancelInv.step i, h.calm_step hu, ?_, fun hx => no_es hx,
    fun hx => no_es hx, ?_, ?_⟩
  · rw [hhanded]
    exact h.order_handOver
  · intro hb
    rw [hbuf] at hb
    rw [hes, hhanded, h.nextPc_eq hu hb]
    have hf := h.front_of_not_brTaken hb
    exact ⟨hf.path.step_held (Or.inr hm) hb, hf.words.step_held (Or.inr hm) hb hw _⟩
  · intro hb
    rw [hbuf] at hb
    have htarget : (s.step i).brTargetBuffer =
        if s.brTakenBuffer then s.brTargetBuffer else s.brBus.brTarget := by
      rw [Core.step_brTargetBuffer, hm]
    rw [Flow.Pending, if_neg (by simp [hes]), hhanded, htarget, h.brTargetBuffer_step hb,
      h.brTarget_eq hu hb]

/-! ### Cycles that move everything -/

theorem step_go (hu : s.Unexceptional) (hm : s.move i = .go)
    (hw : Core.Arrives imem g.fetched i) : FlowInv imem (g.observe s i) (s.step i) := by
  have hes : (g.observe s i).tags.es.isSome = s.handsOver := by
    simp only [Flow.observe, hm, Tags.step, Core.tagIn]
    cases s.handsOver <;> rfl
  have hhanded : (g.observe s i).handed = g.handOver s := by
    simp only [Flow.observe, hm, Move.advances, if_true]
  have hbuf : (s.step i).brTakenBuffer = false := by rw [Core.step_brTakenBuffer, hm]
  have entering (hx : (g.observe s i).tags.es.isSome = true) :
      s.id.pcValid = true ∧ s.brTaken = false := by
    rw [hes] at hx
    simpa [Core.handsOver] using hx
  have hbus (hb : s.brTaken = false) : (s.step i).esBus = s.dsToEsBus := by
    rw [Core.step_esBus, hm]
    simp [hb]
  refine ⟨h.tagInv.step (), h.cancelInv.step i, h.calm_step hu, ?_, ?_, ?_, ?_, ?_⟩
  · rw [hhanded]
    exact h.order_handOver
  · intro hx
    obtain ⟨hv, hb⟩ := entering hx
    rw [hbus hb, hhanded, h.nextPc_eq hu hb]
    exact (h.front_of_not_brTaken hb).path.id hv
  · intro hx
    obtain ⟨hv, hb⟩ := entering hx
    have hf := h.front_of_not_brTaken hb
    have hinst : s.dsToEsBus.inst = s.id.instSramRdataR := by
      simp [Core.dsToEsBus, Id.dsToEsBus, Id.inst, hv]
    have hpc : s.dsToEsBus.dsPc = s.id.fs2ToDsBusR.fsPc := rfl
    rw [hbus hb, hinst, hpc, hf.words.id hv]
  · intro _
    rw [hes, hhanded]
    -- A redirect empties the front end; otherwise every stage gets the next pc.
    by_cases hb : s.brTaken = true
    · have hho : s.handsOver = false := by simp [Core.handsOver, hb]
      rw [hho, ← h.brTarget_eq hu hb]
      exact ⟨Core.path_redirect hm hb, Core.words_redirect hm hb _⟩
    · have hb' : s.brTaken = false := by simpa using hb
      have hho : s.handsOver = s.id.pcValid := by simp [Core.handsOver, hb']
      rw [hho, h.nextPc_eq hu hb']
      have hf := h.front_of_not_brTaken hb'
      exact ⟨hf.path.step_go hm hb', hf.words.step_go hm hb' hw⟩
  · intro hb
    rw [hbuf] at hb
    cases hb

theorem step (hu : s.Unexceptional) (hw : Core.Arrives imem g.fetched i) :
    FlowInv imem (g.observe s i) (s.step i) := by
  cases hm : s.move i with
  | hold => exact h.step_hold hu hm hw
  | flush => exact absurd hm h.not_flush
  | bubble => exact h.step_bubble hu hm hw
  | go => exact h.step_go hu hm hw

end

end FlowInv

/-! ## Progress -/

/-- In how many moves of the whole pipeline the next instruction reaches `exe_stage`, given where
there is a valid pc and whether a redirect is waiting. -/
def movesToGo (es pending id if3 if2 if1 : Bool) : ℕ :=
  if es then 0 else if pending then 5 else if id then 1 else if if3 then 2 else if if2 then 3
  else if if1 then 4 else 5

theorem movesToGo_le :
    ∀ es pending id if3 if2 if1 : Bool, movesToGo es pending id if3 if2 if1 ≤ 5 := by
  decide

theorem movesToGo_shift : ∀ id if3 if2 if1 : Bool,
    movesToGo id false if3 if2 if1 true + 1 ≤ movesToGo false false id if3 if2 if1 := by
  decide

def Flow.distance (g : Flow) (s : Core) : ℕ :=
  movesToGo g.tags.es.isSome s.brTakenBuffer s.id.pcValid s.if3.pcValid s.if2.pcValid s.if1.pcValid

/-- With `exe_stage` empty the only redirect is the one remembered. -/
theorem FlowInv.brTaken_of_empty (h : FlowInv imem g s) (hes : g.tags.es = none) :
    s.brTaken = s.brTakenBuffer := by
  rw [Core.brTaken, Core.brBus_of_quiet (h.tagInv.es hes), Bool.false_or]

/-- A held front end does not lose ground. -/
theorem FlowInv.distance_of_held (h : FlowInv imem g s) (hes : g.tags.es = none)
    (hm : s.move i = .hold ∨ s.move i = .bubble) :
    (g.observe s i).distance (s.step i) = g.distance s := by
  have hes' : (g.observe s i).tags.es = none := by
    rcases hm with hm | hm <;> simp only [Flow.observe, hm, Tags.step]
    exact hes
  have hbuf : (s.step i).brTakenBuffer = s.brTakenBuffer := by
    rw [← h.brTaken_of_empty hes, Core.step_brTakenBuffer]
    rcases hm with hm | hm <;> rw [hm]
  unfold Flow.distance
  rw [hes', hes, hbuf]
  by_cases hp : s.brTakenBuffer = true
  · rw [hp]
    rfl
  · have hb : s.brTaken = false := by
      rw [h.brTaken_of_empty hes]
      simpa using hp
    have hv : (s.step i).id.pcValid = s.id.pcValid := by
      rw [Id.pcValid, Core.id_bus_of_held hm]; rfl
    rw [hv, Core.if1_of_held hm, Core.if2_of_held hm hb, Core.if3_of_held hm hb]

/-- A move of the whole pipeline brings the next instruction one stage closer. -/
theorem FlowInv.distance_of_go (h : FlowInv imem g s) (hes : g.tags.es = none)
    (hm : s.move i = .go) : (g.observe s i).distance (s.step i) + 1 ≤ g.distance s := by
  have hes' : (g.observe s i).tags.es.isSome = s.handsOver := by
    simp only [Flow.observe, hm, Tags.step, Core.tagIn]
    cases s.handsOver <;> rfl
  have hbuf : (s.step i).brTakenBuffer = false := by rw [Core.step_brTakenBuffer, hm]
  unfold Flow.distance
  rw [hes', hes, hbuf]
  by_cases hp : s.brTakenBuffer = true
  · have hb : s.brTaken = true := by rw [h.brTaken_of_empty hes, hp]
    have hho : s.handsOver = false := by simp [Core.handsOver, hb]
    have hv : (s.step i).id.pcValid = false := by
      rw [Id.pcValid, Core.id_bus_of_redirect hm hb]; rfl
    rw [hho, hv, hp, Core.if1_of_redirect hm hb, Core.if2_of_redirect hm hb,
      Core.if3_of_redirect hm hb]
    exact Nat.le_refl 5
  · have hb : s.brTaken = false := by
      rw [h.brTaken_of_empty hes]
      simpa using hp
    have hho : s.handsOver = s.id.pcValid := by simp [Core.handsOver, hb]
    have hv : (s.step i).id.pcValid = s.if3.pcValid := by rw [Id.pcValid, Core.id_bus_of_go hm hb]
    rw [hho, hv, Core.if1_of_go hm hb, Core.if2_of_go hm hb, Core.if3_of_go hm hb]
    simp only [Bool.not_eq_true] at hp
    rw [hp]
    exact movesToGo_shift _ _ _ _

/-- One clock edge: a move of the whole pipeline that hands no instruction over brings the next one
closer, and one that hands an instruction over leaves the next at most five moves away. -/
theorem FlowInv.moves_step (h : FlowInv imem g s) :
    (g.observe s i).moved + (g.observe s i).distance (s.step i) + 6 * g.handed.length ≤
      g.moved + g.distance s + 6 * (g.observe s i).handed.length := by
  have hle : (g.observe s i).distance (s.step i) ≤ 5 := movesToGo_le _ _ _ _ _ _
  have hmoved : (g.observe s i).moved ≤ g.moved + 1 := by
    simp only [Flow.observe]
    split_ifs <;> omega
  cases hes : g.tags.es with
  | none =>
    have hhanded : (g.observe s i).handed = g.handed := by
      simp [Flow.observe, Flow.handOver, hes]
    rw [hhanded]
    cases hm : s.move i with
    | flush => exact absurd hm h.not_flush
    | hold =>
      have hd := h.distance_of_held hes (Or.inl hm)
      have hmv : (g.observe s i).moved = g.moved := by simp [Flow.observe, hm]
      omega
    | bubble =>
      have hd := h.distance_of_held hes (Or.inr hm)
      have hmv : (g.observe s i).moved = g.moved := by simp [Flow.observe, hm]
      omega
    | go =>
      have hd := h.distance_of_go hes hm
      omega
  | some x =>
    have hhand (ha : (s.move i).advances = true) :
        (g.observe s i).handed.length = g.handed.length + 1 := by
      simp [Flow.observe, Flow.handOver, hes, ha]
    cases hm : s.move i with
    | flush => exact absurd hm h.not_flush
    | hold =>
      have hd : (g.observe s i).distance (s.step i) = 0 := by
        simp [Flow.distance, movesToGo, Flow.observe, hm, Tags.step, hes]
      have hmv : (g.observe s i).moved = g.moved := by simp [Flow.observe, hm]
      have hhanded : (g.observe s i).handed = g.handed := by simp [Flow.observe, hm, Move.advances]
      rw [hd, hmv, hhanded]
      omega
    | bubble | go =>
      rw [hhand (by rw [hm]; rfl)]
      omega

/-! ## Runs -/

namespace CoreRun

/-- The icache delivers the word of an access that does not miss in the next cycle. -/
def Fetches (imem : Word → Word) (r : CoreRun) (k : ℕ) : Prop :=
  (r.core k).instSramEn = true → (r.inp k).stallreqIcache = false →
    (r.inp (k + 1)).instSramRdata = imem (r.core k).instSramAddr

theorem fetched_word {r : CoreRun} {n : ℕ} (fetch : ∀ k < n, r.Fetches imem k) :
    ∀ k < n, Core.Arrives imem (r.flow k).fetched (r.inp k) := by
  intro k hk p hp
  cases k with
  | zero => cases hp
  | succ k =>
    have hf : (r.flow (k + 1)).fetched =
        if (r.core k).instSramEn && !(r.inp k).stallreqIcache then some (r.core k).instSramAddr
        else none := rfl
    rw [hf] at hp
    split_ifs at hp with hc
    obtain rfl : (r.core k).instSramAddr = p := by simpa using hp
    simp only [Bool.and_eq_true, Bool.not_eq_true'] at hc
    exact fetch k (by omega) hc.1 hc.2

theorem flowInv {r : CoreRun} {n : ℕ} (fetch : ∀ k < n, r.Fetches imem k)
    (calm : ∀ k < n, (r.core k).Unexceptional) : FlowInv imem (r.flow n) (r.core n) := by
  refine Clocked.ghost_invariant (P := FlowInv imem)
    (A := fun g s i => s.Unexceptional ∧ Core.Arrives imem g.fetched i)
    (flowInv_reset _ _ _) ?_ n ?_
  · rintro g s i hinv ⟨hu, hw⟩
    exact hinv.step hu hw
  · exact fun k hk => ⟨calm k hk, fetched_word fetch k hk⟩

/-- Between any two cycles there are at most six moves of the whole pipeline for each instruction
handed over, and five more: six moves in a row hand over at least one. -/
theorem moves_le {r : CoreRun} {a b : ℕ} (hab : a ≤ b) (fetch : ∀ k < b, r.Fetches imem k)
    (calm : ∀ k < b, (r.core k).Unexceptional) :
    (r.flow b).moved + 6 * (r.flow a).handed.length ≤
      (r.flow a).moved + 6 * (r.flow b).handed.length + 5 := by
  -- The distance to the next instruction pays for the moves that hand nothing over.
  suffices h : (r.flow b).moved + (r.flow b).distance (r.core b) + 6 * (r.flow a).handed.length ≤
      (r.flow a).moved + (r.flow a).distance (r.core a) + 6 * (r.flow b).handed.length by
    have hle : (r.flow a).distance (r.core a) ≤ 5 := movesToGo_le _ _ _ _ _ _
    omega
  induction b, hab using Nat.le_induction with
  | base => exact le_rfl
  | succ b hb ih =>
    have hb := ih (fun k hk => fetch k (by omega)) fun k hk => calm k (by omega)
    have hinv : FlowInv imem (r.flow b) (r.core b) :=
      flowInv (fun k hk => fetch k (by omega)) fun k hk => calm k (by omega)
    have hstep := hinv.moves_step (i := r.inp b)
    have hflow : r.flow (b + 1) = (r.flow b).observe (r.core b) (r.inp b) := rfl
    have hcore : r.core (b + 1) = (r.core b).step (r.inp b) := rfl
    rw [hflow, hcore]
    omega

/-- In every run without an exception: what `exe_stage` has handed over is the beginning of the
sequential execution; what it holds when there is no instruction in it is a bubble; and the whole
pipeline has moved at most six times for each instruction handed over, and five times more. -/
theorem control_flow_exact (imem : Word → Word) (r : CoreRun) (n : ℕ)
    (fetch : ∀ k < n, r.Fetches imem k) (calm : ∀ k < n, (r.core k).Unexceptional) :
    InOrder imem (r.flow n).handed ∧ ((r.flow n).tags.es = none → (r.core n).esBus.Quiet) ∧
      (r.flow n).moved ≤ 6 * (r.flow n).handed.length + 5 := by
  have hinv := flowInv fetch calm
  have hmoves := moves_le (Nat.zero_le n) fetch calm
  exact ⟨hinv.order, hinv.tagInv.es, by simpa [flow, Flow.start] using hmoves⟩

/-- `addi.w $r4, $r0, 1`, then `b +8` over a word that is no instruction. -/
def jumpMemory (a : Word) : Word :=
  if a = 0x1c000000 then 0x02800404 else if a = 0x1c000004 then 0x50000800
  else if a = 0x1c000008 then 0 else 0x02800000

def jump : CoreRun :=
  ofWords (fun n => if n = 3 then 0x02800404 else if n = 4 then 0x50000800 else if n = 5 then 0
    else 0x02800000) 0 0

instance (imem : Word → Word) (r : CoreRun) (k : ℕ) : Decidable (r.Fetches imem k) :=
  inferInstanceAs (Decidable (_ → _ → _))

instance (s : Core) : Decidable s.Unexceptional := inferInstanceAs (Decidable (_ = _))

theorem control_flow_exact_jump :
    (jump.flow 13).handed.map Handed.pc = [0x1c000000, 0x1c000004, 0x1c00000c, 0x1c000010] ∧
      (∀ k < 13, jump.Fetches jumpMemory k) ∧ (∀ k < 13, (jump.core k).Unexceptional) ∧
    InOrder jumpMemory (jump.flow 13).handed := by
  have hfetch : ∀ k < 13, jump.Fetches jumpMemory k := by decide +kernel
  have hcalm : ∀ k < 13, (jump.core k).Unexceptional := by decide +kernel
  exact ⟨by decide +kernel, hfetch, hcalm, (control_flow_exact jumpMemory jump 13 hfetch hcalm).1⟩

end CoreRun

end NeulaCpu.Rtl
