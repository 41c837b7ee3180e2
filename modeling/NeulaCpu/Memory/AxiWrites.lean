import NeulaCpu.Memory.AxiRound

/-!
# The write channels of the bus controller

The invariant of a write: what has been on the channels together with what is being offered is a
beginning of the write of the round. The write machine starts when the read machine captures the
line and is at rest again before the acknowledge.
-/

namespace NeulaCpu.Rtl

variable {q : AxiReq} {i : AxiIn} {w : StageW}

namespace AxiReq

variable (old : Line)

theorem writes_line (hd : q.dcacheWe = true) (hu : q.uncacheWe = 0) :
    q.writes old = ⟨[⟨q.dcacheWaddr, 0xf, 0b010⟩], old.beats, 1⟩ := by
  simp [writes, hd, hu]

theorem writes_store (hd : q.dcacheWe = false) (hu : q.uncacheWe ≠ 0) :
    q.writes old = ⟨[⟨q.uncacheAddr, 0, AxiWrite.storeSize q.uncacheWe⟩],
      [⟨q.uncacheWdata, q.uncacheWe, true⟩], 1⟩ := by
  simpa [writes, hd] using hu

theorem writes_none (hstore : q.uncacheWe ≠ 0 → q.uncacheEn = true) (h : q.anyWrite = false) :
    q.writes old = .empty := by
  simp only [anyWrite, Bool.or_eq_false_iff, Bool.and_eq_false_iff] at h
  have hu : q.uncacheWe = 0 := by
    rcases h.2 with hen | hu
    · by_contra hne
      exact absurd (hstore hne) (by simp [hen])
    · exact bne_eq_false_iff_eq.mp hu
  simp [writes, h.1, hu, WriteLog.empty]

end AxiReq

namespace AxiWrite

variable {s : AxiWrite} {g : WriteLog}

/-- What is offered on the write address channel. -/
def offeredAw (s : AxiWrite) : List AwReq :=
  if s.awvalid then [⟨s.awaddr, s.awlen, s.awsize⟩] else []

/-- What is offered on the write data channel. -/
def offeredW (s : AxiWrite) : List WBeat :=
  if s.wvalid then [⟨s.wdata, s.wstrb, s.wlast⟩] else []

theorem logWrites_aw (h : s.awvalid = true → i.awready = true) :
    (s.logWrites i g).aw = g.aw ++ s.offeredAw := by
  by_cases hv : s.awvalid = true
  · simp [logWrites, offeredAw, hv, h hv]
  · simp [logWrites, offeredAw, hv]

theorem logWrites_w (h : s.wvalid = true → i.wready = true) :
    (s.logWrites i g).w = g.w ++ s.offeredW := by
  by_cases hv : s.wvalid = true
  · simp [logWrites, offeredW, hv, h hv]
  · simp [logWrites, offeredW, hv]

theorem logWrites_aw_wait (h : i.awready = false) : (s.logWrites i g).aw = g.aw := by
  simp [logWrites, h]

theorem logWrites_w_wait (h : i.wready = false) : (s.logWrites i g).w = g.w := by
  simp [logWrites, h]

theorem logWrites_b (h : ¬ (s.bready = true ∧ i.bvalid = true)) : (s.logWrites i g).b = g.b := by
  simp only [← Bool.and_eq_true] at h
  simp only [logWrites, if_neg h]

theorem logWrites_quiet (ha : s.awvalid = false) (hw : s.wvalid = false) (hb : s.bready = false) :
    s.logWrites i g = g := by
  simp [logWrites, ha, hw, hb]

end AxiWrite

/-- The slave's part in a write: no response before the last word. -/
def BvalidOk (g : WriteLog) (s : AxiWrite) (i : AxiIn) : Prop :=
  s.bready = true → i.bvalid = true → g.b < g.w.countP WBeat.last

theorem BvalidOk.b_eq {s : AxiWrite} {g : WriteLog} (h : BvalidOk g s i)
    (hw : g.w.countP WBeat.last = 0) : (s.logWrites i g).b = g.b := by
  refine AxiWrite.logWrites_b fun ⟨hb, hv⟩ => ?_
  have hlt := h hb hv
  omega

/-- A write is under way or completed; `e` is what it has to be in the end. -/
structure Writing (e g : WriteLog) (s : AxiWrite) : Prop where
  answers : e.b = 1
  last : e.w.countP WBeat.last = 1
  aw : g.aw ++ s.offeredAw = e.aw
  b : g.b = 0

/-- A line is being written back; the words up to `dcache_offset_w` have been offered. -/
structure WritingLine (q : AxiReq) (old : Line) (g : WriteLog) (s : AxiWrite) : Prop
    extends Writing (q.writes old) g s where
  request : q.dcacheWe = true
  wstrb : s.wstrb = 0b1111
  w : g.w ++ s.offeredW = old.beats.take s.dcacheOffsetW.toNat

/-- The address of an uncached store is on the channel. -/
structure WritingStore (q : AxiReq) (old : Line) (g : WriteLog) (s : AxiWrite) : Prop
    extends Writing (q.writes old) g s where
  request : q.dcacheWe = false
  store : q.uncacheWe ≠ 0
  awvalid : s.awvalid = true
  wvalid : s.wvalid = false
  wstrb : s.wstrb = q.uncacheWe
  w : g.w = []

/-- The last word is on the channel. -/
structure WritingLast (e g : WriteLog) (s : AxiWrite) : Prop extends Writing e g s where
  awvalid : s.awvalid = false
  wvalid : s.wvalid = true
  wlast : s.wlast = true
  w : g.w ++ s.offeredW = e.w

/-- Only the response is missing. -/
structure WritingAnswer (e g : WriteLog) (s : AxiWrite) : Prop extends Writing e g s where
  awvalid : s.awvalid = false
  wvalid : s.wvalid = false
  w : g.w = e.w

structure AxiWrite.Quiet (s : AxiWrite) : Prop where
  awvalid : s.awvalid = false
  wvalid : s.wvalid = false

/-- The write of the round so far. -/
def WriteLog.Follows (q : AxiReq) (old : Line) (g : WriteLog) (rd : Stage) (s : AxiWrite) : Prop :=
  match s.stageW with
  | .w0 => s.Quiet ∧ (rd = .s1 → q.anyWrite = true ∧ g = .empty) ∧
    (rd ≠ .s0 → rd ≠ .s1 → g = q.writes old)
  | .w1 => WritingLine q old g s
  | .w4 => WritingStore q old g s
  | .w2 | .w5 => WritingLast (q.writes old) g s
  | .w3 | .w6 => WritingAnswer (q.writes old) g s
  | .w10 => s.Quiet ∧ g = q.writes old

/-- A write is being carried out. -/
def StageW.writes : StageW → Bool
  | .w0 | .w10 => false
  | _ => true

section Steps

variable {old : Line} {e g : WriteLog} {s s' : AxiWrite}

/-- When the address has been taken, nothing more is on its channel. -/
theorem Writing.aw_done (h : Writing e g s) (hs : s.awvalid = false) (hs' : s'.awvalid = false) :
    (s.logWrites i g).aw ++ s'.offeredAw = e.aw := by
  rw [AxiWrite.logWrites_aw (by simp [hs]), h.aw]
  simp [AxiWrite.offeredAw, hs']

/-- The address is taken in this cycle if it was not taken before. -/
theorem Writing.aw_taken (h : Writing e g s) (hr : i.awready = true) (s' : AxiWrite)
    (hs' : s'.awvalid = false) : (s.logWrites i g).aw ++ s'.offeredAw = e.aw := by
  rw [AxiWrite.logWrites_aw fun _ => hr, h.aw]
  simp [AxiWrite.offeredAw, hs']

/-! ### A line -/

section

variable (h : WritingLine q old g s)

include h

/-- No word that was offered so far ends the write-back. -/
theorem WritingLine.countP_last : g.w.countP WBeat.last = 0 := by
  have hsum := congrArg (List.countP WBeat.last) h.w
  rw [List.countP_append, old.countP_last_take (by omega)] at hsum
  omega

/-- Offering the next word. -/
theorem WritingLine.w_present (hw : s.wvalid = true → i.wready = true) :
    (s.logWrites i g).w ++ (s.present old).offeredW =
      old.beats.take (s.dcacheOffsetW.toNat + 1) := by
  rw [AxiWrite.logWrites_w hw, h.w, old.beats_take_succ]
  simp [AxiWrite.offeredW, AxiWrite.present, h.wstrb]

/-- A further word is offered; the address channel shows `v` and `addr`. -/
theorem WritingLine.next (hb : BvalidOk g s i)
    (hw : s.wvalid = true → i.wready = true) (hk : s.dcacheOffsetW ≠ 0b1111) (v : Bool)
    (addr : Word)
    (haw : (s.logWrites i g).aw ++ { s with awvalid := v, awaddr := addr }.offeredAw =
      (q.writes old).aw) :
    WritingLine q old (s.logWrites i g) { s.present old with awvalid := v, awaddr := addr } where
  answers := h.answers
  last := h.last
  aw := haw
  b := by rw [hb.b_eq h.countP_last, h.b]
  request := h.request
  wstrb := h.wstrb
  w := (h.w_present hw).trans (by rw [← toNat_succ_offset hk]; rfl)

/-- The sixteenth word is offered. -/
theorem WritingLine.final (hb : BvalidOk g s i) (hu : q.uncacheWe = 0)
    (hw : s.wvalid = true → i.wready = true) (hk : s.dcacheOffsetW = 0b1111) (addr : Word)
    (haw : (s.logWrites i g).aw ++ { s with awvalid := false, awaddr := addr }.offeredAw =
      (q.writes old).aw) :
    WritingLast (q.writes old) (s.logWrites i g)
      { s.present old with awvalid := false, awaddr := addr } where
  answers := h.answers
  last := h.last
  aw := haw
  b := by rw [hb.b_eq h.countP_last, h.b]
  awvalid := rfl
  wvalid := rfl
  wlast := beq_iff_eq.mpr hk
  w := by
    refine (h.w_present hw).trans ?_
    rw [hk, AxiReq.writes_line _ h.request hu]
    exact old.take_beats

theorem WritingLine.wait (hb : BvalidOk g s i) (ha : i.awready = false)
    (hw : i.wready = false) : WritingLine q old (s.logWrites i g) s where
  answers := h.answers
  last := h.last
  aw := by rw [AxiWrite.logWrites_aw_wait ha, h.aw]
  b := by rw [hb.b_eq h.countP_last, h.b]
  request := h.request
  wstrb := h.wstrb
  w := by rw [AxiWrite.logWrites_w_wait hw, h.w]

end

/-! ### The last word and the response -/

theorem WritingLast.countP_last (h : WritingLast e g s) : g.w.countP WBeat.last = 0 := by
  have hsum := congrArg (List.countP WBeat.last) h.w
  rw [List.countP_append, h.last] at hsum
  simp only [AxiWrite.offeredW, h.wvalid, h.wlast, if_true, List.countP_singleton] at hsum
  omega

theorem WritingLast.taken (h : WritingLast e g s) (hb : BvalidOk g s i) (hw : i.wready = true)
    (next : StageW) : WritingAnswer e (s.logWrites i g) (s.taken next) where
  answers := h.answers
  last := h.last
  aw := h.aw_done h.awvalid h.awvalid
  b := by rw [hb.b_eq h.countP_last, h.b]
  awvalid := h.awvalid
  wvalid := rfl
  w := by rw [AxiWrite.logWrites_w fun _ => hw, h.w]

theorem WritingLast.wait (h : WritingLast e g s) (hb : BvalidOk g s i) (hw : i.wready = false) :
    WritingLast e (s.logWrites i g) s where
  answers := h.answers
  last := h.last
  aw := h.aw_done h.awvalid h.awvalid
  b := by rw [hb.b_eq h.countP_last, h.b]
  awvalid := h.awvalid
  wvalid := h.wvalid
  wlast := h.wlast
  w := by rw [AxiWrite.logWrites_w_wait hw, h.w]

theorem WritingAnswer.answered (h : WritingAnswer e g s) (hr : s.bready = true)
    (hb : i.bvalid = true) : s.logWrites i g = e := by
  have haw : (s.logWrites i g).aw = e.aw := by
    rw [AxiWrite.logWrites_aw (by simp [h.awvalid]), h.aw]
  have hw : (s.logWrites i g).w = e.w := by
    rw [AxiWrite.logWrites_w (by simp [h.wvalid]), h.w, AxiWrite.offeredW, h.wvalid]
    simp
  have hbs : (s.logWrites i g).b = e.b := by
    simp [AxiWrite.logWrites, hr, hb, h.b, h.answers]
  cases hlog : s.logWrites i g
  rw [hlog] at haw hw hbs
  cases e
  simp_all

theorem WritingAnswer.wait (h : WritingAnswer e g s) (hb : i.bvalid = false) :
    WritingAnswer e (s.logWrites i g) s where
  answers := h.answers
  last := h.last
  aw := h.aw_done h.awvalid h.awvalid
  b := by rw [AxiWrite.logWrites_b (by simp [hb]), h.b]
  awvalid := h.awvalid
  wvalid := h.wvalid
  w := by
    rw [AxiWrite.logWrites_w (by simp [h.wvalid]), h.w, AxiWrite.offeredW, h.wvalid]
    simp

/-! ### A store -/

theorem WritingStore.taken (h : WritingStore q old g s) (hb : BvalidOk g s i)
    (hr : i.awready = true) : WritingLast (q.writes old) (s.logWrites i g)
      { s with
        awvalid := false
        awaddr := 0
        wdata := q.uncacheWdata
        wvalid := true
        wlast := true
        stageW := .w5 } where
  answers := h.answers
  last := h.last
  aw := h.aw_taken hr _ rfl
  b := by rw [hb.b_eq (by rw [h.w]; rfl), h.b]
  awvalid := rfl
  wvalid := rfl
  wlast := rfl
  w := by
    rw [AxiWrite.logWrites_w (by simp [h.wvalid]), h.w, AxiReq.writes_store _ h.request h.store]
    simp [AxiWrite.offeredW, h.wvalid, h.wstrb]

theorem WritingStore.wait (h : WritingStore q old g s) (hb : BvalidOk g s i)
    (hr : i.awready = false) : WritingStore q old (s.logWrites i g) s where
  answers := h.answers
  last := h.last
  aw := by rw [AxiWrite.logWrites_aw_wait hr, h.aw]
  b := by rw [hb.b_eq (by rw [h.w]; rfl), h.b]
  request := h.request
  store := h.store
  awvalid := h.awvalid
  wvalid := h.wvalid
  wstrb := h.wstrb
  w := by
    rw [AxiWrite.logWrites_w (by simp [h.wvalid]), h.w, AxiWrite.offeredW, h.wvalid]
    simp

end Steps

/-! ### The two machines together -/

/-- The read machine is between the capture of the line and the acknowledge. -/
def Stage.busy : Stage → Bool
  | .s0 | .s1 | .off => false
  | _ => true

theorem Stage.busy_of_ne {st : Stage} (h0 : st ≠ .s0) (h1 : st ≠ .s1) (hoff : st ≠ .off) :
    st.busy = true := by
  cases st <;> first | rfl | contradiction

theorem AxiRead.busy_step {s : AxiRead} (hs : s.stage.busy = true) (h11 : s.stage ≠ .s11) :
    (s.step i w).stage.busy = true ∧ ((s.step i w).stage = .s11 → w = .w10 ∨ w = .w0) := by
  unfold AxiRead.step
  split <;> rename_i hst <;> rw [hst] at hs h11 <;> (try split_ifs) <;>
    simp_all [AxiRead.ask, AxiRead.accepted, Stage.busy]

theorem AxiRead.step_stage_ne_s1 {s : AxiRead} (hs : s.stage ≠ .s0) : (s.step i w).stage ≠ .s1 := by
  unfold AxiRead.step
  split <;> rename_i hst <;> (try split_ifs) <;> simp_all [AxiRead.ask, AxiRead.accepted]

/-- With the write machine at work the read machine stays between `stage[2]` and `stage[10]`. -/
theorem AxiRead.coupled_step {s : AxiRead}
    (h : w ≠ .w0 → s.stage.busy = true ∧ (s.stage = .s11 → w = .w10)) (hw : w.writes = true)
    (v : StageW) : (s.step i w).stage.busy = true ∧ ((s.step i w).stage = .s11 → v = .w10) := by
  have hw0 : w ≠ .w0 := by rintro rfl; simp [StageW.writes] at hw
  have hw10 : w ≠ .w10 := by rintro rfl; simp [StageW.writes] at hw
  obtain ⟨hbusy, h11⟩ := h hw0
  have hstep := AxiRead.busy_step (i := i) (w := w) hbusy fun he => hw10 (h11 he)
  refine ⟨hstep.1, fun he => ?_⟩
  -- `stage[10]` waits for the write machine.
  rcases hstep.2 he with h' | h'
  · exact absurd h' hw10
  · exact absurd h' hw0

/-- The write machine, next to a read machine in the stage `st`. -/
structure WriteInv (q : AxiReq) (old : Line) (g : WriteLog) (st : Stage) (s : AxiWrite) : Prop where
  bready : s.bready = s.stageW.writes
  coupled : s.stageW ≠ .w0 → st.busy = true ∧ (st = .s11 → s.stageW = .w10)
  log : g.Follows q old st s

namespace WriteInv

variable {old : Line} {g : WriteLog} {rd : AxiRead} {st : Stage} {s : AxiWrite}

/-- Outside a round the write machine is at rest. -/
theorem rest (h : WriteInv q old g st s) (hs : st.busy = false) :
    s.stageW = .w0 ∧ s.Quiet ∧ s.bready = false := by
  have hw0 : s.stageW = .w0 := by
    by_contra hne
    simpa [hs] using (h.coupled hne).1
  have hlog := h.log
  simp only [WriteLog.Follows, hw0] at hlog
  exact ⟨hw0, hlog.1, by rw [h.bready, hw0]; rfl⟩

theorem accept (h : WriteInv q old g rd.stage s) (hs : rd.stage = .s0)
    (hstore : i.req.uncacheWe ≠ 0 → i.req.uncacheEn = true) :
    WriteInv i.req old (s.logWrites i .empty) (rd.step i s.stageW).stage (s.step i rd) := by
  obtain ⟨hw0, hquiet, hbr⟩ := h.rest (by rw [hs]; rfl)
  have hstep : s.step i rd = s := by simp [AxiWrite.step, hw0, hs]
  rw [hstep, AxiWrite.logWrites_quiet hquiet.awvalid hquiet.wvalid hbr]
  refine ⟨h.bready, fun hne => absurd hw0 hne, ?_⟩
  simp only [WriteLog.Follows, hw0, AxiRead.step, hs]
  by_cases hw : i.req.anyWrite = true
  · simp only [if_pos hw]
    exact ⟨hquiet, fun _ => ⟨hw, trivial⟩, fun _ hne => absurd rfl hne⟩
  · simp only [if_neg hw]
    refine ⟨hquiet, fun h1 => ?_, fun _ _ => (AxiReq.writes_none _ hstore (by simpa using hw)).symm⟩
    split_ifs at h1

/-- The cycle in which the line is captured starts the write. -/
theorem start (h : WriteInv q old g rd.stage s) (hs : rd.stage = .s1) (hbuf : rd.buffer = q)
    (hu : q.dcacheWe = true → q.uncacheWe = 0) (hst : st.busy = true) (h11 : st ≠ .s11) :
    WriteInv q i.dcacheCachelineOld (s.logWrites i g) st (s.step i rd) := by
  obtain ⟨hw0, hquiet, hbr⟩ := h.rest (by rw [hs]; rfl)
  have hlog := h.log
  simp only [WriteLog.Follows, hw0] at hlog
  obtain ⟨hany, rfl⟩ := hlog.2.1 hs
  rw [AxiWrite.logWrites_quiet hquiet.awvalid hquiet.wvalid hbr]
  have hcoupled : ∀ v : StageW, v ≠ .w0 → st.busy = true ∧ (st = .s11 → v = .w10) :=
    fun _ _ => ⟨hst, fun h => absurd h h11⟩
  -- A write was recorded, and there is only one: the line or the store.
  by_cases hd : q.dcacheWe = true
  · simp only [AxiWrite.step, hw0, hs, hbuf, if_pos hd, if_true]
    have hline := AxiReq.writes_line i.dcacheCachelineOld hd (hu hd)
    exact ⟨rfl, hcoupled _,
      { answers := by rw [hline]
        last := by rw [hline]; exact Line.countP_last_beats _
        aw := by rw [hline]; rfl
        b := rfl
        request := hd
        wstrb := rfl
        w := by simp [WriteLog.empty, AxiWrite.offeredW, hquiet.wvalid] }⟩
  · have hd' : q.dcacheWe = false := by simpa using hd
    have hne : q.uncacheWe ≠ 0 := by
      simp only [AxiReq.anyWrite, hd', Bool.false_or, Bool.and_eq_true, bne_iff_ne] at hany
      exact hany.2
    simp only [AxiWrite.step, hw0, hs, hbuf, if_neg hd, if_true, if_pos (bne_iff_ne.mpr hne)]
    have hstore := AxiReq.writes_store i.dcacheCachelineOld hd' hne
    exact ⟨rfl, hcoupled _,
      { answers := by rw [hstore]
        last := by rw [hstore]; rfl
        aw := by rw [hstore]; rfl
        b := rfl
        request := hd'
        store := hne
        awvalid := rfl
        wvalid := hquiet.wvalid
        wstrb := rfl
        w := rfl }⟩

theorem writing_coupled (h : WriteInv q old g rd.stage s) (hw : s.stageW.writes = true)
    (v : StageW) : v ≠ .w0 → (rd.step i s.stageW).stage.busy = true ∧
      ((rd.step i s.stageW).stage = .s11 → v = .w10) :=
  fun _ => AxiRead.coupled_step h.coupled hw v

section Steps

variable (h : WriteInv q old g rd.stage s) (hb : BvalidOk g s i)

include h hb

theorem step_w1 (hs : s.stageW = .w1) (hold : rd.dcacheWdataBuffer = old)
    (hu : q.dcacheWe = true → q.uncacheWe = 0)
    (hwaits : s.wvalid = true → i.awready = true → i.wready = true)
    (haddr : s.dcacheOffsetW = 0b1111 → i.wready = true → s.awvalid = true → i.awready = true) :
    WriteInv q old (s.logWrites i g) (rd.step i s.stageW).stage (s.step i rd) := by
  have hcoupled := h.writing_coupled (i := i) (by rw [hs]; rfl)
  have hbr : s.bready = true := by rw [h.bready, hs]; rfl
  have hlog := h.log
  simp only [WriteLog.Follows, hs] at hlog
  refine ⟨?_, hcoupled _, ?_⟩
  · simp only [AxiWrite.step, hs, AxiWrite.present]
    split_ifs <;> simp [hbr, hs, StageW.writes]
  · simp only [AxiWrite.step, hs, hold]
    by_cases ha : i.awready = true
    -- The address is taken now, or was taken before; the word on the channel is taken with it.
    · have haw := hlog.aw_taken ha { s with awvalid := false, awaddr := 0 } rfl
      rw [if_pos ha]
      by_cases hk : s.dcacheOffsetW = 0b1111
      · have hnext := hlog.final hb (hu hlog.request) (fun hv => hwaits hv ha) hk _ haw
        simpa only [WriteLog.Follows, AxiWrite.present, if_pos hk] using hnext
      · have hnext := hlog.next hb (fun hv => hwaits hv ha) hk _ _ haw
        simpa only [WriteLog.Follows, AxiWrite.present, if_neg hk] using hnext
    · have ha' : i.awready = false := by simpa using ha
      rw [if_neg ha]
      by_cases hw : i.wready = true
      · rw [if_pos hw]
        -- The address waits, and the words go on ahead of it.
        have haw : (s.logWrites i g).aw ++ s.offeredAw = (q.writes old).aw := by
          rw [AxiWrite.logWrites_aw_wait ha', hlog.aw]
        by_cases hk : s.dcacheOffsetW = 0b1111
        · have hv : s.awvalid = false := by
            by_contra hv
            exact ha (haddr hk hw (by simpa using hv))
          have hnext := hlog.final hb (hu hlog.request) (fun _ => hw) hk s.awaddr
            (by rw [← hv]; exact haw)
          rw [← hv] at hnext
          simpa only [WriteLog.Follows, AxiWrite.present, if_pos hk] using hnext
        · have hnext := hlog.next hb (fun _ => hw) hk s.awvalid s.awaddr haw
          simpa only [WriteLog.Follows, AxiWrite.present, if_neg hk] using hnext
      · rw [if_neg hw]
        have hnext := hlog.wait hb ha' (by simpa using hw)
        simpa only [WriteLog.Follows, hs] using hnext

/-- The last word, of a line or of a store. -/
theorem step_last (hs : s.stageW = .w2 ∨ s.stageW = .w5) :
    WriteInv q old (s.logWrites i g) (rd.step i s.stageW).stage (s.step i rd) := by
  have hcoupled := h.writing_coupled (i := i) (by rcases hs with hs | hs <;> rw [hs] <;> rfl)
  have hbr : s.bready = true := by rw [h.bready]; rcases hs with hs | hs <;> rw [hs] <;> rfl
  have hlog : WritingLast (q.writes old) g s := by
    have hlog := h.log
    rcases hs with hs | hs <;> simpa only [WriteLog.Follows, hs] using hlog
  by_cases hw : i.wready = true
  · rcases hs with hs | hs
    · have hstep : s.step i rd = s.taken .w3 := by simp only [AxiWrite.step, hs, if_pos hw]
      rw [hstep]
      exact ⟨hbr, hcoupled _, hlog.taken hb hw .w3⟩
    · have hstep : s.step i rd = s.taken .w6 := by simp only [AxiWrite.step, hs, if_pos hw]
      rw [hstep]
      exact ⟨hbr, hcoupled _, hlog.taken hb hw .w6⟩
  · have hstep : s.step i rd = s := by
      rcases hs with hs | hs <;> simp only [AxiWrite.step, hs, if_neg hw]
    rw [hstep]
    refine ⟨h.bready, hcoupled _, ?_⟩
    have hnext := hlog.wait hb (by simpa using hw)
    rcases hs with hs | hs <;> simpa only [WriteLog.Follows, hs] using hnext

theorem step_w4 (hs : s.stageW = .w4) (hbuf : rd.buffer = q) :
    WriteInv q old (s.logWrites i g) (rd.step i s.stageW).stage (s.step i rd) := by
  have hcoupled := h.writing_coupled (i := i) (by rw [hs]; rfl)
  have hbr : s.bready = true := by rw [h.bready, hs]; rfl
  have hlog := h.log
  simp only [WriteLog.Follows, hs] at hlog
  by_cases ha : i.awready = true
  · have hnext := hlog.taken hb ha
    simp only [AxiWrite.step, hs, if_pos ha, hbuf] at hcoupled ⊢
    exact ⟨hbr, hcoupled _, hnext⟩
  · have hstep : s.step i rd = s := by simp only [AxiWrite.step, hs, if_neg ha]
    rw [hstep]
    have hnext := hlog.wait hb (by simpa using ha)
    exact ⟨h.bready, hcoupled _, by simpa only [WriteLog.Follows, hs] using hnext⟩

omit hb

/-- Waiting for the response, of a line or of a store. -/
theorem step_answer (hs : s.stageW = .w3 ∨ s.stageW = .w6) :
    WriteInv q old (s.logWrites i g) (rd.step i s.stageW).stage (s.step i rd) := by
  have hcoupled := h.writing_coupled (i := i) (by rcases hs with hs | hs <;> rw [hs] <;> rfl)
  have hbr : s.bready = true := by rw [h.bready]; rcases hs with hs | hs <;> rw [hs] <;> rfl
  have hlog : WritingAnswer (q.writes old) g s := by
    have hlog := h.log
    rcases hs with hs | hs <;> simpa only [WriteLog.Follows, hs] using hlog
  by_cases hv : i.bvalid = true
  · have hstep : s.step i rd = { s with bready := false, stageW := .w10 } := by
      rcases hs with hs | hs <;> simp only [AxiWrite.step, hs, if_pos hv]
    rw [hstep]
    exact ⟨rfl, hcoupled _, ⟨hlog.awvalid, hlog.wvalid⟩, hlog.answered hbr hv⟩
  · have hstep : s.step i rd = s := by
      rcases hs with hs | hs <;> simp only [AxiWrite.step, hs, if_neg hv]
    rw [hstep]
    refine ⟨h.bready, hcoupled _, ?_⟩
    have hnext := hlog.wait (i := i) (by simpa using hv)
    rcases hs with hs | hs <;> simpa only [WriteLog.Follows, hs] using hnext

theorem step_w10 (hs : s.stageW = .w10) :
    WriteInv q old (s.logWrites i g) (rd.step i s.stageW).stage (s.step i rd) := by
  have hbr : s.bready = false := by rw [h.bready, hs]; rfl
  obtain ⟨hbusy, -⟩ := h.coupled (by simp [hs])
  have hlog := h.log
  simp only [WriteLog.Follows, hs] at hlog
  obtain ⟨hquiet, hdone⟩ := hlog
  rw [AxiWrite.logWrites_quiet hquiet.awvalid hquiet.wvalid hbr]
  by_cases h11 : rd.stage = .s11
  · have hstep : s.step i rd = { s with stageW := .w0 } := by
      simp only [AxiWrite.step, hs, if_pos h11]
    have hst : (rd.step i s.stageW).stage = .off := by simp only [AxiRead.step, h11]
    rw [hstep, hst]
    exact ⟨hbr, fun hne => absurd rfl hne,
      ⟨hquiet.awvalid, hquiet.wvalid⟩, by simp, fun _ _ => hdone⟩
  · have hstep : s.step i rd = s := by simp only [AxiWrite.step, hs, if_neg h11]
    rw [hstep]
    refine ⟨h.bready, fun _ => ⟨(AxiRead.busy_step hbusy h11).1, fun _ => hs⟩, ?_⟩
    simpa only [WriteLog.Follows, hs] using ⟨hquiet, hdone⟩

theorem step_w0 (hs : s.stageW = .w0) (h0 : rd.stage ≠ .s0) (h1 : rd.stage ≠ .s1) :
    WriteInv q old (s.logWrites i g) (rd.step i s.stageW).stage (s.step i rd) := by
  have hbr : s.bready = false := by rw [h.bready, hs]; rfl
  have hlog := h.log
  simp only [WriteLog.Follows, hs] at hlog
  obtain ⟨hquiet, -, hdone⟩ := hlog
  have hstep : s.step i rd = s := by simp only [AxiWrite.step, hs, if_neg h1]
  rw [hstep, AxiWrite.logWrites_quiet hquiet.awvalid hquiet.wvalid hbr]
  refine ⟨h.bready, fun hne => absurd hs hne, ?_⟩
  simp only [WriteLog.Follows, hs]
  exact ⟨hquiet, fun he => absurd he (AxiRead.step_stage_ne_s1 h0), fun _ _ => hdone h0 h1⟩

end Steps

/-- One cycle of a round after the capture. -/
theorem step {c : AxiCtrl} (h : WriteInv q old g c.rd.stage c.wr) (h0 : c.rd.stage ≠ .s0)
    (h1 : c.rd.stage ≠ .s1) (hbuf : c.rd.buffer = q) (hold : c.rd.dcacheWdataBuffer = old)
    (hu : q.dcacheWe = true → q.uncacheWe = 0) (hb : BvalidOk g c.wr i) (hp : c.wr.Paced i) :
    WriteInv q old (c.wr.logWrites i g) (c.step i).rd.stage (c.step i).wr := by
  cases hs : c.wr.stageW with
  | w0 => exact h.step_w0 hs h0 h1
  | w1 => exact h.step_w1 hb hs hold hu (hp.waits hs) (hp.address hs)
  | w2 => exact h.step_last hb (.inl hs)
  | w3 => exact h.step_answer (.inl hs)
  | w4 => exact h.step_w4 hb hs hbuf
  | w5 => exact h.step_last hb (.inr hs)
  | w6 => exact h.step_answer (.inr hs)
  | w10 => exact h.step_w10 hs

end WriteInv

end NeulaCpu.Rtl
