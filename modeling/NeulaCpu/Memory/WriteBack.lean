import NeulaCpu.Memory.AxiService

/-!
# The write-back of a line

A line that `dcache` gives up is written back with one burst. The two write channels of the burst
are driven from one stage, and `awready` in that stage replaces the word on the data channel whether
or not the slave has taken it. The results here are about the burst alone, whatever else is in the
round: the store that may come with the write-back is not looked at by the write machine, so the
invariant of a write applies to the requests without it.
-/

namespace NeulaCpu.Rtl

/-! ## The requests as the write machine sees them -/

namespace AxiReq

/-- The requests without a store that the write machine never looks at. -/
def seen (q : AxiReq) : AxiReq :=
  if q.uncacheWe ≠ 0 ∧ (q.dcacheWe = true ∨ q.uncacheEn = false) then
    { q with uncacheEn := false, uncacheWe := 0 }
  else q

variable (q : AxiReq)

@[simp] theorem seen_icacheRe : q.seen.icacheRe = q.icacheRe := by unfold seen; split_ifs <;> rfl

@[simp] theorem seen_dcacheRe : q.seen.dcacheRe = q.dcacheRe := by unfold seen; split_ifs <;> rfl

@[simp] theorem seen_dcacheWe : q.seen.dcacheWe = q.dcacheWe := by unfold seen; split_ifs <;> rfl

@[simp] theorem seen_dcacheWaddr : q.seen.dcacheWaddr = q.dcacheWaddr := by
  unfold seen; split_ifs <;> rfl

@[simp] theorem seen_uncacheAddr : q.seen.uncacheAddr = q.uncacheAddr := by
  unfold seen; split_ifs <;> rfl

@[simp] theorem seen_uncacheWdata : q.seen.uncacheWdata = q.uncacheWdata := by
  unfold seen; split_ifs <;> rfl

@[simp] theorem seen_uncacheRead : q.seen.uncacheRead = q.uncacheRead := by
  unfold seen
  split_ifs with h
  · have hne : (q.uncacheWe != 0) = true := bne_iff_ne.mpr h.1
    rw [uncacheRead, uncacheRead, hne]
    simp
  · rfl

@[simp] theorem seen_anyRead : q.seen.anyRead = q.anyRead := by simp [anyRead]

@[simp] theorem seen_anyWrite : q.seen.anyWrite = q.anyWrite := by
  unfold seen
  split_ifs with h
  · rcases h.2 with hd | hu
    · simp [anyWrite, hd]
    · simp [anyWrite, hu]
  · rfl

theorem seen_single (h : q.seen.dcacheWe = true) : q.seen.uncacheWe = 0 := by
  rw [seen_dcacheWe] at h
  unfold seen
  split_ifs with hs
  · rfl
  · by_contra hne
    exact hs ⟨hne, .inl h⟩

theorem seen_store (h : q.seen.uncacheWe ≠ 0) : q.seen.uncacheEn = true := by
  unfold seen at h ⊢
  split_ifs at h ⊢ with hs
  · exact absurd rfl h
  · by_contra hen
    exact hs ⟨h, .inr (by simpa using hen)⟩

/-- A store that is the write of its round is seen. -/
theorem seen_uncacheWe (hd : q.dcacheWe = false) (hw : q.anyWrite = true) :
    q.seen.uncacheWe = q.uncacheWe := by
  unfold seen
  split_ifs with hs
  · simp only [anyWrite, hd, Bool.false_or, Bool.and_eq_true] at hw
    rcases hs.2 with hd' | hen
    · simp [hd] at hd'
    · simp [hen] at hw
  · rfl

end AxiReq

/-- The read machine with the requests as the write machine sees them. -/
def AxiRead.seen (s : AxiRead) : AxiRead := { s with buffer := s.buffer.seen }

variable {i : AxiIn} {w : StageW}

theorem AxiRead.stage_step_seen (s : AxiRead) : (s.seen.step i w).stage = (s.step i w).stage := by
  cases hs : s.stage <;>
    simp only [AxiRead.step, AxiRead.seen, hs, AxiReq.seen_anyRead, AxiReq.seen_icacheRe,
      AxiReq.seen_dcacheRe, AxiReq.seen_uncacheRead] <;>
    split_ifs <;> first | rfl | exact hs.symm

/-- The write machine looks at nothing else. -/
theorem AxiWrite.step_seen {s : AxiWrite} {rd : AxiRead}
    (hw : rd.stage = .s1 → rd.buffer.anyWrite = true) : s.step i rd.seen = s.step i rd := by
  have hwe : rd.stage = .s1 → ¬ rd.buffer.dcacheWe = true →
      rd.buffer.seen.uncacheWe = rd.buffer.uncacheWe :=
    fun h1 hd => AxiReq.seen_uncacheWe _ (by simpa using hd) (hw h1)
  unfold AxiWrite.step AxiRead.seen
  split <;> simp only [AxiReq.seen_dcacheWe, AxiReq.seen_dcacheWaddr, AxiReq.seen_uncacheAddr,
    AxiReq.seen_uncacheWdata]
  -- only the stage that starts a write looks at the mask of the store
  by_cases h1 : rd.stage = .s1
  · by_cases hd : rd.buffer.dcacheWe = true
    · simp only [if_pos hd]
    · rw [hwe h1 hd]
  · simp only [if_neg h1]

/-! ## The invariant -/

structure LineInv (g : Round) (s : AxiCtrl) : Prop where
  write : WriteInv g.req.seen g.old g.writes s.rd.stage s.wr
  buffer : s.rd.stage ≠ .s0 → s.rd.buffer = g.req
  old : s.rd.dcacheWdataBuffer = g.old

theorem lineInv_start (r : AxiRun) : LineInv r.opening r.start where
  write := ⟨rfl, fun h => absurd rfl h, ⟨rfl, rfl⟩, fun h => Stage.noConfusion h,
    fun h => absurd rfl h⟩
  buffer h := absurd rfl h
  old := rfl

namespace LineInv

variable {g : Round} {s : AxiCtrl}

/-- The stage that captures the line is entered for a write only. -/
theorem anyWrite (h : LineInv g s) (hs : s.rd.stage = .s1) : s.rd.buffer.anyWrite = true := by
  obtain ⟨hw0, -, -⟩ := h.write.rest (by rw [hs]; rfl)
  have hlog := h.write.log
  simp only [WriteLog.Follows, hw0] at hlog
  rw [h.buffer (by simp [hs]), ← AxiReq.seen_anyWrite]
  exact (hlog.2.1 hs).1

theorem step_accept (h : LineInv g s) (hs : s.rd.stage = .s0) :
    LineInv (g.observe s i) (s.step i) := by
  have hobs : g.observe s i = ⟨i.req, g.old, s.rd.logReads i [], s.wr.logWrites i .empty, 0⟩ := by
    simp [Round.observe, hs]
  have hwrite := h.write.accept (i := { i with req := i.req.seen }) hs i.req.seen_store
  have hstage : (s.rd.step { i with req := i.req.seen } s.wr.stageW).stage =
      (s.rd.step i s.wr.stageW).stage := by
    simp only [AxiRead.step, hs, AxiReq.seen_anyWrite, AxiReq.seen_anyRead]
  rw [hstage] at hwrite
  rw [hobs]
  exact
    { write := hwrite
      buffer := fun _ => by simp only [AxiCtrl.step, AxiRead.step, hs]
      old := (AxiRead.step_dcacheWdataBuffer (by simp [hs])).trans h.old }

theorem step_capture (h : LineInv g s) (hs : s.rd.stage = .s1) :
    LineInv (g.observe s i) (s.step i) := by
  have h0 : s.rd.stage ≠ .s0 := by simp [hs]
  have hobs : g.observe s i = ⟨g.req, i.dcacheCachelineOld, s.rd.logReads i g.reads,
      s.wr.logWrites i g.writes, g.served + (s.served i).toNat⟩ := by
    simp [Round.observe, hs]
  have hbusy : (s.step i).rd.stage.busy = true ∧ (s.step i).rd.stage ≠ .s11 := by
    simp only [AxiCtrl.step, AxiRead.step, hs]
    split_ifs <;> simp [Stage.busy]
  have hbuf : s.rd.seen.buffer = g.req.seen := by rw [AxiRead.seen, h.buffer h0]
  have hwrite : WriteInv g.req.seen i.dcacheCachelineOld (s.wr.logWrites i g.writes)
      (s.step i).rd.stage (s.wr.step i s.rd.seen) :=
    WriteInv.start h.write hs hbuf g.req.seen_single hbusy.1 hbusy.2
  rw [AxiWrite.step_seen h.anyWrite] at hwrite
  rw [hobs]
  exact
    { write := hwrite
      buffer := fun _ => (AxiRead.step_buffer h0).trans (h.buffer h0)
      old := by simp only [AxiCtrl.step, AxiRead.step, hs] }

theorem step_round (h : LineInv g s) (h0 : s.rd.stage ≠ .s0) (h1 : s.rd.stage ≠ .s1)
    (hb : BvalidOk g.writes s.wr i) (hp : s.wr.Paced i) : LineInv (g.observe s i) (s.step i) := by
  have hobs : g.observe s i = ⟨g.req, g.old, s.rd.logReads i g.reads, s.wr.logWrites i g.writes,
      g.served + (s.served i).toNat⟩ := by
    simp [Round.observe, h0, h1]
  have hbuf : s.rd.seen.buffer = g.req.seen := by rw [AxiRead.seen, h.buffer h0]
  have hwrite :=
    WriteInv.step (c := ⟨s.rd.seen, s.wr⟩) (i := i) h.write h0 h1 hbuf h.old g.req.seen_single hb hp
  simp only [AxiCtrl.step, AxiRead.stage_step_seen, AxiWrite.step_seen h.anyWrite] at hwrite
  rw [hobs]
  exact
    { write := hwrite
      buffer := fun _ => (AxiRead.step_buffer h0).trans (h.buffer h0)
      old := (AxiRead.step_dcacheWdataBuffer h1).trans h.old }

theorem step (h : LineInv g s) (hb : BvalidOk g.writes s.wr i) (hp : s.wr.Paced i) :
    LineInv (g.observe s i) (s.step i) := by
  by_cases h0 : s.rd.stage = .s0
  · exact h.step_accept h0
  · by_cases h1 : s.rd.stage = .s1
    · exact h.step_capture h1
    · exact h.step_round h0 h1 hb hp

end LineInv

/-! ## What the bus sees -/

namespace AxiReq

/-- The burst that writes a line back. -/
def lineBurst (q : AxiReq) (line : Line) : WriteLog :=
  ⟨[⟨q.dcacheWaddr, 0xf, 0b010⟩], line.beats, 1⟩

theorem writes_seen (q : AxiReq) (old : Line) (hd : q.dcacheWe = true) :
    q.seen.writes old = q.lineBurst old := by
  rw [writes_line old (by simpa using hd) (q.seen_single (by simpa using hd)), lineBurst,
    seen_dcacheWaddr]

end AxiReq

/-- The write-back of a round: a beginning of the burst while the round lasts, the whole burst when
the write machine is done, and nothing offered when no write is under way. -/
structure Round.Intact (g : Round) (s : AxiCtrl) : Prop where
  under : s.rd.stage.busy = true → g.req.dcacheWe = true →
    g.writes.aw <+: (g.req.lineBurst s.rd.dcacheWdataBuffer).aw ∧
      g.writes.w <+: (g.req.lineBurst s.rd.dcacheWdataBuffer).w
  whole : s.wr.stageW = .w10 ∨ s.rd.stage = .off → g.req.dcacheWe = true →
    g.writes = g.req.lineBurst s.rd.dcacheWdataBuffer
  rest : s.wr.stageW.writes = false → s.wr.awvalid = false ∧ s.wr.wvalid = false

/-- A payload that was not taken stays on its channel. -/
structure AxiWrite.Holds (s s' : AxiWrite) (i : AxiIn) : Prop where
  address : s.awvalid = true → i.awready = false → s'.awvalid = true ∧ s'.awid = s.awid ∧
    s'.awaddr = s.awaddr ∧ s'.awlen = s.awlen ∧ s'.awsize = s.awsize
  data : s.wvalid = true → i.wready = false →
    s'.wvalid = true ∧ s'.wdata = s.wdata ∧ s'.wstrb = s.wstrb ∧ s'.wlast = s.wlast

namespace WriteInv

variable {q : AxiReq} {old : Line} {g : WriteLog} {st : Stage} {s : AxiWrite}

/-- In every stage the ledger is a beginning of what the round has to write. -/
theorem log_prefix (h : WriteInv q old g st s) (hst : st.busy = true) (hd : q.dcacheWe = true)
    (hu : q.uncacheWe = 0) : g.aw <+: (q.writes old).aw ∧ g.w <+: (q.writes old).w := by
  have hlog := h.log
  unfold WriteLog.Follows at hlog
  split at hlog
  · have hne : st ≠ .s0 ∧ st ≠ .s1 := by constructor <;> rintro rfl <;> simp [Stage.busy] at hst
    rw [hlog.2.2 hne.1 hne.2]
    exact ⟨List.prefix_rfl, List.prefix_rfl⟩
  · refine ⟨⟨_, hlog.aw⟩, ?_⟩
    rw [AxiReq.writes_line old hd hu]
    exact List.IsPrefix.trans ⟨_, hlog.w⟩ (List.take_prefix _ _)
  · simp [hlog.request] at hd
  · exact ⟨⟨_, hlog.aw⟩, ⟨_, hlog.w⟩⟩
  · exact ⟨⟨_, hlog.aw⟩, ⟨_, hlog.w⟩⟩
  · exact ⟨⟨_, hlog.aw⟩, hlog.w ▸ List.prefix_rfl⟩
  · exact ⟨⟨_, hlog.aw⟩, hlog.w ▸ List.prefix_rfl⟩
  · rw [hlog.2]
    exact ⟨List.prefix_rfl, List.prefix_rfl⟩

theorem quiet (h : WriteInv q old g st s) (hs : s.stageW.writes = false) : s.Quiet := by
  have hlog := h.log
  unfold WriteLog.Follows at hlog
  split at hlog <;> rename_i hw
  · exact hlog.1
  all_goals first
    | exact hlog.1
    | simp [hw, StageW.writes] at hs

theorem holds {rd : AxiRead} (h : WriteInv q old g rd.stage s) (hp : s.Paced i) :
    s.Holds (s.step i rd) i := by
  have hlog := h.log
  have hquiet := h.quiet
  unfold AxiWrite.step
  split <;> rename_i hw
  case h_1 =>
    have hq := hquiet (by rw [hw]; rfl)
    exact ⟨fun ha => by simp [hq.awvalid] at ha, fun hv => by simp [hq.wvalid] at hv⟩
  case h_2 =>
    refine ⟨fun ha hr => ?_, fun hv hr => ?_⟩
    · rw [if_neg (by simp [hr])]
      split_ifs <;> exact ⟨ha, rfl, rfl, rfl, rfl⟩
    · -- a word waits only while `awready` is low
      have har : ¬ i.awready = true := fun har => by simp [hp.waits hw hv har] at hr
      rw [if_neg har, if_neg (by simp [hr])]
      exact ⟨hv, rfl, rfl, rfl⟩
  case h_5 =>
    simp only [WriteLog.Follows, hw] at hlog
    refine ⟨fun ha hr => ?_, fun hv => by simp [hlog.wvalid] at hv⟩
    rw [if_neg (by simp [hr])]
    exact ⟨ha, rfl, rfl, rfl, rfl⟩
  case h_3 | h_6 =>
    refine ⟨fun ha _ => ?_, fun hv hr => ?_⟩
    · split_ifs <;> exact ⟨ha, rfl, rfl, rfl, rfl⟩
    · rw [if_neg (by simp [hr])]
      exact ⟨hv, rfl, rfl, rfl⟩
  -- the stages that wait for the response or for the acknowledge leave both channels alone
  all_goals
    split_ifs <;> exact ⟨fun ha _ => ⟨ha, rfl, rfl, rfl, rfl⟩, fun hv _ => ⟨hv, rfl, rfl, rfl⟩⟩

end WriteInv

theorem LineInv.intact {g : Round} {s : AxiCtrl} (h : LineInv g s) : g.Intact s where
  under hst hd := by
    rw [h.old, ← AxiReq.writes_seen _ _ hd]
    exact h.write.log_prefix hst (by simpa using hd) (g.req.seen_single (by simpa using hd))
  whole hend hd := by
    rw [h.old, ← AxiReq.writes_seen _ _ hd]
    have hlog := h.write.log
    rcases hend with hw | hoff
    · simp only [WriteLog.Follows, hw] at hlog
      exact hlog.2
    · simp only [WriteLog.Follows, (h.write.rest (by rw [hoff]; rfl)).1] at hlog
      exact hlog.2.2 (by simp [hoff]) (by simp [hoff])
  rest hs := ⟨(h.write.quiet hs).awvalid, (h.write.quiet hs).wvalid⟩

/-- While a write is under way the read machine is past the stage that starts one. -/
theorem LineInv.ne_s1 {g : Round} {s : AxiCtrl} (h : LineInv g s) (hm : s.wr.moves i = true) :
    s.rd.stage ≠ .s1 := by
  intro h1
  obtain ⟨hw0, -, -⟩ := h.write.rest (by rw [h1]; rfl)
  simp [AxiWrite.moves, hw0] at hm

/-! ## Runs -/

instance (g : WriteLog) (s : AxiWrite) (i : AxiIn) : Decidable (BvalidOk g s i) :=
  inferInstanceAs (Decidable (_ → _ → _))

namespace AxiRun

/-- In every run in which `awready` keeps to the pace of the words, every line is written back with
one burst that carries its sixteen words in order, what is offered on a channel stays until it is
taken, and every handshake brings the write nearer to its end. -/
theorem write_back_intact (r : AxiRun) (n : ℕ)
    (slave : ∀ k < n, BvalidOk (r.round k).writes (r.ctrl k).wr (r.inp k))
    (paced : ∀ k < n, (r.ctrl k).wr.Paced (r.inp k)) :
    (r.round n).Intact (r.ctrl n) ∧
      ∀ k < n, (r.ctrl k).wr.Holds (r.ctrl (k + 1)).wr (r.inp k) ∧
        ((r.ctrl k).wr.moves (r.inp k) = true → (r.ctrl (k + 1)).wr.toGo < (r.ctrl k).wr.toGo) := by
  have hinv : ∀ m ≤ n, LineInv (r.round m) (r.ctrl m) := by
    intro m hm
    refine Clocked.ghost_invariant (P := LineInv)
      (A := fun g s i => BvalidOk g.writes s.wr i ∧ s.wr.Paced i) (lineInv_start r) ?_ m ?_
    · rintro g s i h ⟨hb, hp⟩
      exact h.step hb hp
    · exact fun k hk => ⟨slave k (by omega), paced k (by omega)⟩
  refine ⟨(hinv n le_rfl).intact, fun k hk =>
    ⟨(hinv k hk.le).write.holds (paced k hk), fun hm => ?_⟩⟩
  have hgo := AxiWrite.toGo_step (i := r.inp k) (s := (r.ctrl k).wr) ((hinv k hk.le).ne_s1 hm)
  rw [hm, Bool.toNat_true] at hgo
  exact hgo

theorem write_back_intact_miss :
    ((missWith false 0).ctrl 23).rd.stage = .off ∧
      ((missWith false 0).round 23).Intact ((missWith false 0).ctrl 23) :=
  ⟨by decide +kernel, (write_back_intact _ 23 (by decide +kernel) (by decide +kernel)).1⟩

/-- The miss of `missWith` with a slave that has `awready` high by default and takes words late. -/
def eagerAddress : AxiRun where
  unset := (missWith false 0).unset
  inp k := { (missWith false 0).inp k with awready := true, wready := decide (18 ≤ k) }

/-- Fifteen of the sixteen words are replaced on the channel before they are taken. -/
theorem words_replaced_by_awready :
    (∀ k < 23, SlaveOk (eagerAddress.round k) (eagerAddress.ctrl k) (eagerAddress.inp k)) ∧
    (∀ k < 23, (eagerAddress.ctrl k).wr.bready = true → (eagerAddress.inp k).bvalid = true →
      (eagerAddress.round k).writes.b < (eagerAddress.round k).writes.aw.length) ∧
    (eagerAddress.ctrl 23).rd.dcacheRefresh = true ∧
    (eagerAddress.round 23).writes = ⟨[⟨0x1c005000#32, 0xf, 0b010⟩], [⟨15, 0b1111, true⟩], 1⟩ ∧
    ¬ (eagerAddress.round 23).Intact (eagerAddress.ctrl 23) := by
  refine ⟨by decide +kernel, by decide +kernel, by decide +kernel, by decide +kernel, ?_⟩
  intro h
  have hwhole := h.whole (.inr (by decide +kernel)) (by decide +kernel)
  revert hwhole
  decide +kernel

end AxiRun

end NeulaCpu.Rtl
