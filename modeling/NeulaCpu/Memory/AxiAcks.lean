import NeulaCpu.Memory.AxiService

/-!
# Acknowledgements of the bus controller

When a round is acknowledged, and with what: to each client that was recorded, for one cycle, after
its own read and after the response to the write of the round. Nothing is assumed here about the
write channels, so the results also hold of the rounds whose write-back goes wrong; the read slave
ends a burst with its last beat.
-/

namespace NeulaCpu.Rtl

variable {i : AxiIn}

/-! ## The ledger -/

/-- A round, and whether a response was taken after the last word of its write. -/
structure Exchange where
  round : Round
  answered : Bool

namespace Exchange

def observe (g : Exchange) (s : AxiCtrl) (i : AxiIn) : Exchange where
  round := g.round.observe s i
  answered := if s.rd.stage = .s0 then false else
    g.answered || (s.wr.bready && i.bvalid && g.round.writes.w.any WBeat.last)

/-- The refresh outputs are high in the last cycle of a round and in no other, for the recorded
clients only; by then each read has been on the bus once, its beats are what the client gets, and
the write of the round has been answered. The write machine is at rest when a round is accepted. -/
structure Exact (g : Exchange) (s : AxiCtrl) : Prop where
  icache : s.rd.icacheRefresh = (s.rd.stage == .off && g.round.req.icacheRe)
  dcache : s.rd.dcacheRefresh = (s.rd.stage == .off && g.round.req.dcacheRe)
  uncache : s.rd.uncacheRefresh = (s.rd.stage == .off && g.round.req.uncacheEn)
  reads : s.rd.stage = .off → g.round.reads =
    g.round.req.reads s.rd.icacheCachelineNew s.rd.dcacheCachelineNew s.rd.uncacheRdata
  response : s.rd.stage = .off → g.round.req.anyWrite = true → g.answered = true
  idle : s.rd.stage = .s0 ∨ s.rd.stage = .s1 → s.wr.stageW = .w0

/-- The response of the round so far. -/
def Answering (g : Exchange) (st : Stage) (s : AxiWrite) : Prop :=
  match s.stageW with
  | .w0 => st ≠ .s0 → st ≠ .s1 → g.round.req.anyWrite = true → g.answered = true
  | .w1 | .w4 => True
  | .w2 | .w5 => s.wvalid = true ∧ s.wlast = true
  | .w3 | .w6 => g.round.writes.w.any WBeat.last = true
  | .w10 => g.answered = true

variable {g : Exchange} {s : AxiCtrl}

theorem answered_observe (h0 : s.rd.stage ≠ .s0) (h : g.answered = true) :
    (g.observe s i).answered = true := by
  simp [observe, h0, h]

/-- A response that is taken when the last word has gone. -/
theorem answered_of_bvalid (h0 : s.rd.stage ≠ .s0) (hr : s.wr.bready = true) (hb : i.bvalid = true)
    (hl : g.round.writes.w.any WBeat.last = true) : (g.observe s i).answered = true := by
  simp [observe, h0, hr, hb, hl]

theorem req_observe (h0 : s.rd.stage ≠ .s0) : (g.observe s i).round.req = g.round.req := by
  simp [observe, Round.observe, h0]

theorem any_last_observe (h0 : s.rd.stage ≠ .s0) (h : g.round.writes.w.any WBeat.last = true ∨
      s.wr.wvalid = true ∧ i.wready = true ∧ s.wr.wlast = true) :
    (g.observe s i).round.writes.w.any WBeat.last = true := by
  simp only [observe, Round.observe, if_neg h0, AxiWrite.logWrites]
  rcases h with h | ⟨hv, hr, hl⟩
  · split_ifs
    · rw [List.any_append, h, Bool.true_or]
    · exact h
  · simp [hv, hr, hl]

end Exchange

/-! ## The invariant -/

structure AckInv (g : Exchange) (s : AxiCtrl) : Prop where
  signals : s.rd.Signals
  read : ReadLog g.round.req g.round.reads s.rd
  single : s.rd.stage ≠ .s0 → g.round.req.uncacheRead = true → g.round.req.dcacheRe = false
  buffer : s.rd.stage ≠ .s0 → s.rd.buffer = g.round.req
  pending : s.rd.stage = .s1 → g.round.req.anyWrite = true
  bready : s.wr.bready = s.wr.stageW.writes
  coupled : s.wr.stageW ≠ .w0 → s.rd.stage.busy = true ∧ (s.rd.stage = .s11 → s.wr.stageW = .w10)
  answering : g.Answering s.rd.stage s.wr

namespace AckInv

variable {g : Exchange} {s : AxiCtrl}

/-- Outside a round the write machine is at rest. -/
theorem rest (h : AckInv g s) (hs : s.rd.stage.busy = false) : s.wr.stageW = .w0 := by
  by_contra hne
  simpa [hs] using (h.coupled hne).1

theorem ne_s0 (h : AckInv g s) (hw : s.wr.stageW ≠ .w0) : s.rd.stage ≠ .s0 := by
  intro h0
  exact hw (h.rest (by rw [h0]; rfl))

/-! ### The write machine in one cycle -/

/-- What a cycle has to show of the write machine. -/
structure WritePart (g : Exchange) (st : Stage) (s : AxiWrite) : Prop where
  bready : s.bready = s.stageW.writes
  coupled : s.stageW ≠ .w0 → st.busy = true ∧ (st = .s11 → s.stageW = .w10)
  answering : g.Answering st s

section

variable (h : AckInv g s)

include h

theorem write_accept (hs : s.rd.stage = .s0) :
    WritePart (g.observe s i) (s.step i).rd.stage (s.step i).wr := by
  have hw0 := h.rest (by rw [hs]; rfl)
  have hstep : (s.step i).wr = s.wr := by simp [AxiCtrl.step, AxiWrite.step, hw0, hs]
  rw [hstep]
  refine ⟨h.bready, fun hne => absurd hw0 hne, ?_⟩
  simp only [Exchange.Answering, hw0, Exchange.observe, Round.observe, AxiCtrl.step, AxiRead.step,
    hs]
  intro _ h1 hany
  rw [if_pos trivial] at hany
  exact absurd (if_pos hany) h1

/-- The cycle that captures the line starts the write for which it was entered. -/
theorem write_start (hs : s.rd.stage = .s1) :
    WritePart (g.observe s i) (s.step i).rd.stage (s.step i).wr := by
  have hw0 := h.rest (by rw [hs]; rfl)
  have hbuf := h.buffer (by simp [hs])
  have hany := h.pending hs
  have hbusy : (s.step i).rd.stage.busy = true ∧ (s.step i).rd.stage ≠ .s11 := by
    simp only [AxiCtrl.step, AxiRead.step, hs]
    split_ifs <;> simp [Stage.busy]
  have hcoupled : ∀ v : StageW, v ≠ .w0 →
      (s.step i).rd.stage.busy = true ∧ ((s.step i).rd.stage = .s11 → v = .w10) :=
    fun _ _ => ⟨hbusy.1, fun h11 => absurd h11 hbusy.2⟩
  by_cases hd : g.round.req.dcacheWe = true
  · have hst : (s.step i).wr.stageW = .w1 ∧ (s.step i).wr.bready = true := by
      simp [AxiCtrl.step, AxiWrite.step, hw0, hs, hbuf, hd]
    refine ⟨by rw [hst.1, hst.2]; rfl, hcoupled _, ?_⟩
    simp only [Exchange.Answering, hst.1]
  · have hu : (g.round.req.uncacheWe != 0) = true := by
      simp only [AxiReq.anyWrite, Bool.or_eq_true, Bool.and_eq_true] at hany
      exact (hany.resolve_left hd).2
    have hst : (s.step i).wr.stageW = .w4 ∧ (s.step i).wr.bready = true := by
      simp only [AxiCtrl.step, AxiWrite.step, hw0, hs, hbuf, if_neg hd, if_pos hu, if_true,
        and_self]
    refine ⟨by rw [hst.1, hst.2]; rfl, hcoupled _, ?_⟩
    simp only [Exchange.Answering, hst.1]

/-- No write is under way, or it is over. -/
theorem write_w0 (hw : s.wr.stageW = .w0) (h0 : s.rd.stage ≠ .s0)
    (h1 : s.rd.stage ≠ .s1) : WritePart (g.observe s i) (s.step i).rd.stage (s.step i).wr := by
  have hans := h.answering
  simp only [Exchange.Answering, hw] at hans
  have hstep : (s.step i).wr = s.wr := by simp only [AxiCtrl.step, AxiWrite.step, hw, if_neg h1]
  rw [hstep]
  refine ⟨h.bready, fun hne => absurd hw hne, ?_⟩
  simp only [Exchange.Answering, hw]
  intro _ _ hany
  rw [Exchange.req_observe h0] at hany
  exact Exchange.answered_observe h0 (hans h0 h1 hany)

theorem write_w10 (hw : s.wr.stageW = .w10) :
    WritePart (g.observe s i) (s.step i).rd.stage (s.step i).wr := by
  have hne : s.wr.stageW ≠ .w0 := by simp [hw]
  have hans := h.answering
  simp only [Exchange.Answering, hw] at hans
  have hans' := Exchange.answered_observe (i := i) (h.ne_s0 hne) hans
  by_cases h11 : s.rd.stage = .s11
  · have hstep : (s.step i).wr = { s.wr with stageW := .w0 } := by
      simp only [AxiCtrl.step, AxiWrite.step, hw, if_pos h11]
    rw [hstep]
    refine ⟨h.bready.trans (by rw [hw]; rfl), fun hn => absurd rfl hn, ?_⟩
    exact fun _ _ _ => hans'
  · have hstep : (s.step i).wr = s.wr := by simp only [AxiCtrl.step, AxiWrite.step, hw, if_neg h11]
    rw [hstep]
    refine ⟨h.bready, fun _ => ⟨(AxiRead.busy_step (h.coupled hne).1 h11).1, fun _ => hw⟩, ?_⟩
    simpa only [Exchange.Answering, hw] using hans'

/-- A write is under way. -/
theorem write_under (hw : s.wr.stageW.writes = true) :
    WritePart (g.observe s i) (s.step i).rd.stage (s.step i).wr := by
  have hne : s.wr.stageW ≠ .w0 := by intro hw0; simp [hw0, StageW.writes] at hw
  have h0 := h.ne_s0 hne
  have hbr : s.wr.bready = true := h.bready.trans hw
  have hans := h.answering
  have hcoupled := AxiRead.coupled_step (i := i) h.coupled hw
  refine ⟨?_, fun _ => hcoupled _, ?_⟩
  · simp only [AxiCtrl.step, AxiWrite.step]
    split <;> rename_i hst <;> (try split_ifs) <;>
      simp_all [AxiWrite.present, AxiWrite.taken, StageW.writes] <;> split_ifs <;> rfl
  · simp only [AxiCtrl.step]
    cases hst : s.wr.stageW with
    | w0 => exact absurd hst hne
    | w10 => simp [hst, StageW.writes] at hw
    | w1 =>
      -- the word that leaves this stage is the one marked as the last
      simp only [AxiWrite.step, hst, AxiWrite.present]
      by_cases hk : s.wr.dcacheOffsetW = 0b1111
      · simp only [hk]
        split_ifs
        · exact ⟨rfl, rfl⟩
        · exact ⟨rfl, rfl⟩
        · simp only [Exchange.Answering, hst]
      · simp only [if_neg hk]
        split_ifs
        · trivial
        · trivial
        · simp only [Exchange.Answering, hst]
    | w4 =>
      simp only [AxiWrite.step, hst]
      split_ifs
      · exact ⟨rfl, rfl⟩
      · simp only [Exchange.Answering, hst]
    | w2 | w5 =>
      simp only [Exchange.Answering, hst] at hans
      simp only [AxiWrite.step, hst]
      split_ifs with hr
      · exact Exchange.any_last_observe h0 (.inr ⟨hans.1, hr, hans.2⟩)
      · simpa only [Exchange.Answering, hst] using hans
    | w3 | w6 =>
      simp only [Exchange.Answering, hst] at hans
      simp only [AxiWrite.step, hst]
      split_ifs with hb
      · exact Exchange.answered_of_bvalid h0 hbr hb hans
      · simp only [Exchange.Answering, hst]
        exact Exchange.any_last_observe h0 (.inl hans)

theorem write_step : WritePart (g.observe s i) (s.step i).rd.stage (s.step i).wr := by
  by_cases h0 : s.rd.stage = .s0
  · exact h.write_accept h0
  · by_cases h1 : s.rd.stage = .s1
    · exact h.write_start h1
    · cases hw : s.wr.stageW with
      | w0 => exact h.write_w0 hw h0 h1
      | w10 => exact h.write_w10 hw
      | _ => exact h.write_under (by rw [hw]; rfl)

/-! ### Both machines in one cycle -/

theorem read_step (hc : s.rd.stage = .s0 → i.req.uncacheRead = true → i.req.dcacheRe = false)
    (hr : RlastOk g.round.reads s.rd i) :
    ReadLog (g.observe s i).round.req (g.observe s i).round.reads (s.step i).rd ∧
      ((g.observe s i).round.req.uncacheRead = true → (g.observe s i).round.req.dcacheRe = false) ∧
      (s.step i).rd.buffer = (g.observe s i).round.req ∧
      ((s.step i).rd.stage = .s1 → (g.observe s i).round.req.anyWrite = true) := by
  by_cases h0 : s.rd.stage = .s0
  · simp only [Exchange.observe, Round.observe, h0, if_true]
    refine ⟨ReadLog.accept h.signals h0, hc h0, by simp only [AxiCtrl.step, AxiRead.step, h0], ?_⟩
    intro h1
    by_contra hany
    simp only [AxiCtrl.step, AxiRead.step, h0, if_neg hany] at h1
    split_ifs at h1
  · simp only [Exchange.observe, Round.observe, if_neg h0]
    exact ⟨h.read.step h.signals (h.buffer h0) (h.single h0) hr h0, h.single h0,
      (AxiRead.step_buffer h0).trans (h.buffer h0),
      fun h1 => absurd h1 (AxiRead.step_stage_ne_s1 h0)⟩

theorem step (hc : s.rd.stage = .s0 → i.req.uncacheRead = true → i.req.dcacheRe = false)
    (hr : RlastOk g.round.reads s.rd i) : AckInv (g.observe s i) (s.step i) := by
  obtain ⟨hread, hsingle, hbuf, hpending⟩ := h.read_step hc hr
  have hwrite := h.write_step (i := i)
  exact
    { signals := h.signals.step
      read := hread
      single := fun _ => hsingle
      buffer := fun _ => hbuf
      pending := hpending
      bready := hwrite.bready
      coupled := hwrite.coupled
      answering := hwrite.answering }

theorem acks_exact : g.Exact s := by
  have hidle : s.rd.stage = .s0 ∨ s.rd.stage = .s1 → s.wr.stageW = .w0 := by
    rintro (hs | hs)
    · exact h.rest (by rw [hs]; rfl)
    · exact h.rest (by rw [hs]; rfl)
  by_cases hoff : s.rd.stage = .off
  · have hread := h.read
    simp only [ReadLog, hoff] at hread
    obtain ⟨hreads, hi, hd, hu⟩ := hread
    have hans := h.answering
    simp only [Exchange.Answering, h.rest (by rw [hoff]; rfl)] at hans
    exact
      { icache := by rw [hi, hoff]; rfl
        dcache := by rw [hd, hoff]; rfl
        uncache := by rw [hu, hoff]; rfl
        reads := fun _ => hreads
        response := fun _ => hans (by simp [hoff]) (by simp [hoff])
        idle := hidle }
  · obtain ⟨hi, hd, hu⟩ := h.signals.refresh hoff
    exact
      { icache := by simp [hi, hoff]
        dcache := by simp [hd, hoff]
        uncache := by simp [hu, hoff]
        reads := fun h' => absurd h' hoff
        response := fun h' => absurd h' hoff
        idle := hidle }

end

end AckInv

/-! ## Runs -/

namespace AxiRead

variable {s : AxiRead} {w : StageW}

/-- What a cycle shows of the length of a pulse and of a round, and of a read address that waits. -/
structure Turns (s s' : AxiRead) (i : AxiIn) : Prop where
  opens : s.stage = .off → s'.stage = .s0
  closes : s.stage ≠ .s0 → s'.stage = .s0 → s.stage = .off
  holds : s.arvalid = true → i.arready = false → s'.arvalid = true ∧ s'.arid = s.arid ∧
    s'.araddr = s.araddr ∧ s'.arlen = s.arlen ∧ s'.arsize = s.arsize

theorem Signals.turns (h : s.Signals) : s.Turns (s.step i w) i where
  opens hs := by simp only [AxiRead.step, hs]
  closes h0 h' := by
    by_contra hoff
    by_cases h1 : s.stage = .s1
    · simp only [AxiRead.step, h1] at h'
      split_ifs at h'
    · by_cases h11 : s.stage = .s11
      · simp [AxiRead.step, h11] at h'
      · have hbusy := (busy_step (i := i) (w := w) (Stage.busy_of_ne h0 h1 hoff) h11).1
        simp [h', Stage.busy] at hbusy
  holds ha hr := by
    have harv := h.arvalid
    rw [ha] at harv
    cases hst : s.stage with
    | s3 | s6 | s8 => simp [AxiRead.step, hst, hr, ha]
    | _ => simp [hst, Stage.asks] at harv

end AxiRead

instance (l : List Burst) (s : AxiRead) (i : AxiIn) : Decidable (RlastOk l s i) :=
  inferInstanceAs (Decidable (_ → _ → _))

namespace AxiRun

def exchange (r : AxiRun) (n : ℕ) : Exchange :=
  Clocked.ghost AxiCtrl.step Exchange.observe r.start ⟨r.opening, false⟩ r.inp n

theorem ackInv_start (r : AxiRun) : AckInv ⟨r.opening, false⟩ r.start where
  signals := ⟨rfl, rfl, fun _ => ⟨rfl, rfl, rfl⟩⟩
  read := trivial
  single h := absurd rfl h
  buffer h := absurd rfl h
  pending h := Stage.noConfusion h
  bready := rfl
  coupled h := absurd rfl h
  answering := fun h => absurd rfl h

/-- In every run with a read slave that ends its bursts and no uncached read beside a miss of
`dcache`, all rounds are acknowledged exactly; and in every cycle a pulse ends with the round, a
round ends with a pulse, and a read address stays until it is taken. -/
theorem rounds_exact (r : AxiRun) (n : ℕ)
    (single : ∀ k < n, (r.ctrl k).rd.stage = .s0 → (r.inp k).req.uncacheRead = true →
      (r.inp k).req.dcacheRe = false)
    (slave : ∀ k < n, RlastOk (r.exchange k).round.reads (r.ctrl k).rd (r.inp k)) :
    (r.exchange n).Exact (r.ctrl n) ∧
      ∀ k < n, (r.ctrl k).rd.Turns (r.ctrl (k + 1)).rd (r.inp k) := by
  have hinv : ∀ m ≤ n, AckInv (r.exchange m) (r.ctrl m) := by
    intro m hm
    refine Clocked.ghost_invariant (P := AckInv)
      (A := fun g s i => (s.rd.stage = .s0 → i.req.uncacheRead = true → i.req.dcacheRe = false) ∧
        RlastOk g.round.reads s.rd i)
      (ackInv_start r) ?_ m ?_
    · rintro g s i h ⟨hc, hr⟩
      exact h.step hc hr
    · exact fun k hk => ⟨single k (by omega), slave k (by omega)⟩
  exact ⟨(hinv n le_rfl).acks_exact, fun k hk => (hinv k hk.le).signals.turns⟩

theorem rounds_exact_miss :
    ((missWith false 0).ctrl 23).rd.dcacheRefresh = true ∧
      ((missWith false 0).exchange 23).Exact ((missWith false 0).ctrl 23) :=
  ⟨by decide +kernel, (rounds_exact _ 23 (by decide +kernel) (by decide +kernel)).1⟩

end AxiRun

end NeulaCpu.Rtl
