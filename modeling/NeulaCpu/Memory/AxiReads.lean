import NeulaCpu.Memory.AxiRound

/-!
# The read channels of the bus controller

What the bus has seen of the reads of a round, stage by stage: the bursts that are completed, and of
the one under way as many words as have arrived.
-/

namespace NeulaCpu.Rtl

variable {q : AxiReq} {l : List Burst} {i : AxiIn} {w : StageW}

/-! ## Stages -/

/-- An address is on the read address channel. -/
def Stage.asks : Stage → Bool
  | .s3 | .s6 | .s8 => true
  | _ => false

/-- A burst is being received. -/
def Stage.listens : Stage → Bool
  | .s4 | .s7 | .s9 => true
  | _ => false

namespace AxiRead

variable {s : AxiRead}

/-- The outputs that depend on the stage alone. -/
structure Signals (s : AxiRead) : Prop where
  arvalid : s.arvalid = s.stage.asks
  rready : s.rready = s.stage.listens
  refresh : s.stage ≠ .off →
    s.icacheRefresh = false ∧ s.dcacheRefresh = false ∧ s.uncacheRefresh = false

theorem Signals.step (h : s.Signals) : (s.step i w).Signals := by
  have harv := h.arvalid
  have hrr := h.rready
  have href := h.refresh
  unfold AxiRead.step
  -- one case for each stage and each answer of the slave; what the stage sets is read off the
  -- record
  split <;> rename_i hst <;> rw [hst] at harv hrr href <;> (try split_ifs) <;> constructor <;>
    simp_all [ask, accepted, Stage.asks, Stage.listens]

theorem step_buffer (hs : s.stage ≠ .s0) : (s.step i w).buffer = s.buffer := by
  unfold AxiRead.step
  split <;> first | contradiction | (split_ifs <;> rfl) | rfl

theorem step_dcacheWdataBuffer (hs : s.stage ≠ .s1) :
    (s.step i w).dcacheWdataBuffer = s.dcacheWdataBuffer := by
  unfold AxiRead.step
  split <;> first | contradiction | (split_ifs <;> rfl) | rfl

/-! ### What a cycle adds to the bursts -/

namespace Signals

variable (h : s.Signals)

include h

theorem logReads_idle (hs : s.stage.asks = false ∧ s.stage.listens = false) :
    s.logReads i l = l := by
  simp [logReads, h.arvalid, h.rready, hs]

theorem logReads_asks (hs : s.stage.asks = true ∧ s.stage.listens = false) :
    s.logReads i l = if i.arready then ⟨s.araddr, s.arlen, []⟩ :: l else l := by
  simp [logReads, h.arvalid, h.rready, hs]

theorem logReads_listens (hs : s.stage.asks = false ∧ s.stage.listens = true) :
    s.logReads i l = if i.rvalid then addBeat l i.rdata else l := by
  simp [logReads, h.arvalid, h.rready, hs]

end Signals

end AxiRead

/-- The bursts of the round so far. -/
def ReadLog (q : AxiReq) (l : List Burst) (s : AxiRead) : Prop :=
  match s.stage with
  | .s0 => True
  | .s1 | .s2 => l = []
  | .s3 => q.icacheRe = true ∧ s.araddr = q.icacheRaddr ∧ s.arlen = 0xf ∧ l = []
  | .s4 => q.icacheRe = true ∧
    l = [⟨q.icacheRaddr, 0xf, s.icacheRdataBuffer.words.take s.icacheOffset.toNat⟩]
  | .s5 => l = q.icacheReads s.icacheRdataBuffer
  | .s6 => q.dcacheRe = true ∧ s.araddr = q.dcacheRaddr ∧ s.arlen = 0xf ∧
    l = q.icacheReads s.icacheRdataBuffer
  | .s7 => q.dcacheRe = true ∧
    l = ⟨q.dcacheRaddr, 0xf, s.dcacheRdataBuffer.words.take s.dcacheOffset.toNat⟩ ::
      q.icacheReads s.icacheRdataBuffer
  | .s8 => q.dcacheRe = false ∧ q.uncacheRead = true ∧ s.araddr = q.uncacheAddr ∧ s.arlen = 0 ∧
    l = q.icacheReads s.icacheRdataBuffer
  | .s9 => q.dcacheRe = false ∧ q.uncacheRead = true ∧
    l = ⟨q.uncacheAddr, 0, []⟩ :: q.icacheReads s.icacheRdataBuffer
  | .s10 | .s11 => l = q.reads s.icacheRdataBuffer s.dcacheRdataBuffer s.uncacheRdataBuffer
  | .off => l = q.reads s.icacheCachelineNew s.dcacheCachelineNew s.uncacheRdata ∧
    s.icacheRefresh = q.icacheRe ∧ s.dcacheRefresh = q.dcacheRe ∧ s.uncacheRefresh = q.uncacheEn

/-- The slave's part in a read burst. -/
def RlastOk (l : List Burst) (s : AxiRead) (i : AxiIn) : Prop :=
  s.rready = true → i.rvalid = true →
    l.head?.all (fun b => i.rlast == (b.beats.length == b.len.toNat)) = true

namespace AxiReq

variable {a a' d d' : Line} {x x' : Word}

/-- The bursts depend only on what was asked for. -/
theorem reads_congr (hi : q.icacheRe = true → a = a') (hd : q.dcacheRe = true → d = d')
    (hu : q.uncacheRead = true → x = x') : q.reads a d x = q.reads a' d' x' := by
  unfold reads icacheReads
  congr 1
  · split_ifs with h
    · rw [hu h]
    · rfl
  · congr 1
    · split_ifs with h
      · rw [hd h]
      · rfl
    · split_ifs with h
      · rw [hi h]
      · rfl

theorem reads_of_dcache (hd : q.dcacheRe = true) (hu : q.uncacheRead = false) :
    q.reads a d x = ⟨q.dcacheRaddr, 0xf, d.words⟩ :: q.icacheReads a := by
  simp [reads, hd, hu]

theorem reads_of_uncache (hd : q.dcacheRe = false) (hu : q.uncacheRead = true) :
    q.reads a d x = ⟨q.uncacheAddr, 0, [x]⟩ :: q.icacheReads a := by
  simp [reads, hd, hu]

theorem reads_of_neither (hd : q.dcacheRe = false) (hu : q.uncacheRead = false) :
    q.reads a d x = q.icacheReads a := by
  simp [reads, hd, hu]

theorem reads_of_none (h : q.anyRead = false) : q.reads a d x = [] := by
  simp only [anyRead, Bool.or_eq_false_iff] at h
  simp [reads, icacheReads, h]

theorem uncacheEn_of_read (h : q.uncacheRead = true) : q.uncacheEn = true := by
  simp only [uncacheRead, Bool.and_eq_true] at h
  exact h.1

theorem uncacheRead_of_dcache (h : q.uncacheRead = true → q.dcacheRe = false)
    (hd : q.dcacheRe = true) : q.uncacheRead = false := by
  rw [Bool.eq_false_iff]
  intro hu
  exact absurd (h hu) (by simp [hd])

end AxiReq

/-- With `k` beats received, the slave marks the next one as the last exactly when it is the
sixteenth. -/
theorem rlast_eq {s : AxiRead} {addr : Word} {line : Line} {k : BitVec 4} {rest : List Burst}
    (h : RlastOk (⟨addr, 0xf, line.words.take k.toNat⟩ :: rest) s i) (hr : s.rready = true)
    (hv : i.rvalid = true) : i.rlast = (k == 0b1111) := by
  have hlen : (line.words.take k.toNat).length = k.toNat := by
    rw [List.length_take, line.length_words, min_eq_left (by omega)]
  have hall := h hr hv
  simp only [List.head?_cons, Option.all_some, hlen, beq_iff_eq] at hall
  rw [hall, Bool.eq_iff_iff, beq_iff_eq, beq_iff_eq]
  exact ⟨fun hk => BitVec.eq_of_toNat_eq hk, fun hk => congrArg BitVec.toNat hk⟩

/-- The next word of a burst joins both the log and the buffer. -/
theorem addBeat_words (addr x : Word) (line : Line) (k : BitVec 4) (rest : List Burst) :
    addBeat (⟨addr, 0xf, line.words.take k.toNat⟩ :: rest) x =
      ⟨addr, 0xf, (Line.words (Function.update line k x)).take (k.toNat + 1)⟩ :: rest := by
  rw [addBeat, line.words_update_take]

/-- A word that is not the last one moves the offset on. -/
theorem offset_step {k : BitVec 4} {rlast : Bool} (h : rlast = (k == 0b1111))
    (hl : ¬ rlast = true) : (k + 1).toNat = k.toNat + 1 := by
  refine toNat_succ_offset fun hk => hl ?_
  rw [h, hk]
  rfl

theorem Line.take_of_last (line : Line) {k : BitVec 4} {rlast : Bool} (h : rlast = (k == 0b1111))
    (hl : rlast = true) : line.words.take (k.toNat + 1) = line.words := by
  rw [hl, eq_comm, beq_iff_eq] at h
  rw [h]
  exact line.take_words

/-- The slave ends a line with its sixteenth word. -/
theorem ReadLog.rlast {s : AxiRead} (h : ReadLog q l s) (hsig : s.Signals) (hlast : RlastOk l s i)
    (hv : i.rvalid = true) :
    (s.stage = .s4 → i.rlast = (s.icacheOffset == 0b1111)) ∧
      (s.stage = .s7 → i.rlast = (s.dcacheOffset == 0b1111)) := by
  constructor
  · intro hs
    have hrr : s.rready = true := by rw [hsig.rready, hs]; rfl
    simp only [ReadLog, hs] at h
    rw [h.2] at hlast
    exact rlast_eq hlast hrr hv
  · intro hs
    have hrr : s.rready = true := by rw [hsig.rready, hs]; rfl
    simp only [ReadLog, hs] at h
    rw [h.2] at hlast
    exact rlast_eq hlast hrr hv

/-! ### One cycle of the read machine -/

namespace ReadLog

variable {s : AxiRead}

theorem accept (hsig : s.Signals) (hs : s.stage = .s0) :
    ReadLog i.req (s.logReads i []) (s.step i w) := by
  rw [hsig.logReads_idle (by rw [hs]; exact ⟨rfl, rfl⟩)]
  simp only [AxiRead.step, hs, ReadLog]
  by_cases hw : i.req.anyWrite = true
  · simp [hw]
  · by_cases hr : i.req.anyRead = true
    · simp [hw, hr]
    · simp [hw, hr]

section Steps

variable (h : ReadLog q l s) (hsig : s.Signals) (hbuf : s.buffer = q)

include h hsig hbuf

theorem step_s1 (hs : s.stage = .s1) : ReadLog q (s.logReads i l) (s.step i w) := by
  rw [hsig.logReads_idle (by rw [hs]; exact ⟨rfl, rfl⟩)]
  simp only [ReadLog, hs] at h
  simp only [AxiRead.step, hs, hbuf]
  by_cases hr : q.anyRead = true
  · simpa only [ReadLog, if_pos hr] using h
  · simp only [ReadLog, if_neg hr]
    rw [h, AxiReq.reads_of_none (by simpa using hr)]

theorem step_s2 (hs : s.stage = .s2) : ReadLog q (s.logReads i l) (s.step i w) := by
  rw [hsig.logReads_idle (by rw [hs]; exact ⟨rfl, rfl⟩)]
  simp only [ReadLog, hs] at h
  simp only [AxiRead.step, hs, hbuf]
  split_ifs with hi
  · exact ⟨hi, rfl, rfl, h⟩
  · show l = q.icacheReads s.icacheRdataBuffer
    rw [h, AxiReq.icacheReads, if_neg hi]

theorem step_s5 (hs : s.stage = .s5) : ReadLog q (s.logReads i l) (s.step i w) := by
  rw [hsig.logReads_idle (by rw [hs]; exact ⟨rfl, rfl⟩)]
  simp only [ReadLog, hs] at h
  simp only [AxiRead.step, hs, hbuf]
  split_ifs with hd hu
  · exact ⟨hd, rfl, rfl, h⟩
  · exact ⟨by simpa using hd, hu, rfl, rfl, h⟩
  · show l = q.reads s.icacheRdataBuffer s.dcacheRdataBuffer s.uncacheRdataBuffer
    rw [h, AxiReq.reads_of_neither (by simpa using hd) (by simpa using hu)]

theorem step_s11 (hs : s.stage = .s11) : ReadLog q (s.logReads i l) (s.step i w) := by
  obtain ⟨hfi, hfd, hfu⟩ := hsig.refresh (by simp [hs])
  rw [hsig.logReads_idle (by rw [hs]; exact ⟨rfl, rfl⟩)]
  simp only [ReadLog, hs] at h
  simp only [AxiRead.step, hs, hbuf, ReadLog, hfi, hfd, hfu, Bool.if_false_right, Bool.and_true,
    Bool.decide_eq_true, and_true]
  rw [h]
  -- Each client gets its data if it asked for some, and the bursts name no other data.
  refine AxiReq.reads_congr (fun hi => by rw [if_pos hi]) (fun hd => by rw [if_pos hd]) fun hu => ?_
  rw [if_pos (AxiReq.uncacheEn_of_read hu)]

omit hbuf

theorem step_s10 (hs : s.stage = .s10) : ReadLog q (s.logReads i l) (s.step i w) := by
  rw [hsig.logReads_idle (by rw [hs]; exact ⟨rfl, rfl⟩)]
  simp only [AxiRead.step, hs]
  split_ifs
  · simpa only [ReadLog, hs] using h
  · exact h

/-- The address of a burst is taken: the burst is in the log, with no word yet. -/
theorem step_asks (hs : s.stage = .s3 ∨ s.stage = .s6 ∨ s.stage = .s8) :
    ReadLog q (s.logReads i l) (s.step i w) := by
  rcases hs with hs | hs | hs
  all_goals
    rw [hsig.logReads_asks (by rw [hs]; exact ⟨rfl, rfl⟩)]
    simp only [AxiRead.step, hs]
    split_ifs
    · simp only [ReadLog, hs] at h
      simp [ReadLog, AxiRead.accepted, h]
    · exact h

/-! A word of a burst arrives. -/

theorem step_s4 (hs : s.stage = .s4) (hlast : RlastOk l s i) :
    ReadLog q (s.logReads i l) (s.step i w) := by
  rw [hsig.logReads_listens (by rw [hs]; exact ⟨rfl, rfl⟩)]
  simp only [AxiRead.step, hs]
  by_cases hv : i.rvalid = true
  · have hrl := (h.rlast hsig hlast hv).1 hs
    simp only [ReadLog, hs] at h
    obtain ⟨hi, rfl⟩ := h
    rw [if_pos hv, if_pos hv, addBeat_words]
    split_ifs with hl
    · show _ = q.icacheReads _
      rw [AxiReq.icacheReads, if_pos hi, Line.take_of_last _ hrl hl]
    · refine ⟨hi, ?_⟩
      rw [offset_step hrl hl]
  · rw [if_neg hv, if_neg hv]
    exact h

theorem step_s7 (hs : s.stage = .s7) (hc : q.uncacheRead = true → q.dcacheRe = false)
    (hlast : RlastOk l s i) :
    ReadLog q (s.logReads i l) (s.step i w) := by
  rw [hsig.logReads_listens (by rw [hs]; exact ⟨rfl, rfl⟩)]
  simp only [AxiRead.step, hs]
  by_cases hv : i.rvalid = true
  · have hrl := (h.rlast hsig hlast hv).2 hs
    simp only [ReadLog, hs] at h
    obtain ⟨hd, rfl⟩ := h
    rw [if_pos hv, if_pos hv, addBeat_words]
    split_ifs with hl
    · show _ = q.reads _ _ _
      rw [AxiReq.reads_of_dcache hd (AxiReq.uncacheRead_of_dcache hc hd),
        Line.take_of_last _ hrl hl]
    · refine ⟨hd, ?_⟩
      rw [offset_step hrl hl]
  · rw [if_neg hv, if_neg hv]
    exact h

theorem step_s9 (hs : s.stage = .s9) : ReadLog q (s.logReads i l) (s.step i w) := by
  rw [hsig.logReads_listens (by rw [hs]; exact ⟨rfl, rfl⟩)]
  simp only [AxiRead.step, hs]
  split_ifs with hv
  · simp only [ReadLog, hs] at h
    obtain ⟨hd, hu, rfl⟩ := h
    show _ = q.reads _ _ _
    rw [AxiReq.reads_of_uncache hd hu]
    rfl
  · exact h

end Steps

/-- One cycle of a round. -/
theorem step (h : ReadLog q l s) (hsig : s.Signals) (hbuf : s.buffer = q)
    (hc : q.uncacheRead = true → q.dcacheRe = false) (hlast : RlastOk l s i) (hs : s.stage ≠ .s0) :
    ReadLog q (s.logReads i l) (s.step i w) := by
  cases hst : s.stage with
  | s0 => exact absurd hst hs
  | s1 => exact h.step_s1 hsig hbuf hst
  | s2 => exact h.step_s2 hsig hbuf hst
  | s3 => exact h.step_asks hsig (.inl hst)
  | s4 => exact h.step_s4 hsig hst hlast
  | s5 => exact h.step_s5 hsig hbuf hst
  | s6 => exact h.step_asks hsig (.inr (.inl hst))
  | s7 => exact h.step_s7 hsig hst hc hlast
  | s8 => exact h.step_asks hsig (.inr (.inr hst))
  | s9 => exact h.step_s9 hsig hst
  | s10 => exact h.step_s10 hsig hst
  | s11 => exact h.step_s11 hsig hbuf hst
  | off =>
    simp only [AxiRead.step, hst]
    trivial

end ReadLog

end NeulaCpu.Rtl
