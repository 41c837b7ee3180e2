import NeulaCpu.Memory.AxiReads
import NeulaCpu.Memory.AxiWrites

/-!
# The bus controller carries out what it accepts

The two machines together: how long a round takes, the invariant of the controller, and what it says
about every acknowledge of a run.
-/

namespace NeulaCpu.Rtl

variable {q : AxiReq} {l : List Burst} {i : AxiIn} {w : StageW}

/-! ## How long a round takes -/

/-- A bound on the moves of the read machine until the end of the round. The first stage also pays
for the write that it starts. -/
def AxiRead.toGo (s : AxiRead) : ℕ :=
  match s.stage with
  | .s0 => 0
  | .s1 => 65
  | .s2 => 44
  | .s3 => 43
  | .s4 => 42 - s.icacheOffset.toNat
  | .s5 => 26
  | .s6 => 25
  | .s7 => 24 - s.dcacheOffset.toNat
  | .s8 => 8
  | .s9 => 7
  | .s10 => 6
  | .s11 => 5
  | .off => 4

def AxiWrite.toGo (s : AxiWrite) : ℕ :=
  match s.stageW with
  | .w0 | .w10 => 0
  | .w1 => 19 - s.dcacheOffsetW.toNat
  | .w2 | .w5 => 3
  | .w3 | .w6 => 2
  | .w4 => 4

theorem AxiRead.toGo_le (s : AxiRead) : s.toGo ≤ 65 := by
  unfold AxiRead.toGo
  split <;> omega

theorem AxiWrite.toGo_le (s : AxiWrite) : s.toGo ≤ 19 := by
  unfold AxiWrite.toGo
  split <;> omega

def AxiCtrl.toGo (s : AxiCtrl) : ℕ := s.rd.toGo + s.wr.toGo

theorem ReadLog.toGo_step {s : AxiRead} (h : ReadLog q l s) (hsig : s.Signals)
    (hlast : RlastOk l s i) (hs : s.stage.busy = true) :
    (s.step i w).toGo + (s.moves i w).toNat ≤ s.toGo := by
  have hrl := h.rlast hsig hlast
  unfold AxiRead.step
  split <;> rename_i hst
  case h_5 | h_8 =>
    -- a burst: the offset counts its words
    by_cases hv : i.rvalid = true
    · rw [if_pos hv]
      split_ifs with hl
      · simp only [AxiRead.toGo, AxiRead.moves, hst, hv, Bool.toNat_true]
        omega
      · first
        | have hk := offset_step ((hrl hv).1 hst) hl
          simp only [AxiRead.toGo, AxiRead.moves, hst, hv, Bool.toNat_true]
          omega
        | have hk := offset_step ((hrl hv).2 hst) hl
          simp only [AxiRead.toGo, AxiRead.moves, hst, hv, Bool.toNat_true]
          omega
    · rw [if_neg hv]
      simp [AxiRead.moves, hst, hv]
  case h_11 =>
    by_cases hw : w = .w10 ∨ w = .w0
    · have hle := Bool.toNat_le (s.moves i w)
      rw [if_pos hw]
      simp only [AxiRead.toGo, hst]
      omega
    · rw [if_neg hw]
      simp_all [AxiRead.moves]
  all_goals (try split_ifs) <;>
    simp_all [AxiRead.toGo, AxiRead.moves, AxiRead.ask, AxiRead.accepted, Stage.busy]

theorem AxiWrite.toGo_present (s : AxiWrite) (line : Line) :
    (s.present line).toGo + 1 ≤ 19 - s.dcacheOffsetW.toNat := by
  by_cases hk : s.dcacheOffsetW = 0b1111
  · simp [AxiWrite.present, AxiWrite.toGo, hk]
  · have hnext := toNat_succ_offset hk
    simp only [AxiWrite.present, AxiWrite.toGo, if_neg hk]
    omega

theorem AxiWrite.toGo_step {rd : AxiRead} {s : AxiWrite} (hs : rd.stage ≠ .s1) :
    (s.step i rd).toGo + (s.moves i).toNat ≤ s.toGo := by
  unfold AxiWrite.step
  split <;> rename_i hst
  case h_2 =>
    have hgo : s.toGo = 19 - s.dcacheOffsetW.toNat := by simp only [AxiWrite.toGo, hst]
    have hpresent := s.toGo_present rd.dcacheWdataBuffer
    have hle := Bool.toNat_le (s.moves i)
    split_ifs with ha hw
    · rw [hgo]
      exact (Nat.add_le_add_left hle _).trans hpresent
    · rw [hgo]
      exact (Nat.add_le_add_left hle _).trans hpresent
    · simp [AxiWrite.moves, hst, ha, hw]
  all_goals (try split_ifs) <;>
    simp_all [AxiWrite.toGo, AxiWrite.moves, AxiWrite.taken]

/-! ## The controller -/

structure AxiInv (g : Round) (s : AxiCtrl) : Prop where
  signals : s.rd.Signals
  read : ReadLog g.req g.reads s.rd
  write : WriteInv g.req g.old g.writes s.rd.stage s.wr
  clients : s.rd.stage ≠ .s0 → g.req.FromClients
  single : s.rd.stage ≠ .s0 → g.req.dcacheWe = true → g.req.uncacheWe = 0
  buffer : s.rd.stage ≠ .s0 → s.rd.buffer = g.req
  old : s.rd.dcacheWdataBuffer = g.old
  pace : s.rd.stage ≠ .s0 → g.served + s.toGo ≤ 65

theorem axiInv_start (r : AxiRun) : AxiInv r.opening r.start where
  signals := ⟨rfl, rfl, fun _ => ⟨rfl, rfl, rfl⟩⟩
  read := trivial
  write := ⟨rfl, fun h => absurd rfl h, ⟨rfl, rfl⟩, fun h => (Stage.noConfusion h),
    fun h => absurd rfl h⟩
  clients h := absurd rfl h
  single h := absurd rfl h
  buffer h := absurd rfl h
  old := rfl
  pace h := absurd rfl h

namespace AxiInv

variable {g : Round} {s : AxiCtrl}

theorem step_accept (h : AxiInv g s) (hs : s.rd.stage = .s0) (hc : i.req.FromClients)
    (hone : i.req.dcacheWe = true → i.req.uncacheWe = 0) : AxiInv (g.observe s i) (s.step i) := by
  have hobs : g.observe s i = ⟨i.req, g.old, s.rd.logReads i [], s.wr.logWrites i .empty, 0⟩ := by
    simp [Round.observe, hs]
  rw [hobs]
  exact
    { signals := h.signals.step
      read := ReadLog.accept h.signals hs
      write := h.write.accept hs hc.store
      clients := fun _ => hc
      single := fun _ => hone
      buffer := fun _ => by simp only [AxiCtrl.step, AxiRead.step, hs]
      old := by
        rw [← h.old]
        exact AxiRead.step_dcacheWdataBuffer (by simp [hs])
      pace := fun _ => by
        have hw : (s.step i).wr.toGo = 0 := by
          obtain ⟨hw0, -, -⟩ := h.write.rest (by rw [hs]; rfl)
          simp [AxiCtrl.step, AxiWrite.step, AxiWrite.toGo, hw0, hs]
        rw [Nat.zero_add, AxiCtrl.toGo, hw]
        exact AxiRead.toGo_le _ }

theorem step_capture (h : AxiInv g s) (hs : s.rd.stage = .s1) :
    AxiInv (g.observe s i) (s.step i) := by
  have h0 : s.rd.stage ≠ .s0 := by simp [hs]
  have hidle : s.rd.stage.asks = false ∧ s.rd.stage.listens = false := by rw [hs]; exact ⟨rfl, rfl⟩
  have hobs : g.observe s i = ⟨g.req, i.dcacheCachelineOld, s.rd.logReads i g.reads,
      s.wr.logWrites i g.writes, g.served + (s.served i).toNat⟩ := by
    simp [Round.observe, hs]
  have hstage : (s.step i).rd.stage = if s.rd.buffer.anyRead then .s2 else .s10 := by
    simp only [AxiCtrl.step, AxiRead.step, hs]
  have hbusy : (s.step i).rd.stage.busy = true ∧ (s.step i).rd.stage ≠ .s11 := by
    rw [hstage]
    split_ifs <;> simp [Stage.busy]
  rw [hobs]
  exact
    { signals := h.signals.step
      read := h.read.step_s1 h.signals (h.buffer h0) hs
      write := h.write.start hs (h.buffer h0) (h.single h0) hbusy.1 hbusy.2
      clients := fun _ => h.clients h0
      single := fun _ => h.single h0
      buffer := fun _ => (AxiRead.step_buffer h0).trans (h.buffer h0)
      old := by simp only [AxiCtrl.step, AxiRead.step, hs]
      pace := fun _ => by
        have hpace := h.pace h0
        have hold : s.rd.toGo = 65 := by simp only [AxiRead.toGo, hs]
        have hread : (s.step i).rd.toGo ≤ 44 := by
          rw [AxiRead.toGo, hstage]
          split_ifs <;> simp
        have hwrite := (s.step i).wr.toGo_le
        have hle := Bool.toNat_le (s.served i)
        simp only [AxiCtrl.toGo] at hpace ⊢
        omega }

theorem step_round (h : AxiInv g s) (h0 : s.rd.stage ≠ .s0) (h1 : s.rd.stage ≠ .s1)
    (hok : SlaveOk g s i) (hp : s.wr.Paced i) : AxiInv (g.observe s i) (s.step i) := by
  have hobs : g.observe s i = ⟨g.req, g.old, s.rd.logReads i g.reads, s.wr.logWrites i g.writes,
      g.served + (s.served i).toNat⟩ := by
    simp [Round.observe, h0, h1]
  rw [hobs]
  exact
    { signals := h.signals.step
      read := h.read.step h.signals (h.buffer h0) (h.clients h0).single hok.read h0
      write := h.write.step h0 h1 (h.buffer h0) h.old (h.single h0) hok.write hp
      clients := fun _ => h.clients h0
      single := fun _ => h.single h0
      buffer := fun _ => (AxiRead.step_buffer h0).trans (h.buffer h0)
      old := (AxiRead.step_dcacheWdataBuffer h1).trans h.old
      pace := fun hs' => by
        have hpace := h.pace h0
        have hoff : s.rd.stage ≠ .off :=
          fun ho => hs' (by simp only [AxiCtrl.step, AxiRead.step, ho])
        have hbusy := Stage.busy_of_ne h0 h1 hoff
        have hread := h.read.toGo_step (w := s.wr.stageW) h.signals hok.read hbusy
        have hwrite := AxiWrite.toGo_step (i := i) (s := s.wr) h1
        -- Each machine that gets on pays for itself.
        have hor :
            (s.served i).toNat ≤ (s.rd.moves i s.wr.stageW).toNat + (s.wr.moves i).toNat := by
          rw [AxiCtrl.served]
          cases s.rd.moves i s.wr.stageW <;> cases s.wr.moves i <;> decide
        simp only [AxiCtrl.toGo, AxiCtrl.step] at hpace ⊢
        omega }

theorem step (h : AxiInv g s) (hc : s.rd.stage = .s0 → i.req.FromClients) (hok : SlaveOk g s i)
    (hp : s.wr.Paced i) (hone : s.OneWrite i) : AxiInv (g.observe s i) (s.step i) := by
  by_cases h0 : s.rd.stage = .s0
  · exact h.step_accept h0 (hc h0) (hone h0)
  · by_cases h1 : s.rd.stage = .s1
    · exact h.step_capture h1
    · exact h.step_round h0 h1 hok hp

/-- Requests are acknowledged in the cycle in which `stage` is 0. -/
theorem off_of_acknowledges (h : AxiInv g s) (hack : s.rd.acknowledges = true) :
    s.rd.stage = .off := by
  by_contra hne
  obtain ⟨hi, hd, hu⟩ := h.signals.refresh hne
  simp [AxiRead.acknowledges, hi, hd, hu] at hack

theorem carriedOut (h : AxiInv g s) : g.CarriedOut s where
  done hack := by
    have hoff := h.off_of_acknowledges hack
    have hread := h.read
    simp only [ReadLog, hoff] at hread
    have hwrite := h.write.log
    simp only [WriteLog.Follows, (h.write.rest (by rw [hoff]; rfl)).1] at hwrite
    exact ⟨hread.1, hwrite.2.2 (by simp [hoff]) (by simp [hoff])⟩
  matching hack := by
    have hread := h.read
    simp only [ReadLog, h.off_of_acknowledges hack] at hread
    exact hread.2
  ends hs := le_of_add_le_left (h.pace hs)
  quiet hs := by
    have hrest :
        s.rd.stage.busy = false ∧ s.rd.stage.asks = false ∧ s.rd.stage.listens = false := by
      rcases hs with hs | hs <;> rw [hs] <;> exact ⟨rfl, rfl, rfl⟩
    obtain ⟨-, hquiet, hbr⟩ := h.write.rest hrest.1
    exact ⟨h.signals.arvalid.trans hrest.2.1, h.signals.rready.trans hrest.2.2, hquiet.awvalid,
      hquiet.wvalid, hbr⟩

end AxiInv

/-! ## Runs -/

instance (q : AxiReq) : Decidable q.FromClients := decidable_of_iff' _ (AxiReq.fromClients_iff q)

instance (g : Round) (s : AxiCtrl) (i : AxiIn) : Decidable (SlaveOk g s i) :=
  decidable_of_iff' _ (slaveOk_iff g s i)

instance (s : AxiWrite) (i : AxiIn) : Decidable (s.Paced i) :=
  decidable_of_iff' _ (AxiWrite.paced_iff s i)

instance (s : AxiCtrl) (i : AxiIn) : Decidable (s.OneWrite i) := inferInstanceAs (Decidable (_ → _))

namespace AxiRun

/-- In every run in which no round has two writes and the slave keeps to the pace of a write-back,
every acknowledged request has been on the bus exactly once, and every round ends. -/
theorem requests_carried_out (r : AxiRun) (n : ℕ)
    (clients : ∀ k < n, (r.ctrl k).rd.stage = .s0 → (r.inp k).req.FromClients)
    (slave : ∀ k < n, SlaveOk (r.round k) (r.ctrl k) (r.inp k))
    (paced : ∀ k < n, (r.ctrl k).wr.Paced (r.inp k))
    (one : ∀ k < n, (r.ctrl k).OneWrite (r.inp k)) :
    (r.round n).CarriedOut (r.ctrl n) := by
  refine AxiInv.carriedOut ?_
  refine Clocked.ghost_invariant (P := AxiInv) (A := fun g s i =>
      (s.rd.stage = .s0 → i.req.FromClients) ∧ SlaveOk g s i ∧ s.wr.Paced i ∧ s.OneWrite i)
    (axiInv_start r) ?_ n ?_
  · rintro g s i hinv ⟨hc, hok, hp, hone⟩
    exact hinv.step hc hok hp hone
  · exact fun k hk => ⟨clients k hk, slave k hk, paced k hk, one k hk⟩

/-- A miss of `dcache` with a write-back, together with what `uncache` asks for. The slave takes the
address of the line at once and then one word in each cycle. -/
def missWith (uncacheEn : Bool) (uncacheWe : BitVec 4) : AxiRun where
  unset := ⟨⟨false, 0, false, 0, false, 0, false, 0, 0, 0⟩, fun _ => 0, fun _ => 0, 0, fun _ => 0,
    0, 0, 0⟩
  inp k :=
    { req :=
        { icacheRe := false
          icacheRaddr := 0
          dcacheRe := true
          dcacheRaddr := 0x1c001000#32
          dcacheWe := true
          dcacheWaddr := 0x1c005000#32
          uncacheEn := uncacheEn
          uncacheWe := uncacheWe
          uncacheAddr := 0x1faf0000#32
          uncacheWdata := 0x55#32 }
      dcacheCachelineOld := fun j => j.setWidth 32
      arready := k == 4
      rdata := BitVec.ofNat 32 k
      rlast := k == 20
      rvalid := decide (5 ≤ k ∧ k ≤ 20)
      awready := k == 2
      wready := decide (3 ≤ k)
      bvalid := k == 19 }

theorem requests_carried_out_miss :
    ((missWith false 0).ctrl 23).rd.dcacheRefresh = true ∧
      ((missWith false 0).round 23).CarriedOut ((missWith false 0).ctrl 23) :=
  ⟨by decide +kernel, requests_carried_out _ 23 (by decide +kernel) (by decide +kernel)
    (by decide +kernel) (by decide +kernel)⟩

/-- A store that comes with a write-back is acknowledged, and the bus has seen the write-back
only. -/
theorem store_lost_behind_write_back :
    (∀ k < 23, ((missWith true 0b1111).inp k).req.FromClients) ∧
    (∀ k < 23, SlaveOk ((missWith true 0b1111).round k) ((missWith true 0b1111).ctrl k)
      ((missWith true 0b1111).inp k)) ∧
    (∀ k < 23, ((missWith true 0b1111).ctrl k).wr.Paced ((missWith true 0b1111).inp k)) ∧
    ((missWith true 0b1111).round 23).req.uncacheWe = 0b1111 ∧
    ((missWith true 0b1111).ctrl 23).rd.uncacheRefresh = true ∧
    ((missWith true 0b1111).round 23).writes.aw = [⟨0x1c005000#32, 0xf, 0b010⟩] ∧
    ¬ ((missWith true 0b1111).round 23).CarriedOut ((missWith true 0b1111).ctrl 23) := by
  refine ⟨by
    decide +kernel, by decide +kernel, by decide +kernel, by decide +kernel, by decide +kernel,
    by decide +kernel, ?_⟩
  intro h
  have hdone := (h.done (by decide +kernel)).writes
  revert hdone
  decide +kernel

end AxiRun

end NeulaCpu.Rtl
