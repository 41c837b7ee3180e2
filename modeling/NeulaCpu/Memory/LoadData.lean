import NeulaCpu.Memory.Uncached

/-!
# Each load gets its own data

The memory side answers an access in the first cycle that the access spends in `mem1_stage`: the
dcache on its registered hit path, `uncache` on `conf_rdata`. `mycpu_top` selects one of the two
with `dcache_cached_r`, and `mem2_stage` saves the selected word in a buffer of one entry if the
pipeline is held in that cycle.

The ghost of this module follows an access from the clock edge with which it leaves `dt_stage`. The
word in `data_sram_rdata_r` is then the answer to the access that the instruction in `mem2_stage`
made, and a load that made no access has an exception of its own there.
-/

namespace NeulaCpu.Rtl

/-! ## Following an access -/

/-- An instruction as it leaves `dt_stage`: the cycle in which it does, and its request. -/
structure Departure where
  cycle : ℕ
  request : DataSram
deriving DecidableEq, Repr

/-- The number of the cycle, and the departures of what is in `mem1_stage` and in `mem2_stage`. -/
structure Departures where
  now : ℕ
  ms1 : Option Departure
  ms2 : Option Departure
deriving DecidableEq, Repr

namespace Departures

@[simps] def empty : Departures := ⟨0, none, none⟩

/-- The clock edge of a cycle with move `m` and `request` in `dt_stage`. -/
def step (g : Departures) (m : Move) (request : DataSram) : Departures :=
  match m with
  | .hold => { g with now := g.now + 1 }
  | .flush => ⟨g.now + 1, none, none⟩
  | .bubble | .go => ⟨g.now + 1, some ⟨g.now, request⟩, g.ms1⟩

@[simp] theorem step_now (g : Departures) (m : Move) (request : DataSram) :
    (g.step m request).now = g.now + 1 := by
  cases m <;> rfl

theorem step_ms1 (g : Departures) (m : Move) (request : DataSram) : (g.step m request).ms1 =
    match m with
    | .hold => g.ms1
    | .flush => none
    | .bubble | .go => some ⟨g.now, request⟩ := by
  cases m <;> rfl

theorem step_ms2 (g : Departures) (m : Move) (request : DataSram) : (g.step m request).ms2 =
    match m with
    | .hold => g.ms2
    | .flush => none
    | .bubble | .go => g.ms1 := by
  cases m <;> rfl

end Departures

namespace Top

/-- What a clock edge does to the departures. -/
def depart (g : Departures) (s : Top) (i : TopIn) : Departures :=
  g.step (s.core.move (s.coreIn i)) s.core.dataSram

/-- The answer to an access: from the dcache or from `uncache`, by its address. -/
def answer (s : Top) (i : TopIn) (request : DataSram) : Word :=
  if Mmu.cacheV request.addr then i.dcacheTempRdata else s.uncache.confRdata

/-- In the first cycle that an access spends in `mem1_stage` the memory side presents its data;
`data k` is the data of the access that left `dt_stage` in cycle `k`. -/
def Presents (data : ℕ → Word) (g : Departures) (s : Top) (i : TopIn) : Prop :=
  ∀ d ∈ g.ms1, d.cycle + 1 = g.now → d.request.en = true → s.answer i d.request = data d.cycle

instance (data : ℕ → Word) (g : Departures) (s : Top) (i : TopIn) :
    Decidable (s.Presents data g i) :=
  inferInstanceAs (Decidable (∀ d ∈ g.ms1, _))

end Top

/-- The departures after `n` clock edges. -/
def TopRun.departures (r : TopRun) (n : ℕ) : Departures :=
  Clocked.ghost Top.step Top.depart r.start .empty r.inp n

/-! ## The data -/

namespace Top

variable {data : ℕ → Word} {g : Departures} {s : Top} {i : TopIn}

/-- Where the data of the access in `mem1_stage` is: on its way in the first cycle, in the buffer
later. -/
structure DataInv (data : ℕ → Word) (g : Departures) (s : Top) : Prop where
  fresh : ∀ d, g.ms1 = some d → s.core.ms2.stallFlag = false →
    d.cycle + 1 = g.now ∧ s.dcacheCachedR = Mmu.cacheV d.request.addr
  saved : ∀ d, g.ms1 = some d → d.request.en = true → s.core.ms2.stallFlag = true →
    s.core.ms2.dataSramRdataBuffer = data d.cycle
  taken : ∀ d, g.ms2 = some d → d.request.en = true → s.core.ms2.dataSramRdataR = data d.cycle

theorem dataInv_reset (data : ℕ → Word) (a b c : Word) (d : Bool) :
    DataInv data .empty (reset a b c d) := by
  constructor <;> simp

/-- What reaches `mem2_stage`, or the buffer in front of it, is the data of the access in
`mem1_stage`. -/
theorem DataInv.incoming (h : DataInv data g s) (hp : s.Presents data g i) {d : Departure}
    (hd : g.ms1 = some d) (hen : d.request.en = true) :
    (if s.core.ms2.stallFlag then s.core.ms2.dataSramRdataBuffer else (s.coreIn i).dataSramRdata) =
      data d.cycle := by
  cases hf : s.core.ms2.stallFlag with
  | true => exact h.saved d hd hen hf
  | false =>
    obtain ⟨hnow, hsel⟩ := h.fresh d hd hf
    calc s.dataSramRdata i = s.answer i d.request := by rw [dataSramRdata, answer, hsel]
      _ = data d.cycle := hp d hd hnow hen

theorem DataInv.step (h : DataInv data g s) (hp : s.Presents data g i) :
    DataInv data (depart g s i) (s.step i) := by
  cases hm : s.core.move (s.coreIn i) with
  | hold =>
    constructor <;> simp only [depart, step_core, Departures.step_ms1, Departures.step_ms2,
      Core.step_ms2_stallFlag, Core.step_ms2_dataSramRdataBuffer _ _ hm,
        Core.step_ms2_dataSramRdataR, hm]
    · intro d _ hf
      cases hf
    · exact fun d hd hen _ => h.incoming hp hd hen
    · exact h.taken
  | flush =>
    constructor <;> simp [depart, Departures.step_ms1, Departures.step_ms2, hm]
  | bubble | go =>
    constructor <;> simp only [depart, step_core, Departures.step_ms1, Departures.step_ms2,
      Core.step_ms2_stallFlag, Core.step_ms2_dataSramRdataR, hm]
    · rintro d ⟨rfl⟩ _
      exact ⟨(Departures.step_now ..).symm, rfl⟩
    · intro d _ _ hf
      cases hf
    · exact fun d hd hen => h.incoming hp hd hen

end Top

/-! ## The access of a load -/

namespace Core

variable {g : Departures} {s : Core} {i : CoreIn}

/-- An instruction that raises an exception, seen from `mem1_stage` or from `dt_stage`: it is there
or in front. -/
def ExcpFromMs1 (s : Core) : Prop := s.ms1.csrVec.any = true ∨ s.ms2Bus.csrVec.any = true

def ExcpFromDt (s : Core) : Prop := s.dt.toMs.csrVec.any = true ∨ s.ExcpFromMs1

/-- A load is silenced only by an exception, its own or one in front of it. -/
structure AccessInv (g : Departures) (s : Core) : Prop where
  cancel : s.es.csrCancelReg = true → s.esToDtsBus.toMs.csrVec.any = true ∨ s.ExcpFromDt
  dt : s.dt.toMs.loadOp.any = true → s.dt.dataSram.en = true ∨ s.ExcpFromDt
  ms1 : s.ms1.loadOp.any = true → ∃ d, g.ms1 = some d ∧ (d.request.en = true ∨ s.ExcpFromMs1)
  ms2 : s.ms2Bus.loadOp.any = true →
    ∃ d, g.ms2 = some d ∧ (d.request.en = true ∨ s.ms2Bus.csrVec.any = true)

theorem accessInv_reset (a b c : Word) : AccessInv .empty (reset a b c) := by
  constructor <;> simp [ms2Bus, LoadOp.any_zero]

/-- A load in `exe_stage` makes its request, or is in the shadow of an exception. -/
theorem en_of_loadOp (h : s.esToDtsBus.toMs.loadOp.any = true) :
    s.esToDtsBus.dataSram.en = true ∨ s.esToDtsBus.toMs.csrVec.any = true ∨
      s.es.csrCancelReg = true := by
  have hany : s.esBus.loadOp.any = true := h
  rw [← csrCancel_eq]
  show (if s.es.csrCancel s.fwd || s.es.csrCancelReg then false
    else Lsu.dataSramEn s.esBus.loadOp s.esBus.storeOp) = true ∨ _
  cases s.es.csrCancel s.fwd <;> cases s.es.csrCancelReg <;> simp [Lsu.dataSramEn, hany]

/-- When the pipeline moves, an exception in front moves one stage on; none leaves `mem2_stage` that
way. -/
theorem ExcpFromMs1.advance (h : s.ExcpFromMs1) (hadv : (s.move i).advances = true) :
    s.ms1.csrVec.any = true := by
  rcases h with h | h
  · exact h
  · have hexc : s.ms2Bus.csrVec.any = false := (of_advances hadv).2
    rw [hexc] at h
    cases h

/-- A step keeps the invariant. -/
theorem AccessInv.step (h : AccessInv g s) :
    AccessInv (g.step (s.move i) s.dataSram) (s.step i) := by
  have shift (hadv : (s.move i).advances = true) (hx : s.ExcpFromDt) :
      s.dt.toMs.csrVec.any = true ∨ s.ms1.csrVec.any = true :=
        hx.imp_right fun hx => hx.advance hadv
  cases hm : s.move i with
  | hold =>
    constructor <;> simp only [ExcpFromDt, ExcpFromMs1, csrVec_of_hold hm, step_dt, step_ms1,
      step_ms2Bus, step_csrCancelReg, Departures.step_ms1, Departures.step_ms2, hm]
    · intro hc
      rw [csrCancel_eq, Bool.or_eq_true] at hc
      exact hc.elim Or.inl h.cancel
    · exact h.dt
    · exact h.ms1
    · exact h.ms2
  | flush =>
    constructor <;> simp [step_dt, step_ms1, step_ms2Bus, step_csrCancelReg, LoadOp.any_zero, hm]
  | bubble | go =>
    rw [hm] at shift
    constructor <;> simp only [ExcpFromDt, ExcpFromMs1, step_dt, step_ms1, step_ms2Bus,
      step_csrCancelReg, Departures.step_ms1, Departures.step_ms2, hm]
    · intro hc
      rw [csrCancel_eq, Bool.or_eq_true] at hc
      exact Or.inr (hc.elim Or.inl fun hc => (h.cancel hc).imp_right (shift rfl))
    · intro hl
      rcases en_of_loadOp hl with hen | hx | hc
      · exact Or.inl hen
      · exact Or.inr (Or.inl hx)
      · exact Or.inr ((h.cancel hc).imp_right (shift rfl))
    · exact fun hl => ⟨_, rfl, (h.dt hl).imp_right (shift rfl)⟩
    · intro hl
      obtain ⟨d, hd, hen⟩ := h.ms1 hl
      exact ⟨d, hd, hen.imp_right fun hx => hx.advance (by rw [hm]; rfl)⟩

end Core

/-! ## Runs -/

namespace TopRun

variable (r : TopRun)

theorem departures_succ (n : ℕ) :
    r.departures (n + 1) = Top.depart (r.departures n) (r.top n) (r.inp n) := rfl

theorem departures_now (n : ℕ) : (r.departures n).now = n := by
  induction n with
  | zero => rfl
  | succ n ih => rw [departures_succ, Top.depart, Departures.step_now, ih]

/-- A departure is what it says: in its cycle the instruction stood in `dt_stage` with its request,
and in the next one it stood in `mem1_stage`. -/
structure Left (d : Departure) (bus : DtToMsBus) (n : ℕ) : Prop where
  before : d.cycle < n
  dt : (r.top d.cycle).core.dt = ⟨d.request, bus⟩
  ms1 : (r.top (d.cycle + 1)).core.ms1 = bus

variable {r}

theorem Left.succ {d : Departure} {bus : DtToMsBus} {n : ℕ} (h : r.Left d bus n) :
    r.Left d bus (n + 1) :=
  ⟨h.before.trans (Nat.lt_succ_self n), h.dt, h.ms1⟩

variable (r)

theorem left_of_departures (n : ℕ) :
    (∀ d, (r.departures n).ms1 = some d → r.Left d (r.top n).core.ms1 n) ∧
    ∀ d, (r.departures n).ms2 = some d → r.Left d (r.top n).core.ms2Bus n := by
  induction n with
  | zero => exact ⟨fun _ h => (nomatch h), fun _ h => (nomatch h)⟩
  | succ n ih =>
    have htop : (r.top (n + 1)).core = (r.top n).core.step ((r.top n).coreIn (r.inp n)) := rfl
    rw [departures_succ, Top.depart, Departures.step_ms1, Departures.step_ms2, htop, Core.step_ms1,
      Core.step_ms2Bus]
    cases hm : (r.top n).core.move ((r.top n).coreIn (r.inp n)) with
    | hold => exact ⟨fun d hd => (ih.1 d hd).succ, fun d hd => (ih.2 d hd).succ⟩
    | flush => exact ⟨fun _ h => (nomatch h), fun _ h => (nomatch h)⟩
    | bubble | go =>
      refine ⟨?_, fun d hd => (ih.1 d hd).succ⟩
      rintro d ⟨rfl⟩
      rw [departures_now]
      refine ⟨Nat.lt_succ_self n, rfl, ?_⟩
      rw [htop, Core.step_ms1, hm]

theorem accessInv (n : ℕ) : Core.AccessInv (r.departures n) (r.top n).core :=
  Clocked.ghost_invariant (P := fun g (s : Top) => Core.AccessInv g s.core) (A := fun _ _ _ => True)
    (Core.accessInv_reset _ _ _) (fun _ _ _ h _ => h.step) n (fun _ _ => trivial)

theorem dataInv (data : ℕ → Word) (n : ℕ)
    (presents : ∀ k < n, (r.top k).Presents data (r.departures k) (r.inp k)) :
    Top.DataInv data (r.departures n) (r.top n) := by
  refine Clocked.ghost_invariant (P := Top.DataInv data) (A := fun g s i => s.Presents data g i)
    (Top.dataInv_reset data _ _ _ _) ?_ n presents
  intro g s i h hp
  exact h.step hp

/-- In every run in which the memory side answers an access in its first cycle in `mem1_stage`, a
load in `mem2_stage` finds in `data_sram_rdata_r` the data of the access that it made itself. A load
without an access is one that raises an exception. -/
theorem load_gets_its_data (data : ℕ → Word) (n : ℕ)
    (presents : ∀ k < n, (r.top k).Presents data (r.departures k) (r.inp k))
    (load : (r.top n).core.ms2Bus.loadOp.any = true) :
    ∃ d, (r.departures n).ms2 = some d ∧ r.Left d (r.top n).core.ms2Bus n ∧
      (d.request.en = true → (r.top n).core.ms2.dataSramRdataR = data d.cycle) ∧
      (d.request.en = false → (r.top n).core.exceptEn = true) := by
  obtain ⟨d, hd, hen⟩ := (r.accessInv n).ms2 load
  refine ⟨d, hd, (r.left_of_departures n).2 d hd, (r.dataInv data n presents).taken d hd,
    fun h => ?_⟩
  rw [h] at hen
  exact hen.resolve_left Bool.false_ne_true

/-- `ld.w $r8, $r0, 0`, `ld.w $r9, $r0, 4`, `mul.w $r7, $r7, $r7` and then `addi.w $r0, $r0, 0` for
ever. The dcache presents another word in every cycle. -/
def loadsThenMul : TopRun where
  instBuffer := 0
  dataBuffer := 0
  csrLatch := 0
  cachedR := false
  inp n := ⟨0, if n = 3 then 0x28800008 else if n = 4 then 0x28801009 else if n = 5 then 0x001c1ce7
    else 0x02800000, false, BitVec.ofNat 32 (100 + n), false, false, 7⟩

/-- The multiplication holds the first load in `mem1_stage` for three cycles, while the dcache moves
on. -/
theorem load_gets_its_data_loadsThenMul :
    (∀ k < 11, (loadsThenMul.top k).Presents
        (fun k => BitVec.ofNat 32 (101 + k)) (loadsThenMul.departures k) (loadsThenMul.inp k)) ∧
      (loadsThenMul.top 11).core.ms2Bus.loadOp.any = true ∧
      ∃ d, (loadsThenMul.departures 11).ms2 = some d ∧
        loadsThenMul.Left d (loadsThenMul.top 11).core.ms2Bus 11 ∧ (d.request.en = true →
          (loadsThenMul.top 11).core.ms2.dataSramRdataR = BitVec.ofNat 32 (101 + d.cycle)) ∧
        (d.request.en = false → (loadsThenMul.top 11).core.exceptEn = true) := by
  have hp : ∀ k < 11, (loadsThenMul.top k).Presents (fun k => BitVec.ofNat 32 (101 + k))
      (loadsThenMul.departures k) (loadsThenMul.inp k) := by
    decide +kernel
  have hl : (loadsThenMul.top 11).core.ms2Bus.loadOp.any = true := by decide +kernel
  exact ⟨hp, hl, load_gets_its_data _ _ 11 hp hl⟩

end TopRun

end NeulaCpu.Rtl
