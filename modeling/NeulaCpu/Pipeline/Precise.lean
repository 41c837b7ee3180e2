import NeulaCpu.Pipeline.Numbering

/-!
# Precise exceptions

Memory requests and redirects act in `exe_stage` and `dt_stage`, an exception only when it commits
in `mem2_stage`. What makes it precise is that the shadow kept by `csr_cancel_reg` is exactly the
instructions behind the exception, that a flush waits for the memory side and then clears every
stage, and that the front end restarts from `new_pc` alone. The theorem at the end says so for whole
runs, with every effect attributed to the number of an instruction.
-/

namespace NeulaCpu.Rtl

/-! ## Statement -/

/-- `s'` has the registers of `s`; the free-running counter and the read latch are not compared. -/
def Csr.SameRegs (s s' : Csr) : Prop :=
  s' = { s with timer64 := s'.timer64, csrRdataR := s'.csrRdataR }

namespace CoreRun

/-- The memory access of instruction `x`, if it makes one, is accepted: it leaves `dt_stage` in a
cycle in which neither `dcache` nor `uncache` asks for a stall. -/
def Accepted (r : CoreRun) (j x : ℕ) : Prop :=
  (r.ids j).tags.dt = some x ∧ (r.move j).advances = true ∧
    (r.inp j).stallreqDcache = false ∧ (r.inp j).stallreqUncache = false

/-- By the end of cycle `t` instruction `x` has had its memory access accepted (in cycle `j`), its
CSR effect (at the end of cycle `k`) and its register effect (at the end of cycle `k + 1`). -/
def TookEffect (r : CoreRun) (x t : ℕ) : Prop :=
  ∃ j k, j < k ∧ k < t ∧ r.Accepted j x ∧ r.Retires k x ∧
    (r.core k).ms2Bus = (r.core j).dt.toMs ∧
    (r.core (k + 1)).ms2.csr = (r.core k).ms2.csr.step (r.core k).ms2Bus false (r.inp k).extInt ∧
    (r.core (k + 2)).rf = Regfile.step (r.core (k + 1)).rf (r.core k).ms2.ms2ToWsBus

/-- Instruction `y` does nothing outside the pipeline in cycle `k`. -/
def Silent (r : CoreRun) (k y : ℕ) : Prop :=
  ¬ r.Accesses k y ∧ ¬ r.Redirects k y ∧ ¬ r.WritesReg k y ∧ ¬ r.WritesCsr k y

/-- The exception of instruction `e`, which commits in cycle `t`, is precise. -/
structure Precise (r : CoreRun) (t e : ℕ) : Prop where
  attributed : ∀ k, r.Attributed k
  older : ∀ x < e, r.TookEffect x t ∨ r.Annulled x t
  silent : ∀ y, e ≤ y → y < (r.ids t).next → ∀ k, r.Silent k y
  once : ∀ k, r.Commits k e → k = t
  update : Csr.SameRegs ((r.core t).ms2.csr.except (r.core t).ms2Bus) (r.core (t + 1)).ms2.csr
  waits : ∀ k, (r.ids k).tags.ms2 = some e → k ≠ t →
    Csr.SameRegs (r.core k).ms2.csr (r.core (k + 1)).ms2.csr
  resume : ∀ k, t < k → (r.ids k).next = (r.ids t).next → r.move k = .go →
    (r.core k).handsOver = true →
    (r.core k).dsToEsBus.dsPc =
      if Csr.entersHandler (r.core t).ms2Bus.csrVec then (r.core t).ms2.csr.eentry
      else (r.core t).ms2.csr.era

/-! ## Following one instruction -/

variable {r : CoreRun} {k n t x y e : ℕ} {m : DtToMsBus} {v : CsrVec}

/-- Instruction `x` is past `exe_stage` with bus `m`. -/
def Past (r : CoreRun) (n x : ℕ) (m : DtToMsBus) : Prop :=
  ((r.ids n).tags.dt = some x ∧ (r.core n).dt.toMs = m) ∨
  ((r.ids n).tags.ms1 = some x ∧ (r.core n).ms1 = m) ∨
  ((r.ids n).tags.ms2 = some x ∧ (r.core n).ms2Bus = m)

/-- Instruction `x` is in flight with `csr_vec` `v`. -/
def Shows (r : CoreRun) (n x : ℕ) (v : CsrVec) : Prop :=
  ((r.ids n).tags.es = some x ∧ (r.core n).esToDtsBus.toMs.csrVec = v) ∨
  ∃ m, r.Past n x m ∧ m.csrVec = v

theorem tags_succ (r : CoreRun) (n : ℕ) :
    (r.ids (n + 1)).tags = (r.ids n).tags.step (r.move n) ((r.core n).tagIn (r.ids n).next) := rfl

theorem Past.mem (h : r.Past n x m) : some x ∈ (r.ids n).belt.slots := by
  rcases h with ⟨h, -⟩ | ⟨h, -⟩ | ⟨h, -⟩
  · exact dt_mem h
  · exact ms1_mem h
  · exact ms2_mem h

theorem Shows.mem (h : r.Shows n x v) : some x ∈ (r.ids n).belt.slots := by
  rcases h with ⟨h, -⟩ | ⟨m, hp, -⟩
  · exact es_mem h
  · exact hp.mem

theorem exists_shows (h : some x ∈ (r.ids n).belt.slots) : ∃ v, r.Shows n x v := by
  have hcases : (r.ids n).tags.ms2 = some x ∨ (r.ids n).tags.ms1 = some x ∨
      (r.ids n).tags.dt = some x ∨ (r.ids n).tags.es = some x := by
    simpa [Ids.belt, eq_comm] using h
  rcases hcases with h | h | h | h
  · exact ⟨_, Or.inr ⟨_, Or.inr (Or.inr ⟨h, rfl⟩), rfl⟩⟩
  · exact ⟨_, Or.inr ⟨_, Or.inr (Or.inl ⟨h, rfl⟩), rfl⟩⟩
  · exact ⟨_, Or.inr ⟨_, Or.inl ⟨h, rfl⟩, rfl⟩⟩
  · exact ⟨_, Or.inl ⟨h, rfl⟩⟩

theorem Past.step (h : r.Past n x m) (hr : ¬ r.Retires n x) (hf : r.move n ≠ .flush) :
    r.Past (n + 1) x m := by
  unfold Past
  rw [tags_succ, core_succ, Core.step_dt, Core.step_ms1, Core.step_ms2Bus]
  cases hm : (r.core n).move (r.inp n) with
  | flush => exact absurd hm hf
  | hold =>
    have hm' : r.move n = .hold := hm
    rw [hm']
    exact h
  | bubble | go =>
    have ha : (r.move n).advances = true := by rw [move, hm]; rfl
    rw [move, hm]
    rcases h with h | h | h
    · exact Or.inr (Or.inl h)
    · exact Or.inr (Or.inr h)
    · exact absurd ⟨ha, h.1⟩ hr

theorem Shows.step (h : r.Shows n x v) (hr : ¬ r.Retires n x) (hf : r.move n ≠ .flush) :
    r.Shows (n + 1) x v := by
  rcases h with ⟨hes, hv⟩ | ⟨m, hp, hv⟩
  · cases hm : (r.core n).move (r.inp n) with
    | flush => exact absurd hm hf
    | hold =>
      left
      rw [tags_succ, core_succ, Core.csrVec_of_hold hm, move, hm]
      exact ⟨hes, hv⟩
    | bubble | go =>
      right
      refine ⟨(r.core n).esToDtsBus.toMs, Or.inl ?_, hv⟩
      rw [tags_succ, core_succ, Core.step_dt, move, hm]
      exact ⟨hes, rfl⟩
  · exact Or.inr ⟨m, hp.step hr hf, hv⟩

/-- What stays with an instruction from cycle to cycle stays as long as it is in flight. -/
theorem persists {Q : ℕ → Prop} (mem : ∀ j, Q j → some x ∈ (r.ids j).belt.slots)
    (step : ∀ j, Q j → ¬ r.Retires j x → r.move j ≠ .flush → Q (j + 1))
    (hkn : k ≤ n) (h : Q k) (hn : some x ∈ (r.ids n).belt.slots) : Q n := by
  have upTo : ∀ j, k ≤ j → j ≤ n → Q j := by
    intro j hkj
    induction j, hkj using Nat.le_induction with
    | base => exact fun _ => h
    | succ j _ ih =>
      intro hj
      have hq := ih (by omega)
      have hlt := (r.sorted j).lt_next (mem j hq)
      exact step j hq (not_retires_of_mem hn hj) (not_flush_of_mem hn hj hlt)
  exact upTo n hkn le_rfl

/-- An instruction in `mem2_stage` is nowhere else. -/
theorem not_behind_of_ms2 (h : (r.ids n).tags.ms2 = some x) :
    some x ∉ [(r.ids n).tags.ms1, (r.ids n).tags.dt, (r.ids n).tags.es] := by
  intro hx
  have hsorted := r.sorted n
  unfold Ids.belt at hsorted
  rw [h] at hsorted
  have := hsorted.atLeast_tail.slot x hx
  omega

theorem Past.ms2 (h : r.Past n x m) (hx : (r.ids n).tags.ms2 = some x) : (r.core n).ms2Bus = m := by
  have hne := not_behind_of_ms2 hx
  rcases h with ⟨h, -⟩ | ⟨h, -⟩ | ⟨-, h⟩
  · exact absurd (by simp [h]) hne
  · exact absurd (by simp [h]) hne
  · exact h

theorem Shows.ms2 (h : r.Shows n x v) (hx : (r.ids n).tags.ms2 = some x) :
    (r.core n).ms2Bus.csrVec = v := by
  have hne := not_behind_of_ms2 hx
  rcases h with ⟨h, -⟩ | ⟨m, hp, hv⟩
  · exact absurd (by simp [h]) hne
  · rw [hp.ms2 hx, hv]

/-! ## Before the commit -/

/-- An instruction that commits with an exception showed it all the way. -/
theorem Commits.any_of_shows (h : r.Commits t e) (hk : k ≤ t) (hs : r.Shows k e v) :
    v.any = true := by
  have ht := persists (Q := fun j => r.Shows j e v) (fun _ hq => hq.mem)
    (fun _ hq hr hf => hq.step hr hf) hk hs (ms2_mem h.2)
  rw [← ht.ms2 h.2]
  exact ((Core.move_eq_flush _ _).mp h.1).2

/-- It is in flight from the cycle in which it got its number. -/
theorem Commits.mem_before (h : r.Commits t e) (hk : k ≤ t) (he : e < (r.ids k).next) :
    some e ∈ (r.ids k).belt.slots := by
  rcases fate k e he with hmem | ⟨j, hj, hr⟩ | ⟨j, hj, _, _, hc, hlt⟩
  · exact hmem
  · exact absurd hr (not_retires_of_mem (ms2_mem h.2) (by omega))
  · exact absurd hc.1 (not_flush_of_mem (ms2_mem h.2) (by omega) hlt)

/-- Wherever it is in flight before the commit, the stage shows the exception. -/
theorem Commits.any_in_flight (h : r.Commits t e) (hk : k ≤ t) (he : e < (r.ids k).next) :
    ((r.ids k).tags.es = some e ∧ (r.core k).esToDtsBus.toMs.csrVec.any = true) ∨
    ((r.ids k).tags.dt = some e ∧ (r.core k).dt.toMs.csrVec.any = true) ∨
    ((r.ids k).tags.ms1 = some e ∧ (r.core k).ms1.csrVec.any = true) ∨
    ((r.ids k).tags.ms2 = some e ∧ (r.core k).ms2Bus.csrVec.any = true) := by
  obtain ⟨v, hs⟩ := exists_shows (h.mem_before hk he)
  have hv := h.any_of_shows hk hs
  rcases hs with ⟨hes, hvec⟩ | ⟨m, ⟨hx, hm⟩ | ⟨hx, hm⟩ | ⟨hx, hm⟩, hvec⟩
  · exact Or.inl ⟨hes, by rw [hvec, hv]⟩
  · exact Or.inr (Or.inl ⟨hx, by rw [hm, hvec, hv]⟩)
  · exact Or.inr (Or.inr (Or.inl ⟨hx, by rw [hm, hvec, hv]⟩))
  · exact Or.inr (Or.inr (Or.inr ⟨hx, by rw [hm, hvec, hv]⟩))

/-- The numbers in `dt_stage` are below the one in `exe_stage`. -/
theorem dt_lt_es (hd : (r.ids n).tags.dt = some x) (he : (r.ids n).tags.es = some y) : x < y := by
  have hsorted := (r.sorted n).tail.tail
  rw [hd, he] at hsorted
  exact hsorted.atLeast_tail.slot y (List.mem_singleton_self _)

section

variable (h : r.Commits t e) (hk : k ≤ t) (hy : e ≤ y)

include h hk hy

theorem Commits.not_accesses : ¬ r.Accesses k y := by
  rintro ⟨hen, hdt⟩
  have hlt := (r.sorted k).lt_next (dt_mem hdt)
  have hinv := r.cancelInv k
  have hen' : (r.core k).dt.dataSram.en = true := hen
  -- With the exception in `exe_stage` nothing behind it is in `dt_stage`; later on it silences the
  -- request.
  rcases h.any_in_flight hk (lt_of_le_of_lt hy hlt) with ⟨hx, -⟩ | ⟨-, hv⟩ | ⟨-, hv⟩ | ⟨-, hv⟩
  · have := dt_lt_es hdt hx
    omega
  · rw [hinv.en_dt hen'] at hv
    cases hv
  · rw [hinv.en_ms1 hen'] at hv
    cases hv
  · rw [hinv.en_ms2 hen'] at hv
    cases hv

theorem Commits.not_redirects : ¬ r.Redirects k y := by
  rintro ⟨hbr, hes⟩
  have hlt := (r.sorted k).lt_next (es_mem hes)
  obtain ⟨hnone, hreg⟩ := Core.not_cancel_of_brTaken hbr
  have hinv := r.cancelInv k
  -- From `dt_stage` on the exception has set `csr_cancel_reg`, which silences the branch unit.
  have shadow {b : Bool} (hb : b = true → (r.core k).es.csrCancelReg = true) (hv : b = true) :
      False := by
    have := hb hv
    rw [hreg] at this
    cases this
  rcases h.any_in_flight hk (lt_of_le_of_lt hy hlt) with ⟨-, hv⟩ | ⟨-, hv⟩ | ⟨-, hv⟩ | ⟨-, hv⟩
  · rw [hnone] at hv
    cases hv
  · exact shadow hinv.dt hv
  · exact shadow hinv.ms1 hv
  · exact shadow hinv.ms2 hv

theorem Commits.not_writesReg : ¬ r.WritesReg k y := by
  rintro ⟨-, hwb⟩
  have hsorted := (r.numberInv k).sorted
  unfold Ids.beltWb at hsorted
  rw [hwb] at hsorted
  have hbelt : (r.ids k).belt.AtLeast (y + 1) := hsorted.atLeast_tail
  have := (belt_atLeast hk hbelt).slot e (ms2_mem h.2)
  omega

theorem Commits.not_writesCsr : ¬ r.WritesCsr k y := by
  rintro ⟨⟨-, hex, -⟩, hms2⟩
  have hlt := (r.sorted k).lt_next (ms2_mem hms2)
  have hmem := h.mem_before hk (lt_of_le_of_lt hy hlt)
  have hle : y ≤ e := by
    have hsorted := r.sorted k
    unfold Ids.belt at hsorted hmem
    rw [hms2] at hsorted hmem
    exact hsorted.atLeast_head.slot e hmem
  -- Only the exception itself could be in `mem2_stage`, and it does not write.
  obtain rfl : e = y := le_antisymm hy hle
  have hany := h.any_of_shows hk (Or.inr ⟨_, Or.inr (Or.inr ⟨hms2, rfl⟩), rfl⟩)
  rw [Core.exceptEn, Csr.exceptEn, hany] at hex
  cases hex

end

/-! ## After the commit -/

section

variable (h : r.Commits t e)

include h

/-- The flush leaves no trace of what was in flight. -/
theorem Commits.not_mem_after (hk : t < k) (hy : y < (r.ids t).next) :
    some y ∉ (r.ids k).beltWb.slots := by
  intro hmem
  have := (beltWb_of_flush h.1 hk).slot y hmem
  omega

theorem Commits.silent_after (hk : t < k) (hy : y < (r.ids t).next) : r.Silent k y := by
  have hno := h.not_mem_after hk hy
  refine ⟨?_, ?_, ?_, ?_⟩
  · exact fun hx => hno (List.mem_cons_of_mem _ (dt_mem hx.2))
  · exact fun hx => hno (List.mem_cons_of_mem _ (es_mem hx.2))
  · intro hx
    apply hno
    rw [Ids.beltWb, hx.2]
    exact List.mem_cons_self
  · exact fun hx => hno (List.mem_cons_of_mem _ (ms2_mem hx.2))

theorem Commits.silent (hy : e ≤ y) (hlt : y < (r.ids t).next) (k : ℕ) : r.Silent k y := by
  rcases le_or_gt k t with hk | hk
  · exact ⟨h.not_accesses hk hy, h.not_redirects hk hy, h.not_writesReg hk hy,
      h.not_writesCsr hk hy⟩
  · exact h.silent_after hk hlt

/-! ## The commit itself -/

theorem Commits.lt_next : e < (r.ids t).next :=
  (r.sorted t).lt_next (ms2_mem h.2)

theorem Commits.once (hk : r.Commits k e) : k = t := by
  rcases lt_trichotomy k t with hlt | heq | hgt
  · exact absurd (List.mem_cons_of_mem _ (ms2_mem h.2)) (hk.not_mem_after hlt hk.lt_next)
  · exact heq
  · exact absurd (List.mem_cons_of_mem _ (ms2_mem hk.2)) (h.not_mem_after hgt h.lt_next)

theorem Commits.update :
    Csr.SameRegs ((r.core t).ms2.csr.except (r.core t).ms2Bus) (r.core (t + 1)).ms2.csr := by
  obtain ⟨hc, he⟩ := (Core.move_eq_flush _ _).mp h.1
  have he' : Csr.exceptEn (r.core t).ms2Bus = true := he
  rw [core_succ, Core.step_csr, hc, Csr.SameRegs, Csr.step, Csr.update, if_neg (by simp),
    if_pos he']

/-- Until the memory side lets it commit, the registers of the `csr` do not change. -/
theorem Commits.waits (hx : (r.ids k).tags.ms2 = some e) (hk : k ≠ t) :
    Csr.SameRegs (r.core k).ms2.csr (r.core (k + 1)).ms2.csr := by
  rcases lt_or_gt_of_ne hk with hlt | hgt
  · have hany := h.any_of_shows hlt.le (Or.inr ⟨_, Or.inr (Or.inr ⟨hx, rfl⟩), rfl⟩)
    -- Without a memory stall it would commit in this cycle, a second time.
    have hc : (r.inp k).stallreqCache = true := by
      by_contra hc
      have hf : r.move k = .flush := (Core.move_eq_flush _ _).mpr ⟨by simpa using hc, hany⟩
      exact hk (h.once ⟨hf, hx⟩)
    rw [core_succ, Core.step_csr, hc]
    rfl
  · exact absurd (List.mem_cons_of_mem _ (ms2_mem hx)) (h.not_mem_after hgt h.lt_next)

end

/-! ## Older instructions -/

/-- What is in `mem1_stage` or `mem2_stage` has left `dt_stage` with the same bus. -/
theorem accepted_before (r : CoreRun) (n : ℕ) :
    (∀ x, (r.ids n).tags.ms1 = some x → ∃ j < n, r.Accepted j x ∧
      (r.core n).ms1 = (r.core j).dt.toMs) ∧
    (∀ x, (r.ids n).tags.ms2 = some x →
      ∃ j < n, r.Accepted j x ∧ (r.core n).ms2Bus = (r.core j).dt.toMs) := by
  induction n with
  | zero =>
    constructor
    · intro x hx
      cases hx
    · intro x hx
      cases hx
  | succ n ih =>
    rw [tags_succ, core_succ, Core.step_ms1, Core.step_ms2Bus]
    have later {p : ℕ → Prop} (hp : ∃ j < n, p j) : ∃ j < n + 1, p j := by
      obtain ⟨j, hj, hpj⟩ := hp
      exact ⟨j, by omega, hpj⟩
    cases hm : (r.core n).move (r.inp n) with
    | hold =>
      rw [move, hm]
      exact ⟨fun x hx => later (ih.1 x hx), fun x hx => later (ih.2 x hx)⟩
    | flush =>
      rw [move, hm]
      constructor
      · intro x hx
        cases hx
      · intro x hx
        cases hx
    | bubble | go =>
      have ha : ((r.core n).move (r.inp n)).advances = true := by rw [hm]; rfl
      have hc := (Core.of_advances ha).1
      simp only [CoreIn.stallreqCache, Bool.or_eq_false_iff] at hc
      rw [move, hm]
      exact ⟨fun x hx => ⟨n, by omega, ⟨hx, ha, hc.1.1, hc.2⟩, rfl⟩, fun x hx => later (ih.1 x hx)⟩

theorem Retires.tookEffect (h : r.Retires k x) (hk : k < t) : r.TookEffect x t := by
  obtain ⟨j, hj, hacc, hbus⟩ := (r.accepted_before k).2 x h.2
  refine ⟨j, k, hj, hk, hacc, h, hbus, ?_, ?_⟩
  · rw [core_succ, Core.step_csr, (Core.of_advances h.1).1]
  · have hws : (r.core (k + 1)).ws = (r.core k).ms2.ms2ToWsBus := by
      rw [core_succ, Core.step_ws]
      have ha := h.1
      unfold move at ha
      cases hm : (r.core k).move (r.inp k) with
      | hold | flush => rw [hm] at ha; cases ha
      | bubble | go => rfl
    rw [core_succ, Core.step_rf, hws]

theorem Commits.older (h : r.Commits t e) (hx : x < e) : r.TookEffect x t ∨ r.Annulled x t := by
  rcases fate t x (lt_trans hx h.lt_next) with hmem | ⟨k, hk, hr⟩ | hann
  · have hsorted := r.sorted t
    unfold Ids.belt at hsorted hmem
    rw [h.2] at hsorted hmem
    have := hsorted.atLeast_head.slot x hmem
    omega
  · exact Or.inl (hr.tookEffect hk)
  · exact Or.inr hann

/-! ## The restart -/

/-- Nothing is in flight and the front end is on its way from `pc`. -/
structure Restarting (r : CoreRun) (n : ℕ) (pc : Word) : Prop where
  tags : (r.ids n).tags = .empty
  buffer : (r.core n).brTakenBuffer = false
  path : (r.core n).Path pc

theorem restarting_of_flush (hm : r.move t = .flush) : r.Restarting (t + 1) (r.core t).newPc := by
  have hm' : (r.core t).move (r.inp t) = .flush := hm
  refine ⟨?_, ?_, ?_⟩
  · rw [tags_succ, hm]
    rfl
  · rw [core_succ, Core.step_brTakenBuffer, hm']
  · rw [core_succ]
    exact Core.path_flush hm'

theorem Restarting.brTaken {pc : Word} (h : r.Restarting n pc) : (r.core n).brTaken = false := by
  have hq := (r.numberInv n).tagInv.es (by rw [h.tags]; rfl)
  rw [Core.brTaken, Core.brBus_of_quiet hq, h.buffer]
  rfl

theorem Restarting.not_flush {pc : Word} (h : r.Restarting n pc) : r.move n ≠ .flush := by
  intro hm
  obtain ⟨e, he, -⟩ := commits_of_flush hm
  have := he.2
  rw [h.tags] at this
  cases this

/-- The restart goes on as long as no instruction is handed to `exe_stage`. -/
theorem Restarting.step {pc : Word} (h : r.Restarting n pc)
    (hno : ¬ (r.move n = .go ∧ (r.core n).handsOver = true)) : r.Restarting (n + 1) pc := by
  have hb := h.brTaken
  have htags : ∀ move entering, move ≠ .go ∨ entering = none →
      (Tags.empty : Tags ℕ).step move entering = .empty := by
    intro move entering hmv
    cases move with
    | go =>
      rcases hmv with hmv | hmv
      · exact absurd rfl hmv
      · rw [hmv]
        rfl
    | _ => rfl
  cases hm : (r.core n).move (r.inp n) with
  | flush => exact absurd hm h.not_flush
  | hold | bubble =>
    refine ⟨?_, ?_, ?_⟩
    · rw [tags_succ, h.tags]
      exact htags _ _ (Or.inl (by rw [move, hm]; decide))
    · rw [core_succ, Core.step_brTakenBuffer, hm]
      exact hb
    · rw [core_succ]
      exact h.path.step_held (by simp [hm]) hb
  | go =>
    have hho : (r.core n).handsOver = false := by
      by_contra hho
      exact hno ⟨hm, by simpa using hho⟩
    have hv : (r.core n).id.pcValid = false := by simpa [Core.handsOver, hb] using hho
    refine ⟨?_, ?_, ?_⟩
    · rw [tags_succ, h.tags]
      exact htags _ _ (Or.inr (by rw [Core.tagIn, hho]; rfl))
    · rw [core_succ, Core.step_brTakenBuffer, hm]
    · have hp := h.path.step_go hm hb
      rw [hv] at hp
      rw [core_succ]
      exact hp

theorem next_mono (r : CoreRun) (n : ℕ) : (r.ids n).next ≤ (r.ids (n + 1)).next := by
  have hs : (r.ids (n + 1)).next =
      if (r.core n).move (r.inp n) == .go && (r.core n).handsOver then (r.ids n).next + 1
      else (r.ids n).next := rfl
  rw [hs]
  split_ifs <;> omega

/-- As long as no number has been given out since the flush, the front end is restarting. -/
theorem restarting_until (hm : r.move t = .flush) (hk : t < k)
    (hnext : (r.ids k).next = (r.ids t).next) : r.Restarting k (r.core t).newPc := by
  have mono : ∀ a b, a ≤ b → (r.ids a).next ≤ (r.ids b).next :=
    fun a b hab => monotone_nat_of_le_succ r.next_mono hab
  induction k, hk using Nat.le_induction with
  | base => exact restarting_of_flush hm
  | succ k hk ih =>
    have h1 := mono t k (by omega)
    have h2 := r.next_mono k
    refine (ih (by omega)).step ?_
    rintro ⟨hgo, hho⟩
    have hs : (r.ids (k + 1)).next = (r.ids k).next + 1 := by
      have hgo' : (r.core k).move (r.inp k) = .go := hgo
      change (if (r.core k).move (r.inp k) == .go && (r.core k).handsOver then _ else _) = _
      rw [hgo', hho]
      rfl
    omega

theorem Commits.resume (h : r.Commits t e) (hk : t < k)
    (hnext : (r.ids k).next = (r.ids t).next) (hho : (r.core k).handsOver = true) :
    (r.core k).dsToEsBus.dsPc =
      if Csr.entersHandler (r.core t).ms2Bus.csrVec then (r.core t).ms2.csr.eentry
      else (r.core t).ms2.csr.era := by
  have hre := restarting_until h.1 hk hnext
  have hv : (r.core k).id.pcValid = true := by
    simp only [Core.handsOver, Bool.and_eq_true] at hho
    exact hho.1
  have hpc : (r.core k).dsToEsBus.dsPc = (r.core t).newPc := hre.path.id hv
  rw [hpc, Core.newPc, Csr.newPc]
  -- An exception that does not enter the handler is an `ertn`.
  have hany : (r.core t).ms2Bus.csrVec.any = true := ((Core.move_eq_flush _ _).mp h.1).2
  split_ifs with h1 h2
  · rfl
  · rfl
  · simp [Csr.entersHandler, hany, h2] at h1

/-! ## The theorem -/

/-- In every run every exception is precise. -/
theorem exceptions_precise (r : CoreRun) (t e : ℕ) (commits : r.Commits t e) : r.Precise t e where
  attributed := r.attributed
  older := fun _ hx => commits.older hx
  silent := fun _ hy hlt k => commits.silent hy hlt k
  once := fun _ hk => commits.once hk
  update := commits.update
  waits := fun _ hx hk => commits.waits hx hk
  resume := fun _ hk hnext _ hho => commits.resume hk hnext hho

/-- `addi.w $r4, $r0, 1`, `st.w $r4, $r0, 0`, `syscall`, `st.w $r4, $r0, 4`, `addi.w $r6, $r0,
1`. -/
def storeSyscallStore : CoreRun :=
  ofWords (fun n => if n = 3 then 0x02800404 else if n = 4 then 0x29800004
    else if n = 5 then 0x002b0000 else if n = 6 then 0x29801004 else if n = 7 then 0x02800406
    else 0x02800000) 0 0

instance (r : CoreRun) (t e : ℕ) : Decidable (r.Commits t e) := inferInstanceAs (Decidable (_ ∧ _))

/-- Instruction 2, the `syscall`, commits in cycle 10; the store behind it is instruction 3. -/
theorem exceptions_precise_storeSyscallStore :
    storeSyscallStore.Commits 10 2 ∧ (storeSyscallStore.ids 10).next = 6 ∧
      (storeSyscallStore.core 10).ms2Bus.csrVec.instSyscall = true ∧
    storeSyscallStore.Precise 10 2 := by
  have hcommits : storeSyscallStore.Commits 10 2 := by decide +kernel
  exact ⟨hcommits, by decide +kernel, by decide +kernel, exceptions_precise _ 10 2 hcommits⟩

end CoreRun

end NeulaCpu.Rtl
