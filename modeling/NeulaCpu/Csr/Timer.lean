import NeulaCpu.Csr.Cycle

/-!
# The timer

A write of `TCFG` loads the timer with four times its `INITVAL` field. Every active cycle then
counts it down, and the active cycle that finds it at zero sets `ESTAT.IS[11]`, so the line is set
in active cycle number `4 * INITVAL + 1` after the write. This module gives the timer in closed
form, as a function of the value written and the number of active cycles since, and derives when the
interrupt line is set and cleared.
-/

namespace NeulaCpu.Rtl.Csr

open BitField (splice)

/-! ## The timer in closed form -/

/-- The number of ticks that `TCFG` value `w` asks for. -/
def ticks (w : Word) : ℕ := 4 * (w.extractLsb' 2 30).toNat

/-- `timer_en` and `tval` after `c` active cycles since the write of `w` to `TCFG`. -/
def timerAfter (w : Word) (c : ℕ) : Bool × Word :=
  if w.getLsbD 0 = false then (false, initVal w)
  else if w.getLsbD 1 = true then (true, BitVec.ofNat 32 (ticks w - c % (ticks w + 1)))
  else if c ≤ ticks w then (true, BitVec.ofNat 32 (ticks w - c))
  else (false, 0xffffffff)

/-- The timer sets its interrupt line in the `m`-th active cycle after the write of `w` to
`TCFG`. -/
def timerDue (w : Word) (m : ℕ) : Prop :=
  w.getLsbD 0 = true ∧ if w.getLsbD 1 = true then ticks w + 1 ∣ m else m = ticks w + 1

instance (w : Word) (m : ℕ) : Decidable (timerDue w m) := inferInstanceAs (Decidable (_ ∧ _))

theorem ticks_lt (w : Word) : ticks w < 2 ^ 32 - 1 := by
  have := (w.extractLsb' 2 30).isLt
  rw [ticks]
  omega

theorem initVal_eq (w : Word) : initVal w = BitVec.ofNat 32 (ticks w) := by
  apply BitVec.eq_of_toNat_eq
  rw [initVal, BitVec.toNat_append, ticks, BitVec.toNat_ofNat, Nat.shiftLeft_eq]
  have := (w.extractLsb' 2 30).isLt
  simp
  omega

theorem ofNat_eq_zero_iff {v : ℕ} (h : v < 2 ^ 32) : BitVec.ofNat 32 v = 0 ↔ v = 0 := by
  rw [← BitVec.toNat_inj, BitVec.toNat_ofNat, Nat.mod_eq_of_lt h]
  rfl

/-- The timer stands at zero exactly before the active cycles in which its line is due. -/
theorem timerAfter_zero_iff (w : Word) (c : ℕ) :
    (timerAfter w c).1 = true ∧ (timerAfter w c).2 = 0 ↔ timerDue w (c + 1) := by
  have hlt := ticks_lt w
  have hmod : c % (ticks w + 1) < ticks w + 1 := Nat.mod_lt _ (by omega)
  rw [timerAfter, timerDue, Nat.dvd_iff_mod_eq_zero, Nat.succ_mod_succ_eq_zero_iff]
  cases w.getLsbD 0 with
  | false => simp
  | true =>
    cases w.getLsbD 1 with
    | true =>
      have hzero := ofNat_eq_zero_iff (v := ticks w - c % (ticks w + 1)) (by omega)
      simp only [Bool.true_eq_false, if_false, if_true, true_and, hzero]
      omega
    | false =>
      simp only [Bool.true_eq_false, Bool.false_eq_true, if_false, true_and]
      by_cases hc : c ≤ ticks w
      · have hzero := ofNat_eq_zero_iff (v := ticks w - c) (by omega)
        simp only [hc, if_true, true_and, hzero]
        omega
      · simp only [hc, if_false, Bool.false_eq_true, false_and, false_iff]
        omega

/-! ## Active and other cycles -/

/-- The timer holds what a write of `w` to `TCFG` and `c` active cycles since make of it. -/
structure TimerInv (w : Word) (c : ℕ) (s : Csr) : Prop where
  tcfg : s.tcfg = w
  timer : (s.timerEn, s.tval) = timerAfter w c

theorem TimerInv.due_iff {w : Word} {c : ℕ} {s : Csr} (h : TimerInv w c s) :
    (s.timerEn && s.tval == 0) = true ↔ timerDue w (c + 1) := by
  rw [← timerAfter_zero_iff, ← h.timer, Bool.and_eq_true, beq_iff_eq]

theorem timerAfter_zero (w : Word) : timerAfter w 0 = (w.getLsbD 0, initVal w) := by
  rw [timerAfter, initVal_eq]
  cases w.getLsbD 0 <;> simp

theorem ofNat_sub_one {v : ℕ} (h : 0 < v) (hlt : v < 2 ^ 32) :
    BitVec.ofNat 32 v - 1 = BitVec.ofNat 32 (v - 1) := by
  apply BitVec.eq_of_toNat_eq
  simp
  omega

/-- Counting modulo the period. -/
theorem succ_mod_succ (c m : ℕ) :
    (c + 1) % (m + 1) = if c % (m + 1) = m then 0 else c % (m + 1) + 1 := by
  split_ifs with h
  · exact Nat.succ_mod_succ_eq_zero_iff.mpr h
  · have hlt : c % (m + 1) < m + 1 := Nat.mod_lt _ (by omega)
    have hdiv := Nat.div_add_mod c (m + 1)
    calc (c + 1) % (m + 1) = ((m + 1) * (c / (m + 1)) + (c % (m + 1) + 1)) % (m + 1) := by
          rw [← Nat.add_assoc, hdiv]
      _ = c % (m + 1) + 1 := by rw [Nat.mul_add_mod, Nat.mod_eq_of_lt (by omega)]

section Tick

variable {w : Word} {c : ℕ} {s : Csr}

/-- A timer that is not at zero counts down. -/
theorem tick_timer_of_pos {v : ℕ} (hen : s.timerEn = true) (hval : s.tval = BitVec.ofNat 32 v)
    (hpos : 0 < v) (hlt : v < 2 ^ 32) (extInt : BitVec 8) :
    ((s.tick extInt).timerEn, (s.tick extInt).tval) = (true, BitVec.ofNat 32 (v - 1)) := by
  have hne : ¬ s.tval = 0#32 := by
    rw [hval]
    exact fun h => by
      have := (ofNat_eq_zero_iff hlt).mp h
      omega
  rw [← ofNat_sub_one hpos hlt, ← hval]
  simp [Csr.tick, hen, hne]

/-- A timer at zero starts again or stops. -/
theorem tick_timer_of_zero (hen : s.timerEn = true) (hval : s.tval = 0) (extInt : BitVec 8) :
    ((s.tick extInt).timerEn, (s.tick extInt).tval) =
      (s.tcfg.getLsbD 1, if s.tcfg.getLsbD 1 then initVal s.tcfg else 0xffffffff) := by
  simp [Csr.tick, hen, hval]

/-- One more active cycle. -/
theorem TimerInv.tick (h : TimerInv w c s) (extInt : BitVec 8) :
    TimerInv w (c + 1) (s.tick extInt) := by
  refine ⟨h.tcfg, ?_⟩
  have htimer := h.timer
  have hlt := ticks_lt w
  have hmod : c % (ticks w + 1) < ticks w + 1 := Nat.mod_lt _ (by omega)
  have hstop (hen : s.timerEn = false) :
      ((s.tick extInt).timerEn, (s.tick extInt).tval) = (s.timerEn, s.tval) := by
    simp [Csr.tick, hen]
  unfold timerAfter at htimer ⊢
  by_cases h0 : w.getLsbD 0 = false
  · rw [if_pos h0] at htimer ⊢
    rw [hstop (congrArg Prod.fst htimer), htimer]
  rw [if_neg h0] at htimer ⊢
  by_cases h1 : w.getLsbD 1 = true
  · -- The period is `ticks w + 1` active cycles.
    rw [if_pos h1] at htimer ⊢
    obtain ⟨hen, hval⟩ := Prod.mk.inj htimer
    rw [succ_mod_succ]
    by_cases hc : c % (ticks w + 1) = ticks w
    · rw [hc, Nat.sub_self] at hval
      rw [if_pos hc, tick_timer_of_zero hen hval, h.tcfg, h1, if_pos rfl, initVal_eq, Nat.sub_zero]
    · rw [if_neg hc, tick_timer_of_pos hen hval (by omega) (by omega), Nat.sub_sub]
  · rw [if_neg h1] at htimer ⊢
    by_cases hc : c ≤ ticks w
    · rw [if_pos hc] at htimer
      obtain ⟨hen, hval⟩ := Prod.mk.inj htimer
      by_cases hlast : c = ticks w
      · rw [hlast, Nat.sub_self] at hval
        rw [if_neg (by omega), tick_timer_of_zero hen hval, h.tcfg, Bool.not_eq_true _ |>.mp h1]
        rfl
      · rw [if_pos (by omega), tick_timer_of_pos hen hval (by omega) (by omega), Nat.sub_sub]
    · rw [if_neg hc] at htimer
      rw [if_neg (by omega), hstop (congrArg Prod.fst htimer), htimer]

end Tick

/-- Outside active cycles only a write of `TCFG` moves the timer. -/
theorem write_timer (s : Csr) {n : CsrName} (h : n ≠ .tcfg) (w : Word) :
    (s.write n w).tcfg = s.tcfg ∧ (s.write n w).timerEn = s.timerEn ∧
      (s.write n w).tval = s.tval := by
  cases n with
  | tcfg => exact absurd rfl h
  | ticlr =>
    simp only [write]
    split_ifs <;> exact ⟨rfl, rfl, rfl⟩
  | _ => exact ⟨rfl, rfl, rfl⟩

theorem except_timer (s : Csr) (m : DtToMsBus) :
    (s.except m).tcfg = s.tcfg ∧ (s.except m).timerEn = s.timerEn ∧ (s.except m).tval = s.tval := by
  simp only [except]
  split_ifs <;> exact ⟨rfl, rfl, rfl⟩

theorem TimerInv.clock {w : Word} {c : ℕ} {s : Csr} (h : TimerInv w c s) {i : CsrIn}
    (hi : i.cycle ≠ .write .tcfg) :
    TimerInv w (if i.cycle = .active then c + 1 else c) (s.clock i) := by
  have hupdate : TimerInv w (if i.cycle = .active then c + 1 else c)
      (s.update i.bus i.stallreqAxi i.extInt) := by
    rw [update_eq]
    cases hc : i.cycle with
    | stalled | unmapped => exact h
    | commit =>
      obtain ⟨htcfg, hen, hval⟩ := s.except_timer i.bus
      exact ⟨htcfg.trans h.tcfg, by rw [hen, hval]; exact h.timer⟩
    | write n =>
      have hn : n ≠ .tcfg := by
        rintro rfl
        exact hi hc
      obtain ⟨htcfg, hen, hval⟩ := s.write_timer hn (s.csrWdataTemp i.bus)
      exact ⟨htcfg.trans h.tcfg, by rw [hen, hval]; exact h.timer⟩
    | active => exact h.tick i.extInt
  exact ⟨hupdate.tcfg, hupdate.timer⟩

/-! ## The interrupt line -/

/-- `ESTAT.IS[11]`. -/
def timerLine (s : Csr) : Bool := s.estat.getLsbD 11

theorem timerLine_tick (s : Csr) (extInt : BitVec 8) :
    (s.tick extInt).timerLine = if s.timerEn && s.tval == 0 then true else s.timerLine := by
  rw [timerLine, tick, BitField.getLsbD_splice _ _ _ _ (by omega), if_neg (by omega)]
  split_ifs
  · rw [BitField.getLsbD_splice _ _ _ _ (by omega), if_pos (by omega)]
    rfl
  · rfl

theorem timerLine_except (s : Csr) (m : DtToMsBus) : (s.except m).timerLine = s.timerLine := by
  have henter : (s.enter m).timerLine = s.timerLine := by
    rw [timerLine, enter, BitField.getLsbD_splice _ _ _ _ (by omega), if_neg (by omega),
      BitField.getLsbD_splice _ _ _ _ (by omega), if_neg (by omega)]
    rfl
  simp only [except]
  split_ifs <;> first | exact henter | rfl

theorem timerLine_write (s : Csr) (n : CsrName) (w : Word) :
    (s.write n w).timerLine =
      if n = .ticlr ∧ w.getLsbD 0 = true then false else s.timerLine := by
  cases n with
  | estat =>
    rw [timerLine, write, copyField, BitField.getLsbD_splice _ _ _ _ (by omega), if_neg (by omega)]
    rfl
  | ticlr =>
    simp only [write, true_and]
    split_ifs
    · rw [timerLine, BitField.getLsbD_splice _ _ _ _ (by omega), if_pos (by omega)]
      rfl
    · rfl
  | _ => rfl

/-- A write of `TICLR` with bit 0 set. -/
def clearsTimer (s : Csr) (i : CsrIn) : Prop :=
  i.cycle = .write .ticlr ∧ (s.csrWdataTemp i.bus).getLsbD 0 = true

instance (s : Csr) (i : CsrIn) : Decidable (s.clearsTimer i) := inferInstanceAs (Decidable (_ ∧ _))

theorem TimerInv.timerLine_clock {w : Word} {c : ℕ} {s : Csr} (h : TimerInv w c s) (i : CsrIn) :
    (s.clock i).timerLine =
      if i.cycle = .active ∧ timerDue w (c + 1) then true
      else if s.clearsTimer i then false else s.timerLine := by
  have hupdate : (s.clock i).timerLine = (s.update i.bus i.stallreqAxi i.extInt).timerLine := rfl
  have hclears : s.clearsTimer i ↔
      i.cycle = .write .ticlr ∧ (s.csrWdataTemp i.bus).getLsbD 0 = true := Iff.rfl
  rw [hupdate, update_eq]
  simp only [hclears]
  cases i.cycle with
  | stalled | unmapped => simp
  | commit => simp [timerLine_except]
  | write n => simp [timerLine_write]
  | active => simp [timerLine_tick, ← h.due_iff]

/-! ## Runs -/

/-- The number of active cycles among the first `k`. -/
def activeCycles (inp : ℕ → CsrIn) (k : ℕ) : ℕ := Nat.count (fun j => (inp j).cycle = .active) k

theorem activeCycles_eq {inp : ℕ → CsrIn} {j k : ℕ} (hjk : j ≤ k)
    (h : ∀ l, j ≤ l → l < k → (inp l).cycle ≠ .active) :
    activeCycles inp k = activeCycles inp j := by
  induction k, hjk using Nat.le_induction with
  | base => rfl
  | succ k hjk ih =>
    rw [activeCycles, Nat.count_succ, if_neg (h k hjk (by omega))]
    exact ih fun l hl hlk => h l hl (by omega)

theorem timerInv_run {s : Csr} {w : Word} {inp : ℕ → CsrIn} (h : TimerInv w 0 s) (k : ℕ)
    (alone : ∀ j < k, (inp j).cycle ≠ .write .tcfg) :
    TimerInv w (activeCycles inp k) (Clocked.run clock s inp k) := by
  induction k with
  | zero => exact h
  | succ k ih =>
    have hstep := (ih fun j hj => alone j (by omega)).clock (alone k (by omega))
    rw [activeCycles, Nat.count_succ]
    rw [Clocked.run_succ]
    convert hstep using 1
    split_ifs <;> rfl

theorem timerInv_write (s : Csr) {i : CsrIn} (h : i.cycle = .write .tcfg) :
    TimerInv (s.csrWdataTemp i.bus) 0 (s.clock i) := by
  have hupdate : s.update i.bus i.stallreqAxi i.extInt = s.write .tcfg (s.csrWdataTemp i.bus) := by
    rw [update_eq, h]
  constructor
  · calc (s.clock i).tcfg = (s.update i.bus i.stallreqAxi i.extInt).tcfg := rfl
      _ = s.csrWdataTemp i.bus := by
        rw [hupdate]
        exact (s.read_write_self .tcfg _).trans (blend_full _ _)
  · rw [timerAfter_zero]
    calc ((s.clock i).timerEn, (s.clock i).tval) =
        ((s.update i.bus i.stallreqAxi i.extInt).timerEn,
          (s.update i.bus i.stallreqAxi i.extInt).tval) := rfl
      _ = _ := by rw [hupdate]; rfl

/-- The timer interrupt after a write of `TCFG`, in every run without a further one. `ESTAT.IS[11]`
is set in the active cycles that are due and in no other cycle, a write of 1 to `TICLR` clears it,
and nothing else changes it. An expiry that falls due while `TICLR` is being written is delivered in
the next active cycle. -/
theorem timer_interrupt (s₀ : Csr) (i₀ : CsrIn) (written : i₀.cycle = .write .tcfg)
    (inp : ℕ → CsrIn) (k : ℕ) (alone : ∀ j < k, (inp j).cycle ≠ .write .tcfg) :
    (Clocked.run clock (s₀.clock i₀) inp (k + 1)).timerLine =
      (if (inp k).cycle = .active ∧ timerDue (s₀.csrWdataTemp i₀.bus) (activeCycles inp k + 1) then
        true
      else if (Clocked.run clock (s₀.clock i₀) inp k).clearsTimer (inp k) then false
      else (Clocked.run clock (s₀.clock i₀) inp k).timerLine) ∧
    (∀ j < k, (inp j).cycle = .write .ticlr →
      timerDue (s₀.csrWdataTemp i₀.bus) (activeCycles inp j + 1) →
      (∀ l, j ≤ l → l < k → (inp l).cycle ≠ .active) → (inp k).cycle = .active →
      (Clocked.run clock (s₀.clock i₀) inp (k + 1)).timerLine = true) := by
  have hinv := timerInv_run (timerInv_write s₀ written) k alone
  have hline := hinv.timerLine_clock (inp k)
  refine ⟨hline, fun j hj _ hdue hbetween hactive => ?_⟩
  -- No active cycle has passed since, so the expiry is still the next one.
  rw [← activeCycles_eq hj.le hbetween] at hdue
  exact hline.trans (if_pos ⟨hactive, hdue⟩)

/-- `csrwr` of the value `w` to register `n`. -/
def csrwrIn (n : CsrName) (w : Word) : CsrIn where
  bus := { DtToMsBus.zero with
    csrBus := ⟨true, false, { CsrOp.zero with instCsrwr := true }, n.addr, w⟩ }
  stallreqAxi := false
  extInt := 0

/-- A cycle in which nothing happens but the timer counts. -/
def activeIn : CsrIn := ⟨.zero, false, 0⟩

/-- A one-shot timer with `INITVAL` 1 and a write of `TICLR` in the cycle in which it stands at
zero: the line is set right after. -/
theorem timer_interrupt_ticlr :
    (csrwrIn .tcfg 5).cycle = .write .tcfg ∧
    (Clocked.run clock ((reset 0).clock (csrwrIn .tcfg 5))
      (fun j => if j = 4 then csrwrIn .ticlr 1 else activeIn) 6).timerLine = true := by
  refine ⟨by decide, ?_⟩
  have h := timer_interrupt (reset 0) (csrwrIn .tcfg 5) (by decide)
    (fun j => if j = 4 then csrwrIn .ticlr 1 else activeIn) 5 (by decide)
  exact h.2 4 (by decide) (by decide) (by decide) (by decide) (by decide)

end NeulaCpu.Rtl.Csr
