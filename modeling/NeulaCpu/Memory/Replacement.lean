import NeulaCpu.Lib.Clocked
import NeulaCpu.Lib.Recency
import NeulaCpu.Memory.CacheStep

/-!
# The replacement order of the cache

`cache_tag_v5` with any inputs in which `refresh` comes only in a cycle in which the module asks for
a line. A way of a set is used in a cycle if it is hit or filled. The bit `lru_r` of a set points to
the way that is replaced next: it is a way that has not been filled, or both ways are valid and it
is the way whose last use is the older one.
-/

namespace NeulaCpu.Rtl

open Dcache (validTag getLsbD_validTag)

namespace CacheTag

/-- The way has a valid line in the set. -/
def Valid (s : CacheTag) (way : Bool) (idx : BitVec 6) : Prop :=
  (s.tagWay way idx).getLsbD 20 = true

instance (s : CacheTag) (way : Bool) (idx : BitVec 6) : Decidable (s.Valid way idx) :=
  inferInstanceAs (Decidable (_ = _))

variable {s : CacheTag} {i : CacheTagIn} {way : Bool} {idx : BitVec 6}

theorem not_valid_reset (way : Bool) (idx : BitVec 6) : ¬ reset.Valid way idx := by
  rw [Valid, reset_tagWay]
  decide

/-! ## One cycle -/

theorem valid_of_hit (h : s.hit i way = true) : s.Valid way (Cache.index i.sramAddr) := by
  rw [Valid, (hit_iff.mp h).2]
  exact getLsbD_validTag _

/-- The way is hit or filled in this cycle. -/
def Uses (s : CacheTag) (i : CacheTagIn) (way : Bool) (idx : BitVec 6) : Prop :=
  idx = Cache.index i.sramAddr ∧ (s.hit i way = true ∨ i.refresh = true ∧ s.lru i = way)

/-- What a cycle does to a set: nothing, a hit, or a refresh that fills the way `lru_r` points
to. -/
inductive SetStep (s : CacheTag) (i : CacheTagIn) (idx : BitVec 6) : Prop
  | idle (tags : ∀ way, (s.step i).tagWay way idx = s.tagWay way idx)
      (lru : (s.step i).lruR idx = s.lruR idx) (unused : ∀ way, ¬ s.Uses i way idx)
  | hit (way : Bool) (valid : s.Valid way idx)
      (tags : ∀ way, (s.step i).tagWay way idx = s.tagWay way idx)
        (lru : (s.step i).lruR idx = !way) (used : s.Uses i way idx)
          (unused : ¬ s.Uses i (!way) idx)
  | fill (refresh : i.refresh = true) (index : idx = Cache.index i.sramAddr)
      (miss : ∀ way, s.tagWay way idx ≠ validTag (Cache.tag i.sramAddr))
      (filled : (s.step i).tagWay (s.lruR idx) idx = validTag (Cache.tag i.sramAddr))
      (kept : (s.step i).tagWay (!s.lruR idx) idx = s.tagWay (!s.lruR idx) idx)
      (lru : (s.step i).lruR idx = !s.lruR idx) (used : s.Uses i (s.lruR idx) idx)
      (unused : ¬ s.Uses i (!s.lruR idx) idx)

theorem not_uses_of_ne (h : idx ≠ Cache.index i.sramAddr) (way : Bool) : ¬ s.Uses i way idx :=
  fun hu => h hu.1

theorem SetStep.of_refresh (h : s.Answers i) (hr : i.refresh = true) :
    SetStep s i (Cache.index i.sramAddr) := by
  obtain ⟨⟨hf, hc, he⟩, hmiss⟩ := miss_iff.mp (h hr)
  have hhit (way : Bool) : s.hit i way = false := by
    rw [← Bool.not_eq_true, hit_iff]
    exact fun hh => hmiss way hh.2
  have hlru : s.lru i = s.lruR (Cache.index i.sramAddr) := rfl
  have hother : ¬ s.lruR (Cache.index i.sramAddr) = !s.lruR (Cache.index i.sramAddr) := by simp
  refine .fill hr rfl hmiss ?_ ?_ ?_ ⟨rfl, .inr ⟨hr, rfl⟩⟩ ?_
  · rw [tagWay_step, if_pos ⟨hr, rfl, rfl⟩, hc]
    rfl
  · rw [tagWay_step, if_neg fun hh => hother (hlru ▸ hh.2.1)]
  · simp [step, hhit, hr]
  · rintro ⟨_, hh | ⟨_, hh⟩⟩
    · rw [hhit] at hh
      exact Bool.false_ne_true hh
    · exact hother (hlru ▸ hh)

theorem SetStep.of_hit (hd : s.Distinct) (hr : i.refresh = false) (hh : s.hit i way = true) :
    SetStep s i (Cache.index i.sramAddr) := by
  have htags (w : Bool) (idx : BitVec 6) : (s.step i).tagWay w idx = s.tagWay w idx := by
    rw [tagWay_step, if_neg (by simp [hr])]
  have hother : s.hit i (!way) = false := by
    rw [← Bool.not_eq_true]
    intro ho
    simpa using hd.way_eq (hit_iff.mp hh).2 (hit_iff.mp ho).2
  refine .hit way (valid_of_hit hh) (fun w => htags w _) ?_ ⟨rfl, .inl hh⟩ ?_
  · cases way with
    | false => simp [step, hh, show s.hit i true = false from hother]
    | true => simp [step, hh, show s.hit i false = false from hother]
  · rintro ⟨_, ho | ⟨ho, _⟩⟩
    · rw [hother] at ho
      exact Bool.false_ne_true ho
    · rw [hr] at ho
      exact Bool.false_ne_true ho

theorem SetStep.of_step (hd : s.Distinct) (h : s.Answers i) (idx : BitVec 6) : SetStep s i idx := by
  by_cases hidx : idx = Cache.index i.sramAddr
  · subst hidx
    cases hr : i.refresh with
    | true => exact .of_refresh h hr
    | false =>
      by_cases hhit : ∃ way, s.hit i way = true
      · obtain ⟨way, hway⟩ := hhit
        exact .of_hit hd hr hway
      · simp only [not_exists, Bool.not_eq_true] at hhit
        refine .idle (fun way => ?_) ?_ ?_
        · rw [tagWay_step, if_neg (by simp [hr])]
        · simp [step, hhit, hr]
        · rintro way ⟨_, hh | ⟨hh, _⟩⟩
          · rw [hhit] at hh
            exact Bool.false_ne_true hh
          · rw [hr] at hh
            exact Bool.false_ne_true hh
  · refine .idle (fun way => ?_) ?_ (not_uses_of_ne hidx)
    · rw [tagWay_step, if_neg fun hh => hidx hh.2.2]
    · simp [step, hidx]

/-! ## Runs -/

section Run

variable (inp : ℕ → CacheTagIn)

/-- The registers after `n` cycles from reset. -/
def after (n : ℕ) : CacheTag := Clocked.run CacheTag.step .reset inp n

/-- The way of the set `idx` is used in cycle `k`. -/
def UsedAt (idx : BitVec 6) (k : ℕ) (way : Bool) : Prop := (after inp k).Uses (inp k) way idx

/-- A line is put into the way of the set `idx` in cycle `k`. -/
def FilledAt (idx : BitVec 6) (k : ℕ) (way : Bool) : Prop :=
  (inp k).refresh = true ∧ idx = Cache.index (inp k).sramAddr ∧
    ∀ w j, (after inp (k + 1)).tagWay w j =
      if w = way ∧ j = idx then validTag (Cache.tag (inp k).sramAddr) else (after inp k).tagWay w j

/-- The set `idx` after `n` cycles. -/
structure SetInv (n : ℕ) (idx : BitVec 6) : Prop where
  /-- A valid line has been put there, which is a use. -/
  filled : ∀ way, (after inp n).Valid way idx → ∃ k < n, FilledAt inp idx k way ∧
    UsedAt inp idx k way
  /-- The way that is replaced next is the older one, if it has a line. -/
  order : (after inp n).Valid ((after inp n).lruR idx) idx →
    (after inp n).Valid (!(after inp n).lruR idx) idx ∧
    Recency.Older (UsedAt inp idx) n ((after inp n).lruR idx) (!(after inp n).lruR idx)

variable {inp} {n : ℕ}

theorem after_succ : after inp (n + 1) = (after inp n).step (inp n) := rfl

theorem distinct_after (h : ∀ k < n, (after inp k).Answers (inp k)) : (after inp n).Distinct := by
  refine Clocked.invariant (A := Answers) ?_ (fun s i hd ha => hd.step ha) n h
  intro idx t hall
  refine not_valid_reset false idx ?_
  rw [Valid, hall false]
  exact getLsbD_validTag t

/-- The way that a refresh fills. -/
theorem filledAt_of_refresh (h : (after inp n).Answers (inp n)) (hr : (inp n).refresh = true) :
    FilledAt inp (Cache.index (inp n).sramAddr) n ((after inp n).lru (inp n)) := by
  refine ⟨hr, rfl, fun w j => ?_⟩
  have hc := (miss_iff.mp (h hr)).1.2.1
  rw [after_succ, tagWay_step, hc]
  refine if_congr ?_ rfl rfl
  rw [and_iff_right hr]
  exact and_congr_left fun _ => eq_comm

theorem setInv_zero : SetInv inp 0 idx :=
  ⟨fun _ h => absurd h (not_valid_reset _ _), fun h => absurd h (not_valid_reset _ _)⟩

/-- One more cycle keeps the order of the set. -/
theorem SetInv.succ (inv : SetInv inp n idx) (hd : (after inp n).Distinct)
    (ha : (after inp n).Answers (inp n)) : SetInv inp (n + 1) idx := by
  have old {way : Bool} (hv : (after inp n).Valid way idx) :
      ∃ k < n + 1, FilledAt inp idx k way ∧ UsedAt inp idx k way := by
    obtain ⟨k, hk, hf⟩ := inv.filled way hv
    exact ⟨k, hk.trans (Nat.lt_succ_self n), hf⟩
  rcases SetStep.of_step hd ha idx with ⟨htags, hlru, hun⟩ |
    ⟨way, hvalid, htags, hlru, hused, hun⟩ | ⟨hr, hidx, _, hfilled, hkept, hlru, hused, hun⟩
  · have hv (way : Bool) : (after inp (n + 1)).Valid way idx ↔ (after inp n).Valid way idx := by
      rw [Valid, Valid, after_succ, htags]
    rw [← after_succ] at hlru
    refine ⟨fun way h => old ((hv way).mp h), ?_⟩
    rw [hlru, hv, hv]
    intro h
    obtain ⟨h1, h2⟩ := inv.order h
    exact ⟨h1, h2.keep (hun _) (hun _)⟩
  · have hv (w : Bool) : (after inp (n + 1)).Valid w idx ↔ (after inp n).Valid w idx := by
      rw [Valid, Valid, after_succ, htags]
    rw [← after_succ] at hlru
    refine ⟨fun w h => old ((hv w).mp h), ?_⟩
    rw [hlru, Bool.not_not, hv, hv]
    intro h
    -- the other way was used when its line was put there
    obtain ⟨k, hk, _, hu⟩ := inv.filled _ h
    exact ⟨hvalid, .now hk hu hun hused⟩
  · subst hidx
    have hnew : (after inp (n + 1)).Valid ((after inp n).lruR (Cache.index (inp n).sramAddr))
        (Cache.index (inp n).sramAddr) := by
      rw [Valid, after_succ, hfilled]
      exact getLsbD_validTag _
    have hv : (after inp (n + 1)).Valid (!(after inp n).lruR (Cache.index (inp n).sramAddr))
        (Cache.index (inp n).sramAddr) ↔
        (after inp n).Valid (!(after inp n).lruR (Cache.index (inp n).sramAddr))
            (Cache.index (inp n).sramAddr) := by
      rw [Valid, Valid, after_succ, hkept]
    rw [← after_succ] at hlru
    refine ⟨fun w h => ?_, ?_⟩
    · rcases Bool.eq_or_eq_not w ((after inp n).lruR (Cache.index (inp n).sramAddr)) with rfl | rfl
      · exact ⟨n, Nat.lt_succ_self n, filledAt_of_refresh ha hr, hused⟩
      · exact old (hv.mp h)
    · rw [hlru, Bool.not_not, hv]
      intro h
      obtain ⟨k, hk, _, hu⟩ := inv.filled _ h
      exact ⟨hnew, .now hk hu hun hused⟩

theorem setInv_after (h : ∀ k < n, (after inp k).Answers (inp k)) (idx : BitVec 6) :
    SetInv inp n idx := by
  induction n with
  | zero => exact setInv_zero
  | succ n ih =>
    have hbefore : ∀ k < n, (after inp k).Answers (inp k) :=
      fun k hk => h k (hk.trans (Nat.lt_succ_self n))
    exact (ih hbefore).succ (distinct_after hbefore) (h n (Nat.lt_succ_self n))

end Run

/-- A line goes to a way that is not valid, or to the way whose last hit or fill is the older one; a
valid line is replaced only after both ways of the set have been filled. -/
theorem replacement_is_lru (inp : ℕ → CacheTagIn) (n : ℕ)
    (h : ∀ k ≤ n, (after inp k).Answers (inp k)) (hr : (inp n).refresh = true) :
    ∃ way, FilledAt inp (Cache.index (inp n).sramAddr) n way ∧
      (¬ (after inp n).Valid way (Cache.index (inp n).sramAddr) ∨
        Recency.Older (UsedAt inp (Cache.index (inp n).sramAddr)) n way (!way)) ∧
      ((after inp n).Valid way (Cache.index (inp n).sramAddr) →
        (after inp n).Valid (!way) (Cache.index (inp n).sramAddr) ∧
          ∀ w, ∃ k < n, FilledAt inp (Cache.index (inp n).sramAddr) k w) := by
  have inv := setInv_after (n := n) (fun k hk => h k hk.le) (Cache.index (inp n).sramAddr)
  refine ⟨_, filledAt_of_refresh (h n le_rfl) hr, ?_, fun hv => ?_⟩
  · by_cases hv : (after inp n).Valid ((after inp n).lru (inp n)) (Cache.index (inp n).sramAddr)
    · exact .inr (inv.order hv).2
    · exact .inl hv
  · have hother := (inv.order hv).1
    refine ⟨hother, fun w => ?_⟩
    have hw : (after inp n).Valid w (Cache.index (inp n).sramAddr) := by
      rcases Bool.eq_or_eq_not w ((after inp n).lru (inp n)) with rfl | rfl
      · exact hv
      · exact hother
    obtain ⟨k, hk, hf, _⟩ := inv.filled w hw
    exact ⟨k, hk, hf⟩

/-- A cycle of a cached access. -/
def access (addr : Word) (refresh : Bool) : CacheTagIn := ⟨false, true, true, addr, refresh⟩

/-- Two lines of set 0 are read, with an uncached access and an idle cycle between; the first one is
read again, and then a third line. -/
def threeLines : List CacheTagIn :=
  [access 0x1000 false, access 0x1000 true, access 0x1000 false,
    ⟨false, false, true, 0x2000, false⟩,
    access 0x2000 false, access 0x2000 true, access 0x2000 false,
      ⟨false, true, false, 0x2000, false⟩,
    access 0x1000 false, access 0x3000 false, access 0x3000 true]

theorem replacement_is_lru_threeLines :
    (after (threeLines.getD · (access 0 false)) 10).Valid true 0 ∧
    ∃ way, FilledAt (threeLines.getD · (access 0 false)) 0 10 way ∧
      (¬ (after (threeLines.getD · (access 0 false)) 10).Valid way 0 ∨
        Recency.Older (UsedAt (threeLines.getD · (access 0 false)) 0) 10 way (!way)) := by
  have hanswers : ∀ k ≤ 10, (after (threeLines.getD · (access 0 false)) k).Answers
      (threeLines.getD k (access 0 false)) := by
    decide +kernel
  obtain ⟨way, hfilled, hold, _⟩ :=
    replacement_is_lru (threeLines.getD · (access 0 false)) 10 hanswers rfl
  exact ⟨by decide +kernel, way, hfilled, hold⟩

end CacheTag

end NeulaCpu.Rtl
