import NeulaCpu.Lib.BitField
import NeulaCpu.Rtl.Cache

/-!
# What a cycle does to the data cache

A cycle of `dcache` is a hit, a miss that waits, a refresh, or nothing. For each of these this
module says what becomes of the tag entries and of the words of the lines, what the next cycle shows
on `data_sram_rdata` and `dcache_cacheline_old`, and which line the addresses on the bus name.
-/

namespace NeulaCpu.Rtl

open ByteLanes (merge)

/-! ## The tags -/

namespace Dcache

/-- The entry of a valid line with this tag. -/
def validTag (t : BitVec 20) : TagEntry := 1#1 ++ t

theorem validTag_inj {t u : BitVec 20} (h : validTag t = validTag u) : t = u := by
  have hx := congrArg (fun e : TagEntry => e.extractLsb' 0 20) h
  have low (t : BitVec 20) : (validTag t).extractLsb' 0 20 = t := by
    apply BitVec.eq_of_getLsbD_eq
    intro j hj
    rw [BitVec.getLsbD_extractLsb', validTag, BitVec.getLsbD_append]
    simp [hj]
  simpa only [low] using hx

theorem getLsbD_validTag (t : BitVec 20) : (validTag t).getLsbD 20 = true := by
  rw [validTag, BitVec.getLsbD_append]
  simp

/-- An entry with the valid bit set is the entry of its tag. -/
theorem eq_validTag {e : TagEntry} (h : e.getLsbD 20 = true) :
    e = validTag (e.extractLsb' 0 20) := by
  apply BitVec.eq_of_getLsbD_eq
  intro j hj
  rw [validTag, BitVec.getLsbD_append]
  by_cases hlow : j < 20
  · simp [hlow]
  · obtain rfl : j = 20 := by omega
    simpa using h

end Dcache

namespace CacheTag

open Dcache (validTag validTag_inj)

/-- A refresh answers a miss. -/
def Answers (s : CacheTag) (i : CacheTagIn) : Prop := i.refresh = true → s.miss i = true

instance (s : CacheTag) (i : CacheTagIn) : Decidable (s.Answers i) :=
  inferInstanceAs (Decidable (_ → _))

/-- No line is in both ways of a set. -/
def Distinct (s : CacheTag) : Prop := ∀ idx t, ¬ ∀ way, s.tagWay way idx = validTag t

variable {s : CacheTag} {i : CacheTagIn} {way : Bool}

/-- A way is hit by a request whose line it has. -/
theorem hit_iff :
    s.hit i way = true ↔ (i.flush = false ∧ i.cached = true ∧ i.sramEn = true) ∧
      s.tagWay way (Cache.index i.sramAddr) = validTag (Cache.tag i.sramAddr) := by
  have hdef : s.hit i way = (!i.flush && i.cached && i.sramEn &&
      validTag (Cache.tag i.sramAddr) == s.tagWay way (Cache.index i.sramAddr)) := rfl
  rw [hdef, Bool.and_eq_true, Bool.and_eq_true, Bool.and_eq_true, Bool.not_eq_true', beq_iff_eq,
    and_assoc (a := _ = false), eq_comm (a := validTag _)]

/-- A request that hits no way is a miss. -/
theorem miss_iff_not_hit : s.miss i = true ↔
    (i.flush = false ∧ i.cached = true ∧ i.sramEn = true) ∧ ∀ way, s.hit i way = false := by
  simp only [miss, Bool.and_eq_true, Bool.not_eq_true', Bool.or_eq_false_iff, Bool.forall_bool]
  tauto

theorem miss_iff : s.miss i = true ↔ (i.flush = false ∧ i.cached = true ∧ i.sramEn = true) ∧
    ∀ way, s.tagWay way (Cache.index i.sramAddr) ≠ validTag (Cache.tag i.sramAddr) := by
  rw [miss_iff_not_hit]
  refine and_congr_right fun hreq => forall_congr' fun way => ?_
  rw [← Bool.not_eq_true, hit_iff, not_and]
  exact ⟨fun h => h hreq, fun h _ => h⟩

/-- Only a refresh changes an entry, that of the way `lru` points to. -/
theorem tagWay_step (way : Bool) (idx : BitVec 6) : (s.step i).tagWay way idx =
    if i.refresh = true ∧ s.lru i = way ∧ idx = Cache.index i.sramAddr then
      BitVec.ofBool i.cached ++ Cache.tag i.sramAddr
    else s.tagWay way idx := by
  simp only [step]
  refine if_congr ?_ rfl rfl
  rw [Bool.and_eq_true, Bool.and_eq_true, beq_iff_eq, beq_iff_eq, and_assoc]

/-- The way that has a line is the only one. -/
theorem Distinct.way_eq (hd : s.Distinct) {idx : BitVec 6} {t : BitVec 20} {w w' : Bool}
    (h : s.tagWay w idx = validTag t) (h' : s.tagWay w' idx = validTag t) : w = w' := by
  by_contra hne
  refine hd idx t fun way => ?_
  rcases Bool.eq_or_eq_not way w with rfl | rfl
  · exact h
  · rwa [show (!w) = w' by cases w <;> cases w' <;> simp_all]

/-- Only a line that was asked for and is not there is added. -/
theorem Distinct.step (hd : s.Distinct) (h : s.Answers i) : (s.step i).Distinct := by
  intro idx t hall
  by_cases hfill : i.refresh = true ∧ idx = Cache.index i.sramAddr
  · obtain ⟨hr, rfl⟩ := hfill
    obtain ⟨⟨_, hc, _⟩, hmiss⟩ := miss_iff.mp (h hr)
    have hnew := hall (s.lru i)
    have hold := hall (!s.lru i)
    rw [tagWay_step, if_pos ⟨hr, rfl, rfl⟩, hc] at hnew
    rw [tagWay_step, if_neg (by simp)] at hold
    exact hmiss _ (hold.trans hnew.symm)
  · refine hd idx t fun way => ?_
    rw [← hall way, tagWay_step, if_neg fun hx => hfill ⟨hx.1, hx.2.2⟩]

end CacheTag

namespace Dcache

variable {s : Dcache} {i : DcacheIn} {way : Bool}

/-! ## Entries and words -/

/-- The tag entry of a line. -/
def entry (s : Dcache) (way : Bool) (idx : BitVec 6) : TagEntry := s.dcacheTag.tagWay way idx

/-- The word of a line in one bank. -/
def word (s : Dcache) (way : Bool) (idx : BitVec 6) (b : BitVec 4) : Word :=
  (s.dcacheData.bram way b).mem idx

/-- A way is hit by a cached request whose line it has. -/
theorem hit_iff : s.dcacheHit i way = true ↔
    (i.dcacheUncached = false ∧ i.dataSram.en = true) ∧
      s.entry way (Cache.index i.dataSram.addr) = validTag (Cache.tag i.dataSram.addr) := by
  rw [dcacheHit, CacheTag.hit_iff]
  simp only [tagIn, true_and, Bool.not_eq_true']
  rfl

/-- A cached request that hits no way is a miss. -/
theorem miss_iff : s.dcacheMiss i = true ↔
    (i.dcacheUncached = false ∧ i.dataSram.en = true) ∧ ∀ way, s.dcacheHit i way = false := by
  rw [dcacheMiss, CacheTag.miss_iff_not_hit]
  simp only [tagIn, true_and, Bool.not_eq_true']
  rfl

theorem entry_step (way : Bool) (idx : BitVec 6) : (s.step i).entry way idx =
    if i.dcacheRefresh = true ∧ s.dcacheLru i = way ∧ idx = Cache.index i.dataSram.addr then
      BitVec.ofBool (!i.dcacheUncached) ++ Cache.tag i.dataSram.addr
    else s.entry way idx := CacheTag.tagWay_step way idx

theorem entry_step_of_not_refresh (hr : i.dcacheRefresh = false) (way : Bool) (idx : BitVec 6) :
    (s.step i).entry way idx = s.entry way idx := by
  rw [entry_step, if_neg (by simp [hr])]

theorem word_step (way : Bool) (idx : BitVec 6) (b : BitVec 4) : (s.step i).word way idx b =
    if CacheData.ena (s.dataIn i) way b = true ∧ idx = Cache.index i.dataSram.addr then
      merge (s.word way idx b) (CacheData.wea (s.dataIn i) way) (CacheData.dina (s.dataIn i) b)
    else s.word way idx b := by
  simp only [word, step, CacheData.step, Bram.step]
  by_cases he : CacheData.ena (s.dataIn i) way b = true
  · rw [if_pos he]
    by_cases hidx : idx = Cache.index i.dataSram.addr
    · rw [if_pos ⟨he, hidx⟩, hidx]
      exact Function.update_self ..
    · rw [if_neg (fun h => hidx h.2)]
      exact Function.update_of_ne hidx ..
  · rw [if_neg he, if_neg (fun h => he h.1)]

/-! ## Hits, misses and refreshes -/

/-- A write-back comes with a miss. -/
theorem writeBack_of_hit (h : s.dcacheHit i way = true) : s.dcacheWriteBack i = false := by
  have hmiss : s.dcacheMiss i = false := by
    by_contra hm
    have := (miss_iff.mp (by simpa using hm)).2 way
    rw [h] at this
    cases this
  have hm : s.dcacheTag.miss (tagIn i) = false := hmiss
  simp [dcacheWriteBack, CacheTag.writeBack, CacheTag.writeBackWay, hm]

/-- Without a hit and without a refresh nothing is written. -/
theorem word_step_of_no_hit (hr : i.dcacheRefresh = false) (hh : ∀ way, s.dcacheHit i way = false)
    (way : Bool) (idx : BitVec 6) (b : BitVec 4) :
    (s.step i).word way idx b = s.word way idx b := by
  rw [word_step]
  split_ifs with h
  · have hwb : s.dcacheWriteBack i = true := by
      simpa [CacheData.ena, dataIn, hr, hh way] using h.1
    have hwea : CacheData.wea (s.dataIn i) way = 0 := by
      simp only [CacheData.wea, dataIn, hr, hwb, if_true, Bool.false_eq_true, if_false]
    rw [hwea, ByteLanes.merge_zero]
  · rfl

/-- A hit writes the selected word of its way. -/
theorem word_step_of_hit (hr : i.dcacheRefresh = false) {w : Bool} (hw : s.dcacheHit i w = true)
    (hother : s.dcacheHit i (!w) = false) (way : Bool) (idx : BitVec 6) (b : BitVec 4) :
    (s.step i).word way idx b =
      if way = w ∧ idx = Cache.index i.dataSram.addr ∧ b = Cache.bank i.dataSram.addr then
        merge (s.word way idx b) i.dataSram.we i.dataSram.wdata
      else s.word way idx b := by
  have hwb := writeBack_of_hit hw
  have hen := (hit_iff.mp hw).1.2
  have hena : CacheData.ena (s.dataIn i) way b = true ↔
      Cache.bank i.dataSram.addr = b ∧ s.dcacheHit i way = true := by
    simp [CacheData.ena, CacheData.bankSel, dataIn, hr, hwb, hen]
  have hwea : CacheData.wea (s.dataIn i) way = i.dataSram.we := by
    simp only [CacheData.wea, dataIn, hr, hwb, Bool.false_eq_true, if_false]
  have hdina : CacheData.dina (s.dataIn i) b = i.dataSram.wdata := by
    simp only [CacheData.dina, dataIn, hr, Bool.false_eq_true, if_false]
  have hway : s.dcacheHit i way = true ↔ way = w := by
    cases way <;> cases w <;> simp_all
  rw [word_step, hwea, hdina]
  refine if_congr ?_ rfl rfl
  rw [hena, hway]
  constructor
  · rintro ⟨⟨hb, hw'⟩, hidx⟩
    exact ⟨hw', hidx, hb.symm⟩
  · rintro ⟨hw', hidx, hb⟩
    exact ⟨⟨hb.symm, hw'⟩, hidx⟩

/-- A refresh fills the line that `lru` points to. -/
theorem word_step_of_refresh (hr : i.dcacheRefresh = true) (hc : i.dcacheUncached = false)
    (way : Bool) (idx : BitVec 6) (b : BitVec 4) :
    (s.step i).word way idx b =
      if s.dcacheLru i = way ∧ idx = Cache.index i.dataSram.addr then i.dcacheCachelineNew b
      else s.word way idx b := by
  have hena : CacheData.ena (s.dataIn i) way b = true := by
    simp [CacheData.ena, dataIn, hr, hc]
  have hdina : CacheData.dina (s.dataIn i) b = i.dcacheCachelineNew b := by
    simp only [CacheData.dina, dataIn, hr, if_true]
  have hwea : CacheData.wea (s.dataIn i) way =
      if s.dcacheLru i = way then 0b1111#4 else 0b0000#4 := by
    simp only [CacheData.wea, dataIn, hr, if_true, beq_iff_eq]
    rfl
  rw [word_step, hwea, hdina]
  by_cases hidx : idx = Cache.index i.dataSram.addr
  · by_cases hw : s.dcacheLru i = way
    · rw [if_pos ⟨hena, hidx⟩, if_pos hw, if_pos ⟨hw, hidx⟩, ByteLanes.merge_allOnes]
    · rw [if_pos ⟨hena, hidx⟩, if_neg hw, if_neg (fun h => hw h.1)]
      exact ByteLanes.merge_zero _ _
  · rw [if_neg (fun h => hidx h.2), if_neg (fun h => hidx h.2)]

/-- The cycle after a write-back request shows the victim's line. -/
theorem cachelineOld_step (hr : i.dcacheRefresh = false) (hwb : s.dcacheWriteBack i = true) :
    (s.step i).dcacheCachelineOld =
      fun b => s.word (s.dcacheLru i) (Cache.index i.dataSram.addr) b := by
  funext b
  have hena : CacheData.ena (s.dataIn i) (s.dcacheLru i) b = true := by
    simp [CacheData.ena, dataIn, hwb]
  have hwea : CacheData.wea (s.dataIn i) (s.dcacheLru i) = 0 := by
    simp only [CacheData.wea, dataIn, hr, hwb, if_true, Bool.false_eq_true, if_false]
  simp only [dcacheCachelineOld, CacheData.cachelineOld, step, CacheData.step, Bram.step]
  change (if CacheData.ena (s.dataIn i) (s.dcacheLru i) b = true then _ else _ : Bram).douta = _
  rw [if_pos hena]
  change merge _ (CacheData.wea (s.dataIn i) (s.dcacheLru i)) _ = _
  rw [hwea, ByteLanes.merge_zero]
  rfl

theorem find_bankSel : ∀ b : BitVec 4, CacheData.banks.find? (fun c => b == c) = some b := by
  decide

/-- The cycle after a hit returns the word as the access leaves it. -/
theorem dataSramRdata_step (hr : i.dcacheRefresh = false) {w : Bool} (hw : s.dcacheHit i w = true)
    (hother : s.dcacheHit i (!w) = false) :
    (s.step i).dataSramRdata =
      merge (s.word w (Cache.index i.dataSram.addr) (Cache.bank i.dataSram.addr))
        i.dataSram.we i.dataSram.wdata := by
  have hwb := writeBack_of_hit hw
  obtain ⟨hc, hen⟩ := (hit_iff.mp hw).1
  have hena : CacheData.ena (s.dataIn i) w (Cache.bank i.dataSram.addr) = true := by
    simp [CacheData.ena, CacheData.bankSel, dataIn, hen, hw]
  have hwea : CacheData.wea (s.dataIn i) w = i.dataSram.we := by
    simp only [CacheData.wea, dataIn, hr, hwb, Bool.false_eq_true, if_false]
  have hdina : CacheData.dina (s.dataIn i) (Cache.bank i.dataSram.addr) = i.dataSram.wdata := by
    simp only [CacheData.dina, dataIn, hr, Bool.false_eq_true, if_false]
  have hsel : CacheData.banks.find? (s.step i).dcacheData.bankSelR =
      some (Cache.bank i.dataSram.addr) :=
    find_bankSel _
  have hcached : (s.step i).dcacheData.cachedR = true := by
    change (!i.dcacheUncached) = true
    rw [hc]
    rfl
  have hrdata : (s.step i).dcacheData.sramRdataWay w =
      merge (s.word w (Cache.index i.dataSram.addr) (Cache.bank i.dataSram.addr))
        i.dataSram.we i.dataSram.wdata := by
    rw [CacheData.sramRdataWay, if_neg (by simp [hcached]), hsel]
    change (Bram.step _ (CacheData.ena (s.dataIn i) w _) (CacheData.wea (s.dataIn i) w) _
      (CacheData.dina (s.dataIn i) _)).douta = _
    rw [Bram.step, if_pos hena, hwea, hdina]
    rfl
  have hhit (way : Bool) : (s.step i).dcacheData.hitR way = s.dcacheHit i way := rfl
  rw [dataSramRdata, CacheData.sramRdata, hhit, hhit]
  cases w with
  | false => rw [if_pos hw, hrdata]
  | true =>
    have hf : s.dcacheHit i false = false := hother
    rw [if_neg (by simp [hf]), if_pos hw, hrdata]

/-- Without a hit and without a refresh the replacement order stays. -/
theorem lruR_step (hr : i.dcacheRefresh = false) (hh : ∀ way, s.dcacheHit i way = false)
    (idx : BitVec 6) : (s.step i).dcacheTag.lruR idx = s.dcacheTag.lruR idx := by
  have h0 : s.dcacheTag.hit (tagIn i) false = false := hh false
  have h1 : s.dcacheTag.hit (tagIn i) true = false := hh true
  have hr' : (tagIn i).refresh = false := hr
  simp only [step, CacheTag.step, h0, h1, hr', Bool.false_and, Bool.and_false, Bool.false_eq_true,
    if_false, ite_self]

/-- A miss asks for a write-back exactly if the victim is valid. -/
theorem writeBack_of_miss (hm : s.dcacheMiss i = true) :
    s.dcacheWriteBack i = (s.entry (s.dcacheLru i) (Cache.index i.dataSram.addr)).getLsbD 20 := by
  obtain ⟨⟨hc, hen⟩, -⟩ := miss_iff.mp hm
  have hm' : s.dcacheTag.miss (tagIn i) = true := hm
  simp only [dcacheWriteBack, CacheTag.writeBack, CacheTag.writeBackWay, hm']
  simp only [tagIn, hc, hen, Bool.not_false, Bool.true_and, Bool.false_eq_true, if_false]
  rfl

/-! ## The addresses on the bus -/

theorem tag_dcacheRaddr (hc : i.dcacheUncached = false) :
    Cache.tag (dcacheRaddr i) = Cache.tag i.dataSram.addr := by
  simp only [dcacheRaddr, CacheTag.axiRaddr, tagIn, hc, Bool.not_false, if_true]
  exact (BitVec.extractLsb'_append_eq_of_le (by norm_num)).trans
    (BitField.extract_extract _ 6 6 (by norm_num))

theorem index_dcacheRaddr (hc : i.dcacheUncached = false) :
    Cache.index (dcacheRaddr i) = Cache.index i.dataSram.addr := by
  simp only [dcacheRaddr, CacheTag.axiRaddr, tagIn, hc, Bool.not_false, if_true]
  exact (BitVec.extractLsb'_append_eq_of_le le_rfl).trans
    (BitField.extract_extract _ 6 0 (by norm_num))

theorem tag_append (t : BitVec 20) (idx : BitVec 6) :
    Cache.tag (t ++ idx ++ 0#6 : BitVec 32) = t :=
  (BitVec.extractLsb'_append_eq_of_le (by norm_num)).trans BitVec.extractLsb'_append_eq_left

theorem index_append (t : BitVec 20) (idx : BitVec 6) :
    Cache.index (t ++ idx ++ 0#6 : BitVec 32) = idx :=
  (BitVec.extractLsb'_append_eq_of_le le_rfl).trans BitVec.extractLsb'_append_eq_right

theorem tag_dcacheWaddr :
    Cache.tag (s.dcacheWaddr i) =
      (s.entry (s.dcacheLru i) (Cache.index i.dataSram.addr)).extractLsb' 0 20 :=
  tag_append _ _

theorem index_dcacheWaddr : Cache.index (s.dcacheWaddr i) = Cache.index i.dataSram.addr :=
  index_append _ _

end Dcache

end NeulaCpu.Rtl
