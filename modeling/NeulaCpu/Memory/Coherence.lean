import NeulaCpu.Memory.CacheStep
import NeulaCpu.Lib.Clocked

/-!
# The data cache is coherent

`dcache` together with a memory: a miss is accepted in some cycle, the address of a victim is
captured with it and the victim's line one cycle later, as `axi_ctrl_v5` does; the memory line comes
back after any delay. Seen from the pipeline the two are a flat memory: every word of the memory,
overlaid with the valid lines of both ways, is what the stores so far have left there, and that is
what a load returns.
-/

namespace NeulaCpu.Rtl

open ByteLanes (Store replay lastByte byte)

/-! ## The memory side -/

/-- The address of a word: `sram_addr[31:2]` in the three parts that the cache splits it into. -/
structure WordAddr where
  tag : BitVec 20
  index : BitVec 6
  bank : BitVec 4
deriving DecidableEq, Repr

def WordAddr.ofAddr (addr : Word) : WordAddr := ⟨Cache.tag addr, Cache.index addr, Cache.bank addr⟩

abbrev Memory := WordAddr → Word

namespace Memory

/-- The line that a read burst at `raddr` delivers. -/
def line (m : Memory) (raddr : Word) : Line := fun b => m ⟨Cache.tag raddr, Cache.index raddr, b⟩

/-- The memory after a write burst at `waddr`. -/
def storeLine (m : Memory) (waddr : Word) (l : Line) : Memory := fun a =>
  if a.tag = Cache.tag waddr ∧ a.index = Cache.index waddr then l a.bank else m a

end Memory

/-- What the memory side is doing for `dcache`. -/
inductive DcachePhase
  | idle
  | capture (raddr waddr : Word)
  | fetch (raddr : Word)
deriving DecidableEq, Repr

structure DcacheSys where
  dcache : Dcache
  mem : Memory
  phase : DcachePhase

/-- The request of `dt_stage` in a cycle, whether a miss would be accepted in it, and whether a line
that is being fetched comes back in it. -/
structure DcacheSysIn where
  dataSram : DataSram
  uncached : Bool
  accept : Bool
  reply : Bool
deriving DecidableEq, Repr

namespace DcacheSys

variable (s : DcacheSys) (i : DcacheSysIn)

/-- The inputs of `dcache`: a refresh carries the memory line. -/
def dcacheIn : DcacheIn where
  dataSram := i.dataSram
  dcacheUncached := i.uncached
  dcacheRefresh :=
    match s.phase with
    | .fetch _ => i.reply
    | _ => false
  dcacheCachelineNew :=
    match s.phase with
    | .fetch raddr => s.mem.line raddr
    | _ => fun _ => 0

def stallreq : Bool := s.dcache.stallreqDcache (s.dcacheIn i)

def refresh : Bool := (s.dcacheIn i).dcacheRefresh

def step : DcacheSys where
  dcache := s.dcache.step (s.dcacheIn i)
  mem :=
    match s.phase with
    | .capture _ waddr => s.mem.storeLine waddr s.dcache.dcacheCachelineOld
    | _ => s.mem
  phase :=
    match s.phase with
    | .idle =>
      if i.accept && s.dcache.dcacheMiss (s.dcacheIn i) then
        if s.dcache.dcacheWriteBack (s.dcacheIn i) then
          .capture (Dcache.dcacheRaddr (s.dcacheIn i)) (s.dcache.dcacheWaddr (s.dcacheIn i))
        else .fetch (Dcache.dcacheRaddr (s.dcacheIn i))
      else .idle
    | .capture raddr _ => .fetch raddr
    | .fetch raddr => if i.reply then .idle else .fetch raddr

/-- A cached access is done in this cycle. -/
def completes : Bool := i.dataSram.en && !i.uncached && !s.stallreq i

end DcacheSys

/-! ## What the pipeline has seen -/

/-- The request that is being held, the stores that are done, and the address of a load that was
done in the previous cycle. -/
structure DcacheLog where
  held : Option (DataSram × Bool)
  stores : List (Store WordAddr)
  loaded : Option WordAddr

namespace DcacheLog

def start : DcacheLog := ⟨none, [], none⟩

def observe (g : DcacheLog) (s : DcacheSys) (i : DcacheSysIn) : DcacheLog where
  held := if s.stallreq i then some (i.dataSram, i.uncached) else none
  stores :=
    if s.completes i && i.dataSram.we != 0 then
      g.stores ++ [⟨.ofAddr i.dataSram.addr, i.dataSram.we, i.dataSram.wdata⟩]
    else g.stores
  loaded :=
    if s.completes i && i.dataSram.we == 0 then some (.ofAddr i.dataSram.addr) else none

end DcacheLog

/-- A run from reset: any memory, any contents of the RAMs, any requests and delays. -/
structure DcacheRun where
  mem : Memory
  bram : Bool → BitVec 4 → Bram
  inp : ℕ → DcacheSysIn

namespace DcacheRun

def start (r : DcacheRun) : DcacheSys := ⟨.reset r.bram, r.mem, .idle⟩

def sys (r : DcacheRun) (n : ℕ) : DcacheSys := Clocked.run DcacheSys.step r.start r.inp n

def log (r : DcacheRun) (n : ℕ) : DcacheLog :=
  Clocked.ghost DcacheSys.step DcacheLog.observe r.start .start r.inp n

/-- A request that is stalled is presented again. -/
def Holds (r : DcacheRun) (k : ℕ) : Prop :=
  (r.sys k).stallreq (r.inp k) = true →
    (r.inp (k + 1)).dataSram = (r.inp k).dataSram ∧ (r.inp (k + 1)).uncached = (r.inp k).uncached

end DcacheRun

/-! ## The invariant -/

open Dcache (validTag)

namespace DcacheSys

/-- The memory overlaid with the valid lines of both ways. -/
def overlay (s : DcacheSys) (a : WordAddr) : Word :=
  if s.dcache.entry false a.index = validTag a.tag then s.dcache.word false a.index a.bank
  else if s.dcache.entry true a.index = validTag a.tag then s.dcache.word true a.index a.bank
  else s.mem a

/-- No set holds the same valid tag in both ways. -/
def Distinct (s : DcacheSys) : Prop := s.dcache.dcacheTag.Distinct

/-- The request `q` finds its line in neither way. -/
structure Missing (s : DcacheSys) (q : DataSram) : Prop where
  en : q.en = true
  absent : ∀ way, s.dcache.entry way (Cache.index q.addr) ≠ validTag (Cache.tag q.addr)

/-- The way that a refresh for `q` replaces. -/
def victim (s : DcacheSys) (q : DataSram) : Bool := s.dcache.dcacheTag.lruR (Cache.index q.addr)

/-- The miss of the request `q` that the memory side works on, at the address `raddr`. -/
structure Serves (s : DcacheSys) (held : Option (DataSram × Bool)) (raddr : Word) (q : DataSram) :
    Prop where
  held : held = some (q, false)
  missing : s.Missing q
  tag : Cache.tag raddr = Cache.tag q.addr
  index : Cache.index raddr = Cache.index q.addr

/-- The memory has the line that a refresh for `q` replaces. -/
def Clean (s : DcacheSys) (q : DataSram) : Prop :=
  ∀ t, s.dcache.entry (s.victim q) (Cache.index q.addr) = validTag t →
    ∀ b, s.mem ⟨t, Cache.index q.addr, b⟩ = s.dcache.word (s.victim q) (Cache.index q.addr) b

/-- What holds while the memory side works on a miss. In `capture` the victim's line is on
`dcache_cacheline_old`; in `fetch` the memory has it. -/
def PhaseInv (s : DcacheSys) (held : Option (DataSram × Bool)) : Prop :=
  match s.phase with
  | .idle => True
  | .capture raddr waddr => ∃ q, s.Serves held raddr q ∧
      Cache.index waddr = Cache.index q.addr ∧
      s.dcache.entry (s.victim q) (Cache.index q.addr) = validTag (Cache.tag waddr) ∧
      s.dcache.dcacheCachelineOld = fun b => s.dcache.word (s.victim q) (Cache.index q.addr) b
  | .fetch raddr => ∃ q, s.Serves held raddr q ∧ s.Clean q

variable {s : DcacheSys} {i : DcacheSysIn} {a : WordAddr} {way : Bool}

theorem Distinct.congr {s' : DcacheSys} (hd : s.Distinct)
    (hentry : ∀ way idx, s'.dcache.entry way idx = s.dcache.entry way idx) : s'.Distinct :=
  fun idx t hall => hd idx t fun way => (hentry way idx).symm.trans (hall way)

theorem overlay_of_present (hd : s.Distinct) (h : s.dcache.entry way a.index = validTag a.tag) :
    s.overlay a = s.dcache.word way a.index a.bank := by
  cases way with
  | false => rw [overlay, if_pos h]
  | true =>
    have hne : s.dcache.entry false a.index ≠ validTag a.tag := fun h' =>
      absurd (CacheTag.Distinct.way_eq hd h' h) Bool.false_ne_true
    rw [overlay, if_neg hne, if_pos h]

theorem overlay_of_absent (h : ∀ way, s.dcache.entry way a.index ≠ validTag a.tag) :
    s.overlay a = s.mem a := by
  rw [overlay, if_neg (h false), if_neg (h true)]

/-- An address is in one of the ways or in none. -/
theorem present_or_absent (s : DcacheSys) (a : WordAddr) :
    (∃ way, s.dcache.entry way a.index = validTag a.tag) ∨
      ∀ way, s.dcache.entry way a.index ≠ validTag a.tag := by
  by_cases h : ∃ way, s.dcache.entry way a.index = validTag a.tag
  · exact Or.inl h
  · exact Or.inr fun way hw => h ⟨way, hw⟩

/-- The overlay of an address depends on where it is present, on the word there, and on the memory
if it is absent. -/
theorem overlay_congr {s' : DcacheSys} (hd : s.Distinct) (hd' : s'.Distinct)
    (hentry : ∀ way, s'.dcache.entry way a.index = validTag a.tag ↔
      s.dcache.entry way a.index = validTag a.tag)
    (hword : ∀ way, s.dcache.entry way a.index = validTag a.tag →
      s'.dcache.word way a.index a.bank = s.dcache.word way a.index a.bank)
    (hmem : (∀ way, s.dcache.entry way a.index ≠ validTag a.tag) → s'.mem a = s.mem a) :
    s'.overlay a = s.overlay a := by
  rcases s.present_or_absent a with ⟨way, hp⟩ | habs
  · rw [overlay_of_present hd hp, overlay_of_present hd' ((hentry way).mpr hp), hword way hp]
  · rw [overlay_of_absent habs, overlay_of_absent fun way hp => habs way ((hentry way).mp hp),
      hmem habs]

/-! ### Hits -/

/-- Only one way hits. -/
theorem other_not_hit (hd : s.Distinct) {d : DcacheIn} {w : Bool}
    (hw : s.dcache.dcacheHit d w = true) : s.dcache.dcacheHit d (!w) = false := by
  by_contra hother
  have h1 := (Dcache.hit_iff.mp hw).2
  have h2 := (Dcache.hit_iff.mp (by simpa using hother)).2
  have hsame := CacheTag.Distinct.way_eq hd h1 h2
  simp at hsame

theorem not_miss_of_hit {d : DcacheIn} {w : Bool} (hw : s.dcache.dcacheHit d w = true) :
    s.dcache.dcacheMiss d = false := by
  by_contra hm
  have := (Dcache.miss_iff.mp (by simpa using hm)).2 w
  rw [hw] at this
  cases this

end DcacheSys

/-- The cache and its memory are the flat memory that the stores have left. -/
structure DcacheInv (m₀ : Memory) (g : DcacheLog) (s : DcacheSys) : Prop where
  distinct : s.Distinct
  overlay : ∀ a, s.overlay a = replay m₀ g.stores a
  phase : s.PhaseInv g.held
  loaded : ∀ a, g.loaded = some a → s.dcache.dataSramRdata = replay m₀ g.stores a

/-- After reset no line is valid. -/
theorem dcacheInv_reset (m₀ : Memory) (bram : Bool → BitVec 4 → Bram) :
    DcacheInv m₀ .start ⟨.reset bram, m₀, .idle⟩ := by
  have invalid (t : BitVec 20) (way : Bool) (idx : BitVec 6) :
      (Dcache.reset bram).entry way idx ≠ validTag t := by
    intro h
    have hbit : ((Dcache.reset bram).entry way idx).getLsbD 20 = true := by
      rw [h, Dcache.getLsbD_validTag]
    simp [Dcache.entry, Dcache.reset] at hbit
  refine ⟨?_, ?_, trivial, ?_⟩
  · intro idx t h
    exact invalid t false idx (h false)
  · intro a
    exact DcacheSys.overlay_of_absent fun way => invalid a.tag way a.index
  · intro a h
    cases h

namespace DcacheInv

variable {m₀ : Memory} {g : DcacheLog} {s : DcacheSys} {i : DcacheSysIn}

/-- The request of this cycle is the one that is being held. -/
def Repeats (g : DcacheLog) (i : DcacheSysIn) : Prop :=
  ∀ q, g.held = some q → (i.dataSram, i.uncached) = q

theorem serves_request (hrep : Repeats g i) {raddr : Word} {q : DataSram}
    (hq : s.Serves g.held raddr q) : i.dataSram = q ∧ i.uncached = false := by
  have h := hrep _ hq.held
  exact ⟨congrArg Prod.fst h, congrArg Prod.snd h⟩

/-- A request that the memory side works on misses. -/
theorem miss_of_serves (hrep : Repeats g i) {raddr : Word} {q : DataSram}
    (hq : s.Serves g.held raddr q) : s.dcache.dcacheMiss (s.dcacheIn i) = true := by
  obtain ⟨hreq, hunc⟩ := serves_request hrep hq
  refine Dcache.miss_iff.mpr ⟨⟨hunc, ?_⟩, ?_⟩
  · change i.dataSram.en = true
    rw [hreq]
    exact hq.missing.en
  · intro way
    by_contra hhit
    have hent := (Dcache.hit_iff.mp (by simpa using hhit)).2
    change s.dcache.entry way (Cache.index i.dataSram.addr) = validTag (Cache.tag i.dataSram.addr)
      at hent
    rw [hreq] at hent
    exact hq.missing.absent way hent

/-- While a line is fetched, the request of the cycle is the one that it is fetched for. -/
theorem serves_of_fetch (h : DcacheInv m₀ g s) (hrep : Repeats g i) {raddr : Word}
    (hp : s.phase = .fetch raddr) :
    s.Serves g.held raddr i.dataSram ∧ i.uncached = false ∧ s.Clean i.dataSram := by
  have hphase := h.phase
  rw [DcacheSys.PhaseInv, hp] at hphase
  obtain ⟨q, hq, hclean⟩ := hphase
  obtain ⟨rfl, hunc⟩ := serves_request hrep hq
  exact ⟨hq, hunc, hclean⟩

/-- Unless a request misses, the memory side is idle. -/
theorem idle_of_not_miss (h : DcacheInv m₀ g s) (hrep : Repeats g i)
    (hm : s.dcache.dcacheMiss (s.dcacheIn i) = false) : s.phase = .idle := by
  have hserves {raddr : Word} {q : DataSram} (hq : s.Serves g.held raddr q) : False :=
    Bool.false_ne_true (hm.symm.trans (miss_of_serves hrep hq))
  cases hp : s.phase with
  | idle => rfl
  | capture raddr waddr =>
    have hphase := h.phase
    rw [DcacheSys.PhaseInv, hp] at hphase
    obtain ⟨q, hq, -⟩ := hphase
    exact (hserves hq).elim
  | fetch raddr => exact (hserves (h.serves_of_fetch hrep hp).1).elim

theorem not_refresh_of_idle (hp : s.phase = .idle) : (s.dcacheIn i).dcacheRefresh = false := by
  simp only [DcacheSys.dcacheIn, hp]

theorem step_of_idle (hp : s.phase = .idle) (hm : s.dcache.dcacheMiss (s.dcacheIn i) = false) :
    s.step i = ⟨s.dcache.step (s.dcacheIn i), s.mem, .idle⟩ := by
  unfold DcacheSys.step
  rw [hp, hm]
  simp

/-! ### A cycle that hits -/

/-- The stores after an access are the flat memory with the access done to it. -/
theorem replay_observe (hdone : s.completes i = true) :
    replay m₀ (g.observe s i).stores =
      Store.apply (replay m₀ g.stores)
        ⟨.ofAddr i.dataSram.addr, i.dataSram.we, i.dataSram.wdata⟩ := by
  by_cases hwe : i.dataSram.we = 0
  · have hs : (g.observe s i).stores = g.stores := by simp [DcacheLog.observe, hwe]
    rw [hs, Store.apply, hwe, ByteLanes.merge_zero, Function.update_eq_self]
  · have hs : (g.observe s i).stores =
        g.stores ++ [⟨.ofAddr i.dataSram.addr, i.dataSram.we, i.dataSram.wdata⟩] := by
      have hb : (i.dataSram.we != 0) = true := bne_iff_ne.mpr hwe
      simp only [DcacheLog.observe, hdone, hb, Bool.and_self, if_true]
    rw [hs, ByteLanes.replay_append]

theorem loaded_observe {a : WordAddr} (hload : (g.observe s i).loaded = some a) :
    i.dataSram.we = 0 ∧ WordAddr.ofAddr i.dataSram.addr = a := by
  simp only [DcacheLog.observe] at hload
  split_ifs at hload with hc
  simp only [Bool.and_eq_true, beq_iff_eq] at hc
  exact ⟨hc.2, Option.some.inj hload⟩

theorem completes_of_hit {w : Bool} (hw : s.dcache.dcacheHit (s.dcacheIn i) w = true) :
    s.completes i = true := by
  obtain ⟨⟨hunc, hen⟩, -⟩ := Dcache.hit_iff.mp hw
  have hunc' : i.uncached = false := hunc
  have hen' : i.dataSram.en = true := hen
  have hst : s.stallreq i = false := DcacheSys.not_miss_of_hit hw
  simp [DcacheSys.completes, hunc', hen', hst]

/-- A hit does to the overlay what it does to the flat memory. -/
theorem overlay_of_hit (hd : s.Distinct) (hp : s.phase = .idle) {w : Bool}
    (hw : s.dcache.dcacheHit (s.dcacheIn i) w = true) (a : WordAddr) :
    (s.step i).overlay a =
      Store.apply s.overlay ⟨.ofAddr i.dataSram.addr, i.dataSram.we, i.dataSram.wdata⟩ a := by
  have hm := DcacheSys.not_miss_of_hit hw
  have hr := not_refresh_of_idle (i := i) hp
  obtain ⟨-, hent⟩ := Dcache.hit_iff.mp hw
  have hentry := Dcache.entry_step_of_not_refresh (s := s.dcache) hr
  have hword := Dcache.word_step_of_hit hr hw (DcacheSys.other_not_hit hd hw)
  have hd' : (s.step i).Distinct := hd.congr hentry
  rw [step_of_idle hp hm] at hd' ⊢
  by_cases ha : a = .ofAddr i.dataSram.addr
  · subst ha
    have hent' : (s.dcache.step (s.dcacheIn i)).entry w (Cache.index i.dataSram.addr) =
        validTag (Cache.tag i.dataSram.addr) := (hentry _ _).trans hent
    rw [Store.apply, Function.update_self,
      DcacheSys.overlay_of_present (a := .ofAddr i.dataSram.addr) hd hent,
      DcacheSys.overlay_of_present (a := .ofAddr i.dataSram.addr) hd' hent']
    exact (hword _ _ _).trans (if_pos ⟨rfl, rfl, rfl⟩)
  · -- The other words of the line, and the other lines, stay.
    rw [Store.apply, Function.update_of_ne ha]
    refine DcacheSys.overlay_congr hd hd' (fun way => by rw [← hentry]) ?_ (fun _ => rfl)
    intro way hpres
    refine (hword _ _ _).trans (if_neg ?_)
    rintro ⟨rfl, hidx, hbank⟩
    apply ha
    have hent' : s.dcache.entry way a.index = validTag (Cache.tag i.dataSram.addr) := by
      rw [hidx]
      exact hent
    have htag := Dcache.validTag_inj (hpres.symm.trans hent')
    cases a
    exact (WordAddr.mk.injEq ..).mpr ⟨htag, hidx, hbank⟩

/-- A cycle that hits keeps the invariant. -/
theorem step_hit (h : DcacheInv m₀ g s) (hrep : Repeats g i) {w : Bool}
    (hw : s.dcache.dcacheHit (s.dcacheIn i) w = true) :
    DcacheInv m₀ (g.observe s i) (s.step i) := by
  have hm := DcacheSys.not_miss_of_hit hw
  have hp := h.idle_of_not_miss hrep hm
  have hr := not_refresh_of_idle (i := i) hp
  have hdone := completes_of_hit hw
  have hflat : s.overlay = replay m₀ g.stores := funext h.overlay
  refine ⟨h.distinct.congr (Dcache.entry_step_of_not_refresh (s := s.dcache) hr), ?_, ?_, ?_⟩
  · intro a
    rw [overlay_of_hit h.distinct hp hw, replay_observe hdone, hflat]
  · rw [step_of_idle hp hm]
    trivial
  · intro a hload
    obtain ⟨hwe, rfl⟩ := loaded_observe hload
    have hover : s.overlay (.ofAddr i.dataSram.addr) =
        s.dcache.word w (Cache.index i.dataSram.addr) (Cache.bank i.dataSram.addr) :=
      DcacheSys.overlay_of_present (a := .ofAddr i.dataSram.addr) h.distinct
        (Dcache.hit_iff.mp hw).2
    rw [replay_observe hdone, Store.apply, Function.update_self, ← h.overlay, hover,
      step_of_idle hp hm]
    exact Dcache.dataSramRdata_step hr hw (DcacheSys.other_not_hit h.distinct hw)

/-! ### A cycle without a cached access -/

theorem step_none (h : DcacheInv m₀ g s) (hrep : Repeats g i)
    (hm : s.dcache.dcacheMiss (s.dcacheIn i) = false)
    (hh : ∀ way, s.dcache.dcacheHit (s.dcacheIn i) way = false) :
    DcacheInv m₀ (g.observe s i) (s.step i) := by
  have hp := h.idle_of_not_miss hrep hm
  have hr := not_refresh_of_idle (i := i) hp
  have hstep := step_of_idle (i := i) hp hm
  have hdone : s.completes i = false := by
    by_contra hdone
    simp only [DcacheSys.completes, Bool.not_eq_false, Bool.and_eq_true, Bool.not_eq_true'] at hdone
    have := Dcache.miss_iff.mpr ⟨⟨hdone.1.2, hdone.1.1⟩, hh⟩
    rw [hm] at this
    cases this
  have hentry := Dcache.entry_step_of_not_refresh (s := s.dcache) hr
  have hword := Dcache.word_step_of_no_hit hr hh
  have hd' : (s.step i).Distinct := h.distinct.congr hentry
  rw [hstep] at hd' ⊢
  refine ⟨hd', ?_, trivial, ?_⟩
  · intro a
    have hs : (g.observe s i).stores = g.stores := by simp [DcacheLog.observe, hdone]
    rw [hs, ← h.overlay]
    exact DcacheSys.overlay_congr h.distinct hd' (fun way => by rw [← hentry])
      (fun way _ => hword _ _ _) (fun _ => rfl)
  · intro a hload
    simp [DcacheLog.observe, hdone] at hload

/-! ### A cycle that misses -/

/-- What the log says after a stalled cycle. -/
theorem observe_of_miss (hm : s.dcache.dcacheMiss (s.dcacheIn i) = true) :
    g.observe s i = ⟨some (i.dataSram, false), g.stores, none⟩ := by
  have hst : s.stallreq i = true := hm
  have hunc : i.uncached = false := (Dcache.miss_iff.mp hm).1.1
  simp [DcacheLog.observe, DcacheSys.completes, hst, hunc]

/-- A miss without a refresh leaves the cache as it is. -/
theorem miss_keeps (h : DcacheInv m₀ g s) (hm : s.dcache.dcacheMiss (s.dcacheIn i) = true)
    (hr : (s.dcacheIn i).dcacheRefresh = false)
    (hmem : ∀ a, (∀ way, s.dcache.entry way a.index ≠ validTag a.tag) → (s.step i).mem a = s.mem a)
    (hphase : (s.step i).PhaseInv (some (i.dataSram, false))) :
    DcacheInv m₀ (g.observe s i) (s.step i) := by
  have hh := (Dcache.miss_iff.mp hm).2
  have hentry := Dcache.entry_step_of_not_refresh (s := s.dcache) hr
  have hword := Dcache.word_step_of_no_hit hr hh
  rw [observe_of_miss hm]
  have hd' : (s.step i).Distinct := h.distinct.congr hentry
  refine ⟨hd', ?_, hphase, ?_⟩
  · intro a
    rw [← h.overlay]
    exact DcacheSys.overlay_congr h.distinct hd' (fun way => by rw [← hentry]; rfl)
      (fun way _ => hword _ _ _) (hmem a)
  · intro a hload
    cases hload

/-- A request that misses without a refresh misses again. -/
theorem missing_step (hm : s.dcache.dcacheMiss (s.dcacheIn i) = true)
    (hr : (s.dcacheIn i).dcacheRefresh = false) : (s.step i).Missing i.dataSram := by
  obtain ⟨⟨hunc, hen⟩, hh⟩ := Dcache.miss_iff.mp hm
  refine ⟨hen, fun way hent => ?_⟩
  have hent' : s.dcache.entry way (Cache.index i.dataSram.addr) =
      validTag (Cache.tag i.dataSram.addr) := by
    rw [← Dcache.entry_step_of_not_refresh (s := s.dcache) hr]
    exact hent
  have := Dcache.hit_iff.mpr ⟨⟨hunc, hen⟩, hent'⟩
  rw [hh way] at this
  cases this

section Victim

variable (hm : s.dcache.dcacheMiss (s.dcacheIn i) = true)
  (hr : (s.dcacheIn i).dcacheRefresh = false)

include hm hr

theorem victim_step : (s.step i).victim i.dataSram = s.victim i.dataSram :=
  Dcache.lruR_step hr (Dcache.miss_iff.mp hm).2 _

/-- The line to be replaced stays in the cache while the request waits. -/
theorem victim_entry_step :
    (s.step i).dcache.entry ((s.step i).victim i.dataSram) (Cache.index i.dataSram.addr) =
      s.dcache.entry (s.victim i.dataSram) (Cache.index i.dataSram.addr) := by
  rw [victim_step hm hr]
  exact Dcache.entry_step_of_not_refresh hr _ _

theorem victim_word_step (b : BitVec 4) :
    (s.step i).dcache.word ((s.step i).victim i.dataSram) (Cache.index i.dataSram.addr) b =
      s.dcache.word (s.victim i.dataSram) (Cache.index i.dataSram.addr) b := by
  rw [victim_step hm hr]
  exact Dcache.word_step_of_no_hit hr (Dcache.miss_iff.mp hm).2 _ _ _

end Victim

/-- A miss while the memory side is idle. -/
theorem step_miss_idle (h : DcacheInv m₀ g s) (hm : s.dcache.dcacheMiss (s.dcacheIn i) = true)
    (hp : s.phase = .idle) : DcacheInv m₀ (g.observe s i) (s.step i) := by
  have hr := not_refresh_of_idle (i := i) hp
  obtain ⟨⟨hunc, hen⟩, hh⟩ := Dcache.miss_iff.mp hm
  have hserves : (s.step i).Serves (some (i.dataSram, false))
      (Dcache.dcacheRaddr (s.dcacheIn i)) i.dataSram :=
    ⟨rfl, missing_step hm hr, Dcache.tag_dcacheRaddr hunc, Dcache.index_dcacheRaddr hunc⟩
  refine h.miss_keeps hm hr ?_ ?_
  · intro a _
    simp only [DcacheSys.step, hp]
  unfold DcacheSys.PhaseInv
  by_cases hacc : i.accept = true
  · by_cases hwb : s.dcache.dcacheWriteBack (s.dcacheIn i) = true
    · have hphase : (s.step i).phase =
          .capture (Dcache.dcacheRaddr (s.dcacheIn i)) (s.dcache.dcacheWaddr (s.dcacheIn i)) := by
        simp [DcacheSys.step, hp, hacc, hm, hwb]
      rw [hphase]
      refine ⟨i.dataSram, hserves, Dcache.index_dcacheWaddr, ?_, ?_⟩
      · have hvalid := hwb
        rw [Dcache.writeBack_of_miss hm] at hvalid
        rw [victim_entry_step hm hr, Dcache.tag_dcacheWaddr]
        exact Dcache.eq_validTag hvalid
      · refine (Dcache.cachelineOld_step hr hwb).trans ?_
        funext b
        exact (victim_word_step hm hr b).symm
    · have hphase : (s.step i).phase = .fetch (Dcache.dcacheRaddr (s.dcacheIn i)) := by
        simp [DcacheSys.step, hp, hacc, hm, hwb]
      rw [hphase]
      refine ⟨i.dataSram, hserves, ?_⟩
      -- A valid victim would have been written back.
      intro t ht
      exfalso
      apply hwb
      rw [victim_entry_step hm hr] at ht
      rw [Dcache.writeBack_of_miss hm]
      change (s.dcache.entry (s.victim i.dataSram) (Cache.index i.dataSram.addr)).getLsbD 20 = true
      rw [ht, Dcache.getLsbD_validTag]
  · have hphase : (s.step i).phase = .idle := by
      simp [DcacheSys.step, hp, hacc]
    rw [hphase]
    trivial

/-- The victim's line goes to the memory. -/
theorem step_capture (h : DcacheInv m₀ g s) (hrep : Repeats g i) {raddr waddr : Word}
    (hp : s.phase = .capture raddr waddr) : DcacheInv m₀ (g.observe s i) (s.step i) := by
  have hphase := h.phase
  rw [DcacheSys.PhaseInv, hp] at hphase
  obtain ⟨q, hq, hidx, hvalid, hold⟩ := hphase
  have hm := miss_of_serves hrep hq
  obtain ⟨rfl, hunc⟩ := serves_request hrep hq
  have hr : (s.dcacheIn i).dcacheRefresh = false := by simp only [DcacheSys.dcacheIn, hp]
  have hmem : (s.step i).mem = s.mem.storeLine waddr s.dcache.dcacheCachelineOld := by
    simp only [DcacheSys.step, hp]
  refine h.miss_keeps hm hr ?_ ?_
  · -- The line that is written back is in the cache.
    intro a habs
    rw [hmem, Memory.storeLine, if_neg]
    rintro ⟨htag, hindex⟩
    apply habs (s.victim i.dataSram)
    rw [hindex, htag, hidx]
    exact hvalid
  · have hnext : (s.step i).phase = .fetch raddr := by simp only [DcacheSys.step, hp]
    unfold DcacheSys.PhaseInv
    rw [hnext]
    refine ⟨i.dataSram, ⟨rfl, missing_step hm hr, hq.tag, hq.index⟩, ?_⟩
    intro t ht b
    rw [victim_entry_step hm hr] at ht
    have htag : t = Cache.tag waddr := Dcache.validTag_inj (ht.symm.trans hvalid)
    rw [hmem, Memory.storeLine, if_pos ⟨htag, hidx.symm⟩, hold, victim_word_step hm hr]

/-- The line has not come back yet. -/
theorem step_fetch (h : DcacheInv m₀ g s) (hrep : Repeats g i) {raddr : Word}
    (hp : s.phase = .fetch raddr) (hreply : i.reply = false) :
    DcacheInv m₀ (g.observe s i) (s.step i) := by
  obtain ⟨hq, hunc, hclean⟩ := h.serves_of_fetch hrep hp
  have hm := miss_of_serves hrep hq
  have hr : (s.dcacheIn i).dcacheRefresh = false := by simp only [DcacheSys.dcacheIn, hp, hreply]
  have hmem : (s.step i).mem = s.mem := by simp only [DcacheSys.step, hp]
  refine h.miss_keeps hm hr (fun a _ => by rw [hmem]) ?_
  have hnext : (s.step i).phase = .fetch raddr := by simp [DcacheSys.step, hp, hreply]
  unfold DcacheSys.PhaseInv
  rw [hnext]
  refine ⟨i.dataSram, ⟨rfl, missing_step hm hr, hq.tag, hq.index⟩, ?_⟩
  intro t ht b
  rw [victim_entry_step hm hr] at ht
  rw [hmem, hclean t ht b, victim_word_step hm hr]

/-! ### A refresh -/

/-- After a refresh the line of the request is in the way that was the victim. -/
theorem entry_of_refresh (hunc : i.uncached = false) (hr : (s.dcacheIn i).dcacheRefresh = true)
    (way : Bool) (idx : BitVec 6) : (s.step i).dcache.entry way idx =
      if s.victim i.dataSram = way ∧ idx = Cache.index i.dataSram.addr then
        validTag (Cache.tag i.dataSram.addr)
      else s.dcache.entry way idx := by
  refine (Dcache.entry_step way idx).trans ?_
  have hunc' : (s.dcacheIn i).dcacheUncached = false := hunc
  rw [hr, hunc']
  refine if_congr ?_ rfl rfl
  exact ⟨fun hx => hx.2, fun hx => ⟨rfl, hx⟩⟩

/-- A line that comes in is in neither way before. -/
theorem distinct_of_missing (hm : s.Missing i.dataSram) (hunc : i.uncached = false)
    (hd : s.Distinct) : (s.step i).Distinct := by
  refine CacheTag.Distinct.step (i := Dcache.tagIn (s.dcacheIn i)) hd fun _ => ?_
  have hcached : (Dcache.tagIn (s.dcacheIn i)).cached = true := by
    show (!i.uncached) = true
    rw [hunc]
    rfl
  exact CacheTag.miss_iff.mpr ⟨⟨rfl, hcached, hm.en⟩, hm.absent⟩

section Refresh

variable {raddr : Word} (hq : s.Serves g.held raddr i.dataSram) (hp : s.phase = .fetch raddr)
  (hunc : i.uncached = false) (hr : (s.dcacheIn i).dcacheRefresh = true)

include hunc hr

/-- The line that goes out is in neither way afterwards. -/
theorem absent_of_refresh (hd : s.Distinct) {a : WordAddr}
    (hidx : a.index = Cache.index i.dataSram.addr) (htag : a.tag ≠ Cache.tag i.dataSram.addr)
    (hvict : s.dcache.entry (s.victim i.dataSram) a.index = validTag a.tag) (way : Bool) :
    (s.step i).dcache.entry way a.index ≠ validTag a.tag := by
  intro hx
  rw [entry_of_refresh hunc hr] at hx
  split_ifs at hx with hway
  · exact htag (Dcache.validTag_inj hx).symm
  · exact hway ⟨CacheTag.Distinct.way_eq hd hvict hx, hidx⟩

include hq hp

/-- The words of the memory's line replace those of the victim. -/
theorem word_of_refresh (way : Bool) (idx : BitVec 6) (b : BitVec 4) :
    (s.step i).dcache.word way idx b =
      if s.victim i.dataSram = way ∧ idx = Cache.index i.dataSram.addr then
        s.mem ⟨Cache.tag i.dataSram.addr, Cache.index i.dataSram.addr, b⟩
      else s.dcache.word way idx b := by
  refine (Dcache.word_step_of_refresh hr hunc way idx b).trans ?_
  refine if_congr Iff.rfl ?_ rfl
  simp only [DcacheSys.dcacheIn, hp, Memory.line, hq.tag, hq.index]

/-- Seen from the pipeline a refresh changes nothing. -/
theorem overlay_of_refresh (hd : s.Distinct) (hclean : s.Clean i.dataSram) (a : WordAddr) :
    (s.step i).overlay a = s.overlay a := by
  have hmem : (s.step i).mem = s.mem := by simp only [DcacheSys.step, hp]
  have hentry := entry_of_refresh hunc hr
  have hword := word_of_refresh hq hp hunc hr
  have hd' := distinct_of_missing hq.missing hunc hd
  by_cases hin : a.index = Cache.index i.dataSram.addr ∧ a.tag = Cache.tag i.dataSram.addr
  · -- The line that comes in: it was not in the cache before.
    obtain ⟨hidx, htag⟩ := hin
    have hnew : (s.step i).dcache.entry (s.victim i.dataSram) a.index = validTag a.tag := by
      rw [hentry, if_pos ⟨rfl, hidx⟩, htag]
    have hold : ∀ way, s.dcache.entry way a.index ≠ validTag a.tag := by
      rw [hidx, htag]
      exact hq.missing.absent
    rw [DcacheSys.overlay_of_present hd' hnew, DcacheSys.overlay_of_absent hold, hword,
      if_pos ⟨rfl, hidx⟩, ← htag, ← hidx]
  by_cases hout : a.index = Cache.index i.dataSram.addr ∧
      s.dcache.entry (s.victim i.dataSram) a.index = validTag a.tag
  · -- The line that goes out: the memory has it.
    obtain ⟨hidx, hvict⟩ := hout
    have habs := absent_of_refresh hunc hr hd hidx (fun htag => hin ⟨hidx, htag⟩) hvict
    rw [DcacheSys.overlay_of_absent habs, DcacheSys.overlay_of_present hd hvict, hmem]
    rw [hidx] at hvict
    have hc := hclean a.tag hvict a.bank
    rw [hidx, ← hc, ← hidx]
  · -- Any other line stays where it is.
    refine DcacheSys.overlay_congr hd hd' ?_ ?_ (fun _ => by rw [hmem])
    · intro way
      rw [hentry]
      split_ifs with hx
      · obtain ⟨rfl, hidx⟩ := hx
        constructor
        · exact fun he => absurd ⟨hidx, (Dcache.validTag_inj he).symm⟩ hin
        · exact fun he => absurd ⟨hidx, he⟩ hout
      · rfl
    · intro way hpres
      rw [hword, if_neg]
      rintro ⟨rfl, hidx⟩
      exact hout ⟨hidx, hpres⟩

end Refresh

theorem step_refresh (h : DcacheInv m₀ g s) (hrep : Repeats g i) {raddr : Word}
    (hp : s.phase = .fetch raddr) (hreply : i.reply = true) :
    DcacheInv m₀ (g.observe s i) (s.step i) := by
  obtain ⟨hq, hunc, hclean⟩ := h.serves_of_fetch hrep hp
  have hm := miss_of_serves hrep hq
  have hr : (s.dcacheIn i).dcacheRefresh = true := by simp only [DcacheSys.dcacheIn, hp, hreply]
  rw [observe_of_miss hm]
  refine ⟨distinct_of_missing hq.missing hunc h.distinct, fun a => ?_, ?_, ?_⟩
  · rw [overlay_of_refresh hq hp hunc hr h.distinct hclean, h.overlay]
  · have hnext : (s.step i).phase = .idle := by simp [DcacheSys.step, hp, hreply]
    unfold DcacheSys.PhaseInv
    rw [hnext]
    trivial
  · intro a hload
    cases hload

/-- Every cycle keeps the invariant. -/
theorem step (h : DcacheInv m₀ g s) (hrep : Repeats g i) :
    DcacheInv m₀ (g.observe s i) (s.step i) := by
  by_cases hm : s.dcache.dcacheMiss (s.dcacheIn i) = true
  · cases hp : s.phase with
    | idle => exact h.step_miss_idle hm hp
    | capture raddr waddr => exact h.step_capture hrep hp
    | fetch raddr =>
      cases hreply : i.reply with
      | false => exact h.step_fetch hrep hp hreply
      | true => exact h.step_refresh hrep hp hreply
  · have hm' : s.dcache.dcacheMiss (s.dcacheIn i) = false := by simpa using hm
    by_cases hh : ∃ w, s.dcache.dcacheHit (s.dcacheIn i) w = true
    · obtain ⟨w, hw⟩ := hh
      exact h.step_hit hrep hw
    · exact h.step_none hrep hm' fun way => by
        by_contra hway
        exact hh ⟨way, by simpa using hway⟩

end DcacheInv

/-! ## Runs -/

namespace DcacheRun

variable {r : DcacheRun} {n : ℕ}

theorem repeats (holds : ∀ k < n, r.Holds k) : ∀ k < n, DcacheInv.Repeats (r.log k) (r.inp k) := by
  intro k hk q hq
  cases k with
  | zero => cases hq
  | succ k =>
    have hlog : (r.log (k + 1)).held =
        if (r.sys k).stallreq (r.inp k) then some ((r.inp k).dataSram, (r.inp k).uncached)
        else none := rfl
    rw [hlog] at hq
    split_ifs at hq with hst
    obtain ⟨hreq, hunc⟩ := holds k (by omega) hst
    rw [hreq, hunc]
    exact Option.some.inj hq

theorem dcacheInv (holds : ∀ k < n, r.Holds k) : DcacheInv r.mem (r.log n) (r.sys n) := by
  refine Clocked.ghost_invariant (P := DcacheInv r.mem) (A := fun g _ i => DcacheInv.Repeats g i)
    ?_ ?_ n ?_
  · exact dcacheInv_reset r.mem r.bram
  · exact fun _ _ _ h hrep => h.step hrep
  · exact repeats holds

/-- After a refresh the request is done in the next cycle. -/
theorem completes_of_refresh (holds : ∀ k < n + 1, r.Holds k)
    (hr : (r.sys n).refresh (r.inp n) = true) :
    (r.sys (n + 1)).completes (r.inp (n + 1)) = true := by
  have hinv := dcacheInv (r := r) (n := n) fun k hk => holds k (by omega)
  have hrep := repeats holds n (by omega)
  obtain ⟨raddr, hp⟩ : ∃ raddr, (r.sys n).phase = .fetch raddr := by
    cases hp : (r.sys n).phase with
    | fetch raddr => exact ⟨raddr, rfl⟩
    | idle => simp [DcacheSys.refresh, DcacheSys.dcacheIn, hp] at hr
    | capture raddr waddr => simp [DcacheSys.refresh, DcacheSys.dcacheIn, hp] at hr
  obtain ⟨hq, hunc, -⟩ := hinv.serves_of_fetch hrep hp
  have hm := DcacheInv.miss_of_serves hrep hq
  obtain ⟨hreq', hunc'⟩ := holds n (by omega) hm
  have hen : (r.inp n).dataSram.en = true := (Dcache.miss_iff.mp hm).1.2
  have hent := DcacheInv.entry_of_refresh hunc hr ((r.sys n).victim (r.inp n).dataSram)
    (Cache.index (r.inp n).dataSram.addr)
  rw [if_pos ⟨rfl, rfl⟩] at hent
  have hhit : (r.sys (n + 1)).dcache.dcacheHit ((r.sys (n + 1)).dcacheIn (r.inp (n + 1)))
      ((r.sys n).victim (r.inp n).dataSram) = true := by
    refine Dcache.hit_iff.mpr ⟨⟨?_, ?_⟩, ?_⟩
    · exact hunc'.trans hunc
    · change (r.inp (n + 1)).dataSram.en = true
      rw [hreq', hen]
    · change (r.sys (n + 1)).dcache.entry _ (Cache.index (r.inp (n + 1)).dataSram.addr) =
        validTag (Cache.tag (r.inp (n + 1)).dataSram.addr)
      rw [hreq']
      exact hent
  have hst : (r.sys (n + 1)).stallreq (r.inp (n + 1)) = false := DcacheSys.not_miss_of_hit hhit
  simp [DcacheSys.completes, hreq', hunc', hunc, hen, hst]

/-- In every run: a load returns in every byte what the last store to it wrote, or what the memory
held in the beginning; so does the memory overlaid with the valid lines; no set holds a valid tag
twice; and a request that has waited for its line is done in the cycle after the refresh. -/
theorem dcache_coherent (r : DcacheRun) (n : ℕ) (holds : ∀ k < n, r.Holds k) :
    (∀ a, (r.log n).loaded = some a →
        ∀ lane, byte (r.sys n).dcache.dataSramRdata lane = lastByte r.mem (r.log n).stores a lane) ∧
      (∀ a lane, byte ((r.sys n).overlay a) lane = lastByte r.mem (r.log n).stores a lane) ∧
      (r.sys n).Distinct ∧ (∀ k < n, (r.sys k).refresh (r.inp k) = true →
        (r.sys (k + 1)).completes (r.inp (k + 1)) = true) := by
  have hinv := dcacheInv holds
  refine ⟨?_, ?_, hinv.distinct, ?_⟩
  · intro a ha lane
    rw [hinv.loaded a ha, ByteLanes.byte_replay]
  · intro a lane
    rw [hinv.overlay, ByteLanes.byte_replay]
  · exact fun k hk hr => completes_of_refresh (fun j hj => holds j (by omega)) hr

/-- Stores to two lines of set 1, a load from a third and a load from the first; everything is
answered at once. The third line replaces the first, which is written back and fetched again. -/
def thrash : DcacheRun where
  mem := fun a => if a = ⟨2, 1, 0⟩ then 0x33333333 else 0
  bram := fun _ _ => ⟨fun _ => 0, 0⟩
  inp n := ⟨if n < 3 then ⟨true, 0b1111, 0x00000040, 0x11111111⟩
    else if n < 6 then ⟨true, 0b0011, 0x00001040, 0x22222222⟩
    else if n < 10 then ⟨true, 0, 0x00002040, 0⟩
    else ⟨true, 0, 0x00000040, 0⟩, false, true, true⟩

instance (r : DcacheRun) (k : ℕ) : Decidable (r.Holds k) := inferInstanceAs (Decidable (_ → _))

theorem dcache_coherent_thrash :
    (∀ k < 14, thrash.Holds k) ∧ (thrash.log 14).loaded = some ⟨0, 1, 0⟩ ∧
    (thrash.sys 7).phase = .capture 0x00002040 0x00000040 ∧
    (thrash.sys 14).dcache.dataSramRdata = 0x11111111 ∧
    ∀ lane, byte (thrash.sys 14).dcache.dataSramRdata lane =
      lastByte thrash.mem (thrash.log 14).stores ⟨0, 1, 0⟩ lane := by
  have hholds : ∀ k < 14, thrash.Holds k := by decide +kernel
  have hload : (thrash.log 14).loaded = some ⟨0, 1, 0⟩ := by decide +kernel
  exact ⟨hholds, hload, by decide +kernel, by decide +kernel,
    (dcache_coherent thrash 14 hholds).1 _ hload⟩

end DcacheRun

end NeulaCpu.Rtl
