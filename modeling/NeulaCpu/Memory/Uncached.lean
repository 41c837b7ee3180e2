import NeulaCpu.Rtl.Top
import NeulaCpu.Pipeline.Cancel

/-!
# Uncached accesses

An uncached load or store waits in `dt_stage` while `uncache` turns it into a bus request. The logs
of this module record the requests issued on the bus and the accesses that left `dt_stage`;
exactly-once delivery says that the first log is the second one, up to the access still held in
`dt_stage`.

`uncache` knows that an access is done for one cycle only: a load in the cycle in which `valid` is
set, a store in the cycle in which it is issued. If the pipeline is held in that cycle by somebody
else, the access is still in `dt_stage` afterwards and is issued again.
-/

namespace NeulaCpu.Rtl

/-! ## Logs -/

/-- What has happened on the uncached port so far. -/
structure Traffic where
  issued : List Access
  passed : List Access
  acks : ℕ
deriving DecidableEq, Repr

namespace Top

/-- The request that this clock edge puts on the bus: `axi_en` rises. -/
def issues (s : Top) (i : TopIn) : List Access :=
  if !s.uncache.axiEn && (s.step i).uncache.axiEn then [(s.step i).uncache.axi] else []

/-- The uncached access that leaves `dt_stage` for `mem1_stage` with this clock edge. -/
def passes (s : Top) (i : TopIn) : List Access :=
  let c := s.core.ctrl (s.coreIn i)
  if s.confEn && !c.flush && !c.stall.getLsbD 3 then [s.conf] else []

def observe (t : Traffic) (s : Top) (i : TopIn) : Traffic where
  issued := t.issued ++ s.issues i
  passed := t.passed ++ s.passes i
  acks := t.acks + if i.uncacheRefresh then 1 else 0

/-- Exactly-once delivery in program order. Every access that left `dt_stage` was issued once; the
only request ahead of them is the one of the access that `dt_stage` still holds; every request but
the one under way has been acknowledged, and the one under way is the last one issued. -/
structure ExactlyOnce (t : Traffic) (s : Top) : Prop where
  issued : t.issued = t.passed ∨ s.confEn = true ∧ t.issued = t.passed ++ [s.conf]
  acks : t.acks + (if s.uncache.axiEn then 1 else 0) = t.issued.length
  current : s.uncache.axiEn = true → t.issued.getLast? = some s.uncache.axi

/-- The AXI side acknowledges only a request that is there. -/
def AcksRequest (s : Top) (i : TopIn) : Prop :=
  i.uncacheRefresh = true → s.uncache.axiEn = true

/-- When `uncache` lets the access in `dt_stage` go, nobody else holds the pipeline. -/
def Undisturbed (s : Top) (i : TopIn) : Prop :=
  s.confEn = true → s.stallreqUncache = false →
    i.stallreqIcache = false ∧ i.stallreqDcache = false ∧ s.core.stallreqEs = false

instance (s : Top) (i : TopIn) : Decidable (s.AcksRequest i) :=
  inferInstanceAs (Decidable (_ → _))

instance (s : Top) (i : TopIn) : Decidable (s.Undisturbed i) :=
  inferInstanceAs (Decidable (_ → _ → _))

end Top

/-- A run of the processor top from reset. -/
structure TopRun where
  instBuffer : Word
  dataBuffer : Word
  csrLatch : Word
  cachedR : Bool
  inp : ℕ → TopIn

namespace TopRun

def start (r : TopRun) : Top := .reset r.instBuffer r.dataBuffer r.csrLatch r.cachedR

/-- The processor after `n` clock edges. -/
def top (r : TopRun) (n : ℕ) : Top := Clocked.run Top.step r.start r.inp n

/-- The logs after `n` clock edges. -/
def traffic (r : TopRun) (n : ℕ) : Traffic :=
  Clocked.ghost Top.step Top.observe r.start ⟨[], [], 0⟩ r.inp n

end TopRun

/-! ## One cycle -/

namespace Top

variable {s : Top} {i : TopIn}

theorem passes_eq (s : Top) (i : TopIn) : s.passes i = match s.core.move (s.coreIn i) with
    | .hold | .flush => []
    | .bubble | .go => if s.confEn then [s.conf] else [] := by
  simp only [passes, Core.ctrl_eq]
  cases s.core.move (s.coreIn i) <;> simp [Move.ctrl]

theorem step_core (s : Top) (i : TopIn) : (s.step i).core = s.core.step (s.coreIn i) := rfl

/-- A held `dt_stage` presents the same access in the next cycle. -/
theorem step_conf_of_hold (h : s.core.move (s.coreIn i) = .hold) :
    (s.step i).confEn = s.confEn ∧ (s.step i).conf = s.conf := by
  have hdt : (s.step i).core.dt = s.core.dt := by
    rw [step_core, Core.step_dt, h]
  simp only [confEn, conf, dcacheCached, Core.dataSram, hdt, and_self]

/-- While `uncache` asks for a stall the pipeline is held. -/
theorem move_of_stallreqUncache (h : s.stallreqUncache = true) :
    s.core.move (s.coreIn i) = .hold := by
  rw [Core.move_eq_hold]
  left
  simp [CoreIn.stallreqCache, coreIn, h]

/-- An access that `uncache` lets go, undisturbed, leaves `dt_stage`. -/
theorem passes_of_undisturbed (hc : s.core.CancelInv) (hu : s.Undisturbed i)
    (hen : s.confEn = true) (hs : s.stallreqUncache = false) : s.passes i = [s.conf] := by
  obtain ⟨hi, hd, he⟩ := hu hen hs
  have hcache : (s.coreIn i).stallreqCache = false := by
    simp [CoreIn.stallreqCache, coreIn, hi, hd, hs]
  -- The access is not in the shadow of an exception, so no flush takes it away.
  have hexc : s.core.exceptEn = false := by
    apply hc.en_ms2
    simp only [confEn, Bool.and_eq_true] at hen
    exact hen.1
  rw [passes_eq]
  unfold Core.move
  cases hf : s.core.stallreqForward <;> simp [hcache, hexc, he, hen]

theorem passes_of_not_confEn (h : s.confEn = false) : s.passes i = [] := by
  simp [passes, h]

end Top

/-! ## The state machine, state by state -/

namespace Uncache

variable {u : Uncache} {confEn : Bool} {conf : Access} (rdata : Word)

section

variable (hst : u.stage = .idle) (hfin : u.finish = false)

include hst hfin

theorem step_idle_of_valid (hval : u.valid = true) :
    u.step confEn conf false rdata = { u with valid := false } := by
  simp [step, fsm, confRdReq, confWrReq, hst, hfin, hval]

theorem step_idle_of_none : u.step false conf false rdata = { u with valid := false } := by
  simp [step, fsm, confRdReq, confWrReq, hst, hfin]

theorem step_idle_of_load (hbv : u.bufferValid = false) (hval : u.valid = false)
    (hwe : conf.we = 0#4) : u.step true conf false rdata =
      { u with valid := false, axiEn := true, axi := conf, stage := .wait } := by
  simp [step, fsm, confRdReq, hst, hfin, hbv, hval, hwe]

theorem step_idle_of_store (hbv : u.bufferValid = false) (hval : u.valid = false)
    (hwe : ¬ conf.we = 0#4) : u.step true conf false rdata =
      { u with
        valid := false, axiEn := true, axi := conf, bufferValid := true, stage := .buffer } := by
  simp [step, fsm, confRdReq, confWrReq, hst, hfin, hbv, hval, hwe]

end

theorem step_buffer (hst : u.stage = .buffer) (hfin : u.finish = false) (reload : Bool) :
    u.step confEn conf reload rdata =
      if reload then
        { u with
          valid := false
          bufferValid := false
          axiEn := false
          axi := ⟨0, 0, 0⟩
          stage := .idle
          confRdata := rdata }
      else { u with valid := false } := by
  cases reload <;> simp [step, fsm, hst, hfin]

theorem step_wait_of_reload (hst : u.stage = .wait) (hfin : u.finish = false) :
    u.step confEn conf true rdata =
      { u with
        valid := false
        axiEn := false
        axi := ⟨0, 0, 0⟩
        finish := true
        confRdata := rdata } := by
  simp [step, fsm, hst, hfin]

theorem step_wait_of_finish (hst : u.stage = .wait) (hfin : u.finish = true) :
      u.step confEn conf false rdata =
        { u with valid := true, finish := false, stage := .idle } := by
  simp [step, fsm, hst, hfin]

theorem step_wait_of_pending (hst : u.stage = .wait) (hfin : u.finish = false) :
    u.step confEn conf false rdata = { u with valid := false } := by
  simp [step, fsm, hst, hfin]

end Uncache

/-! ## The invariant -/

namespace Top

variable {s : Top} {i : TopIn} {t : Traffic}

/-- `IDLE`: everything issued has left, but for a load whose `valid` cycle this is. -/
structure IdleInv (t : Traffic) (s : Top) : Prop where
  axiEn : s.uncache.axiEn = false
  bufferValid : s.uncache.bufferValid = false
  finish : s.uncache.finish = false
  acks : t.acks = t.issued.length
  none_ahead : s.uncache.valid = false → t.issued = t.passed
  one_ahead : s.uncache.valid = true → s.confEn = true ∧ t.issued = t.passed ++ [s.conf]

/-- `BUFFER`: the last access that left is a store under way. -/
structure BufferInv (t : Traffic) (s : Top) : Prop where
  axiEn : s.uncache.axiEn = true
  bufferValid : s.uncache.bufferValid = true
  finish : s.uncache.finish = false
  valid : s.uncache.valid = false
  acks : t.acks + 1 = t.issued.length
  issued : t.issued = t.passed
  current : t.issued.getLast? = some s.uncache.axi

/-- `WAIT`: the load in `dt_stage` is under way, or acknowledged when `finish` is set. -/
structure WaitInv (t : Traffic) (s : Top) : Prop where
  axiEn : s.uncache.axiEn = !s.uncache.finish
  bufferValid : s.uncache.bufferValid = false
  valid : s.uncache.valid = false
  acks : t.acks + (if s.uncache.finish then 0 else 1) = t.issued.length
  confEn : s.confEn = true
  issued : t.issued = t.passed ++ [s.conf]
  current : s.uncache.finish = false → s.uncache.axi = s.conf

/-- What the logs are in each state of `uncache`. -/
def UncacheInv (t : Traffic) (s : Top) : Prop :=
  match s.uncache.stage with
  | .idle => IdleInv t s
  | .buffer => BufferInv t s
  | .wait => WaitInv t s

theorem uncacheInv_reset (a b c : Word) (d : Bool) : UncacheInv ⟨[], [], 0⟩ (reset a b c d) := by
  show IdleInv _ _
  constructor <;> simp

theorem step_uncache (s : Top) (i : TopIn) : (s.step i).uncache =
    s.uncache.step s.confEn s.conf i.uncacheRefresh i.uncacheRdata := rfl

theorem not_uncacheRefresh (ha : s.AcksRequest i) (h : s.uncache.axiEn = false) :
    i.uncacheRefresh = false := by
  by_contra hr
  rw [ha (by simpa using hr)] at h
  cases h

/-- In `IDLE` a load is issued and waits, a store is issued and leaves. -/
theorem IdleInv.step (h : IdleInv t s) (hst : s.uncache.stage = .idle) (hc : s.core.CancelInv)
    (ha : s.AcksRequest i) (hu : s.Undisturbed i) : UncacheInv (observe t s i) (s.step i) := by
  have hack := not_uncacheRefresh ha h.axiEn
  have hun := step_uncache s i
  rw [hack] at hun
  unfold UncacheInv
  cases hval : s.uncache.valid with
  | true =>
    -- The load is done: it leaves, and `uncache` does not look at it.
    obtain ⟨hen, hiss⟩ := h.one_ahead hval
    have hns : s.stallreqUncache = false := by
      simp [stallreqUncache, Uncache.stallreq, Uncache.confRdReq, Uncache.confWrReq, hval, hst]
    have hp := passes_of_undisturbed hc hu hen hns
    rw [Uncache.step_idle_of_valid _ hst h.finish hval] at hun
    rw [hun]
    simp only [hst]
    constructor <;>
      simp [observe, issues, hun, hp, h.axiEn, hack, h.bufferValid, h.finish, h.acks, hiss]
  | false =>
    have hiss := h.none_ahead hval
    cases hen : s.confEn with
    | false =>
      rw [hen, Uncache.step_idle_of_none _ hst h.finish] at hun
      rw [hun]
      simp only [hst]
      constructor <;> simp [observe, issues, hun, passes_of_not_confEn hen, h.axiEn, hack,
        h.bufferValid, h.finish, h.acks, hiss]
    | true =>
      rw [hen] at hun
      -- A load holds the pipeline until its `valid` cycle; a store leaves at once.
      by_cases hwe : s.conf.we = 0#4
      · have hs : s.stallreqUncache = true := by
          simp [stallreqUncache, Uncache.stallreq, Uncache.confRdReq, hval, hen, hwe]
        have hm := move_of_stallreqUncache (i := i) hs
        have hp : s.passes i = [] := by rw [passes_eq, hm]
        obtain ⟨hen', hconf'⟩ := step_conf_of_hold hm
        rw [Uncache.step_idle_of_load _ hst h.finish h.bufferValid hval hwe] at hun
        rw [hun]
        constructor <;> simp [observe, issues, hun, hp, h.axiEn, hack, h.bufferValid, h.finish,
          h.acks, hiss, hen, hen', hconf']
      · have hns : s.stallreqUncache = false := by
          simp [stallreqUncache, Uncache.stallreq, Uncache.confRdReq, hwe, h.bufferValid, hst]
        have hp := passes_of_undisturbed hc hu hen hns
        rw [Uncache.step_idle_of_store _ hst h.finish h.bufferValid hval hwe] at hun
        rw [hun]
        constructor <;> simp [observe, issues, hun, hp, h.axiEn, hack, h.finish, h.acks, hiss]

/-- In `BUFFER` nothing is issued, and an access that arrives waits for the acknowledge. -/
theorem BufferInv.step (h : BufferInv t s) (hst : s.uncache.stage = .buffer) :
    UncacheInv (observe t s i) (s.step i) := by
  have hp : s.passes i = [] := by
    cases hen : s.confEn with
    | false => exact passes_of_not_confEn hen
    | true =>
      have hs : s.stallreqUncache = true := by
        by_cases hwe : s.conf.we = 0#4 <;>
          simp [stallreqUncache, Uncache.stallreq, Uncache.confRdReq, Uncache.confWrReq, h.valid,
            hen, hwe, h.bufferValid]
      rw [passes_eq, move_of_stallreqUncache hs]
  have hun := step_uncache s i
  rw [Uncache.step_buffer _ hst h.finish] at hun
  unfold UncacheInv
  cases hr : i.uncacheRefresh with
  | true =>
    rw [hr, if_pos rfl] at hun
    rw [hun]
    constructor <;> simp [observe, issues, hun, hp, hr, h.axiEn, h.finish, h.acks, h.issued]
  | false =>
    rw [hr, if_neg (by simp)] at hun
    rw [hun]
    simp only [hst]
    constructor <;> simp [observe, issues, hun, hp, hr, h.axiEn, h.finish, h.bufferValid, h.acks]
    · exact h.issued
    · exact h.current

/-- In `WAIT` the load stays in `dt_stage` until its acknowledge has been turned into `valid`. -/
theorem WaitInv.step (h : WaitInv t s) (hst : s.uncache.stage = .wait) (ha : s.AcksRequest i) :
    UncacheInv (observe t s i) (s.step i) := by
  have hs : s.stallreqUncache = true := by
    simp [stallreqUncache, Uncache.stallreq, hst]
  have hm := move_of_stallreqUncache (i := i) hs
  have hp : s.passes i = [] := by rw [passes_eq, hm]
  obtain ⟨hen', hconf'⟩ := step_conf_of_hold hm
  have hun := step_uncache s i
  have hax := h.axiEn
  have hacks := h.acks
  unfold UncacheInv
  -- Before the acknowledge, in it, and in the cycle after it.
  cases hfin : s.uncache.finish with
  | true =>
    simp only [hfin, Bool.not_true] at hax
    have hack := not_uncacheRefresh ha hax
    rw [hack, Uncache.step_wait_of_finish _ hst hfin] at hun
    rw [hun]
    constructor <;> simp_all [observe, issues, h.bufferValid, h.issued, h.confEn]
  | false =>
    simp only [hfin, Bool.not_false] at hax
    cases hr : i.uncacheRefresh with
    | true =>
      rw [hr, Uncache.step_wait_of_reload _ hst hfin] at hun
      rw [hun]
      simp only [hst]
      constructor <;> simp_all [observe, issues, h.bufferValid, h.issued, h.confEn]
    | false =>
      rw [hr, Uncache.step_wait_of_pending _ hst hfin] at hun
      rw [hun]
      simp only [hst]
      constructor <;> simp_all [observe, issues, h.bufferValid, h.issued, h.confEn, h.current]

theorem UncacheInv.step (h : UncacheInv t s) (hc : s.core.CancelInv) (ha : s.AcksRequest i)
    (hu : s.Undisturbed i) : UncacheInv (observe t s i) (s.step i) := by
  unfold UncacheInv at h
  split at h
  case h_1 hst => exact h.step hst hc ha hu
  case h_2 hst => exact h.step hst
  case h_3 hst => exact h.step hst ha

theorem UncacheInv.exactlyOnce (h : UncacheInv t s) : ExactlyOnce t s := by
  unfold UncacheInv at h
  split at h
  · refine ⟨?_, by simp [h.axiEn, h.acks], by simp [h.axiEn]⟩
    cases hv : s.uncache.valid with
    | false => exact Or.inl (h.none_ahead hv)
    | true => exact Or.inr (h.one_ahead hv)
  · exact ⟨Or.inl h.issued, by simp [h.axiEn, h.acks], fun _ => h.current⟩
  · refine ⟨Or.inr ⟨h.confEn, h.issued⟩, ?_, fun hax => ?_⟩
    · rw [← h.acks, h.axiEn]
      cases s.uncache.finish <;> rfl
    · rw [h.issued, h.current (by simpa [h.axiEn] using hax)]
      simp

end Top

/-! ## Runs -/

namespace TopRun

theorem cancelInv (r : TopRun) (n : ℕ) : (r.top n).core.CancelInv :=
  Clocked.invariant (A := fun _ _ => True) (P := fun s : Top => s.core.CancelInv)
    (Core.cancelInv_reset _ _ _) (fun s i h _ => h.step (s.coreIn i)) n (fun _ _ => trivial)

/-- In every run in which nobody disturbs `uncache` as it lets an access go, delivery is exactly
once. -/
theorem uncached_exactly_once (r : TopRun) (n : ℕ) (ack : ∀ k < n, (r.top k).AcksRequest (r.inp k))
    (undisturbed : ∀ k < n, (r.top k).Undisturbed (r.inp k)) :
    Top.ExactlyOnce (r.traffic n) (r.top n) := by
  apply Top.UncacheInv.exactlyOnce
  refine Clocked.ghost_invariant (P := Top.UncacheInv)
    (A := fun _ s i => s.core.CancelInv ∧ s.AcksRequest i ∧ s.Undisturbed i)
    (Top.uncacheInv_reset _ _ _ _) ?_ n ?_
  · intro t s i h hA
    exact h.step hA.1 hA.2.1 hA.2.2
  · intro k hk
    exact ⟨r.cancelInv k, ack k hk, undisturbed k hk⟩

/-- A run with all other stall sources silent: the words the icache delivers, and the cycles with an
acknowledge. -/
def ofWords (word : ℕ → Word) (ack : ℕ → Bool) : TopRun where
  instBuffer := 0
  dataBuffer := 0
  csrLatch := 0
  cachedR := false
  inp n := ⟨0, word n, false, 0, false, ack n, 0⟩

/-- `st.w $r0, $r0, -4` followed by `addi.w $r0, $r0, 0` for ever. -/
def storeThenNops : TopRun :=
  ofWords (fun n => if n = 3 then 0x29bff000 else 0x02800000) fun n => n == 9

/-- `st.w $r0, $r0, -4`, `mul.w $r4, $r4, $r4` and then `addi.w $r0, $r0, 0` for ever. -/
def storeThenMul : TopRun :=
  ofWords (fun n => if n = 3 then 0x29bff000 else if n = 4 then 0x001c1084 else 0x02800000)
    fun n => n == 9 || n == 14

theorem uncached_exactly_once_storeThenNops :
    (∀ k < 16, (storeThenNops.top k).AcksRequest (storeThenNops.inp k)) ∧
      (∀ k < 16, (storeThenNops.top k).Undisturbed (storeThenNops.inp k)) ∧
    (storeThenNops.traffic 16).passed = [⟨0xf, 0xfffffffc, 0⟩] ∧
    Top.ExactlyOnce (storeThenNops.traffic 16) (storeThenNops.top 16) := by
  have hack : ∀ k < 16, (storeThenNops.top k).AcksRequest (storeThenNops.inp k) := by
    decide +kernel
  have hund : ∀ k < 16, (storeThenNops.top k).Undisturbed (storeThenNops.inp k) := by
    decide +kernel
  exact ⟨hack, hund, by decide +kernel, uncached_exactly_once _ 16 hack hund⟩

/-- The multiplier holds the pipeline in the cycle in which the store is issued, so the store is
still in `dt_stage` when the acknowledge arrives and is issued a second time. -/
theorem storeThenMul_issues_twice :
    (∀ k < 16, (storeThenMul.top k).AcksRequest (storeThenMul.inp k)) ∧
      (storeThenMul.traffic 16).issued = [⟨0xf, 0xfffffffc, 0⟩, ⟨0xf, 0xfffffffc, 0⟩] ∧
    (storeThenMul.traffic 16).passed = [⟨0xf, 0xfffffffc, 0⟩] ∧
    ¬ Top.ExactlyOnce (storeThenMul.traffic 16) (storeThenMul.top 16) := by
  have hiss : (storeThenMul.traffic 16).issued =
      [⟨0xf, 0xfffffffc, 0⟩, ⟨0xf, 0xfffffffc, 0⟩] := by decide +kernel
  have hpass : (storeThenMul.traffic 16).passed = [⟨0xf, 0xfffffffc, 0⟩] := by decide +kernel
  have hen : (storeThenMul.top 16).confEn = false := by decide +kernel
  refine ⟨by decide +kernel, hiss, hpass, fun h => ?_⟩
  rcases h.issued with hi | ⟨hc, -⟩
  · rw [hiss, hpass] at hi
    simp at hi
  · rw [hen] at hc
    cases hc

end TopRun

end NeulaCpu.Rtl
