import NeulaCpu.Rtl.Core

/-!
# The uncached port and the processor top

`uncache`, `mmu` and the part of `mycpu_top` that joins them to the core: the split of the data
address space into a cached and an uncached part and the read multiplexer. The two caches and the
AXI controller are the environment here: their outputs are inputs of `Top.step`.
-/

namespace NeulaCpu.Rtl

/-! ## `mmu` -/

namespace Mmu

/-- `dmw0` is tied to zero in the source. -/
def dmw0 : Word := 0

/-- `cache_v`: the address lies in the cached window. -/
def cacheV (addr : Word) : Bool := dmw0.extractLsb' 29 3 == addr.extractLsb' 29 3

def addrO (addr : Word) : Word :=
  if cacheV addr then dmw0.extractLsb' 25 3 ++ addr.extractLsb' 0 29 else addr

end Mmu

/-! ## `uncache` -/

/-- The one-hot states of `uncache`. -/
inductive UncacheStage
  | idle | buffer | wait
deriving DecidableEq, Repr

/-- One uncached access: byte mask (zero for a load), address and data. -/
structure Access where
  we : BitVec 4
  addr : Word
  wdata : Word
deriving DecidableEq, Repr

structure Uncache where
  valid : Bool
  finish : Bool
  bufferValid : Bool
  stage : UncacheStage
  confRdata : Word
  axiEn : Bool
  axi : Access
deriving DecidableEq, Repr

namespace Uncache

@[simps] def reset : Uncache := ⟨false, false, false, .idle, 0, false, ⟨0, 0, 0⟩⟩

def confRdReq (s : Uncache) (confEn : Bool) (conf : Access) : Bool :=
  confEn && !s.valid && conf.we == 0

def confWrReq (s : Uncache) (confEn : Bool) (conf : Access) : Bool :=
  confEn && !s.valid && !(conf.we == 0)

def stallreq (s : Uncache) (confEn : Bool) (conf : Access) : Bool :=
  (s.confRdReq confEn conf && !s.valid) ||
    (s.confWrReq confEn conf && s.bufferValid && !s.valid) || s.stage == .wait

/-- The registers of the state machine; `valid` and `conf_rdata` are clocked on their own. -/
def fsm (s : Uncache) (confEn : Bool) (conf : Access) (reload : Bool) : Uncache :=
  match s.stage with
  | .idle =>
    if s.confRdReq confEn conf && !s.bufferValid then
      { s with axiEn := true, axi := conf, stage := .wait }
    else if s.confWrReq confEn conf && !s.bufferValid then
      { s with axiEn := true, axi := conf, bufferValid := true, stage := .buffer }
    else s
  | .buffer =>
    if reload then
      { s with bufferValid := false, axiEn := false, axi := ⟨0, 0, 0⟩, stage := .idle }
    else s
  | .wait =>
    -- `finish` becomes `valid` one cycle later and lets the load go.
    if reload then { s with axiEn := false, axi := ⟨0, 0, 0⟩, finish := true }
    else if s.finish then { s with finish := false, stage := .idle }
    else s

def step (s : Uncache) (confEn : Bool) (conf : Access) (reload : Bool) (axiRdata : Word) :
    Uncache :=
  { s.fsm confEn conf reload with
    valid := s.finish
    confRdata := if reload then axiRdata else s.confRdata }

end Uncache

/-! ## `mycpu_top` -/

/-- What the caches and the AXI controller present in one cycle. -/
structure TopIn where
  extInt : BitVec 8
  instSramRdata : Word
  stallreqIcache : Bool
  dcacheTempRdata : Word
  stallreqDcache : Bool
  uncacheRefresh : Bool
  uncacheRdata : Word
deriving DecidableEq, Repr

structure Top where
  core : Core
  uncache : Uncache
  dcacheCachedR : Bool

namespace Top

@[simps] def reset (instBuffer dataBuffer csrLatch : Word) (cachedR : Bool) : Top where
  core := .reset instBuffer dataBuffer csrLatch
  uncache := .reset
  dcacheCachedR := cachedR

def dcacheCached (s : Top) : Bool := Mmu.cacheV s.core.dataSram.addr

/-- `data_sram_en & ~dcache_cached`. -/
def confEn (s : Top) : Bool := s.core.dataSram.en && !s.dcacheCached

def conf (s : Top) : Access :=
  ⟨s.core.dataSram.we, Mmu.addrO s.core.dataSram.addr, s.core.dataSram.wdata⟩

def stallreqUncache (s : Top) : Bool := s.uncache.stallreq s.confEn s.conf

/-- `data_sram_rdata`. -/
def dataSramRdata (s : Top) (i : TopIn) : Word :=
  if s.dcacheCachedR then i.dcacheTempRdata else s.uncache.confRdata

/-- The inputs of the core. -/
def coreIn (s : Top) (i : TopIn) : CoreIn where
  extInt := i.extInt
  instSramRdata := i.instSramRdata
  dataSramRdata := s.dataSramRdata i
  stallreqDcache := i.stallreqDcache
  stallreqIcache := i.stallreqIcache
  stallreqUncache := s.stallreqUncache

def step (s : Top) (i : TopIn) : Top where
  core := s.core.step (s.coreIn i)
  uncache := s.uncache.step s.confEn s.conf i.uncacheRefresh i.uncacheRdata
  dcacheCachedR := s.dcacheCached

end Top

end NeulaCpu.Rtl
