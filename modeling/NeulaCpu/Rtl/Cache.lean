import NeulaCpu.Rtl.Bus
import NeulaCpu.Lib.ByteLanes

/-!
# The data cache

`cache_tag_v5`, `cache_data_v5` and `dcache`: two ways of 64 lines of sixteen words. The two ways of
the source differ only in their number, which is also the value of the `lru` bit that selects them,
so a way is a `Bool` here: `false` is way 0 and `true` is way 1. The 32 instances of
`data_bram_bank` are one definition with the way and the bank as parameters.
-/

namespace NeulaCpu.Rtl

open ByteLanes (merge)

/-- The sixteen words of a cache line, `cacheline[32*b +: 32]` for bank `b`. -/
abbrev Line := BitVec 4 → Word

namespace Cache

/-- `{tag, index, offset} = sram_addr`. -/
def tag (addr : Word) : BitVec 20 := addr.extractLsb' 12 20

def index (addr : Word) : BitVec 6 := addr.extractLsb' 6 6

def offset (addr : Word) : BitVec 6 := addr.extractLsb' 0 6

/-- `offset[5:2]`. -/
def bank (addr : Word) : BitVec 4 := (offset addr).extractLsb' 2 4

end Cache

/-! ## `cache_tag_v5` -/

/-- An entry of a tag array: `{valid, tag}`. -/
abbrev TagEntry := BitVec 21

structure CacheTag where
  tagWay : Bool → BitVec 6 → TagEntry
  lruR : BitVec 6 → Bool

/-- The inputs of `cache_tag_v5`; `sram_we` is not read there. -/
structure CacheTagIn where
  flush : Bool
  cached : Bool
  sramEn : Bool
  sramAddr : Word
  refresh : Bool

namespace CacheTag

@[simps] def reset : CacheTag := ⟨fun _ _ => 0, fun _ => false⟩

variable (s : CacheTag) (i : CacheTagIn)

/-- `hit_way0` and `hit_way1`. -/
def hit (way : Bool) : Bool :=
  !i.flush && i.cached && i.sramEn &&
    (1#1 ++ Cache.tag i.sramAddr : TagEntry) == s.tagWay way (Cache.index i.sramAddr)

def miss : Bool := i.cached && i.sramEn && !(s.hit i false || s.hit i true) && !i.flush

def stallreq : Bool := s.miss i

def lru : Bool := s.lruR (Cache.index i.sramAddr)

def axiRaddr : Word :=
  if i.cached then (i.sramAddr.extractLsb' 6 26 ++ 0#6 : BitVec 32) else i.sramAddr

/-- `write_back_way0` and `write_back_way1`. -/
def writeBackWay (way : Bool) : Bool :=
  i.cached && i.sramEn && s.miss i && (s.tagWay way (Cache.index i.sramAddr)).getLsbD 20

def writeBack : Bool := if i.flush then false else s.writeBackWay i (s.lru i)

/-- `axi_waddr_way0` and `axi_waddr_way1`. -/
def axiWaddrWay (way : Bool) : Word :=
  ((s.tagWay way (Cache.index i.sramAddr)).extractLsb' 0 20 ++ Cache.index i.sramAddr ++ 0#6 :
    BitVec 32)

def axiWaddr : Word := s.axiWaddrWay i (s.lru i)

def step : CacheTag where
  tagWay := fun way idx =>
    if i.refresh && s.lru i == way && idx == Cache.index i.sramAddr then
      BitVec.ofBool i.cached ++ Cache.tag i.sramAddr
    else s.tagWay way idx
  lruR := fun idx =>
    if idx == Cache.index i.sramAddr then
      -- The way that was not used is the next to be replaced.
      if s.hit i false && !s.hit i true then true
      else if !s.hit i false && s.hit i true then false
      else if i.refresh then !s.lruR idx
      else s.lruR idx
    else s.lruR idx

end CacheTag

/-! ## `data_bram_bank` -/

/-- A RAM of 64 words with byte write enables; the read port is registered and shows what a write in
the same cycle leaves (`WRITE_FIRST`). -/
structure Bram where
  mem : BitVec 6 → Word
  douta : Word

def Bram.step (s : Bram) (ena : Bool) (wea : BitVec 4) (addra : BitVec 6) (dina : Word) : Bram :=
  if ena then
    { mem := Function.update s.mem addra (merge (s.mem addra) wea dina)
      douta := merge (s.mem addra) wea dina }
  else s

/-! ## `cache_data_v5` -/

structure CacheData where
  bram : Bool → BitVec 4 → Bram
  hitR : Bool → Bool
  lruR : Bool
  cachedR : Bool
  bankSelR : BitVec 4 → Bool

structure CacheDataIn where
  writeBack : Bool
  hit : Bool → Bool
  lru : Bool
  cached : Bool
  sramEn : Bool
  sramWe : BitVec 4
  sramAddr : Word
  sramWdata : Word
  refresh : Bool
  cachelineNew : Line

namespace CacheData

/-- The registers after reset; the RAMs are not reset. -/
def reset (bram : Bool → BitVec 4 → Bram) : CacheData where
  bram := bram
  hitR := fun _ => false
  lruR := false
  cachedR := true
  bankSelR := fun _ => false

/-- `decoder_4_16`: `out[i] = (in == i)`. -/
def bankSel (i : CacheDataIn) (b : BitVec 4) : Bool := Cache.bank i.sramAddr == b

/-- `ena` of bank `b` of a way. -/
def ena (i : CacheDataIn) (way : Bool) (b : BitVec 4) : Bool :=
  -- A refresh and a write-back address all banks, a hit only the bank of its word.
  i.cached && i.refresh || i.sramEn && bankSel i b && i.hit way || i.writeBack

/-- `wea` of the banks of a way. -/
def wea (i : CacheDataIn) (way : Bool) : BitVec 4 :=
  if i.refresh then if i.lru == way then 0b1111 else 0b0000
  else if i.writeBack then 0b0000
  else i.sramWe

/-- `dina` of bank `b`. -/
def dina (i : CacheDataIn) (b : BitVec 4) : Word :=
  if i.refresh then i.cachelineNew b else i.sramWdata

/-- The banks in the order in which the read multiplexer tries them. -/
def banks : List (BitVec 4) := [0, 1, 2, 3, 4, 5, 6, 7, 8, 9, 10, 11, 12, 13, 14, 15]

variable (s : CacheData)

/-- `sram_rdata_way0` and `sram_rdata_way1`. -/
def sramRdataWay (way : Bool) : Word :=
  if !s.cachedR then 0
  else
    match banks.find? s.bankSelR with
    | some b => (s.bram way b).douta
    | none => 0

def sramRdata : Word :=
  if s.hitR false then s.sramRdataWay false
  else if s.hitR true then s.sramRdataWay true
  else 0

def cachelineOld : Line := fun b => (s.bram s.lruR b).douta

def step (i : CacheDataIn) : CacheData where
  bram := fun way b =>
    (s.bram way b).step (ena i way b) (wea i way) (Cache.index i.sramAddr) (dina i b)
  hitR := i.hit
  lruR := i.lru
  cachedR := i.cached
  bankSelR := bankSel i

end CacheData

/-! ## `dcache` -/

structure Dcache where
  dcacheTag : CacheTag
  dcacheData : CacheData

structure DcacheIn where
  dataSram : DataSram
  dcacheRefresh : Bool
  dcacheUncached : Bool
  dcacheCachelineNew : Line

namespace Dcache

def reset (bram : Bool → BitVec 4 → Bram) : Dcache := ⟨.reset, .reset bram⟩

/-- The ports of `u_dcache_tag`. -/
def tagIn (i : DcacheIn) : CacheTagIn where
  flush := false
  cached := !i.dcacheUncached
  sramEn := i.dataSram.en
  sramAddr := i.dataSram.addr
  refresh := i.dcacheRefresh

variable (s : Dcache) (i : DcacheIn)

def stallreqDcache : Bool := s.dcacheTag.stallreq (tagIn i)

def dcacheMiss : Bool := s.dcacheTag.miss (tagIn i)

def dcacheRaddr : Word := CacheTag.axiRaddr (tagIn i)

def dcacheWaddr : Word := s.dcacheTag.axiWaddr (tagIn i)

def dcacheWriteBack : Bool := s.dcacheTag.writeBack (tagIn i)

def dcacheHit (way : Bool) : Bool := s.dcacheTag.hit (tagIn i) way

def dcacheLru : Bool := s.dcacheTag.lru (tagIn i)

/-- The ports of `u_dcache_data`. -/
def dataIn : CacheDataIn where
  writeBack := s.dcacheWriteBack i
  hit := s.dcacheHit i
  lru := s.dcacheLru i
  cached := !i.dcacheUncached
  sramEn := i.dataSram.en
  sramWe := i.dataSram.we
  sramAddr := i.dataSram.addr
  sramWdata := i.dataSram.wdata
  refresh := i.dcacheRefresh
  cachelineNew := i.dcacheCachelineNew

def dataSramRdata : Word := s.dcacheData.sramRdata

def dcacheCachelineOld : Line := s.dcacheData.cachelineOld

def step : Dcache where
  dcacheTag := s.dcacheTag.step (tagIn i)
  dcacheData := s.dcacheData.step (s.dataIn i)

end Dcache

end NeulaCpu.Rtl
