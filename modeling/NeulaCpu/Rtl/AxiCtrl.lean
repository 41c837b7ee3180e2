import NeulaCpu.Rtl.Cache

/-!
# The bus controller

`axi_ctrl_v5`: two coupled state machines, `stage` for the read channels and `stage_w` for the write
channels. `stage` accepts the requests of `icache`, `dcache` and `uncache` together, waits for both
machines to finish and acknowledges the requests together. The one-hot registers `stage` and
`stage_w` are enumerations here, with `off` for the value 0 that `stage` has in the cycle of the
acknowledge; the values that no assignment produces are left out. Channel signals that keep their
reset value (`arburst`, `arlock`, `arcache`, `arprot`, their `aw` counterparts and `wid`), the
channel inputs that are not read (`rid`, `rresp`, `bid`, `bresp`) and the write port of `icache`,
which is recorded and never used, are left out too.
-/

namespace NeulaCpu.Rtl

/-- The requests of the three clients. -/
structure AxiReq where
  icacheRe : Bool
  icacheRaddr : Word
  dcacheRe : Bool
  dcacheRaddr : Word
  dcacheWe : Bool
  dcacheWaddr : Word
  uncacheEn : Bool
  uncacheWe : BitVec 4
  uncacheAddr : Word
  uncacheWdata : Word
deriving DecidableEq, Repr

namespace AxiReq

/-- `uncache_en & ~(|uncache_we)`. -/
def uncacheRead (q : AxiReq) : Bool := q.uncacheEn && !(q.uncacheWe != 0)

/-- `icache_re | dcache_re | (uncache_en & ~(|uncache_we))`. -/
def anyRead (q : AxiReq) : Bool := q.icacheRe || q.dcacheRe || q.uncacheRead

/-- `dcache_we | (uncache_en & (|uncache_we))`. -/
def anyWrite (q : AxiReq) : Bool := q.dcacheWe || (q.uncacheEn && q.uncacheWe != 0)

end AxiReq

structure AxiIn where
  req : AxiReq
  dcacheCachelineOld : Line
  arready : Bool
  rdata : Word
  rlast : Bool
  rvalid : Bool
  awready : Bool
  wready : Bool
  bvalid : Bool

inductive Stage
  | s0 | s1 | s2 | s3 | s4 | s5 | s6 | s7 | s8 | s9 | s10 | s11 | off
deriving DecidableEq, Repr

inductive StageW
  | w0 | w1 | w2 | w3 | w4 | w5 | w6 | w10
deriving DecidableEq, Repr

/-- The registers of the first clocked block. -/
structure AxiRead where
  stage : Stage
  arid : BitVec 4
  araddr : Word
  arlen : BitVec 4
  arsize : BitVec 3
  arvalid : Bool
  rready : Bool
  -- `icache_re_buffer` to `uncache_wdata_buffer`
  buffer : AxiReq
  dcacheWdataBuffer : Line
  icacheRdataBuffer : Line
  icacheOffset : BitVec 4
  dcacheRdataBuffer : Line
  dcacheOffset : BitVec 4
  uncacheRdataBuffer : Word
  icacheRefresh : Bool
  dcacheRefresh : Bool
  uncacheRefresh : Bool
  icacheCachelineNew : Line
  dcacheCachelineNew : Line
  uncacheRdata : Word

/-- The registers of the second clocked block. -/
structure AxiWrite where
  stageW : StageW
  awid : BitVec 4
  awaddr : Word
  awlen : BitVec 4
  awsize : BitVec 3
  awvalid : Bool
  wdata : Word
  wstrb : BitVec 4
  wlast : Bool
  wvalid : Bool
  bready : Bool
  dcacheOffsetW : BitVec 4

structure AxiCtrl where
  rd : AxiRead
  wr : AxiWrite

/-- The registers that the reset branch does not assign. -/
structure AxiUnset where
  buffer : AxiReq
  dcacheWdataBuffer : Line
  icacheRdataBuffer : Line
  icacheOffset : BitVec 4
  dcacheRdataBuffer : Line
  dcacheOffset : BitVec 4
  uncacheRdataBuffer : Word
  dcacheOffsetW : BitVec 4

namespace AxiCtrl

def reset (u : AxiUnset) : AxiCtrl where
  rd :=
    { stage := .s0
      arid := 0
      araddr := 0
      arlen := 0
      arsize := 0b010
      arvalid := false
      rready := false
      buffer := u.buffer
      dcacheWdataBuffer := u.dcacheWdataBuffer
      icacheRdataBuffer := u.icacheRdataBuffer
      icacheOffset := u.icacheOffset
      dcacheRdataBuffer := u.dcacheRdataBuffer
      dcacheOffset := u.dcacheOffset
      uncacheRdataBuffer := u.uncacheRdataBuffer
      icacheRefresh := false
      dcacheRefresh := false
      uncacheRefresh := false
      icacheCachelineNew := fun _ => 0
      dcacheCachelineNew := fun _ => 0
      uncacheRdata := 0 }
  wr :=
    { stageW := .w0
      awid := 0b0001
      awaddr := 0
      awlen := 0
      awsize := 0b010
      awvalid := false
      wdata := 0
      wstrb := 0
      wlast := false
      wvalid := false
      bready := false
      dcacheOffsetW := u.dcacheOffsetW }

end AxiCtrl

/-! ## The read channels and the requests -/

namespace AxiRead

variable (s : AxiRead) (i : AxiIn)

/-- Ask for a burst: the assignments of `stage[2]` and `stage[5]`. -/
def ask (id : BitVec 4) (addr : Word) (len : BitVec 4) (next : Stage) : AxiRead :=
  { s with
    arid := id
    araddr := addr
    arlen := len
    arsize := 0b010
    arvalid := true
    stage := next }

/-- The address is taken: the common part of `stage[3]`, `stage[6]` and `stage[8]`. -/
def accepted (next : Stage) : AxiRead :=
  { s with
    arvalid := false
    araddr := 0
    rready := true
    stage := next }

def step (stageW : StageW) : AxiRead :=
  match s.stage with
  | .s0 =>
    { s with
      icacheRefresh := false
      dcacheRefresh := false
      uncacheRefresh := false
      buffer := i.req
      -- A round with a write passes through `stage[1]`, which captures the line.
      stage := if i.req.anyWrite then .s1 else if i.req.anyRead then .s2 else .s0 }
  | .s1 =>
    { s with
      dcacheWdataBuffer := i.dcacheCachelineOld
      stage := if s.buffer.anyRead then .s2 else .s10 }
  | .s2 =>
    if s.buffer.icacheRe then s.ask 0 s.buffer.icacheRaddr 0xf .s3 else { s with stage := .s5 }
  | .s3 => if i.arready then { s.accepted .s4 with icacheOffset := 0 } else s
  | .s4 =>
    if i.rvalid then
      if i.rlast then
        { s with
          icacheRdataBuffer := Function.update s.icacheRdataBuffer s.icacheOffset i.rdata
          rready := false
          stage := .s5 }
      else
        { s with
          icacheRdataBuffer := Function.update s.icacheRdataBuffer s.icacheOffset i.rdata
          icacheOffset := s.icacheOffset + 1 }
    else s
  | .s5 =>
    -- One of the two: an uncached read is looked at only if `dcache` asks for nothing.
    if s.buffer.dcacheRe then s.ask 1 s.buffer.dcacheRaddr 0xf .s6
    else if s.buffer.uncacheRead then s.ask 1 s.buffer.uncacheAddr 0 .s8
    else { s with stage := .s10 }
  | .s6 => if i.arready then { s.accepted .s7 with dcacheOffset := 0 } else s
  | .s7 =>
    if i.rvalid then
      if i.rlast then
        { s with
          dcacheRdataBuffer := Function.update s.dcacheRdataBuffer s.dcacheOffset i.rdata
          rready := false
          stage := .s10 }
      else
        { s with
          dcacheRdataBuffer := Function.update s.dcacheRdataBuffer s.dcacheOffset i.rdata
          dcacheOffset := s.dcacheOffset + 1 }
    else s
  | .s8 => if i.arready then s.accepted .s9 else s
  | .s9 =>
    if i.rvalid then { s with uncacheRdataBuffer := i.rdata, rready := false, stage := .s10 } else s
  | .s10 => if stageW = .w10 ∨ stageW = .w0 then { s with stage := .s11 } else s
  | .s11 =>
    { s with
      icacheRefresh := if s.buffer.icacheRe then true else s.icacheRefresh
      icacheCachelineNew :=
        if s.buffer.icacheRe then s.icacheRdataBuffer else s.icacheCachelineNew
      dcacheRefresh := if s.buffer.dcacheRe then true else s.dcacheRefresh
      dcacheCachelineNew :=
        if s.buffer.dcacheRe then s.dcacheRdataBuffer else s.dcacheCachelineNew
      uncacheRefresh := if s.buffer.uncacheEn then true else s.uncacheRefresh
      uncacheRdata := if s.buffer.uncacheEn then s.uncacheRdataBuffer else s.uncacheRdata
      stage := .off }
  | .off =>
    { s with
      stage := .s0
      icacheRefresh := false
      dcacheRefresh := false
      uncacheRefresh := false }

end AxiRead

/-! ## The write channels -/

namespace AxiWrite

variable (s : AxiWrite) (i : AxiIn)

/-- `awsize` for an uncached store. -/
def storeSize (we : BitVec 4) : BitVec 3 :=
  if we = 0b0001 ∨ we = 0b0010 ∨ we = 0b0100 ∨ we = 0b1000 then 0b000
  else if we = 0b0011 ∨ we = 0b1100 then 0b001
  else 0b010

/-- Put the next word of the line on the data channel: the common part of the two branches of
`stage_w[1]`. -/
def present (line : Line) : AxiWrite :=
  { s with
    wdata := line s.dcacheOffsetW
    wvalid := true
    wlast := s.dcacheOffsetW == 0b1111
    dcacheOffsetW := s.dcacheOffsetW + 1
    stageW := if s.dcacheOffsetW = 0b1111 then .w2 else .w1 }

/-- The word is taken: `stage_w[2]` and `stage_w[5]`. -/
def taken (next : StageW) : AxiWrite :=
  { s with
    wdata := 0
    wvalid := false
    wlast := false
    stageW := next }

def step (rd : AxiRead) : AxiWrite :=
  match s.stageW with
  | .w0 =>
    if rd.stage = .s1 then
      -- One write in a round: the store is looked at only if there is no line to write back.
      if rd.buffer.dcacheWe then
        { s with
          awid := 1
          awaddr := rd.buffer.dcacheWaddr
          awlen := 0xf
          awsize := 0b010
          awvalid := true
          wstrb := 0b1111
          wlast := false
          bready := true
          dcacheOffsetW := 0
          stageW := .w1 }
      else if rd.buffer.uncacheWe != 0 then
        { s with
          awid := 1
          awaddr := rd.buffer.uncacheAddr
          awlen := 0
          awsize := storeSize rd.buffer.uncacheWe
          wstrb := rd.buffer.uncacheWe
          awvalid := true
          wlast := false
          bready := true
          stageW := .w4 }
      else s
    else s
  | .w1 =>
    -- `awready` brings the next word whether or not the one on the channel was taken.
    if i.awready then { s.present rd.dcacheWdataBuffer with awvalid := false, awaddr := 0 }
    else if i.wready then s.present rd.dcacheWdataBuffer
    else s
  | .w2 => if i.wready then s.taken .w3 else s
  | .w3 => if i.bvalid then { s with bready := false, stageW := .w10 } else s
  | .w4 =>
    if i.awready then
      { s with
        awvalid := false
        awaddr := 0
        wdata := rd.buffer.uncacheWdata
        wvalid := true
        wlast := true
        stageW := .w5 }
    else s
  | .w5 => if i.wready then s.taken .w6 else s
  | .w6 => if i.bvalid then { s with bready := false, stageW := .w10 } else s
  | .w10 => if rd.stage = .s11 then { s with stageW := .w0 } else s

end AxiWrite

/-- The clock edge: each block reads the other's registers as they were before it. -/
def AxiCtrl.step (s : AxiCtrl) (i : AxiIn) : AxiCtrl where
  rd := s.rd.step i s.wr.stageW
  wr := s.wr.step i s.rd

end NeulaCpu.Rtl
