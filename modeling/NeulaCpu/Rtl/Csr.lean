import NeulaCpu.Rtl.Units
import NeulaCpu.Lib.BitField

/-!
# The control and status registers

The `csr` module as `mem2_stage` instantiates it: its ports are the fields of the bus held in
`mem2_stage` (`pc` is the instruction's pc, `error_va` its `es_result`), the stall request of the
memory side and the external interrupt lines. `csr_rdata_r` is assigned in only two of the three
branches of its `always @(*)` block, so it is a latch and part of the state.
-/

namespace NeulaCpu.Rtl

open BitField (splice)

/-- The registers of `csr.vh`. -/
inductive CsrName
  | crmd | prmd | euen | ecfg | estat | era | badv | eentry | tlbidx | tlbehi | tlbelo0 | tlbelo1
  | asid | pgdl | pgdh | pgd | cpuid | save0 | save1 | save2 | save3 | tid | tcfg | tval | ticlr
  | llbctl | tlbrentry | ctag | dmw0 | dmw1
deriving DecidableEq, Repr

namespace CsrName

/-- The `*_ADDR` macros. -/
def addr : CsrName → BitVec 14
  | crmd => 0x0
  | prmd => 0x1
  | euen => 0x2
  | ecfg => 0x4
  | estat => 0x5
  | era => 0x6
  | badv => 0x7
  | eentry => 0xc
  | tlbidx => 0x10
  | tlbehi => 0x11
  | tlbelo0 => 0x12
  | tlbelo1 => 0x13
  | asid => 0x18
  | pgdl => 0x19
  | pgdh => 0x1a
  | pgd => 0x1b
  | cpuid => 0x20
  | save0 => 0x30
  | save1 => 0x31
  | save2 => 0x32
  | save3 => 0x33
  | tid => 0x40
  | tcfg => 0x41
  | tval => 0x42
  | ticlr => 0x44
  | llbctl => 0x60
  | tlbrentry => 0x88
  | ctag => 0x98
  | dmw0 => 0x180
  | dmw1 => 0x181

def all : List CsrName :=
  [crmd, prmd, euen, ecfg, estat, era, badv, eentry, tlbidx, tlbehi, tlbelo0, tlbelo1, asid, pgdl,
    pgdh, pgd, cpuid, save0, save1, save2, save3, tid, tcfg, tval, ticlr, llbctl, tlbrentry, ctag,
    dmw0, dmw1]

/-- The `case (csr_addr)` selection. -/
def ofAddr (a : BitVec 14) : Option CsrName := all.find? fun n => n.addr == a

theorem addr_ofAddr {a : BitVec 14} {n : CsrName} (h : ofAddr a = some n) : n.addr = a := by
  have := List.find?_some h
  simpa using this

theorem ofAddr_addr (n : CsrName) : ofAddr n.addr = some n := by
  cases n <;> rfl

end CsrName

/-- The state of `csr`: the architectural registers, the timer, the free-running counter and the
read latch. -/
structure Csr where
  crmd : Word
  prmd : Word
  euen : Word
  ecfg : Word
  estat : Word
  era : Word
  badv : Word
  eentry : Word
  tlbidx : Word
  tlbehi : Word
  tlbelo0 : Word
  tlbelo1 : Word
  asid : Word
  pgdl : Word
  pgdh : Word
  pgd : Word
  cpuid : Word
  save0 : Word
  save1 : Word
  save2 : Word
  save3 : Word
  tid : Word
  tcfg : Word
  tval : Word
  ticlr : Word
  llbctl : Word
  tlbrentry : Word
  ctag : Word
  dmw0 : Word
  dmw1 : Word
  timerEn : Bool
  timer64 : BitVec 64
  csrRdataR : Word
deriving DecidableEq, Repr

namespace Csr

/-- The reset branch. The latch has no reset: `latch` is whatever it holds. -/
@[simps] def reset (latch : Word) : Csr where
  crmd := 8
  prmd := 0
  euen := 0
  ecfg := 0
  estat := 0
  era := 0
  badv := 0
  eentry := 0
  tlbidx := 0
  tlbehi := 0
  tlbelo0 := 0
  tlbelo1 := 0
  asid := 0
  pgdl := 0
  pgdh := 0
  pgd := 0
  cpuid := 0
  save0 := 0
  save1 := 0
  save2 := 0
  save3 := 0
  tid := 0
  tcfg := 0xfffffffe
  tval := 0
  ticlr := 0
  llbctl := 0
  tlbrentry := 0
  ctag := 0
  dmw0 := 0
  dmw1 := 0
  timerEn := false
  timer64 := 0
  csrRdataR := latch

/-! ## Fields -/

/-- `[PLV]` of `CRMD` and `[PPLV]` of `PRMD`. -/
def plv (x : Word) : BitVec 2 := x.extractLsb' 0 2

/-- `[IE]` of `CRMD` and `[PIE]` of `PRMD`. -/
def ie (x : Word) : BitVec 1 := x.extractLsb' 2 1

/-- `[LIE]` of `ECFG` and `[IS]` of `ESTAT`. -/
def lines (x : Word) : BitVec 13 := x.extractLsb' 0 13

/-- `[INITVAL]` of `TCFG`, scaled: `{tcfg[31:2], 2'b0}`. -/
def initVal (x : Word) : Word := x.extractLsb' 2 30 ++ 0#2

@[simp] theorem plv_splice_self (x : Word) (v : BitVec 2) : plv (splice x 0 v) = v :=
  BitField.extract_splice_self x 0 v (by omega)

theorem plv_splice {w lo : ℕ} (x : Word) (v : BitVec w) (h : 2 ≤ lo) :
    plv (splice x lo v) = plv x :=
  BitField.extract_splice_of_disjoint x lo 0 v (by omega) (Or.inl (by omega))

@[simp] theorem ie_splice_self (x : Word) (v : BitVec 1) : ie (splice x 2 v) = v :=
  BitField.extract_splice_self x 2 v (by omega)

theorem ie_splice {w lo : ℕ} (x : Word) (v : BitVec w) (h : lo + w ≤ 2 ∨ 3 ≤ lo) :
    ie (splice x lo v) = ie x :=
  BitField.extract_splice_of_disjoint x lo 2 v (by omega) (by omega)

/-! ## Combinational outputs -/

variable (s : Csr)

def hasIntOut : Bool := lines s.ecfg &&& lines s.estat != 0 && ie s.crmd == 1

def exceptEn (m : DtToMsBus) : Bool := m.csrVec.any

def plvOut (m : DtToMsBus) : BitVec 2 :=
  if exceptEn m && !m.csrVec.instErtn then 0
  else if m.csrVec.instErtn then plv s.prmd
  else if m.csrBus.csrWe && m.csrBus.csrAddr == CsrName.crmd.addr then plv m.csrBus.csrWdata
  else plv s.crmd

/-- Whether a commit with this vector enters the exception handler (it returns from one otherwise):
`(|csr_vec[7:0] & !inst_ertn) | excp_adef`. -/
def entersHandler (v : CsrVec) : Bool := (v.any && !v.instErtn) || v.excpAdef

def newPc (m : DtToMsBus) : Word :=
  if entersHandler m.csrVec then s.eentry
  else if m.csrVec.instErtn then s.era
  else 0

/-- `{ecode, esubcode, va_error, bad_va}`. -/
structure Cause where
  ecode : BitVec 6
  esubcode : BitVec 9
  vaError : Bool
  badVa : Word
deriving DecidableEq, Repr

def cause (m : DtToMsBus) : Cause :=
  if m.csrVec.excpAdef then ⟨0x8, 0x0, true, m.esPc⟩
  else if m.csrVec.hasInt then ⟨0x0, 0, false, 0⟩
  else if m.csrVec.instSyscall then ⟨0xb, 0, false, 0⟩
  else if m.csrVec.instBreak then ⟨0xc, 0, false, 0⟩
  else if m.csrVec.excpIne then ⟨0xd, 0, false, 0⟩
  else if m.csrVec.excpIpe then ⟨0xe, 0, false, 0⟩
  else if m.csrVec.excpAle then ⟨0x9, 0, true, m.esResult⟩
  else ⟨0, 0, false, 0⟩

/-- One register of the read multiplexer. -/
def read : CsrName → Word
  | .crmd => s.crmd
  | .prmd => s.prmd
  | .euen => s.euen
  | .ecfg => s.ecfg
  | .estat => s.estat
  | .era => s.era
  | .badv => s.badv
  | .eentry => s.eentry
  | .tlbidx => s.tlbidx
  | .tlbehi => s.tlbehi
  | .tlbelo0 => s.tlbelo0
  | .tlbelo1 => s.tlbelo1
  | .asid => s.asid
  | .pgdl => s.pgdl
  | .pgdh => s.pgdh
  | .pgd => s.pgd
  | .cpuid => s.cpuid
  | .save0 => s.save0
  | .save1 => s.save1
  | .save2 => s.save2
  | .save3 => s.save3
  | .tid => s.tid
  | .tcfg => s.tcfg
  | .tval => s.tval
  | .ticlr => s.ticlr
  | .llbctl => s.llbctl
  | .tlbrentry => s.tlbrentry
  | .ctag => s.ctag
  | .dmw0 => s.dmw0
  | .dmw1 => s.dmw1

/-- `csr_rdata`: an addressed register, a counter, or what the latch holds. -/
def csrRdata (m : DtToMsBus) : Word :=
  let op := m.csrBus.csrOp
  if op.instCsrrd || op.instCsrwr || op.instCsrxchg then
    match CsrName.ofAddr m.csrBus.csrAddr with
    | some n => s.read n
    | none => 0
  else if op.instRdcntidW || op.instRdcntvhW || op.instRdcntvlW then
    Decoder.mask op.instRdcntvlW (s.timer64.extractLsb' 0 32) |||
      Decoder.mask op.instRdcntvhW (s.timer64.extractLsb' 32 32) |||
      Decoder.mask op.instRdcntidW s.tid
  else s.csrRdataR

/-- `csr_wdata_temp`: `csrxchg` writes the bits selected by `src1` only. -/
def csrWdataTemp (m : DtToMsBus) : Word :=
  if m.csrBus.csrWdataSel then
    (m.src1 &&& m.csrBus.csrWdata) ||| (~~~m.src1 &&& s.csrRdata m)
  else m.csrBus.csrWdata

/-! ## State updates -/

/-- Copy the field of `w` that starts at bit `lo` into the same field of `x`. -/
def copyField (x : Word) (lo width : ℕ) (w : Word) : Word := splice x lo (w.extractLsb' lo width)

/-- `dmw0` and `dmw1`: `PLV0`, `PLV3`, `DMW_MAT`, `PSEG` and `VSEG`. -/
def copyDmw (x w : Word) : Word :=
  copyField (copyField (copyField (copyField (copyField x 0 1 w) 3 1 w) 4 2 w) 25 3 w) 29 3 w

/-- The `csr_we` branch. `CPUID` and `TVAL` have no case in the source. -/
def write (n : CsrName) (w : Word) : Csr :=
  match n with
  | .crmd =>
    { s with
      crmd := copyField (copyField (copyField (copyField (copyField (copyField s.crmd
        0 2 w) 2 1 w) 3 1 w) 4 1 w) 5 2 w) 7 2 w }
  | .prmd => { s with prmd := copyField (copyField s.prmd 0 2 w) 2 1 w }
  | .euen => { s with euen := w }
  | .ecfg => { s with ecfg := copyField (copyField s.ecfg 0 10 w) 11 2 w }
  | .estat => { s with estat := copyField s.estat 0 2 w }
  | .era => { s with era := w }
  | .badv => { s with badv := w }
  | .eentry => { s with eentry := copyField s.eentry 6 26 w }
  | .tlbidx => { s with tlbidx := w }
  | .tlbehi => { s with tlbehi := w }
  | .tlbelo0 => { s with tlbelo0 := w }
  | .tlbelo1 => { s with tlbelo1 := w }
  | .asid => { s with asid := copyField s.asid 0 10 w }
  | .pgdl => { s with pgdl := w }
  | .pgdh => { s with pgdh := w }
  | .pgd => { s with pgd := w }
  | .cpuid => s
  | .save0 => { s with save0 := w }
  | .save1 => { s with save1 := w }
  | .save2 => { s with save2 := w }
  | .save3 => { s with save3 := w }
  | .tid => { s with tid := w }
  | .tcfg =>
    { s with
      tcfg := copyField (copyField (copyField s.tcfg 0 1 w) 1 1 w) 2 30 w
      tval := initVal w
      timerEn := w.getLsbD 0 }
  | .tval => s
  -- Writing 1 clears the timer line; the register itself keeps its value.
  | .ticlr => if w.getLsbD 0 then { s with estat := splice s.estat 11 0#1 } else s
  | .llbctl => { s with llbctl := w }
  | .tlbrentry => { s with tlbrentry := w }
  | .ctag => { s with ctag := w }
  | .dmw0 => { s with dmw0 := copyDmw s.dmw0 w }
  | .dmw1 => { s with dmw1 := copyDmw s.dmw1 w }

/-- The exception-entry branch of a commit. -/
def enter (m : DtToMsBus) : Csr :=
  { s with
    crmd := splice (splice s.crmd 0 0#2) 2 0#1
    prmd := splice (splice s.prmd 0 (plv s.crmd)) 2 (ie s.crmd)
    estat := splice (splice s.estat 16 (cause m).ecode) 22 (cause m).esubcode
    era := m.esPc }

/-- The `ertn` branch of a commit. -/
def ertn : Csr :=
  { s with crmd := splice (splice s.crmd 0 (plv s.prmd)) 2 (ie s.prmd) }

/-- The `except_en` branch: entry or return, and the bad address. -/
def except (m : DtToMsBus) : Csr :=
  let s' := if entersHandler m.csrVec then s.enter m
    else if m.csrVec.instErtn then s.ertn
    else s
  if (cause m).vaError then { s' with badv := (cause m).badVa } else s'

/-- The branch of a cycle with no exception and no CSR write: timer and external lines. -/
def tick (extInt : BitVec 8) : Csr :=
  let expired := s.timerEn && s.tval == 0
  { s with
    estat := splice (if expired then splice s.estat 11 1#1 else s.estat) 2 extInt
    timerEn := if expired then s.tcfg.getLsbD 1 else s.timerEn
    tval := if s.timerEn then
        if s.tval ≠ 0 then s.tval - 1
        else if s.tcfg.getLsbD 1 then initVal s.tcfg else 0xffffffff
      else s.tval }

/-- The clocked register block, without the counter and the latch. -/
def update (m : DtToMsBus) (stallreqAxi : Bool) (extInt : BitVec 8) : Csr :=
  -- While the memory side stalls, only the counter and the read latch move.
  if stallreqAxi then s
  else if exceptEn m then s.except m
  else if m.csrBus.csrWe then
    match CsrName.ofAddr m.csrBus.csrAddr with
    | some n => s.write n (s.csrWdataTemp m)
    | none => s
  else s.tick extInt

def step (m : DtToMsBus) (stallreqAxi : Bool) (extInt : BitVec 8) : Csr :=
  { s.update m stallreqAxi extInt with
    timer64 := s.timer64 + 1
    csrRdataR := s.csrRdata m }

/-! ## The privilege level after a clock edge -/

theorem plv_copyField {lo width : ℕ} (x w : Word) (h : 2 ≤ lo) :
    plv (copyField x lo width w) = plv x :=
  plv_splice x _ h

theorem write_crmd_of_ne {n : CsrName} (h : n ≠ .crmd) (s : Csr) (w : Word) :
    (s.write n w).crmd = s.crmd := by
  cases n with
  | crmd => exact absurd rfl h
  | ticlr =>
    simp only [write]
    split_ifs <;> rfl
  | _ => rfl

theorem plv_write_crmd (w : Word) : plv (s.write .crmd w).crmd = plv w := by
  simp only [write]
  rw [plv_copyField _ _ (by omega), plv_copyField _ _ (by omega), plv_copyField _ _ (by omega),
    plv_copyField _ _ (by omega), plv_copyField _ _ (by omega), copyField, plv_splice_self]
  rfl

/-- The instruction in `mem2_stage` writes `CRMD`. -/
def writesCrmd (m : DtToMsBus) : Bool := m.csrBus.csrWe && m.csrBus.csrAddr == CsrName.crmd.addr

theorem step_crmd_of_stall (m : DtToMsBus) (extInt : BitVec 8) :
    (s.step m true extInt).crmd = s.crmd := rfl

theorem ofAddr_eq_crmd (a : BitVec 14) :
    CsrName.ofAddr a = some .crmd ↔ a = CsrName.crmd.addr := by
  constructor
  · intro h
    exact (CsrName.addr_ofAddr h).symm
  · intro h
    rw [h, CsrName.ofAddr_addr]

theorem plv_step {s : Csr} {m : DtToMsBus} (he : exceptEn m = false) (extInt : BitVec 8) :
    plv (s.step m false extInt).crmd =
      if writesCrmd m then plv (s.csrWdataTemp m) else plv s.crmd := by
  have hu : (s.step m false extInt).crmd = (s.update m false extInt).crmd := rfl
  rw [hu, update, if_neg (by simp), if_neg (by simp [he]), writesCrmd]
  by_cases hw : m.csrBus.csrWe = true
  · rw [if_pos hw]
    by_cases ha : m.csrBus.csrAddr = CsrName.crmd.addr
    · rw [if_pos (by simp [hw, ha]), (ofAddr_eq_crmd _).mpr ha]
      exact plv_write_crmd s _
    · rw [if_neg (by simp [ha])]
      cases hn : CsrName.ofAddr m.csrBus.csrAddr with
      | none => rfl
      | some n =>
        have hne : n ≠ .crmd := by
          rintro rfl
          exact ha ((ofAddr_eq_crmd _).mp hn)
        exact congrArg plv (write_crmd_of_ne hne s _)
  · rw [if_neg hw, if_neg (by simp [hw])]
    rfl

end Csr

end NeulaCpu.Rtl
