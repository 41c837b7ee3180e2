import NeulaCpu.Rtl.Csr

/-!
# Kernel instructions in user mode

The decoder flags a kernel instruction decoded at privilege level 3 with `excp_ipe`; the `csr` unit
resolves the vector at commit. The unit enters the handler for every vector that is not an `ertn`,
so a user-mode `csrrd`, `csrwr` or `csrxchg` traps whatever else is pending. The vector of a
user-mode `ertn` has both `excp_ipe` and `inst_ertn` set, and there the return wins unless
`excp_adef` is set too.
-/

namespace NeulaCpu.Rtl

open BitField (splice)

/-! ## Exception entry -/

/-- `s'` is `s` after exception entry for the instruction in `m`: the level and the interrupt enable
are saved and cleared, `ERA` gets the pc, and no other field is touched but the cause and, for an
address error, `BADV`. In particular no CSR write was performed and `CRMD` was not loaded from
`PRMD`. -/
structure EntersException (s s' : Csr) (m : DtToMsBus) : Prop where
  plv : Csr.plv s'.crmd = 0
  ie : Csr.ie s'.crmd = 0
  crmd_rest : s'.crmd.extractLsb' 3 29 = s.crmd.extractLsb' 3 29
  pplv : Csr.plv s'.prmd = Csr.plv s.crmd
  pie : Csr.ie s'.prmd = Csr.ie s.crmd
  prmd_rest : s'.prmd.extractLsb' 3 29 = s.prmd.extractLsb' 3 29
  ecode : s'.estat.extractLsb' 16 6 = (Csr.cause m).ecode
  esubcode : s'.estat.extractLsb' 22 9 = (Csr.cause m).esubcode
  estat_low : s'.estat.extractLsb' 0 16 = s.estat.extractLsb' 0 16
  estat_high : s'.estat.extractLsb' 31 1 = s.estat.extractLsb' 31 1
  era : s'.era = m.esPc
  badv : s'.badv = if (Csr.cause m).vaError then (Csr.cause m).badVa else s.badv
  others : ∀ n : CsrName, n ∉ [CsrName.crmd, .prmd, .estat, .era, .badv] → s'.read n = s.read n
  timerEn : s'.timerEn = s.timerEn

/-- The commit of `m`, in a cycle in which the memory side does not stall, takes the exception. -/
structure TrapsAtCommit (s : Csr) (m : DtToMsBus) (extInt : BitVec 8) : Prop where
  flush : Csr.exceptEn m = true
  newPc : s.newPc m = s.eentry
  entry : EntersException s (s.step m false extInt) m

namespace Csr

theorem step_of_entersHandler {s : Csr} {m : DtToMsBus} (extInt : BitVec 8)
    (he : exceptEn m = true) (h : entersHandler m.csrVec = true) :
    s.step m false extInt =
      { s.enter m with
        badv := if (cause m).vaError then (cause m).badVa else s.badv
        timer64 := s.timer64 + 1
        csrRdataR := s.csrRdata m } := by
  simp only [step, update, he, except, h, if_true]
  cases (cause m).vaError <;> simp [enter]

/-- The CSRs when an exception is taken. -/
theorem entersException_step {s : Csr} {m : DtToMsBus} (extInt : BitVec 8)
    (he : exceptEn m = true) (h : entersHandler m.csrVec = true) :
    EntersException s (s.step m false extInt) m := by
  rw [step_of_entersHandler extInt he h]
  constructor
  case plv =>
    show Csr.plv (splice (splice s.crmd 0 0#2) 2 0#1) = 0
    rw [plv_splice _ _ (by omega), plv_splice_self]
    rfl
  case ie => exact ie_splice_self _ _
  case crmd_rest =>
    show (splice (splice s.crmd 0 0#2) 2 0#1).extractLsb' 3 29 = _
    rw [BitField.extract_splice_of_disjoint _ _ _ _ (by omega) (Or.inr (by omega)),
      BitField.extract_splice_of_disjoint _ _ _ _ (by omega) (Or.inr (by omega))]
  case pplv =>
    show Csr.plv (splice (splice s.prmd 0 (Csr.plv s.crmd)) 2 (Csr.ie s.crmd)) = _
    rw [plv_splice _ _ (by omega), plv_splice_self]
  case pie => exact ie_splice_self _ _
  case prmd_rest =>
    show (splice (splice s.prmd 0 (Csr.plv s.crmd)) 2 (Csr.ie s.crmd)).extractLsb' 3 29 = _
    rw [BitField.extract_splice_of_disjoint _ _ _ _ (by omega) (Or.inr (by omega)),
      BitField.extract_splice_of_disjoint _ _ _ _ (by omega) (Or.inr (by omega))]
  case ecode =>
    show (splice (splice s.estat 16 (cause m).ecode) 22 (cause m).esubcode).extractLsb' 16 6 = _
    rw [BitField.extract_splice_of_disjoint _ _ _ _ (by omega) (Or.inl (by omega)),
      BitField.extract_splice_self _ _ _ (by omega)]
  case esubcode => exact BitField.extract_splice_self _ _ _ (by omega)
  case estat_low =>
    show (splice (splice s.estat 16 (cause m).ecode) 22 (cause m).esubcode).extractLsb' 0 16 = _
    rw [BitField.extract_splice_of_disjoint _ _ _ _ (by omega) (Or.inl (by omega)),
      BitField.extract_splice_of_disjoint _ _ _ _ (by omega) (Or.inl (by omega))]
  case estat_high =>
    show (splice (splice s.estat 16 (cause m).ecode) 22 (cause m).esubcode).extractLsb' 31 1 = _
    rw [BitField.extract_splice_of_disjoint _ _ _ _ (by omega) (Or.inr (by omega)),
      BitField.extract_splice_of_disjoint _ _ _ _ (by omega) (Or.inr (by omega))]
  case era => rfl
  case badv => rfl
  case others =>
    intro n hn
    cases n <;> first | rfl | simp at hn
  case timerEn => rfl

end Csr

/-! ## The vector of a kernel instruction in user mode -/

/-- The vector that reaches `csr` for a word decoded at level 3, with every other condition free. -/
def userVec (inst : Word) (excpAdef hasInt excpAle : Bool) : CsrVec :=
  { Decoder.csrVecL inst excpAdef 0b11#2 hasInt with excpAle := excpAle }

theorem userVec_any {inst : Word} (h : Decoder.kernelInst inst = true) (adef int ale : Bool) :
    (userVec inst adef int ale).any = true := by
  simp [userVec, Decoder.csrVecL, CsrVec.any, Decoder.excpIpe, h]

theorem entersHandler_userVec {inst : Word} (h : Decoder.kernelInst inst = true)
    (adef int ale : Bool) :
    Csr.entersHandler (userVec inst adef int ale) = (!Decoder.instErtn inst || adef) := by
  simp only [Csr.entersHandler, userVec_any h, Bool.true_and]
  rfl

/-- A kernel instruction decoded at level 3 traps, in every state and whatever else is pending,
exactly when it is not an `ertn` or comes with a fetch address error. -/
theorem kernelInst_traps_iff (inst : Word) (adef int ale : Bool)
    (h : Decoder.kernelInst inst = true) :
    (∀ (s : Csr) (m : DtToMsBus) (extInt : BitVec 8), m.csrVec = userVec inst adef int ale →
      TrapsAtCommit s m extInt) ↔ (Decoder.instErtn inst = false ∨ adef = true) := by
  have hh := entersHandler_userVec h adef int ale
  constructor
  · intro htrap
    by_contra hc
    push Not at hc
    -- An `ertn` without `excp_adef` goes to `ERA`, which need not be `EENTRY`.
    let m : DtToMsBus := { DtToMsBus.zero with csrVec := userVec inst adef int ale }
    have hp := (htrap { Csr.reset 0 with era := 4 } m 0 rfl).newPc
    have hertn : Decoder.instErtn inst = true := by simpa using hc.1
    have hm : m.csrVec.instErtn = true := hertn
    have hno : Csr.entersHandler m.csrVec = false := by
      show Csr.entersHandler (userVec inst adef int ale) = false
      rw [hh]
      simp [hc]
    simp [Csr.newPc, hno, hm] at hp
  · intro hc s m extInt hv
    have he : Csr.exceptEn m = true := by
      rw [Csr.exceptEn, hv, userVec_any h]
    have hen : Csr.entersHandler m.csrVec = true := by
      rw [hv, hh]
      rcases hc with hc | hc <;> simp [hc]
    refine ⟨he, ?_, Csr.entersException_step extInt he hen⟩
    simp [Csr.newPc, hen]

/-- `csrwr $r0, CRMD` in user mode. -/
theorem kernelInst_traps_iff_csrwr :
    Decoder.kernelInst 0x04000020 = true ∧
    TrapsAtCommit { Csr.reset 0 with crmd := 0xb }
      { DtToMsBus.zero with csrVec := userVec 0x04000020 false true false } 0 :=
  ⟨by decide,
    (kernelInst_traps_iff 0x04000020 false true false (by decide)).mpr (by decide) _ _ _ rfl⟩

/-- A user-mode state: level 3, `PRMD` clear. -/
def userCsr : Csr :=
  { Csr.reset 0 with
    crmd := 0xb
    eentry := 0x1c008000
    era := 0x1c000100 }

/-- `ertn` at `0x1c000200`, decoded at level 3. -/
def userErtn : DtToMsBus :=
  { DtToMsBus.zero with
    csrVec := userVec 0x06483800 false false false
    esPc := 0x1c000200
    inst := 0x06483800 }

/-- `ertn` in user mode returns: with `PRMD` clear the program goes on at `ERA`, at level 0. -/
theorem userErtn_returns :
    Decoder.kernelInst 0x06483800 = true ∧ userErtn.csrVec.excpIpe = true ∧
      userCsr.newPc userErtn = userCsr.era ∧ Csr.plv userCsr.crmd = 3 ∧
      Csr.plv (userCsr.step userErtn false 0).crmd = 0 ∧
      (userCsr.step userErtn false 0).era ≠ userErtn.esPc ∧ ¬ TrapsAtCommit userCsr userErtn 0 := by
  refine ⟨by decide, by decide, by decide, by decide, by decide, by decide, fun h => ?_⟩
  exact absurd h.newPc (by decide)

end NeulaCpu.Rtl
