import NeulaCpu.Rtl.AxiCtrl
import NeulaCpu.Lib.Clocked

/-!
# A round of the bus controller

`axi_ctrl_v5` records the requests of its three clients together and acknowledges them together, one
round after the other. A ledger beside the controller lists the handshakes of a round on each
channel. At the acknowledge it must list every recorded request once and nothing else. The write
machine serves one write in a round: a line write-back takes precedence, and an uncached store that
was recorded with it is acknowledged without having been on the bus. The line write-back itself
relies on how the slave raises `awready`.
-/

namespace NeulaCpu.Rtl

/-! ## Handshakes -/

/-- A read burst: the address handshake and the beats since. -/
structure Burst where
  addr : Word
  len : BitVec 4
  beats : List Word
deriving DecidableEq, Repr

structure AwReq where
  addr : Word
  len : BitVec 4
  size : BitVec 3
deriving DecidableEq, Repr

structure WBeat where
  data : Word
  strb : BitVec 4
  last : Bool
deriving DecidableEq, Repr

/-- What has been on the write channels: addresses, data, and the number of responses. -/
structure WriteLog where
  aw : List AwReq
  w : List WBeat
  b : ℕ
deriving DecidableEq, Repr

def WriteLog.empty : WriteLog := ⟨[], [], 0⟩

/-- Add a beat to the burst under way, which is the first of the list. -/
def addBeat (reads : List Burst) (x : Word) : List Burst :=
  match reads with
  | [] => []
  | b :: rest => { b with beats := b.beats ++ [x] } :: rest

/-- The bursts after a cycle, the latest first. -/
def AxiRead.logReads (s : AxiRead) (i : AxiIn) (reads : List Burst) : List Burst :=
  let reads := if s.rready && i.rvalid then addBeat reads i.rdata else reads
  if s.arvalid && i.arready then ⟨s.araddr, s.arlen, []⟩ :: reads else reads

def AxiWrite.logWrites (s : AxiWrite) (i : AxiIn) (l : WriteLog) : WriteLog where
  aw := if s.awvalid && i.awready then l.aw ++ [⟨s.awaddr, s.awlen, s.awsize⟩] else l.aw
  w := if s.wvalid && i.wready then l.w ++ [⟨s.wdata, s.wstrb, s.wlast⟩] else l.w
  b := if s.bready && i.bvalid then l.b + 1 else l.b

/-! ## What a round has to do -/

namespace Line

/-- The words of a line in the order of a burst. -/
def words (l : Line) : List Word := List.ofFn fun k : Fin 16 => l (BitVec.ofFin k)

/-- The beats of a line write-back. -/
def beats (l : Line) : List WBeat :=
  List.ofFn fun k : Fin 16 => ⟨l (BitVec.ofFin k), 0b1111, k == 15⟩

end Line

namespace AxiReq

variable (q : AxiReq)

def icacheReads (line : Line) : List Burst :=
  if q.icacheRe then [⟨q.icacheRaddr, 0xf, line.words⟩] else []

/-- The bursts of the requests, given what they returned; the latest first. -/
def reads (icacheLine dcacheLine : Line) (word : Word) : List Burst :=
  (if q.uncacheRead then [⟨q.uncacheAddr, 0, [word]⟩] else []) ++
    ((if q.dcacheRe then [⟨q.dcacheRaddr, 0xf, dcacheLine.words⟩] else []) ++
      q.icacheReads icacheLine)

/-- The writes of the requests: the write-back of `old` and the uncached store. -/
def writes (old : Line) : WriteLog where
  aw := (if q.dcacheWe then [⟨q.dcacheWaddr, 0xf, 0b010⟩] else []) ++
    (if q.uncacheWe != 0 then [⟨q.uncacheAddr, 0, AxiWrite.storeSize q.uncacheWe⟩] else [])
  w := (if q.dcacheWe then old.beats else []) ++
    (if q.uncacheWe != 0 then [⟨q.uncacheWdata, q.uncacheWe, true⟩] else [])
  b := (if q.dcacheWe then 1 else 0) + (if q.uncacheWe != 0 then 1 else 0)

/-- What the clients never ask for: a write-back without a miss, a store mask without a request, an
uncached read together with a miss of `dcache`. -/
@[mk_iff] structure FromClients : Prop where
  writeBack : q.dcacheWe = true → q.dcacheRe = true
  store : q.uncacheWe ≠ 0 → q.uncacheEn = true
  single : q.uncacheRead = true → q.dcacheRe = false

end AxiReq

/-- The read machine does not have to wait in this cycle. -/
def AxiRead.moves (s : AxiRead) (i : AxiIn) (stageW : StageW) : Bool :=
  match s.stage with
  | .s3 | .s6 | .s8 => i.arready
  | .s4 | .s7 | .s9 => i.rvalid
  | .s10 => stageW == .w10 || stageW == .w0
  | _ => true

/-- The write machine is at work and does not have to wait in this cycle. -/
def AxiWrite.moves (s : AxiWrite) (i : AxiIn) : Bool :=
  match s.stageW with
  | .w0 | .w10 => false
  | .w1 => i.awready || i.wready
  | .w2 | .w5 => i.wready
  | .w3 | .w6 => i.bvalid
  | .w4 => i.awready

/-- One of the two machines gets on. -/
def AxiCtrl.served (s : AxiCtrl) (i : AxiIn) : Bool := s.rd.moves i s.wr.stageW || s.wr.moves i

/-- A round: the requests that were recorded, the line that was captured for a write-back, and since
the cycle that recorded them the handshakes and the number of cycles in which the slave did its
part. -/
structure Round where
  req : AxiReq
  old : Line
  reads : List Burst
  writes : WriteLog
  served : ℕ

def Round.observe (g : Round) (s : AxiCtrl) (i : AxiIn) : Round where
  req := if s.rd.stage = .s0 then i.req else g.req
  old := if s.rd.stage = .s1 then i.dcacheCachelineOld else g.old
  reads := s.rd.logReads i (if s.rd.stage = .s0 then [] else g.reads)
  writes := s.wr.logWrites i (if s.rd.stage = .s0 then .empty else g.writes)
  served := if s.rd.stage = .s0 then 0 else g.served + (s.served i).toNat

/-- The bus has seen every request of the round once and nothing else, and the clients get what was
read. -/
structure Round.Done (g : Round) (s : AxiRead) : Prop where
  reads : g.reads = g.req.reads s.icacheCachelineNew s.dcacheCachelineNew s.uncacheRdata
  writes : g.writes = g.req.writes g.old

def AxiRead.acknowledges (s : AxiRead) : Bool :=
  s.icacheRefresh || s.dcacheRefresh || s.uncacheRefresh

/-- Requests are acknowledged only when they have been carried out, each to its own client; the
round is over when the slave has done its part; and between two rounds nothing is on the bus. -/
structure Round.CarriedOut (g : Round) (s : AxiCtrl) : Prop where
  done : s.rd.acknowledges = true → g.Done s.rd
  matching : s.rd.acknowledges = true → s.rd.icacheRefresh = g.req.icacheRe ∧
    s.rd.dcacheRefresh = g.req.dcacheRe ∧ s.rd.uncacheRefresh = g.req.uncacheEn
  ends : s.rd.stage ≠ .s0 → g.served ≤ 65
  quiet : s.rd.stage = .s0 ∨ s.rd.stage = .off →
    s.rd.arvalid = false ∧ s.rd.rready = false ∧ s.wr.awvalid = false ∧ s.wr.wvalid = false ∧
      s.wr.bready = false

/-! ## The slave, and when a round goes well -/

/-- The slave ends a read burst with its last beat, and answers a write only after its last word. -/
@[mk_iff] structure SlaveOk (g : Round) (s : AxiCtrl) (i : AxiIn) : Prop where
  read : s.rd.rready = true → i.rvalid = true →
    g.reads.head?.all (fun b => i.rlast == (b.beats.length == b.len.toNat)) = true
  write : s.wr.bready = true → i.bvalid = true → g.writes.b < g.writes.w.countP WBeat.last

/-- A write-back and an uncached store are not accepted in the same round. -/
def AxiCtrl.OneWrite (s : AxiCtrl) (i : AxiIn) : Prop :=
  s.rd.stage = .s0 → i.req.dcacheWe = true → i.req.uncacheWe = 0

/-- While a line is written back, `awready` does not come while a word of it has to wait, since it
would be replaced by the next one, and the address is taken before the last word is presented, since
nothing else takes it off the channel. -/
@[mk_iff] structure AxiWrite.Paced (s : AxiWrite) (i : AxiIn) : Prop where
  waits : s.stageW = .w1 → s.wvalid = true → i.awready = true → i.wready = true
  address : s.stageW = .w1 → s.dcacheOffsetW = 0b1111 → i.wready = true → s.awvalid = true →
    i.awready = true

structure AxiRun where
  unset : AxiUnset
  inp : ℕ → AxiIn

namespace AxiRun

def start (r : AxiRun) : AxiCtrl := .reset r.unset

def ctrl (r : AxiRun) (n : ℕ) : AxiCtrl := Clocked.run AxiCtrl.step r.start r.inp n

/-- Before the first round. -/
def opening (r : AxiRun) : Round := ⟨r.unset.buffer, r.unset.dcacheWdataBuffer, [], .empty, 0⟩

def round (r : AxiRun) (n : ℕ) : Round :=
  Clocked.ghost AxiCtrl.step Round.observe r.start r.opening r.inp n

end AxiRun

/-! ## Lines and bursts -/

theorem toNat_succ_offset {k : BitVec 4} (hk : k ≠ 0b1111) : (k + 1).toNat = k.toNat + 1 := by
  revert k
  decide

namespace Line

variable (l : Line)

theorem length_words : l.words.length = 16 := List.length_ofFn

theorem length_beats : l.beats.length = 16 := List.length_ofFn

theorem getElem?_words (k : BitVec 4) : l.words[k.toNat]? = some (l k) := by
  rw [words, List.getElem?_ofFn, dif_pos k.isLt]
  rfl

theorem getElem?_beats (k : BitVec 4) : l.beats[k.toNat]? = some ⟨l k, 0b1111, k == 0b1111⟩ := by
  rw [beats, List.getElem?_ofFn, dif_pos k.isLt]
  congr 2
  revert k
  decide

/-- Receiving one more word of a burst. -/
theorem words_update_take (k : BitVec 4) (x : Word) :
    (words (Function.update l k x)).take (k.toNat + 1) = l.words.take k.toNat ++ [x] := by
  have hlow : (words (Function.update l k x)).take k.toNat = l.words.take k.toNat := by
    apply List.ext_getElem?
    intro j
    rw [List.getElem?_take, List.getElem?_take]
    split_ifs with hj
    · have hlt : j < 16 := lt_trans hj k.isLt
      have hne : BitVec.ofFin (⟨j, hlt⟩ : Fin 16) ≠ k := by
        rintro rfl
        exact absurd hj (lt_irrefl _)
      rw [words, words, List.getElem?_ofFn, List.getElem?_ofFn, dif_pos hlt, dif_pos hlt,
        Function.update_of_ne hne]
    · rfl
  rw [List.take_add_one, hlow, getElem?_words, Function.update_self]
  rfl

theorem take_words : l.words.take 16 = l.words := List.take_of_length_le (length_words l).le

theorem take_beats : l.beats.take 16 = l.beats := List.take_of_length_le (length_beats l).le

/-- Presenting one more word of a write-back. -/
theorem beats_take_succ (k : BitVec 4) :
    l.beats.take (k.toNat + 1) = l.beats.take k.toNat ++ [⟨l k, 0b1111, k == 0b1111⟩] := by
  rw [List.take_add_one, getElem?_beats]
  rfl

/-- Only the sixteenth beat is marked as the last. -/
theorem countP_last_take {n : ℕ} (hn : n ≤ 15) : (l.beats.take n).countP WBeat.last = 0 := by
  rw [List.countP_eq_zero]
  intro x hx
  obtain ⟨j, hj, rfl⟩ := List.mem_take_iff_getElem.mp hx
  simp only [beats, List.getElem_ofFn, beq_iff_eq, Fin.ext_iff]
  show j ≠ 15
  omega

theorem countP_last_beats : l.beats.countP WBeat.last = 1 := by
  have hsplit := l.beats_take_succ 0b1111
  rw [← l.take_beats, show (16 : ℕ) = (0b1111 : BitVec 4).toNat + 1 from rfl, hsplit,
    List.countP_append, l.countP_last_take (by decide)]
  rfl

end Line

end NeulaCpu.Rtl
