import NeulaCpu.Lib.ByteStore
import NeulaCpu.Lib.Clocked
import NeulaCpu.Lib.Ring

/-!
# The transmit side of the UART

`uart.c`: a ring of `UART_TX_BUF_SIZE` bytes with 64-bit counters that are never reset. `uartputc`
holds `uart_tx_lock` except while it sleeps on a full ring, so a call is a sequence of turns;
`uartintr` takes the lock for `uartstart`, which gives bytes to the transmitter as long as it is
idle. The transmitter may become idle at any time, also between two bytes of `uartstart`, and raises
an interrupt when it does; input raises interrupts too, at any time. `uartputc_sync` takes no lock:
here it may write past the ring at any time. A sleeping process may also be woken by `kill`. After a
panic the first call keeps the lock for ever; one that was asleep does not look at `panicked` again.
-/

namespace NeulaCpu.Xv6

open ByteStore (Byte)
open Function

def uartTxBufSize : ℕ := 32

/-- A call of `uartputc`: about to take the lock, asleep, about to take the lock again, or done. -/
inductive PutcCall
  | waiting (ch : Byte)
  | asleep (ch : Byte)
  | woken (ch : Byte)
  | returned (ch : Byte)
deriving DecidableEq

/-- The ring, the transmitter, whether it has raised an interrupt since `uartintr` last took the
lock, whether a call spins with the lock, and the calls by number; with the bytes put into the ring
and those given to the transmitter. -/
structure UartSys where
  buf : ℕ → Byte
  r : BitVec 64
  w : BitVec 64
  busy : Bool
  pending : Bool
  panicked : Bool
  spinning : Bool
  calls : ℕ → Option PutcCall
  put : List (ℕ × Byte)
  sent : List Byte

/-- `ready k` says that the transmitter becomes idle before the `k`th look at `LSR`. -/
inductive UartEvent
  | call (c : ℕ) (ch : Byte)
  | turn (c : ℕ) (ready : ℕ → Bool)
  | kill (c : ℕ)
  | sync
  | idle
  | intr (ready : ℕ → Bool)
  | panic

namespace UartSys

def init (junk : ℕ → Byte) : UartSys :=
  ⟨junk, 0, 0, false, false, false, false, fun _ => none, [], []⟩

variable (s : UartSys)

/-- The transmitter becomes idle, if `ready`, and raises an interrupt. -/
def transmit (ready : Bool) : UartSys :=
  { s with busy := s.busy && !ready, pending := s.pending || s.busy && ready }

/-- `wakeup(&uart_tx_r)`. -/
def wakeup : UartSys :=
  { s with
    calls := fun c =>
      match s.calls c with
      | some (.asleep ch) => some (.woken ch)
      | call => call }

/-- `c = uart_tx_buf[uart_tx_r % UART_TX_BUF_SIZE]`. -/
def next : Byte := s.buf (s.r.toNat % uartTxBufSize)

/-- The next byte goes to the transmitter. -/
def send : UartSys := { s with r := s.r + 1, busy := true, sent := s.sent ++ [s.next] }.wakeup

/-- The loop of `uartstart`, at most `fuel` rounds. -/
def uartstart (ready : ℕ → Bool) : ℕ → ℕ → UartSys → UartSys
  | 0, _, s => s
  | fuel + 1, k, s =>
    if s.w = s.r then s
    else if (s.transmit (ready k)).busy then s.transmit (ready k)
    else uartstart ready fuel (k + 1) (s.transmit (ready k)).send

/-- A turn of `uartputc`. -/
def uartputc (c : ℕ) (ch : Byte) (ready : ℕ → Bool) : UartSys :=
  if s.w = s.r + BitVec.ofNat 64 uartTxBufSize then
    { s with calls := update s.calls c (some (.asleep ch)) }
  else uartstart ready (uartTxBufSize + 1) 0
    { s with
      buf := update s.buf (s.w.toNat % uartTxBufSize) ch
      w := s.w + 1
      calls := update s.calls c (some (.returned ch))
      put := s.put ++ [(c, ch)] }

/-- An event that cannot happen changes nothing. -/
def step : UartEvent → UartSys
  | .call c ch =>
    if s.calls c = none then { s with calls := update s.calls c (some (.waiting ch)) } else s
  | .turn c ready =>
    match s.spinning, s.calls c with
    | false, some (.waiting ch) =>
      if s.panicked then { s with spinning := true } else s.uartputc c ch ready
    | false, some (.woken ch) => s.uartputc c ch ready
    | _, _ => s
  | .kill c =>
    match s.calls c with
    | some (.asleep ch) => { s with calls := update s.calls c (some (.woken ch)) }
    | _ => s
  | .sync => { s with busy := true }
  | .idle => s.transmit true
  | .intr ready =>
    -- `uartintr` does not ask what the interrupt is for
    if s.spinning then s else uartstart ready (uartTxBufSize + 1) 0 { s with pending := false }
  | .panic => { s with panicked := true }

/-! ## The ring -/

def Holds (s : UartSys) : Prop := Ring.Holds uartTxBufSize s.buf s.r s.w s.sent (s.put.map Prod.snd)

theorem size_lt : uartTxBufSize < 2 ^ 64 := by decide

theorem size_dvd : uartTxBufSize ∣ 2 ^ 64 := by decide

variable {s}

/-- What `uartstart` does: it stops when there is nothing to send or the transmitter is busy, and
unless it has sent nothing no call is asleep. -/
structure Started (s t : UartSys) : Prop where
  holds : t.Holds
  w : t.w = s.w
  stop : t.r ≠ t.w → t.busy = true
  put : t.put = s.put
  returned : ∀ c ch, t.calls c = some (.returned ch) ↔ s.calls c = some (.returned ch)
  asleep : ∀ c ch, t.calls c = some (.asleep ch) → s.calls c = some (.asleep ch) ∧ t.r = s.r

theorem wakeup_returned {c : ℕ} {ch : Byte} :
    s.wakeup.calls c = some (.returned ch) ↔ s.calls c = some (.returned ch) := by
  simp only [wakeup]
  split <;> simp_all

theorem wakeup_asleep {c : ℕ} {ch : Byte} : s.wakeup.calls c ≠ some (.asleep ch) := by
  simp only [wakeup]
  split <;> simp_all

theorem uartstart_started (ready : ℕ → Bool) {fuel k : ℕ} (h : s.Holds)
    (hfuel : s.put.length < s.sent.length + fuel) : Started s (uartstart ready fuel k s) := by
  induction fuel generalizing s k with
  | zero =>
    have hle := h.length_le
    rw [List.length_map] at hle
    omega
  | succ fuel ih =>
    rw [uartstart]
    split_ifs with hempty hbusy
    · exact ⟨h, rfl, fun hne => absurd hempty.symm hne, rfl, fun _ _ => Iff.rfl, fun _ _ hc =>
        ⟨hc, rfl⟩⟩
    · exact ⟨h, rfl, fun _ => hbusy, rfl, fun _ _ => Iff.rfl, fun _ _ hc => ⟨hc, rfl⟩⟩
    · have hne : s.sent.length ≠ (s.put.map Prod.snd).length :=
        fun he => hempty ((h.empty_iff size_lt).mpr he).symm
      have hsend : (s.transmit (ready k)).send.Holds := Ring.Holds.pop h size_dvd hne
      have hlen : (s.transmit (ready k)).send.sent.length = s.sent.length + 1 :=
        List.length_append ..
      have t := @ih (s.transmit (ready k)).send (k + 1) hsend
        (by rw [hlen]; show s.put.length < _; omega)
      exact ⟨t.holds, t.w, t.stop, t.put, fun c ch => (t.returned c ch).trans wakeup_returned,
        fun c ch hc => absurd (t.asleep c ch hc).1 wakeup_asleep⟩

/-! ## Runs -/

structure UartInv (s : UartSys) : Prop where
  holds : s.Holds
  served : s.r ≠ s.w → s.busy = true ∨ s.pending = true
  full : ∀ c ch, s.calls c = some (.asleep ch) → s.w = s.r + BitVec.ofNat 64 uartTxBufSize
  once : (s.put.map Prod.fst).Nodup
  put : ∀ c ch, (c, ch) ∈ s.put ↔ s.calls c = some (.returned ch)

theorem uartInv_init (junk : ℕ → Byte) : UartInv (init junk) :=
  ⟨Ring.holds_nil uartTxBufSize junk, fun h => absurd rfl h, fun _ _ h =>
    absurd h (by simp [init]), List.nodup_nil, fun _ _ => by simp [init]⟩

namespace UartInv

/-- A call goes from one wait to another; it may fall asleep only on a full ring. -/
theorem setCall (h : UartInv s) {c : ℕ} {call : PutcCall}
    (hc : ∀ ch, s.calls c ≠ some (.returned ch)) (hr : ∀ ch, call ≠ .returned ch)
    (ha : ∀ ch, call = .asleep ch → s.w = s.r + BitVec.ofNat 64 uartTxBufSize) :
    UartInv { s with calls := update s.calls c (some call) } := by
  refine ⟨h.holds, h.served, fun d ch => ?_, h.once, fun d ch => ?_⟩
  · rcases eq_or_ne d c with rfl | hne
    · simpa using ha ch
    · simpa [hne] using h.full d ch
  · rcases eq_or_ne d c with rfl | hne
    · simpa [hr ch, h.put] using hc ch
    · simpa [hne] using h.put d ch

/-- After `uartstart`, with the lock about to be released. -/
theorem started {t : UartSys} (h : Started s t)
    (hfull : ∀ c ch, s.calls c = some (.asleep ch) → s.w = s.r + BitVec.ofNat 64 uartTxBufSize)
    (once : (s.put.map Prod.fst).Nodup)
    (hput : ∀ c ch, (c, ch) ∈ s.put ↔ s.calls c = some (.returned ch)) :
    UartInv t := by
  refine ⟨h.holds, fun hne => Or.inl (h.stop hne), fun c ch hc => ?_, h.put ▸ once, fun c ch => ?_⟩
  · obtain ⟨hs, hr⟩ := h.asleep c ch hc
    rw [h.w, hr]
    exact hfull c ch hs
  · rw [h.put, hput, h.returned]

theorem uartputc (h : UartInv s) {c : ℕ} (hnot : ∀ ch, s.calls c ≠ some (.returned ch)) (ch : Byte)
    (ready : ℕ → Bool) : UartInv (s.uartputc c ch ready) := by
  rw [UartSys.uartputc]
  split_ifs with hfull
  · exact h.setCall hnot (by simp) fun _ _ => hfull
  · have hroom : (s.put.map Prod.snd).length < s.sent.length + uartTxBufSize :=
      lt_of_le_of_ne h.holds.room fun he => hfull ((h.holds.full_iff size_lt).mpr he)
    have hpush := Ring.Holds.push h.holds size_dvd hroom ch
    refine started (uartstart_started ready (s := { s with
        buf := update s.buf (s.w.toNat % uartTxBufSize) ch
        w := s.w + 1
        calls := update s.calls c (some (.returned ch))
        put := s.put ++ [(c, ch)] }) ?_ ?_) (fun d b hd => ?_) ?_ fun d b => ?_
    · simpa [Holds] using hpush
    · simp at hroom ⊢
      omega
    · -- Nobody sleeps while there is room.
      rcases eq_or_ne d c with rfl | hne
      · simp at hd
      · exact absurd (h.full d b (by simpa [hne] using hd)) hfull
    · have hnew : c ∉ s.put.map Prod.fst := by
        intro hmem
        obtain ⟨⟨_, b⟩, hp, rfl⟩ := List.mem_map.mp hmem
        exact hnot b ((h.put _ b).mp hp)
      simpa [List.nodup_append, h.once] using fun a b hp he =>
        hnew (List.mem_map.mpr ⟨(a, b), hp, he⟩)
    · rcases eq_or_ne d c with rfl | hne
      · simpa [h.put, hnot b] using eq_comm
      · simpa [hne] using h.put d b

theorem step (h : UartInv s) (e : UartEvent) : UartInv (s.step e) := by
  cases e with
  | call c ch =>
    rw [UartSys.step]
    split_ifs with hc
    · exact h.setCall (by simp [hc]) (by simp) (by simp)
    · exact h
  | turn c ready =>
    simp only [UartSys.step]
    split
    · next ch _ hc =>
      split_ifs
      · exact { h with }
      · exact h.uartputc (by simp [hc]) ch ready
    · next ch _ hc => exact h.uartputc (by simp [hc]) ch ready
    · exact h
  | kill c =>
    simp only [UartSys.step]
    split
    · next ch hc => exact h.setCall (by simp [hc]) (by simp) (by simp)
    · exact h
  | sync => exact { h with served := fun _ => Or.inl rfl }
  | idle =>
    exact { h with
      served := fun hne => .inr (by simpa [UartSys.step, transmit, or_comm] using h.served hne) }
  | intr ready =>
    rw [UartSys.step]
    split_ifs
    · exact h
    · have hroom := h.holds.room
      rw [List.length_map] at hroom
      exact started (uartstart_started ready (s := { s with pending := false }) h.holds
        (by show _ < _; simp; omega))
        h.full h.once h.put
  | panic => exact { h with }

end UartInv

/-- In every run of writers, interrupts and synchronous output: the ring has at most `uartTxBufSize`
bytes; the transmitter gets the bytes of the calls of `uartputc` in the order in which they were put
into the ring, and each call that has returned has put in its byte, once; while a byte is in the
ring, the transmitter is busy or its interrupt is still to be handled; and a call is asleep only
while the ring is full. -/
theorem uart_output (junk : ℕ → Byte) (es : ℕ → UartEvent) (n : ℕ) :
    let s := Clocked.run step (init junk) es n
    (s.w - s.r).toNat ≤ uartTxBufSize ∧ s.sent <+: s.put.map Prod.snd ∧
    (∀ k b, s.sent.length ≤ k → (s.put.map Prod.snd)[k]? = some b → s.buf (k % uartTxBufSize) = b) ∧
    (s.put.map Prod.fst).Nodup ∧ (∀ c ch, (c, ch) ∈ s.put ↔ s.calls c = some (.returned ch)) ∧
    (s.sent.length ≠ s.put.length → s.busy = true ∨ s.pending = true) ∧
    ∀ c ch, s.calls c = some (.asleep ch) → s.put.length = s.sent.length + uartTxBufSize := by
  intro s
  have h : UartInv s := Clocked.invariant (A := fun _ _ => True) (uartInv_init junk) (fun _ e h _ =>
    h.step e) n
    fun _ _ => trivial
  refine ⟨?_, h.holds.fifo, h.holds.slots, h.once, h.put, fun hne => h.served fun he => hne ?_,
    fun c ch hc => ?_⟩
  · have hroom := h.holds.room
    rw [h.holds.toNat_sub size_lt]
    omega
  · simpa using (h.holds.empty_iff size_lt).mp he
  · simpa using (h.holds.full_iff size_lt).mp (h.full c ch hc)

end UartSys

end NeulaCpu.Xv6
