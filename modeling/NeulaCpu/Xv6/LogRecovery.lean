import NeulaCpu.Xv6.LogDisk

/-!
# Crash atomicity of the log

A transaction is what the operations between two commits have handed to `log_write`. It counts as
committed when the first `write_head` of its commit has reached the disk. The result is that
whenever the log is at rest after a boot, whatever crashes there were, the blocks outside the log
have the contents that the committed transactions leave behind, each of them whole. What carries it
is that at every moment the disk is recoverable: the blocks that the header on the disk names are in
the log as they should be, and all other blocks are in place.
-/

namespace NeulaCpu.Xv6

open ByteStore Function

/-! ## Transactions -/

/-- The disk after a list of block writes. -/
def writes (ws : List (ℕ × Block)) (d : ℕ → Block) : ℕ → Block :=
  ws.foldl (fun d w => update d w.1 w.2) d

/-- The committed transactions, and the block writes of the one that is being gathered. -/
structure History where
  txns : List (List (ℕ × Block))
  pending : List (ℕ × Block)

namespace History

variable (h : History) (d₀ : ℕ → Block)

/-- What the committed transactions leave behind. -/
def contents : ℕ → Block := h.txns.foldl (fun d ws => writes ws d) d₀

/-- What the operations see. -/
def view : ℕ → Block := writes h.pending (h.contents d₀)

def observe (s : LogDisk) : DiskEvent → History
  | .logWrite b data =>
    match s.log.logWrite b with
    | .ok _ => { h with pending := h.pending ++ [(b, data)] }
    | .error _ => h
  | .tick => if s.phase = .writeHead then ⟨h.txns ++ [h.pending], []⟩ else h
  | .crash => { h with pending := [] }
  | _ => h

theorem contents_commit : (⟨h.txns ++ [h.pending], []⟩ : History).contents d₀ = h.view d₀ := by
  simp only [contents, view, List.foldl_append, List.foldl_cons, List.foldl_nil]

theorem view_of_pending (hp : h.pending = []) : h.view d₀ = h.contents d₀ := by
  rw [view, hp]
  rfl

theorem view_concat (b : ℕ) (data : Block) :
      ({ h with pending := h.pending ++ [(b, data)] } : History).view d₀ =
          update (h.view d₀) b data := by
  simp only [view, contents, writes, List.foldl_append, List.foldl_cons, List.foldl_nil]

end History

/-! ## The header block -/

theorem getHead_putHead (hb : Block) {lh : List ℕ} (hlen : lh.length < 2 ^ 32)
    (hlt : ∀ b ∈ lh, b < 2 ^ 32) : getHead (putHead hb lh) = lh := by
  have hwords :
    words (putHead hb lh) 0 (BitVec.ofNat 32 lh.length :: lh.map (BitVec.ofNat 32)).length =
    BitVec.ofNat 32 lh.length :: lh.map (BitVec.ofNat 32) :=
    words_putWords_self
  rw [List.length_cons, words_succ, List.cons.injEq, List.length_map] at hwords
  have hn : (word32 (putHead hb lh) 0).toNat = lh.length := by
    rw [hwords.1, BitVec.toNat_ofNat, Nat.mod_eq_of_lt hlen]
  rw [getHead, hn, hwords.2, List.map_map]
  conv_rhs => rw [← List.map_id lh]
  refine List.map_congr_left fun b hb' => ?_
  simp only [Function.comp_apply, BitVec.toNat_ofNat, id_eq]
  exact Nat.mod_eq_of_lt (hlt b hb')

/-! ## Buffers -/

namespace LogDisk

variable {s : LogDisk} {b c : ℕ} {data : Block} {Q : ℕ → Block → Prop}

theorem content_of_none (h : s.cache b = none) : s.content b = s.disk b := by
  rw [content, h]
  rfl

theorem refcnt_of_none (h : s.cache b = none) : s.refcnt b = 0 := by
  rw [refcnt, h]
  rfl

@[simp] theorem refcnt_bread : (s.bread b).refcnt c = s.refcnt c := by
  by_cases hc : c = b
  · subst hc
    simp [bread, setBuf, refcnt]
  · simp [bread, setBuf, refcnt, update_of_ne hc]

@[simp] theorem refcnt_bwrite : (s.bwrite b data).refcnt c = s.refcnt c := by
  by_cases hc : c = b
  · subst hc
    simp [bwrite, setBuf, refcnt]
  · simp [bwrite, setBuf, refcnt, update_of_ne hc]

theorem disk_bwrite_self : (s.bwrite b data).disk b = data := by
  simp only [bwrite, update_self]

theorem disk_bwrite_of_ne (h : c ≠ b) : (s.bwrite b data).disk c = s.disk c := by
  simp only [bwrite, update_of_ne h]

theorem cache_bunpin {buf : Buf} (h : (s.bwrite b data |>.bunpin b).cache c = some buf) :
    ∃ buf', (s.bwrite b data).cache c = some buf' ∧ buf.data = buf'.data := by
  by_cases hc : c = b
  · subst hc
    simp only [bunpin, setBuf, update_self, Option.some.injEq] at h
    refine ⟨⟨data, s.refcnt c⟩, by simp only [bwrite, setBuf, update_self], ?_⟩
    rw [← h]
    simp [bwrite, setBuf, content]
  · simp only [bunpin, setBuf, update_of_ne hc] at h
    exact ⟨buf, h, rfl⟩

/-- Every valid buffer has data as `Q` says. -/
def Cached (s : LogDisk) (Q : ℕ → Block → Prop) : Prop :=
  ∀ c buf, s.cache c = some buf → Q c buf.data

namespace Cached

theorem setBuf (h : ∀ c buf, c ≠ b → s.cache c = some buf → Q c buf.data) (hb : Q b data) (n : ℕ) :
    (s.setBuf b data n).Cached Q := by
  intro c buf hc
  by_cases hcb : c = b
  · subst hcb
    simp only [LogDisk.setBuf, update_self, Option.some.injEq] at hc
    rw [← hc]
    exact hb
  · simp only [LogDisk.setBuf, update_of_ne hcb] at hc
    exact h c buf hcb hc

theorem content (h : s.Cached Q) (hb : s.cache b = none → Q b (s.disk b)) : Q b (s.content b) := by
  cases hc : s.cache b with
  | none =>
    rw [content_of_none hc]
    exact hb hc
  | some buf =>
    rw [LogDisk.content, hc]
    exact h b buf hc

theorem bread (h : s.Cached Q) (hb : s.cache b = none → Q b (s.disk b)) : (s.bread b).Cached Q :=
  setBuf (fun c buf _ => h c buf) (h.content hb) _

/-- A write of block `b`, after which the buffers are good in the sense of another `Q`. -/
theorem bwrite {R : ℕ → Block → Prop} (h : s.Cached Q) (hR : ∀ c x, c ≠ b → Q c x → R c x)
    (hb : R b data) : (s.bwrite b data).Cached R :=
  setBuf (fun c buf hne hc => hR c _ hne (h c buf hc)) hb _

end Cached

end LogDisk

/-! ## Recoverable disks -/

section

variable (sb : Superblock)

/-- Blocks outside the log region. -/
def Outside (b : ℕ) : Prop := b < sb.logstart ∨ sb.logstart + sb.nlog ≤ b

instance (b : ℕ) : Decidable (Outside sb b) := inferInstanceAs (Decidable (_ ∨ _))

/-- Recovery from this disk ends with the contents `C`: the header names the blocks `l`, and the log
has them. -/
structure Recoverable (C disk : ℕ → Block) (l : List ℕ) : Prop where
  head : getHead (disk sb.logstart) = l
  fits : l.length ≤ logSize
  room : l.length < sb.nlog
  outside : ∀ b ∈ l, Outside sb b ∧ b < 2 ^ 32
  entry : ∀ i b, l[i]? = some b → disk (sb.logstart + i + 1) = C b
  rest : ∀ b, Outside sb b → b ∉ l → disk b = C b

variable {sb} {C V disk : ℕ → Block} {l : List ℕ} {b i : ℕ} {x : Block}

theorem not_outside_entry (hi : i < sb.nlog - 1) : ¬ Outside sb (sb.logstart + i + 1) := by
  unfold Outside
  omega

theorem Outside.ne_start (h : Outside sb b) (hlog : 0 < sb.nlog) : b ≠ sb.logstart := by
  unfold Outside at h
  omega

namespace Recoverable

/-- The header names nothing, and a block of the log is written. -/
theorem write_entry (h : Recoverable sb C disk []) (hi : i < sb.nlog - 1) :
    Recoverable sb C (update disk (sb.logstart + i + 1) x) [] where
  head := by rw [update_of_ne (by omega), h.head]
  fits := h.fits
  room := h.room
  outside := h.outside
  entry j b hb := by simp at hb
  rest b hb hl := by
    have hne : b ≠ sb.logstart + i + 1 := fun he => not_outside_entry hi (he ▸ hb)
    rw [update_of_ne hne]
    exact h.rest b hb hl

/-- A block that the header names is put in place. -/
theorem write_home (h : Recoverable sb C disk l) (hb : b ∈ l) :
    Recoverable sb C (update disk b (C b)) l where
  head := by
    have hroom := h.room
    rw [update_of_ne ((h.outside b hb).1.ne_start (by omega)).symm, h.head]
  fits := h.fits
  room := h.room
  outside := h.outside
  entry i c hc := by
    have hi := (List.getElem?_eq_some_iff.mp hc).1
    have hroom := h.room
    have hne : sb.logstart + i + 1 ≠ b := fun he =>
      not_outside_entry (by omega) (he ▸ (h.outside b hb).1)
    rw [update_of_ne hne]
    exact h.entry i c hc
  rest c hc hl := by
    rw [update_of_ne (by rintro rfl; exact hl hb)]
    exact h.rest c hc hl

/-- The header is written: from now on the disk is one for the new contents. -/
theorem write_head (h : Recoverable sb C disk []) (hlen : l.length ≤ logSize)
    (hroom : l.length < sb.nlog) (hout : ∀ b ∈ l, Outside sb b ∧ b < 2 ^ 32)
    (hentry : ∀ i b, l[i]? = some b → disk (sb.logstart + i + 1) = V b)
    (hrest : ∀ b, Outside sb b → b ∉ l → V b = C b) (hx : getHead x = l) :
    Recoverable sb V (update disk sb.logstart x) l where
  head := by rw [update_self, hx]
  fits := hlen
  room := hroom
  outside := hout
  entry i b hb := by
    rw [update_of_ne (by omega)]
    exact hentry i b hb
  rest b hb hl := by
    rw [update_of_ne (hb.ne_start (by omega)), hrest b hb hl]
    exact h.rest b hb List.not_mem_nil

/-- The header is cleared when every block is in place. -/
theorem clear (h : Recoverable sb C disk l) (hall : ∀ b, Outside sb b → disk b = C b)
    (hx : getHead x = []) : Recoverable sb C (update disk sb.logstart x) [] where
  head := by rw [update_self, hx]
  fits := Nat.zero_le _
  room := lt_of_le_of_lt (Nat.zero_le _) h.room
  outside b hb := absurd hb List.not_mem_nil
  entry i b hb := by simp at hb
  rest b hb _ := by
    have hroom := h.room
    rw [update_of_ne (hb.ne_start (by omega))]
    exact hall b hb

end Recoverable

end

/-! ## The invariant -/

section

variable (sb : Superblock) (C V : ℕ → Block)

/-- The buffer of a block of the log is as on the disk; the buffer of another block is as in `P`,
unless it is in `ex`. -/
def Good (disk P : ℕ → Block) (ex : List ℕ) (c : ℕ) (x : Block) : Prop :=
  (¬ Outside sb c → x = disk c) ∧ (Outside sb c → c ∉ ex → x = P c)

/-- A transaction is gathered, or its first `k` blocks are in the log. -/
structure Gathering (k : ℕ) (s : LogDisk) : Prop where
  recoverable : Recoverable sb C s.disk []
  cached : s.Cached (Good sb s.disk V [])
  pinned : ∀ b ∈ s.log.lh, 0 < s.refcnt b
  clean : ∀ b, Outside sb b → b ∉ s.log.lh → V b = C b
  logged : ∀ i < k, ∀ b, s.log.lh[i]? = some b → s.disk (sb.logstart + i + 1) = V b

/-- The blocks of a committed transaction are being put in place, the first `k` of them are. -/
structure Installing (k : ℕ) (s : LogDisk) : Prop where
  settled : V = C
  recoverable : Recoverable sb C s.disk s.log.lh
  cached : s.Cached (Good sb s.disk C (s.log.lh.drop k))
  installed : ∀ i < k, ∀ b, s.log.lh[i]? = some b → s.disk b = C b

/-- A boot, before the header has been read. -/
structure Booting (l : List ℕ) (s : LogDisk) : Prop where
  settled : V = C
  recoverable : Recoverable sb C s.disk l
  cached : s.Cached (Good sb s.disk C l)

def PhaseInv (s : LogDisk) : Prop :=
  match s.phase with
  | .running => Gathering sb C V 0 s
  | .writeLog tail => Gathering sb C V tail s
  | .writeHead => Gathering sb C V s.log.lh.length s
  | .installTrans _ tail => Installing sb C V tail s
  | .clear _ => Installing sb C V s.log.lh.length s
  | .readHead => ∃ l, Booting sb C V l s
  | .halted => ∃ l, Recoverable sb C s.disk l

structure LogInv (s : LogDisk) : Prop where
  start : s.log.start = sb.logstart
  size : s.log.size = sb.nlog
  fits : s.log.lh.length ≤ logSize
  room : s.log.lh.length < sb.nlog
  outside : ∀ b ∈ s.log.lh, Outside sb b ∧ b < 2 ^ 32
  phase : PhaseInv sb C V s

end

/-! ### Steps of a commit and of a recovery -/

section

variable {sb : Superblock} {C V : ℕ → Block} {s t : LogDisk} {k b : ℕ} {l : List ℕ} {x : Block}

namespace Gathering

section

variable (h : Gathering sb C V k s)

include h

/-- Only the disk, the buffers and the header count. -/
theorem congr (hd : t.disk = s.disk) (hc : t.cache = s.cache) (hl : t.log.lh = s.log.lh) :
    Gathering sb C V k t where
  recoverable := hd ▸ h.recoverable
  cached := by
    intro c buf hb
    rw [hd]
    exact h.cached c buf (hc ▸ hb)
  pinned b hb := by
    rw [LogDisk.refcnt, hc]
    exact h.pinned b (hl ▸ hb)
  clean b ho hb := h.clean b ho (hl ▸ hb)
  logged i hi b hb := by
    rw [hd]
    exact h.logged i hi b (hl ▸ hb)

/-- What is not in a buffer is up to date on the disk. -/
theorem of_none (hb : s.cache b = none) : Good sb s.disk V [] b (s.disk b) := by
  refine ⟨fun _ => rfl, fun ho _ => ?_⟩
  have hl : b ∉ s.log.lh := fun hl => (h.pinned b hl).ne' (LogDisk.refcnt_of_none hb)
  rw [h.clean b ho hl]
  exact h.recoverable.rest b ho List.not_mem_nil

/-- Operations read what was last handed to `log_write`. -/
theorem content (ho : Outside sb b) : s.content b = V b :=
  (h.cached.content h.of_none).2 ho List.not_mem_nil

theorem bread (b : ℕ) : Gathering sb C V k (s.bread b) where
  recoverable := h.recoverable
  cached := h.cached.bread h.of_none
  pinned c hc := by
    rw [LogDisk.refcnt_bread]
    exact h.pinned c hc
  clean := h.clean
  logged := h.logged

/-- The next block is copied to the log. -/
theorem bwrite_entry (hk : k < sb.nlog - 1) (hb : s.log.lh[k]? = some b) :
    Gathering sb C V (k + 1) (s.bwrite (sb.logstart + k + 1) (V b)) where
  recoverable := h.recoverable.write_entry hk
  cached := h.cached.bwrite
    (fun c x hne hg => ⟨fun hc => (hg.1 hc).trans (LogDisk.disk_bwrite_of_ne hne).symm, hg.2⟩)
    ⟨fun _ => LogDisk.disk_bwrite_self.symm, fun ho => absurd ho (not_outside_entry hk)⟩
  pinned c hc := by
    rw [LogDisk.refcnt_bwrite]
    exact h.pinned c hc
  clean := h.clean
  logged i hi c hc := by
    by_cases hik : i = k
    · subst hik
      rw [LogDisk.disk_bwrite_self, Option.some.inj (hb.symm.trans hc)]
    · rw [LogDisk.disk_bwrite_of_ne (by omega)]
      exact h.logged i (by omega) c hc

end

/-- The first `write_head`: the transaction is committed. -/
theorem bwrite_head (h : Gathering sb C V s.log.lh.length s) (hfits : s.log.lh.length ≤ logSize)
    (hroom : s.log.lh.length < sb.nlog) (hout : ∀ b ∈ s.log.lh, Outside sb b ∧ b < 2 ^ 32)
    (hx : getHead x = s.log.lh) : Installing sb V V 0 (s.bwrite sb.logstart x) where
  settled := rfl
  recoverable := h.recoverable.write_head hfits hroom hout
    (fun i b hb => h.logged i (List.getElem?_eq_some_iff.mp hb).1 b hb) h.clean hx
  cached := h.cached.bwrite
    (fun c x hne hg => ⟨fun hc => (hg.1 hc).trans (LogDisk.disk_bwrite_of_ne hne).symm,
      fun ho _ => hg.2 ho List.not_mem_nil⟩)
    ⟨fun _ => LogDisk.disk_bwrite_self.symm, fun ho => absurd rfl (ho.ne_start (by omega))⟩
  installed i hi := absurd hi (Nat.not_lt_zero i)

end Gathering

namespace Installing

section

variable (h : Installing sb C V k s)

include h

theorem congr (hd : t.disk = s.disk)
    (hc : ∀ c buf, t.cache c = some buf → ∃ buf', s.cache c = some buf' ∧ buf.data = buf'.data)
    (hl : t.log.lh = s.log.lh) : Installing sb C V k t where
  settled := h.settled
  recoverable := by
    rw [hd, hl]
    exact h.recoverable
  cached := by
    intro c buf hb
    obtain ⟨buf', hb', hdata⟩ := hc c buf hb
    rw [hd, hl, hdata]
    exact h.cached c buf' hb'
  installed i hi b hb := by
    rw [hd]
    exact h.installed i hi b (hl ▸ hb)

/-- Apart from the blocks that are not yet in place the disk is up to date. -/
theorem disk_eq (ho : Outside sb b) (hb : b ∉ s.log.lh.drop k) : s.disk b = C b := by
  by_cases hl : b ∈ s.log.lh
  · rw [← List.take_append_drop k s.log.lh, List.mem_append] at hl
    obtain ⟨i, hi, rfl⟩ := List.getElem_of_mem (hl.resolve_right hb)
    rw [List.length_take] at hi
    rw [List.getElem_take]
    exact h.installed i (by omega) _ (List.getElem?_eq_getElem (by omega))
  · exact h.recoverable.rest b ho hl

theorem of_none : Good sb s.disk C (s.log.lh.drop k) b (s.disk b) :=
  ⟨fun _ => rfl, fun ho hb => h.disk_eq ho hb⟩

theorem bread (b : ℕ) : Installing sb C V k (s.bread b) where
  settled := h.settled
  recoverable := h.recoverable
  cached := h.cached.bread fun _ => h.of_none
  installed := h.installed

/-- The log has what is to be put in place. -/
theorem content_entry (hb : s.log.lh[k]? = some b) : s.content (sb.logstart + k + 1) = C b := by
  have hk := (List.getElem?_eq_some_iff.mp hb).1
  have hroom := h.recoverable.room
  rw [(h.cached.content fun _ => h.of_none).1 (not_outside_entry (by omega))]
  exact h.recoverable.entry k b hb

/-- The next block is put in place. -/
theorem bwrite_home (hb : s.log.lh[k]? = some b) :
    Installing sb C V (k + 1) (s.bwrite b (C b)) where
  settled := h.settled
  recoverable := h.recoverable.write_home (List.mem_of_getElem? hb)
  cached := by
    have ho := (h.recoverable.outside b (List.mem_of_getElem? hb)).1
    have hdrop : s.log.lh.drop k = b :: s.log.lh.drop (k + 1) := by
      obtain ⟨hk, hb'⟩ := List.getElem?_eq_some_iff.mp hb
      rw [List.drop_eq_getElem_cons hk, hb']
    refine h.cached.bwrite (fun c x hne hg => ⟨fun hc => ?_, fun hc hex => ?_⟩) ⟨fun hn =>
      absurd ho hn, fun _ _ => rfl⟩
    · exact (hg.1 hc).trans (LogDisk.disk_bwrite_of_ne hne).symm
    · refine hg.2 hc ?_
      rw [hdrop, List.mem_cons, not_or]
      exact ⟨hne, hex⟩
  installed i hi c hc := by
    by_cases hcb : c = b
    · rw [hcb, LogDisk.disk_bwrite_self]
    · rw [LogDisk.disk_bwrite_of_ne hcb]
      refine h.installed i (lt_of_le_of_ne (by omega) fun hik => hcb ?_) c hc
      rw [hik] at hc
      exact Option.some.inj (hc.symm.trans hb)

end

/-- The clearing `write_head`: the log is at rest. -/
theorem bwrite_clear (h : Installing sb C V s.log.lh.length s) (hx : getHead x = [])
    (ht : t = s.bwrite sb.logstart x) (log : Log) (hlog : log.lh = []) (p : Phase) :
    Gathering sb C V 0 { t with log := log, phase := p } := by
  subst ht
  have hroom := h.recoverable.room
  have hall : ∀ b, Outside sb b → s.disk b = C b := fun b ho => h.disk_eq ho (by simp)
  exact
    { recoverable := h.recoverable.clear hall hx
      cached := LogDisk.Cached.bwrite h.cached
        (fun c x hne hg => ⟨fun hc => (hg.1 hc).trans (LogDisk.disk_bwrite_of_ne hne).symm,
          fun ho _ => by rw [h.settled]; exact hg.2 ho (by simp)⟩)
        ⟨fun _ => LogDisk.disk_bwrite_self.symm, fun ho => absurd rfl (ho.ne_start (by omega))⟩
      pinned := fun b hb => by simp [hlog] at hb
      clean := fun b _ _ => by rw [h.settled]
      logged := fun i hi => absurd hi (Nat.not_lt_zero i) }

end Installing

theorem Booting.of_none (h : Booting sb C V l s) (b : ℕ) : Good sb s.disk C l b (s.disk b) :=
  ⟨fun _ => rfl, fun ho hex => h.recoverable.rest b ho hex⟩

/-- Reading the header at a boot. -/
theorem Booting.installing (h : Booting sb C V l s) (hlog : t.log.lh = l) (hd : t.disk = s.disk)
    (hc : t.cache = (s.bread sb.logstart).cache) : Installing sb C V 0 t where
  settled := h.settled
  recoverable := by
    rw [hd, hlog]
    exact h.recoverable
  cached := by
    rw [hd, hlog, List.drop_zero]
    intro c buf hb
    rw [hc] at hb
    exact h.cached.bread (fun _ => h.of_none _) c buf hb
  installed i hi := absurd hi (Nat.not_lt_zero i)

theorem Booting.head (h : Booting sb C V l s) : getHead (s.content sb.logstart) = l := by
  have hroom := h.recoverable.room
  have hstart : ¬ Outside sb sb.logstart := fun ho => ho.ne_start (by omega) rfl
  rw [(h.cached.content fun _ => h.of_none _).1 hstart]
  exact h.recoverable.head

/-! ### One event -/

namespace LogInv

section

variable (h : LogInv sb C V s)

include h

theorem recoverable : ∃ l, Recoverable sb C s.disk l := by
  have hp := h.phase
  unfold PhaseInv at hp
  split at hp
  · exact ⟨_, hp.recoverable⟩
  · exact ⟨_, hp.recoverable⟩
  · exact ⟨_, hp.recoverable⟩
  · exact ⟨_, hp.recoverable⟩
  · exact ⟨_, hp.recoverable⟩
  · exact ⟨_, hp.choose_spec.recoverable⟩
  · exact hp

/-- After a crash only the disk is left. -/
theorem boot (hlog : 0 < sb.nlog) : LogInv sb C C (.boot sb s.disk) := by
  obtain ⟨l, hl⟩ := h.recoverable
  exact
    { start := rfl
      size := rfl
      fits := Nat.zero_le _
      room := hlog
      outside := fun b hb => absurd hb List.not_mem_nil
      phase := ⟨l, rfl, hl, fun c buf hc => by simp [LogDisk.boot] at hc⟩ }

theorem bread (b : ℕ) : LogInv sb C V (s.bread b) where
  start := h.start
  size := h.size
  fits := h.fits
  room := h.room
  outside := h.outside
  phase := by
    have hp := h.phase
    unfold PhaseInv at hp ⊢
    rw [show (s.bread b).phase = s.phase from rfl]
    split at hp
    · exact hp.bread b
    · exact hp.bread b
    · exact hp.bread b
    · exact hp.bread b
    · exact hp.bread b
    · obtain ⟨l, hl⟩ := hp
      exact ⟨l, hl.settled, hl.recoverable, hl.cached.bread fun _ => hl.of_none b⟩
    · exact hp

/-- A buffer without references may be given up. -/
theorem recycle (hb : s.refcnt b = 0) :
    LogInv sb C V { s with cache := update s.cache b none } where
  start := h.start
  size := h.size
  fits := h.fits
  room := h.room
  outside := h.outside
  phase := by
    have hsub : ∀ c buf, update s.cache b none c = some buf → c ≠ b ∧ s.cache c = some buf := by
      intro c buf hc
      by_cases hcb : c = b
      · simp [hcb] at hc
      · exact ⟨hcb, by rwa [update_of_ne hcb] at hc⟩
    -- a pinned buffer is not recycled
    have hgather : ∀ k, Gathering sb C V k s →
        Gathering sb C V k { s with cache := update s.cache b none } := fun k hg =>
      { recoverable := hg.recoverable
        cached := fun c buf hc => hg.cached c buf (hsub c buf hc).2
        pinned := fun c hc => by
          have hpin := hg.pinned c hc
          have hne : c ≠ b := by
            rintro rfl
            omega
          simpa only [LogDisk.refcnt, update_of_ne hne] using hpin
        clean := hg.clean
        logged := hg.logged }
    have hp := h.phase
    unfold PhaseInv at hp ⊢
    simp only
    split at hp
    · exact hgather _ hp
    · exact hgather _ hp
    · exact hgather _ hp
    · exact hp.congr rfl (fun c buf hc => ⟨buf, (hsub c buf hc).2, rfl⟩) rfl
    · exact hp.congr rfl (fun c buf hc => ⟨buf, (hsub c buf hc).2, rfl⟩) rfl
    · obtain ⟨l, hl⟩ := hp
      exact ⟨l, hl.settled, hl.recoverable, fun c buf hc => hl.cached c buf (hsub c buf hc).2⟩
    · exact hp

theorem halt : LogInv sb C V { s with phase := .halted } :=
  { start := h.start
    size := h.size
    fits := h.fits
    room := h.room
    outside := h.outside
    phase := h.recoverable }

/-! The operations. -/

theorem beginOp {log : Log} (hs : s.phase = .running)
    (hl : s.log.beginOp = some log) : LogInv sb C V { s with log := log } := by
  obtain rfl := Log.beginOp_eq_some hl
  have hp := h.phase
  simp only [PhaseInv, hs] at hp
  exact
    { start := h.start
      size := h.size
      fits := h.fits
      room := h.room
      outside := h.outside
      phase := by
        simp only [PhaseInv, hs]
        exact hp.congr rfl rfl rfl }

/-- `log_write` of a block, which is pinned the first time. -/
theorem logWrite {data : Block} {log : Log} (hs : s.phase = .running)
    (hb : Outside sb b ∧ b < 2 ^ 32) (hl : s.log.logWrite b = .ok log) :
    LogInv sb C (update V b data)
      { s.setBuf b data (if b ∈ s.log.lh then s.refcnt b else s.refcnt b + 1) with
        log := log } := by
  obtain ⟨hfits, hroom, rfl⟩ := Log.logWrite_eq_ok hl
  rw [h.size] at hroom
  have hp := h.phase
  simp only [PhaseInv, hs] at hp
  have hlen :
      (if b ∈ s.log.lh then s.log.lh else s.log.lh ++ [b]).length ≤ s.log.lh.length + 1 := by
    split_ifs <;> simp
  have hmem :
      ∀ c, c ∈ (if b ∈ s.log.lh then s.log.lh else s.log.lh ++ [b]) ↔ c ∈ s.log.lh ∨ c = b := by
    intro c
    split_ifs with hbl
    · exact ⟨.inl, fun hc => hc.elim id fun hcb => hcb ▸ hbl⟩
    · simp
  refine ⟨h.start, h.size, hlen.trans hfits, lt_of_le_of_lt hlen (by omega), ?_, ?_⟩
  · intro c hc
    rcases (hmem c).mp hc with hc' | rfl
    · exact h.outside c hc'
    · exact hb
  · simp only [PhaseInv, LogDisk.setBuf, hs]
    exact
      { recoverable := hp.recoverable
        cached := by
          refine LogDisk.Cached.setBuf (fun c buf hne hc => ?_) ?_ _
          · have hg := hp.cached c buf hc
            exact ⟨hg.1, fun ho hex => (hg.2 ho hex).trans (update_of_ne hne _ _).symm⟩
          · exact ⟨fun hn => absurd hb.1 hn, fun _ _ =>
              (update_self (β := fun _ => Block) _ _ _).symm⟩
        pinned := by
          intro c hc
          by_cases hcb : c = b
          · subst hcb
            simp only [LogDisk.refcnt, update_self, Option.elim_some]
            split_ifs with hbl
            · exact hp.pinned c hbl
            · omega
          · have hpin := hp.pinned c (((hmem c).mp hc).resolve_right hcb)
            simpa only [LogDisk.refcnt, update_of_ne hcb] using hpin
        clean := by
          intro c ho hc
          have hc' : ¬ (c ∈ s.log.lh ∨ c = b) := fun hc' => hc ((hmem c).mpr hc')
          rw [update_of_ne (fun he => hc' (.inr he))]
          exact hp.clean c ho fun hcl => hc' (.inl hcl)
        logged := fun i hi => absurd hi (Nat.not_lt_zero i) }

theorem endOp (hs : s.phase = .running) : LogInv sb C V s.endOp := by
  have hp := h.phase
  simp only [PhaseInv, hs] at hp
  unfold LogDisk.endOp
  split
  · rename_i log hl
    obtain ⟨h1, h2, h3⟩ := Log.lh_endOp hl
    split_ifs with hnil
    · exact
        { start := h1.trans h.start
          size := h2.trans h.size
          fits := Nat.zero_le _
          room := lt_of_le_of_lt (Nat.zero_le _) h.room
          outside := fun b hb => absurd hb List.not_mem_nil
          phase := by
            simp only [PhaseInv, hs]
            exact hp.congr rfl rfl (hnil.symm.trans h3) }
    · exact
        { start := h1.trans h.start
          size := h2.trans h.size
          fits := h3 ▸ h.fits
          room := h3 ▸ h.room
          outside := fun b hb => h.outside b (h3 ▸ hb)
          phase := hp.congr rfl rfl h3 }
  · rename_i log hl
    obtain ⟨h1, h2, h3⟩ := Log.lh_endOp hl
    exact
      { start := h1.trans h.start
        size := h2.trans h.size
        fits := h3 ▸ h.fits
        room := h3 ▸ h.room
        outside := fun b hb => h.outside b (h3 ▸ hb)
        phase := by
          simp only [PhaseInv, hs]
          exact hp.congr rfl rfl h3 }
  · exact h.halt

/-! The disk writes of `commit` and `recover_from_log`. -/

theorem writeLog (hs : s.phase = .writeLog k) (hb : s.log.lh[k]? = some b) :
    LogInv sb C V (s.writeLog k b) := by
  have hp := h.phase
  simp only [PhaseInv, hs] at hp
  have hk := (List.getElem?_eq_some_iff.mp hb).1
  have hroom := h.room
  have hnext := ((hp.bread (sb.logstart + k + 1)).bread b).bwrite_entry (by omega) hb
  rw [← hp.content (h.outside b (List.mem_of_getElem? hb)).1] at hnext
  refine ⟨h.start, h.size, h.fits, h.room, h.outside, ?_⟩
  simp only [LogDisk.writeLog, PhaseInv, h.start]
  split_ifs with hlast
  · exact hnext.congr rfl rfl rfl
  · have hlen : s.log.lh.length = k + 1 := by omega
    exact hlen ▸ hnext.congr rfl rfl rfl

theorem writeHead (hs : s.phase = .writeHead) :
    LogInv sb V V { s.writeHead with phase := .installTrans false 0 } := by
  have hp := h.phase
  simp only [PhaseInv, hs] at hp
  have hfits := h.fits
  have hhead : getHead (putHead (s.content s.log.start) s.log.lh) = s.log.lh :=
    getHead_putHead _ (lt_of_le_of_lt hfits (by decide)) fun b hb => (h.outside b hb).2
  have hnext := hp.bwrite_head hfits h.room h.outside hhead
  refine ⟨h.start, h.size, h.fits, h.room, h.outside, ?_⟩
  simp only [PhaseInv, LogDisk.writeHead, h.start] at hnext ⊢
  exact hnext.congr rfl (fun c buf hc => ⟨buf, hc, rfl⟩) rfl

theorem installTrans {recovering : Bool} (hs : s.phase = .installTrans recovering k)
    (hb : s.log.lh[k]? = some b) : LogInv sb C V (s.installTrans recovering k b) := by
  have hp := h.phase
  simp only [PhaseInv, hs] at hp
  have hk := (List.getElem?_eq_some_iff.mp hb).1
  have hnext := ((hp.bread (sb.logstart + k + 1)).bread b).bwrite_home hb
  rw [← hp.content_entry hb, ← h.start] at hnext
  have hinst : Installing sb C V (k + 1) (s.installTrans recovering k b) := by
    cases recovering with
    | true => exact hnext.congr rfl (fun c buf hc => ⟨buf, hc, rfl⟩) rfl
    | false => exact hnext.congr rfl (fun c buf hc => LogDisk.cache_bunpin hc) rfl
  have hlog : (s.installTrans recovering k b).log = s.log := by cases recovering <;> rfl
  have hphase : (s.installTrans recovering k b).phase = if k + 1 < s.log.lh.length then
      .installTrans recovering (k + 1) else .clear recovering := rfl
  refine ⟨by rw [hlog]; exact h.start, by rw [hlog]; exact h.size, by rw [hlog]; exact h.fits,
    by rw [hlog]; exact h.room, by rw [hlog]; exact h.outside, ?_⟩
  unfold PhaseInv
  rw [hphase]
  split_ifs with hlast
  · exact hinst
  · have hlen : s.log.lh.length = k + 1 := by omega
    simp only [hlog, hlen]
    exact hinst

theorem readHead (hs : s.phase = .readHead) : LogInv sb C V s.readHead := by
  have hp := h.phase
  simp only [PhaseInv, hs] at hp
  obtain ⟨l, hl⟩ := hp
  have hhead : getHead (s.content s.log.start) = l := by
    rw [h.start]
    exact hl.head
  have hnext : Installing sb C V 0 s.readHead := hl.installing hhead rfl (by rw [← h.start]; rfl)
  have hlh : s.readHead.log.lh = l := hhead
  have hphase : s.readHead.phase = if getHead (s.content s.log.start) = [] then .clear true
      else .installTrans true 0 := rfl
  refine ⟨h.start, h.size, hlh ▸ hl.recoverable.fits, hlh ▸ hl.recoverable.room,
    hlh ▸ hl.recoverable.outside, ?_⟩
  unfold PhaseInv
  rw [hphase, hhead]
  split_ifs with hnil
  · simp only [hlh, hnil, List.length_nil]
    exact hnext
  · exact hnext

theorem clear {recovering : Bool} (hs : s.phase = .clear recovering) : LogInv sb C V s.clear := by
  have hp := h.phase
  simp only [PhaseInv, hs] at hp
  have hhead : getHead (putHead (s.content s.log.start) []) = [] :=
    getHead_putHead _ (by decide) fun b hb => absurd hb List.not_mem_nil
  refine ⟨h.start, h.size, Nat.zero_le _, lt_of_le_of_lt (Nat.zero_le _) h.room,
    fun b hb => absurd hb List.not_mem_nil, ?_⟩
  have hnext :=
    hp.bwrite_clear (t := s.bwrite s.log.start (putHead (s.content s.log.start) [])) hhead
      (by rw [h.start]) s.log.endCommit rfl .running
  exact hnext.congr rfl rfl rfl

end

end LogInv

end

/-! ## Traces -/

/-- The machine with the transactions it has gathered and committed. -/
structure Traced where
  sys : LogDisk
  hist : History

namespace Traced

variable (sb : Superblock) (d₀ : ℕ → Block)

def boot : Traced := ⟨.boot sb d₀, ⟨[], []⟩⟩

def step (t : Traced) (e : DiskEvent) : Option Traced :=
  (t.sys.step sb e).map fun s => ⟨s, t.hist.observe t.sys e⟩

/-- Logged blocks lie outside the log, and block numbers are of type `uint`. -/
def Logs : DiskEvent → Prop
  | .logWrite b _ => Outside sb b ∧ b < 2 ^ 32
  | _ => True

def Inv (t : Traced) : Prop := LogInv sb (t.hist.contents d₀) (t.hist.view d₀) t.sys

variable {sb d₀} {t u : Traced} {e : DiskEvent}

theorem inv_boot (hlog : 0 < sb.nlog) (hclean : getHead (d₀ sb.logstart) = []) :
    Inv sb d₀ (boot sb d₀) :=
  { start := rfl
    size := rfl
    fits := Nat.zero_le _
    room := hlog
    outside := fun b hb => absurd hb List.not_mem_nil
    phase := ⟨[], rfl,
      { head := hclean
        fits := Nat.zero_le _
        room := hlog
        outside := fun b hb => absurd hb List.not_mem_nil
        entry := fun i b hb => by simp at hb
        rest := fun _ _ _ => rfl },
      fun c buf hc => by simp [boot, LogDisk.boot] at hc⟩ }

theorem Inv.tick (h : Inv sb d₀ t) {s : LogDisk} (hs : t.sys.tick = some s) :
    Inv sb d₀ ⟨s, t.hist.observe t.sys .tick⟩ := by
  have hp := h.phase
  unfold LogDisk.tick at hs
  -- every disk write but the first `write_head` leaves the history as it is
  have hkeep : t.sys.phase ≠ .writeHead → t.hist.observe t.sys .tick = t.hist :=
    fun hne => if_neg hne
  split at hs <;> rename_i hph
  · simp at hs
  · simp at hs
  · obtain ⟨b, hb, rfl⟩ := Option.map_eq_some_iff.mp hs
    rw [hkeep (by simp [hph])]
    exact LogInv.writeLog h hph hb
  · obtain rfl := Option.some.inj hs
    have hcommit : t.hist.observe t.sys .tick = ⟨t.hist.txns ++ [t.hist.pending], []⟩ := if_pos hph
    rw [hcommit, Inv, History.view_of_pending _ _ rfl, History.contents_commit]
    exact LogInv.writeHead h hph
  · obtain ⟨b, hb, rfl⟩ := Option.map_eq_some_iff.mp hs
    rw [hkeep (by simp [hph])]
    exact LogInv.installTrans h hph hb
  · obtain rfl := Option.some.inj hs
    rw [hkeep (by simp [hph])]
    exact LogInv.clear h hph
  · obtain rfl := Option.some.inj hs
    rw [hkeep (by simp [hph])]
    exact LogInv.readHead h hph

/-- Every event keeps the invariant, a crash included. -/
theorem Inv.step (hlog : 0 < sb.nlog) (h : Inv sb d₀ t) (he : Logs sb e)
    (hu : t.step sb e = some u) : Inv sb d₀ u := by
  obtain ⟨s, hs, rfl⟩ := Option.map_eq_some_iff.mp hu
  cases e with
  | beginOp =>
    simp only [LogDisk.step] at hs
    split_ifs at hs with hp
    obtain ⟨log, hl, rfl⟩ := Option.map_eq_some_iff.mp hs
    exact LogInv.beginOp h hp hl
  | logWrite b data =>
    simp only [LogDisk.step] at hs
    split_ifs at hs with hp
    obtain rfl := Option.some.inj hs
    cases hl : t.sys.log.logWrite b with
    | ok log =>
      simp only [LogDisk.logWrite, History.observe, hl]
      rw [Inv, History.view_concat]
      exact LogInv.logWrite h hp he hl
    | error p =>
      simp only [LogDisk.logWrite, History.observe, hl]
      exact LogInv.halt h
  | endOp =>
    simp only [LogDisk.step] at hs
    split_ifs at hs with hp
    obtain rfl := Option.some.inj hs
    exact LogInv.endOp h hp
  | read b =>
    simp only [LogDisk.step] at hs
    split_ifs at hs
    obtain rfl := Option.some.inj hs
    exact LogInv.bread h b
  | recycle b =>
    simp only [LogDisk.step] at hs
    split_ifs at hs with hb
    obtain rfl := Option.some.inj hs
    exact LogInv.recycle h hb
  | tick => exact h.tick hs
  | crash =>
    obtain rfl := Option.some.inj hs
    rw [Inv, History.view_of_pending _ _ rfl]
    exact LogInv.boot h hlog

/-! ### A recovery comes to an end -/

/-- From the round `k` of `install_trans`, `n` rounds before the last. -/
theorem exec_installTrans (sb : Superblock) (n : ℕ) {k : ℕ}
    (hp : t.sys.phase = .installTrans true k) (hlen : t.sys.log.lh.length = k + n + 1) :
    ∃ u, Trace.exec (step sb) t (List.replicate (n + 2) .tick) = some u ∧ u.sys.phase = .running ∧
      u.hist = t.hist := by
  induction n generalizing t k with
  | zero =>
    have hb : t.sys.log.lh[k]? = some (t.sys.log.lh[k]) := List.getElem?_eq_getElem (by omega)
    have hnext : (t.sys.installTrans true k t.sys.log.lh[k]).phase = .clear true := by
      simp only [LogDisk.installTrans, if_neg (show ¬ k + 1 < t.sys.log.lh.length by omega)]
    refine ⟨⟨(t.sys.installTrans true k t.sys.log.lh[k]).clear, t.hist⟩, ?_, rfl, rfl⟩
    simp [List.replicate, Trace.exec_cons, step, LogDisk.step, LogDisk.tick, hp, hb, hnext,
      History.observe]
  | succ n ih =>
    have hb : t.sys.log.lh[k]? = some (t.sys.log.lh[k]) := List.getElem?_eq_getElem (by omega)
    have hnext : (t.sys.installTrans true k t.sys.log.lh[k]).phase =
        .installTrans true (k + 1) := by
      simp only [LogDisk.installTrans, if_pos (show k + 1 < t.sys.log.lh.length by omega)]
    have hstep : t.step sb .tick = some ⟨t.sys.installTrans true k t.sys.log.lh[k], t.hist⟩ := by
      simp [step, LogDisk.step, LogDisk.tick, hp, hb, History.observe]
    obtain ⟨u, hu, hrun, hhist⟩ := ih (t := ⟨t.sys.installTrans true k t.sys.log.lh[k], t.hist⟩)
      hnext (by show t.sys.log.lh.length = _; omega)
    refine ⟨u, ?_, hrun, hhist⟩
    rw [List.replicate_succ, Trace.exec_cons, hstep]
    exact hu

theorem exec_recover (sb : Superblock) (hp : t.sys.phase = .readHead) :
    ∃ k u, Trace.exec (step sb) t (List.replicate k .tick) = some u ∧ u.sys.phase = .running ∧
      u.hist = t.hist := by
  have hstep : t.step sb .tick = some ⟨t.sys.readHead, t.hist⟩ := by
    simp [step, LogDisk.step, LogDisk.tick, hp, History.observe]
  by_cases hnil : getHead (t.sys.content t.sys.log.start) = []
  · have hnext : t.sys.readHead.phase = .clear true := by simp only [LogDisk.readHead, if_pos hnil]
    refine ⟨2, ⟨t.sys.readHead.clear, t.hist⟩, ?_, rfl, rfl⟩
    rw [List.replicate_succ, Trace.exec_cons, hstep]
    simp [List.replicate, Trace.exec_cons, step, LogDisk.step, LogDisk.tick, hnext, History.observe]
  · have hnext : t.sys.readHead.phase = .installTrans true 0 := by
      simp only [LogDisk.readHead, if_neg hnil]
    have hpos := List.length_pos_iff.mpr hnil
    obtain ⟨u, hu, hrun, hhist⟩ := exec_installTrans (t := ⟨t.sys.readHead, t.hist⟩) sb
      ((getHead (t.sys.content t.sys.log.start)).length - 1) hnext
      (by show (getHead (t.sys.content t.sys.log.start)).length = _; omega)
    refine ⟨(getHead (t.sys.content t.sys.log.start)).length - 1 + 2 + 1, u, ?_, hrun, hhist⟩
    rw [List.replicate_succ, Trace.exec_cons, hstep]
    exact hu

/-- From a disk with an empty log, after every sequence of operations, commits and crashes: a
recovery comes to an end, and whenever no commit or recovery is under way the blocks outside the log
are as the committed transactions leave them. -/
theorem committed_transactions_whole (sb : Superblock) (d₀ : ℕ → Block) (hlog : 0 < sb.nlog)
    (hclean : getHead (d₀ sb.logstart) = []) (es : List DiskEvent) (logs : ∀ e ∈ es, Logs sb e)
    (t : Traced) (run : Trace.exec (step sb) (boot sb d₀) es = some t) :
    (t.sys.phase = .running → ∀ b, Outside sb b → t.sys.disk b = t.hist.contents d₀ b) ∧
      (t.sys.phase = .readHead → ∃ k u, Trace.exec (step sb) t (List.replicate k .tick) = some u ∧
        u.sys.phase = .running ∧ u.hist = t.hist) := by
  have hinv : Inv sb d₀ t :=
    Trace.invariant (A := fun _ => Logs sb) (fun _ _ _ h he hs => h.step hlog he hs)
      (inv_boot hlog hclean) (Trace.Meets.of_forall fun e he _ => logs e he) run
  refine ⟨fun hp b ho => ?_, exec_recover sb⟩
  have hphase := hinv.phase
  simp only [PhaseInv, hp] at hphase
  exact hphase.recoverable.rest b ho List.not_mem_nil

instance (sb : Superblock) (e : DiskEvent) : Decidable (Logs sb e) :=
  match e with
  | .logWrite b _ => inferInstanceAs (Decidable (Outside sb b ∧ b < 2 ^ 32))
  | .beginOp | .endOp | .read _ | .recycle _ | .tick | .crash => .isTrue trivial

/-- Two blocks are logged in one transaction; the machine crashes when the first of them has been
put in place, crashes again in the recovery and then recovers. -/
def crashInInstall : List DiskEvent :=
  [.tick, .tick, .beginOp, .logWrite 100 fun _ => 1, .logWrite 101 fun _ => 2, .endOp,
    .tick, .tick, .tick, .tick, .crash, .tick, .tick, .crash, .tick, .tick, .tick, .tick]

theorem committed_transactions_whole_crash :
    ∃ t, Trace.exec (step Mkfs.sb) (boot Mkfs.sb fun _ _ => 0) crashInInstall = some t ∧
      t.sys.phase = .running ∧ t.hist.txns.length = 1 ∧
      ∀ b, Outside Mkfs.sb b → t.sys.disk b = t.hist.contents (fun _ _ => 0) b := by
  have hsome : ((Trace.exec (step Mkfs.sb) (boot Mkfs.sb fun _ _ => 0) crashInInstall).any fun t =>
      decide (t.sys.phase = .running ∧ t.hist.txns.length = 1)) = true := by
    decide +kernel
  obtain ⟨t, ht, hd⟩ := (Option.any_eq_true _ _).mp hsome
  obtain ⟨hphase, hlen⟩ := of_decide_eq_true hd
  obtain ⟨hwhole, _⟩ := committed_transactions_whole Mkfs.sb (fun _ _ => 0) (by decide)
    (by decide +kernel) crashInInstall (by decide +kernel) t ht
  exact ⟨t, ht, hphase, hlen, hwhole hphase⟩

end Traced

end NeulaCpu.Xv6
