import NeulaCpu.Lib.Ring
import NeulaCpu.Xv6.Console

/-!
# The line discipline of the console

The console behaves as the terminal `Tty`: the same events lead to the same calls and the same bytes
given out, and the ring holds the bytes that are committed and unread followed by the line. What a
reader can rely on is then said of the terminal.

* `Lines.killLine`, `Agrees.consoleintr`: a typed character.
* `Lines.readLoop`, `Agrees.readTurn`: a turn of a read.
* `takeLine_spec`, `Laws.step`: what reads get.
-/

namespace NeulaCpu.Xv6

open Function

open ByteStore (Byte)

theorem inputBufSize_dvd : inputBufSize ∣ 2 ^ 32 := by decide

theorem inputBufSize_lt : inputBufSize < 2 ^ 32 := by decide

/-! ## The ring -/

/-- The bytes between `r` and `w`. -/
def Cons.pending (c : Cons) : List Byte :=
  (List.range (c.w - c.r).toNat).map fun i => c.buf ((c.r + BitVec.ofNat 32 i).toNat % inputBufSize)

/-- The console holds the line after the committed bytes, of which some are taken. -/
structure Lines (c : Cons) (taken committed line : List Byte) : Prop where
  ring : Ring.Holds inputBufSize c.buf c.r c.e taken (committed ++ line)
  commit : c.w = BitVec.ofNat 32 committed.length
  order : taken <+: committed

namespace Lines

variable {c : Cons} {taken committed line : List Byte} (h : Lines c taken committed line)

include h

theorem taken_le : taken.length ≤ committed.length := h.order.length_le

theorem room : committed.length + line.length ≤ taken.length + inputBufSize := by
  have hroom := h.ring.room
  rwa [List.length_append] at hroom

/-- `cons.e - cons.r`. -/
theorem toNat_e_sub_r : (c.e - c.r).toNat = committed.length + line.length - taken.length := by
  rw [h.ring.toNat_sub inputBufSize_lt, List.length_append]

/-- `cons.w - cons.r`. -/
theorem toNat_w_sub_r : (c.w - c.r).toNat = committed.length - taken.length := by
  have hle := h.taken_le
  have hroom := h.room
  have hlt := inputBufSize_lt
  have hsub : c.w - c.r = BitVec.ofNat 32 (committed.length - taken.length) := by
    rw [h.commit, h.ring.read]
    conv_lhs => rw [← Nat.sub_add_cancel hle]
    rw [BitVec.ofNat_add, BitVec.add_sub_cancel]
  rw [hsub, BitVec.toNat_ofNat, Nat.mod_eq_of_lt (by omega)]

/-- `cons.e - cons.w`. -/
theorem toNat_e_sub_w : (c.e - c.w).toNat = line.length := by
  have hle := h.taken_le
  have hroom := h.room
  have hlt := inputBufSize_lt
  have hsub : c.e - c.w = BitVec.ofNat 32 line.length := by
    rw [h.commit, h.ring.written, List.length_append, Nat.add_comm, BitVec.ofNat_add,
      BitVec.add_sub_cancel]
  rw [hsub, BitVec.toNat_ofNat, Nat.mod_eq_of_lt (by omega)]

theorem e_eq_w : c.e = c.w ↔ line = [] := by
  rw [← List.length_eq_zero_iff, ← h.toNat_e_sub_w]
  constructor
  · intro heq
    rw [heq, BitVec.sub_self]
    rfl
  · intro hzero
    bv_omega

theorem r_eq_w : c.r = c.w ↔ committed.drop taken.length = [] := by
  rw [← List.length_eq_zero_iff, List.length_drop, ← h.toNat_w_sub_r]
  constructor
  · intro heq
    rw [heq, BitVec.sub_self]
    rfl
  · intro hzero
    bv_omega

theorem pending : c.pending = committed.drop taken.length := by
  have hle := h.taken_le
  apply List.ext_getElem?
  intro i
  rw [Cons.pending, h.toNat_w_sub_r, List.getElem?_map, List.getElem?_drop]
  by_cases hi : i < committed.length - taken.length
  · have hlt : taken.length + i < committed.length := by omega
    have hput : (committed ++ line)[taken.length + i]? =
        some (committed.get ⟨taken.length + i, hlt⟩) := by
      rw [List.getElem?_append_left hlt, List.getElem?_eq_getElem hlt]
      rfl
    rw [List.getElem?_range hi, Option.map_some, h.ring.read, ← BitVec.ofNat_add,
      Ring.toNat_ofNat_mod inputBufSize_dvd, h.ring.slots _ _ (by omega) hput,
        List.getElem?_eq_getElem hlt]
    rfl
  · rw [List.getElem?_eq_none (by rw [List.length_range]; omega), List.getElem?_eq_none (by omega)]
    rfl

/-- Backspace: the last character of the line goes. -/
theorem backspace {b : Byte} (hline : line = line.dropLast ++ [b]) :
    Lines { c with e := c.e - 1 } taken committed line.dropLast ∧
      c.buf ((c.e - 1).toNat % inputBufSize) = b := by
  have hring := h.ring
  have hle := h.taken_le
  rw [hline, ← List.append_assoc] at hring
  have hle' : taken.length ≤ (committed ++ line.dropLast).length := by
    rw [List.length_append]
    omega
  exact ⟨⟨hring.unpush hle', h.commit, h.order⟩, hring.last inputBufSize_dvd hle'⟩

/-- `C('U')`: the line goes. -/
theorem killLine (hplain : newline ∉ line) :
    Lines (Cons.killLine line.length c) taken committed [] := by
  induction line using List.reverseRecOn generalizing c with
  | nil => exact h
  | append_singleton line b ih =>
    rw [List.mem_append, List.mem_singleton, not_or] at hplain
    have hback := h.backspace (b := b) (by rw [List.dropLast_concat])
    rw [List.dropLast_concat] at hback
    have hne : c.e ≠ c.w := fun heq =>
      List.append_ne_nil_of_right_ne_nil line (List.cons_ne_nil b []) (h.e_eq_w.mp heq)
    rw [List.length_append, List.length_singleton, Cons.killLine,
      if_pos ⟨hne, by rw [hback.2]; exact Ne.symm hplain.2⟩]
    exact ih hback.1 hplain.1

/-- A character goes to the end of the line. -/
theorem append (hroom : committed.length + line.length < taken.length + inputBufSize) (b : Byte) :
    Lines (c.append b) taken committed (line ++ [b]) := by
  have hring := h.ring.push inputBufSize_dvd (by rwa [List.length_append]) b
  rw [List.append_assoc] at hring
  exact ⟨hring, h.commit, h.order⟩

/-- The line is committed. -/
theorem commitLine : Lines { c with w := c.e } taken (committed ++ line) [] where
  ring := by
    rw [List.append_nil]
    exact h.ring
  commit := h.ring.written
  order := h.order.trans (List.prefix_append ..)

end Lines

/-! ## The console and the terminal -/

/-- The console is in the state of the terminal. -/
structure Agrees (s : ConsSys) (t : Tty) : Prop where
  lines : Lines s.cons (t.taken.map Prod.snd) t.committed t.line
  plain : newline ∉ t.line
  calls : s.calls = t.calls
  delivered : s.delivered = t.taken.filter fun x => x.2 ≠ ctrl 'D'

theorem Tty.length_unread (t : Tty) : t.unread.length = t.committed.length - t.taken.length := by
  rw [unread, List.length_drop]

namespace Agrees

variable {s : ConsSys} {t : Tty}

theorem init : Agrees .init .init where
  lines := ⟨Ring.holds_nil .., rfl, List.prefix_rfl⟩
  plain := List.not_mem_nil
  calls := rfl
  delivered := rfl

theorem taken_le (h : Agrees s t) : t.taken.length ≤ t.committed.length := by
  have hle := h.lines.taken_le
  rwa [List.length_map] at hle

/-- Only the line changes. -/
theorem setLine (h : Agrees s t) {c : Cons} {line : List Byte}
    (hlines : Lines c (t.taken.map Prod.snd) t.committed line) (hplain : newline ∉ line) :
    Agrees { s with cons := c } { t with line := line } :=
  ⟨hlines, hplain, h.calls, h.delivered⟩

/-- `consoleintr` does what the terminal does. -/
theorem consoleintr (h : Agrees s t) (c : Byte) : Agrees { s with cons := s.cons.consoleintr c }
    (t.input c) := by
  have hle := h.taken_le
  have hunread := t.length_unread
  have hsize : (s.cons.e - s.cons.r).toNat = t.unread.length + t.line.length := by
    rw [h.lines.toNat_e_sub_r, List.length_map]
    omega
  unfold Cons.consoleintr Tty.input
  by_cases hp : c = ctrl 'P'
  · rw [if_pos hp, if_pos hp]
    exact h
  rw [if_neg hp, if_neg hp]
  by_cases hu : c = ctrl 'U'
  · rw [if_pos hu, if_pos hu, h.lines.toNat_e_sub_w]
    exact h.setLine (h.lines.killLine h.plain) List.not_mem_nil
  rw [if_neg hu, if_neg hu]
  by_cases hbs : c = ctrl 'H' ∨ c = deleteKey
  · rw [if_pos hbs, if_pos hbs]
    by_cases hnil : t.line = []
    · have hlines := h.lines
      rw [hnil] at hlines
      rw [if_neg (not_not_intro (h.lines.e_eq_w.mpr hnil)), hnil]
      exact h.setLine hlines List.not_mem_nil
    · rw [if_pos fun he => hnil (h.lines.e_eq_w.mp he)]
      have hback := h.lines.backspace (List.dropLast_append_getLast hnil).symm
      exact h.setLine hback.1 fun hmem => h.plain (List.mem_of_mem_dropLast hmem)
  rw [if_neg hbs, if_neg hbs, hsize]
  by_cases hzero : c = 0
  · rw [if_neg fun hand => hand.1 hzero, if_pos (.inl hzero)]
    exact h
  by_cases hfull : inputBufSize ≤ t.unread.length + t.line.length
  · rw [if_neg fun hand => absurd hand.2 (by omega), if_pos (.inr hfull)]
    exact h
  rw [if_pos ⟨hzero, by omega⟩, if_neg (not_or.mpr ⟨hzero, hfull⟩)]
  generalize (if c = carriageReturn then newline else c) = b
  have happend := h.lines.append (by rw [List.length_map]; omega) b
  have hsize' : ((s.cons.append b).e - (s.cons.append b).r).toNat =
      t.unread.length + (t.line ++ [b]).length := by
    rw [happend.toNat_e_sub_r, List.length_map]
    omega
  dsimp only
  rw [hsize']
  by_cases hcommit :
    b = newline ∨ b = ctrl 'D' ∨ t.unread.length + (t.line ++ [b]).length = inputBufSize
  · rw [if_pos hcommit, if_pos hcommit]
    exact ⟨happend.commitLine, List.not_mem_nil, h.calls, h.delivered⟩
  · rw [if_neg hcommit, if_neg hcommit]
    refine h.setLine happend ?_
    rw [List.mem_append, List.mem_singleton, not_or]
    exact ⟨h.plain, fun heq => hcommit (.inl heq.symm)⟩

end Agrees

/-! ## A turn of a read -/

/-- How the turn ends. -/
def Tty.readEnd (target left : ℕ) (killed done : Bool) : ReadEnd :=
  if done then .returns (target - left : ℕ) else if killed then .returns (-1) else .sleeps left

/-- The loop of `consoleread` takes what the terminal's read takes. -/
theorem Lines.readLoop {c : Cons} {taken committed line : List Byte}
    (h : Lines c taken committed line) (target : ℕ) (killed : Bool) (left : ℕ)
    (hleft : left ≤ target) :
    ∃ c', c.readLoop target killed left =
        (c', Tty.text (Tty.takeLine (left < target) left (committed.drop taken.length)).1,
          Tty.readEnd target (left -
            (Tty.text (Tty.takeLine (left < target) left (committed.drop taken.length)).1).length)
              killed (Tty.takeLine (left < target) left (committed.drop taken.length)).2) ∧
      Lines c' (taken ++ (Tty.takeLine (left < target) left (committed.drop taken.length)).1)
        committed line := by
  induction left generalizing c taken with
  | zero => exact ⟨c, rfl, by rw [Tty.takeLine, List.append_nil]; exact h⟩
  | succ n ih =>
    rw [Cons.readLoop]
    by_cases hempty : c.r = c.w
    · -- nothing is there
      rw [if_pos hempty, h.r_eq_w.mp hempty, Tty.takeLine, List.append_nil]
      refine ⟨c, ?_, h⟩
      cases killed with
      | true => rfl
      | false => rfl
    · rw [if_neg hempty]
      have hne : committed.drop taken.length ≠ [] := fun hnil => hempty (h.r_eq_w.mpr hnil)
      have hlt : taken.length < committed.length := by
        rwa [Ne, List.drop_eq_nil_iff, not_le] at hne
      have hput : taken.length ≠ (committed ++ line).length := by
        rw [List.length_append]
        omega
      -- the next byte
      obtain ⟨b, hb⟩ : ∃ b, c.buf (c.r.toNat % inputBufSize) = b := ⟨_, rfl⟩
      have hnext : committed.drop taken.length = b :: committed.drop (taken ++ [b]).length := by
        have hget := h.ring.next inputBufSize_dvd hput
        rw [List.getElem?_append_left hlt, List.getElem?_eq_getElem hlt, hb,
          Option.some.injEq] at hget
        rw [List.drop_eq_getElem_cons hlt, hget, List.length_append, List.length_singleton]
      have hpop : Lines { c with r := c.r + 1 } (taken ++ [b]) committed line := by
        have hring := h.ring.pop inputBufSize_dvd hput
        rw [hb] at hring
        refine ⟨hring, h.commit, ?_⟩
        obtain ⟨rest, hrest⟩ := h.order
        rw [← hrest, List.drop_left] at hnext
        rw [← hrest, hnext]
        exact ⟨_, (List.append_cons ..).symm⟩
      dsimp only
      rw [hb, hnext, Tty.takeLine]
      by_cases heof : b = ctrl 'D'
      · rw [if_pos heof, if_pos heof]
        by_cases hgot : n + 1 < target
        · -- the `^D` is put back
          refine ⟨{ c with r := c.r + 1 - 1 }, ?_, ?_⟩
          · simp only [hgot, decide_true, if_true]
            rfl
          · simp only [hgot, decide_true, if_true, List.append_nil, BitVec.add_sub_cancel]
            exact h
        · refine ⟨{ c with r := c.r + 1 }, ?_, ?_⟩
          · simp only [hgot, decide_false, if_false, Bool.false_eq_true, Tty.text, heof, ne_eq,
              not_true, List.filter_cons, List.filter_nil]
            rfl
          · simp only [hgot, decide_false, if_false, Bool.false_eq_true]
            exact hpop
      · have htext (l : List Byte) : Tty.text (b :: l) = b :: Tty.text l := by
          rw [Tty.text, List.filter_cons, if_pos (by simpa using heof)]
          rfl
        rw [if_neg heof, if_neg heof]
        by_cases hnl : b = newline
        · rw [if_pos hnl, if_pos hnl, htext]
          exact ⟨_, rfl, hpop⟩
        · rw [if_neg hnl, if_neg hnl]
          obtain ⟨c', hloop, hlines⟩ := ih hpop (by omega)
          have hgot : decide (n < target) = true := decide_eq_true (by omega)
          rw [hgot] at hloop hlines
          refine ⟨c', ?_, ?_⟩
          · rw [hloop, htext, List.length_cons, Nat.add_sub_add_right]
          · rw [List.append_cons]
            exact hlines

namespace Agrees

variable {s : ConsSys} {t : Tty}

theorem readTurn (h : Agrees s t) {call target left : ℕ} (hleft : left ≤ target) (killed : Bool) :
    Agrees (s.readTurn call target left killed) (t.readTurn call target left killed) := by
  obtain ⟨c', hloop, hlines⟩ := h.lines.readLoop target killed left hleft
  rw [List.length_map] at hloop hlines
  refine ⟨?_, h.plain, ?_, ?_⟩
  · show Lines (s.cons.readLoop target killed left).1 _ _ _
    rw [hloop, Tty.readTurn, List.map_append, List.map_map]
    simp only [Function.comp_def, List.map_id']
    exact hlines
  · show update s.calls call _ = update t.calls call _
    rw [hloop, h.calls]
    congr 2
    unfold Tty.readEnd Tty.unread
    cases (Tty.takeLine (left < target) left (t.committed.drop t.taken.length)).2 with
    | true => rfl
    | false => cases killed <;> rfl
  · show s.delivered ++ _ = List.filter _ (t.taken ++ _)
    rw [hloop, h.delivered, List.filter_append, List.filter_map]
    rfl

/-- A step of the console is a step of the terminal. -/
theorem step (h : Agrees s t)
    (hasked : ∀ call target left, t.calls call = some (.reading target left) → left ≤ target)
    {e : ConsEvent} {s' : ConsSys} (hstep : s.step e = some s') :
    ∃ t', t.step e = some t' ∧ Agrees s' t' := by
  cases e with
  | intr c =>
    cases hstep
    exact ⟨_, rfl, h.consoleintr c⟩
  | read call n =>
    simp only [ConsSys.step, Tty.step, ← h.calls] at hstep ⊢
    cases hcall : s.calls call with
    | none =>
      rw [hcall] at hstep
      cases hstep
      exact ⟨_, rfl, h.lines, h.plain, rfl, h.delivered⟩
    | some _ =>
      rw [hcall] at hstep
      cases hstep
  | turn call killed =>
    simp only [ConsSys.step, Tty.step, ← h.calls] at hstep ⊢
    cases hcall : s.calls call with
    | none =>
      rw [hcall] at hstep
      cases hstep
    | some c =>
      rw [hcall] at hstep
      cases c with
      | read target ret => cases hstep
      | reading target left =>
        cases hstep
        exact ⟨_, rfl, h.readTurn (hasked call target left (h.calls ▸ hcall)) killed⟩

end Agrees

/-! ## What reads get -/

/-- Neither a newline nor a `^D`. -/
def Plain (b : Byte) : Prop := b ≠ newline ∧ b ≠ ctrl 'D'

/-- A turn of a read that was for `target` bytes, has `left` to go and finds the bytes `unread`:
which of them it takes, and the call after it. -/
inductive Turn (target left : ℕ) (unread : List Byte) : Bool → List Byte → ConsCall → Prop
  /-- It takes everything, which is less than it has room for and has no end of line, and sleeps. -/
  | waits (plain : ∀ b ∈ unread, Plain b) (lt : unread.length < left) :
    Turn target left unread false unread (.reading target (left - unread.length))
  /-- The same, but the process has been killed. -/
  | killed (plain : ∀ b ∈ unread, Plain b) (lt : unread.length < left) :
    Turn target left unread true unread (.read target (-1))
  /-- It has nothing yet, and the first byte is a `^D`: it takes only this byte and returns 0. -/
  | eof (k : Bool) (rest : List Byte) (hunread : unread = ctrl 'D' :: rest)
    (nothing : left = target) (pos : 0 < left) :
      Turn target left unread k [ctrl 'D'] (.read target 0)
  /-- It takes bytes up to the end of its room, up to a newline, or up to a `^D` that it leaves
  there when it has something to return. -/
  | returns (k : Bool) (x rest : List Byte) (hunread : unread = x ++ rest) (le : x.length ≤ left)
    (plain : ∀ b ∈ x.dropLast, Plain b) (eof : ctrl 'D' ∉ x)
    (ends : x.length = left ∨ x.getLast? = some newline ∨ rest.head? = some (ctrl 'D') ∧
      0 < target - left + x.length) :
    Turn target left unread k x (.read target (target - left + x.length : ℕ))

/-- A turn that begins with a plain byte. -/
theorem Turn.cons {target left : ℕ} {unread x : List Byte} {k : Bool} {call : ConsCall}
    (h : Turn target left unread k x call) {b : Byte} (hb : Plain b) (hlt : left < target) :
    Turn target (left + 1) (b :: unread) k (b :: x) call := by
  cases h with
  | waits plain lt =>
    have hturn : Turn target (left + 1) (b :: unread) false (b :: unread) _ :=
      .waits (List.forall_mem_cons.mpr ⟨hb, plain⟩) (by rw [List.length_cons]; omega)
    rwa [List.length_cons, Nat.add_sub_add_right] at hturn
  | killed plain lt =>
    exact .killed (List.forall_mem_cons.mpr ⟨hb, plain⟩) (by rw [List.length_cons]; omega)
  | eof k rest hunread nothing pos => omega
  | returns k x rest hunread le plain eof ends =>
    have hturn : Turn target (left + 1) (b :: unread) k (b :: x)
        (.read target (target - (left + 1) + (b :: x).length : ℕ)) := by
      refine .returns k (b :: x) rest
        (by rw [hunread, List.cons_append]) (by rw [List.length_cons]; omega) ?_
        (by rw [List.mem_cons, not_or]; exact ⟨Ne.symm hb.2, eof⟩) ?_
      · cases x with
        | nil => exact fun _ hmem => absurd hmem List.not_mem_nil
        | cons a x => exact List.forall_mem_cons.mpr ⟨hb, plain⟩
      · rw [List.length_cons]
        rcases ends with hall | hline | ⟨heof, -⟩
        · exact .inl (by omega)
        · right
          left
          cases x with
          | nil => cases hline
          | cons a x => rwa [List.getLast?_cons_cons]
        · exact .inr (.inr ⟨heof, by omega⟩)
    rwa [List.length_cons,
      show target - (left + 1) + (x.length + 1) = target - left + x.length by omega] at hturn

/-- The terminal's read makes such a turn. -/
theorem takeLine_spec (target : ℕ) (k : Bool) (left : ℕ) (hleft : left ≤ target)
    (unread : List Byte) : Turn target left unread k (Tty.takeLine (left < target) left unread).1
      (if (Tty.takeLine (left < target) left unread).2 then
        .read target (target -
          (left - (Tty.text (Tty.takeLine (left < target) left unread).1).length) : ℕ)
      else if k then .read target (-1)
      else .reading target
        (left - (Tty.text (Tty.takeLine (left < target) left unread).1).length)) := by
  induction left generalizing unread with
  | zero => exact .returns k [] unread rfl le_rfl (fun _ hmem =>
    absurd hmem List.not_mem_nil) List.not_mem_nil (.inl rfl)
  | succ n ih =>
    cases unread with
    | nil =>
      cases k with
      | true => exact .killed (fun _ hmem => absurd hmem List.not_mem_nil) n.succ_pos
      | false => exact .waits (fun _ hmem => absurd hmem List.not_mem_nil) n.succ_pos
    | cons b l =>
      rw [Tty.takeLine]
      by_cases heof : b = ctrl 'D'
      · rw [if_pos heof, heof]
        by_cases hgot : n + 1 < target
        · simp only [hgot, decide_true, if_true]
          exact .returns k [] (ctrl 'D' :: l) rfl (Nat.zero_le _) (fun _ hmem =>
            absurd hmem List.not_mem_nil)
            List.not_mem_nil (.inr (.inr ⟨rfl, by omega⟩))
        · obtain rfl : n + 1 = target := by omega
          have hnone : Tty.text [ctrl 'D'] = [] := by decide
          simp only [hgot, decide_false, if_false, if_true, Bool.false_eq_true, hnone,
            List.length_nil, Nat.sub_zero, Nat.sub_self]
          exact .eof k l rfl rfl n.succ_pos
      · have htext (x : List Byte) : (Tty.text (b :: x)).length = (Tty.text x).length + 1 := by
          rw [Tty.text, List.filter_cons, if_pos (by simpa using heof)]
          rfl
        rw [if_neg heof]
        by_cases hnl : b = newline
        · rw [if_pos hnl, if_pos rfl, htext]
          have hturn : Turn target (n + 1) (b :: l) k [b] _ :=
            .returns k [b] l rfl (by simp) (fun _ hmem => absurd hmem List.not_mem_nil)
              (by simpa using Ne.symm heof) (.inr (.inl (by rw [hnl]; rfl)))
          rwa [show target - (n + 1) + [b].length = target - (n + 1 - ((Tty.text []).length + 1)) by
            simp [Tty.text]; omega] at hturn
        · rw [if_neg hnl, htext, Nat.add_sub_add_right]
          have hgot : decide (n < target) = true := decide_eq_true (by omega)
          have hturn := ih (by omega) l
          rw [hgot] at hturn
          exact hturn.cons ⟨hnl, heof⟩ (by omega)

/-- What a call has taken, and what it returned. -/
inductive CallOk : Option ConsCall → List Byte → Prop
  | none : CallOk none []
  /-- So far no end of line. -/
  | reading (target left : ℕ) (x : List Byte) (plain : ∀ b ∈ x, Plain b)
    (le : x.length + left = target) : CallOk (some (.reading target left)) x
  | killed (target : ℕ) (x : List Byte) (plain : ∀ b ∈ x, Plain b) :
    CallOk (some (.read target (-1))) x
  /-- The zero-length read. -/
  | eof (target : ℕ) (pos : 0 < target) : CallOk (some (.read target 0)) [ctrl 'D']
  /-- Otherwise the length is the number of bytes, and the last may be a newline. -/
  | returned (target : ℕ) (x : List Byte) (le : x.length ≤ target) (more : 0 < target → x ≠ [])
    (plain : ∀ b ∈ x.dropLast, Plain b) (eof : ctrl 'D' ∉ x) :
      CallOk (some (.read target x.length)) x

namespace Tty

variable {t : Tty}

/-- The bytes that a call has taken. -/
def takenBy (t : Tty) (call : ℕ) : List Byte := (t.taken.filter (·.1 = call)).map Prod.snd

/-- Every call has what it should have. -/
def Laws (t : Tty) : Prop := ∀ call, CallOk (t.calls call) (t.takenBy call)

theorem Laws.init : Laws .init := fun _ => .none

theorem Laws.asked (h : t.Laws) (call target left : ℕ)
    (hcall : t.calls call = some (.reading target left)) : left ≤ target := by
  have hok := h call
  rw [hcall] at hok
  cases hok with
  | reading _ _ x plain le => omega

theorem takenBy_readTurn (t : Tty) (call target left : ℕ) (killed : Bool) (c : ℕ) :
    (t.readTurn call target left killed).takenBy c =
      if c = call then t.takenBy call ++ (takeLine (left < target) left t.unread).1
        else t.takenBy c := by
  simp only [takenBy, readTurn, List.filter_append, List.map_append, List.filter_map]
  split
  next heq =>
    subst heq
    congr 1
    rw [List.filter_eq_self.mpr (by simp), List.map_map]
    simp [Function.comp_def]
  next hne =>
    have hnone : (takeLine (left < target) left t.unread).1.filter
        ((fun x : ℕ × Byte => decide (x.1 = c)) ∘ fun b => (call, b)) = [] :=
      List.filter_eq_nil_iff.mpr fun b _ => by simpa using Ne.symm hne
    rw [hnone, List.map_nil, List.map_nil, List.append_nil]

theorem input_keeps (t : Tty) (c : Byte) :
    (t.input c).taken = t.taken ∧ (t.input c).calls = t.calls ∧
      t.committed <+: (t.input c).committed := by
  unfold input
  dsimp only
  split_ifs <;> exact ⟨rfl, rfl, by first | exact List.prefix_rfl | exact List.prefix_append ..⟩

end Tty

/-- What a call has after a turn. -/
theorem CallOk.turn {target left : ℕ} {unread got x : List Byte} {k : Bool} {call : ConsCall}
    (h : CallOk (some (.reading target left)) got) (turn : Turn target left unread k x call) :
    CallOk (some call) (got ++ x) := by
  cases h with
  | reading _ _ _ hgot hle =>
    cases turn with
    | waits plain lt =>
      refine .reading _ _ _ (List.forall_mem_append.mpr ⟨hgot, plain⟩) ?_
      rw [List.length_append]
      omega
    | killed plain lt => exact .killed _ _ (List.forall_mem_append.mpr ⟨hgot, plain⟩)
    | eof k rest hunread nothing pos =>
      obtain rfl : got = [] := List.length_eq_zero_iff.mp (by omega)
      exact .eof _ (by omega)
    | returns k x rest hunread le plain eof ends =>
      have hlen : (got ++ x).length = target - left + x.length := by
        rw [List.length_append]
        omega
      rw [← hlen]
      refine .returned _ _ (by omega) ?_ ?_ ?_
      · -- nothing is returned only when nothing was asked for
        intro hpos hnil
        rw [hnil, List.length_nil] at hlen
        rcases ends with hall | hline | ⟨-, hsome⟩
        · omega
        · rw [(List.append_eq_nil_iff.mp hnil).2] at hline
          cases hline
        · omega
      · rcases List.eq_nil_or_concat x with rfl | ⟨y, b, rfl⟩
        · rw [List.append_nil]
          exact fun b hb => hgot b (List.mem_of_mem_dropLast hb)
        · rw [List.concat_eq_append, ← List.append_assoc, List.dropLast_concat]
          rw [List.concat_eq_append, List.dropLast_concat] at plain
          exact List.forall_mem_append.mpr ⟨hgot, plain⟩
      · rw [List.mem_append, not_or]
        exact ⟨fun hmem => (hgot _ hmem).2 rfl, eof⟩

namespace Tty

variable {t : Tty}

theorem Laws.step (h : t.Laws) {e : ConsEvent} {t' : Tty} (hstep : t.step e = some t') :
    t'.Laws := by
  cases e with
  | intr c =>
    cases hstep
    obtain ⟨htaken, hcalls, -⟩ := t.input_keeps c
    intro call
    rw [hcalls, takenBy, htaken]
    exact h call
  | read call n =>
    rw [Tty.step] at hstep
    cases hcall : t.calls call with
    | some _ =>
      rw [hcall] at hstep
      cases hstep
    | none =>
      rw [hcall] at hstep
      cases hstep
      intro c
      have hok := h c
      by_cases hc : c = call
      · rw [hc, hcall] at hok
        rw [hc]
        show CallOk (update t.calls call _ call) (t.takenBy call)
        rw [update_self]
        cases hnone : t.takenBy call with
        | nil => exact .reading _ _ _ (fun _ hmem => absurd hmem List.not_mem_nil) (Nat.zero_add _)
        | cons b l =>
          rw [hnone] at hok
          cases hok
      · show CallOk (update t.calls call _ c) (t.takenBy c)
        rwa [update_of_ne hc]
  | turn call killed =>
    rw [Tty.step] at hstep
    cases hcall : t.calls call with
    | none =>
      rw [hcall] at hstep
      cases hstep
    | some cc =>
      rw [hcall] at hstep
      cases cc with
      | read target ret => cases hstep
      | reading target left =>
        cases hstep
        intro c
        have hok := h c
        rw [takenBy_readTurn]
        by_cases hc : c = call
        · rw [hc, hcall] at hok
          rw [if_pos hc, hc]
          show CallOk (update t.calls call _ call) _
          rw [update_self]
          exact hok.turn
            (takeLine_spec target killed left (h.asked call target left hcall) t.unread)
        · rw [if_neg hc]
          show CallOk (update t.calls call _ c) _
          rwa [update_of_ne hc]

end Tty

/-- In every run of the console, the indices are in order and the ring does not overflow; typing
neither changes nor removes a byte between `r` and `w`; and with the terminal that the same events
lead to, the bytes taken followed by those between `r` and `w` are the committed bytes, what was
given out is what was taken without the `^D`s, and every call, and every next turn of a call, gets
what a read of a terminal should get. -/
theorem console_line_discipline (es : List ConsEvent) (s : ConsSys)
    (run : Trace.exec ConsSys.step .init es = some s) :
    ((s.cons.w - s.cons.r).toNat ≤ (s.cons.e - s.cons.r).toNat ∧
        (s.cons.e - s.cons.r).toNat ≤ inputBufSize) ∧
      (∀ c, (s.cons.consoleintr c).r = s.cons.r ∧
        s.cons.pending <+: (s.cons.consoleintr c).pending) ∧
      ∃ t, Trace.exec Tty.step .init es = some t ∧
        t.committed = t.taken.map Prod.snd ++ s.cons.pending ∧
        s.delivered = t.taken.filter (fun x => x.2 ≠ ctrl 'D') ∧
        (∀ call, CallOk (s.calls call) (t.takenBy call)) ∧
        ∀ call target left killed, s.calls call = some (.reading target left) →
          ∃ s' x result, s.step (.turn call killed) = some s' ∧
          s'.calls call = some result ∧ Turn target left s.cons.pending killed x result ∧
          s'.cons.pending = s.cons.pending.drop x.length ∧
          s'.delivered = s.delivered ++ (x.filter (· ≠ ctrl 'D')).map fun b => (call, b) := by
  obtain ⟨t, hrun, hag, hlaws⟩ := Trace.simulation (R := fun s t => Agrees s t ∧ t.Laws)
    (f := Tty.step)
    (fun s t e s' h hstep => by
      obtain ⟨t', ht', hag'⟩ := h.1.step h.2.asked hstep
      exact ⟨t', ht', hag', h.2.step ht'⟩)
    ⟨Agrees.init, Tty.Laws.init⟩ run
  have hle := hag.lines.taken_le
  have hroom := hag.lines.room
  have hpending : s.cons.pending = t.unread := by
    rw [hag.lines.pending, List.length_map, Tty.unread]
  refine ⟨?_, ?_, t, hrun, ?_, hag.delivered, ?_, ?_⟩
  · rw [hag.lines.toNat_e_sub_r, hag.lines.toNat_w_sub_r]
    omega
  · intro c
    have hag' := hag.consoleintr c
    obtain ⟨htaken, -, hcommitted⟩ := t.input_keeps c
    refine ⟨?_, ?_⟩
    · rw [hag'.lines.ring.read, hag.lines.ring.read, htaken]
    · rw [hag'.lines.pending, hag.lines.pending, htaken]
      exact hcommitted.drop _
  · rw [hag.lines.pending]
    obtain ⟨rest, hrest⟩ := hag.lines.order
    rw [← hrest, List.drop_left]
  · intro call
    rw [hag.calls]
    exact hlaws call
  · intro call target left killed hcall
    have hleft := hlaws.asked call target left (hag.calls ▸ hcall)
    have hag' : Agrees (s.readTurn call target left killed) _ := hag.readTurn hleft killed
    rw [hpending]
    refine ⟨s.readTurn call target left killed, (Tty.takeLine (left < target) left t.unread).1, _,
      ?_, ?_, takeLine_spec target killed left hleft t.unread, ?_, ?_⟩
    · rw [ConsSys.step, hcall]
    · rw [hag'.calls]
      exact update_self ..
    · rw [hag'.lines.pending, List.length_map, Tty.unread, List.drop_drop]
      simp only [Tty.readTurn, List.length_append, List.length_map, Tty.unread]
    · rw [hag'.delivered, hag.delivered, Tty.readTurn, List.filter_append, List.filter_map]
      rfl

/-- `a`, `b`, backspace, return, `^D`: the first read gets `a` and a newline, the second nothing. -/
theorem console_line_discipline_erased :
    let es := [.read 0 10, .turn 0 false, .intr 97, .intr 98, .intr (ctrl 'H'),
      .intr carriageReturn, .intr (ctrl 'D'), .turn 0 false, .read 1 10, .turn 1 false]
    ∃ s, Trace.exec ConsSys.step .init es = some s ∧ s.delivered = [(0, 97), (0, 10)] ∧
      s.calls 1 = some (.read 10 0) ∧
      ∃ t, Trace.exec Tty.step .init es = some t ∧ CallOk (s.calls 1) (t.takenBy 1) := by
  intro es
  obtain ⟨s, run, hs⟩ : ∃ s, Trace.exec ConsSys.step .init es = some s ∧
      (s.delivered = [(0, 97), (0, 10)] ∧ s.calls 1 = some (.read 10 0) : Bool) = true :=
    (Option.any_eq_true ..).mp (by decide +kernel)
  rw [decide_eq_true_eq] at hs
  obtain ⟨-, -, t, ht, -, -, hcalls, -⟩ := console_line_discipline es s run
  exact ⟨s, run, hs.1, hs.2, t, ht, hcalls 1⟩

end NeulaCpu.Xv6
