import Mathlib.Computability.Language
import NeulaCpu.Xv6.Console
import NeulaCpu.Xv6.Path

/-!
# `grep`

`user/grep.c`: the matcher for patterns with `^`, `.`, `*` and `$`, and the loop that reads a file
into a buffer of 1024 bytes and prints the lines that match. A C string is the list of its bytes.
How many bytes a `read` returns, or that it fails, is decided from outside.

A pattern stands for a language, and the matcher decides it. What is printed does not depend on how
the reads cut the input: it is the lines that match, up to the first zero byte and up to the first
line that does not fit in the buffer; a last line without a newline is not looked at.
-/

namespace NeulaCpu.User

open ByteStore (Byte)
open Xv6 (cstring cstring_cons cstring_zero newline)
open scoped Computability

/-! ## The matcher -/

def caret : Byte := 0x5e
def dot : Byte := 0x2e
def star : Byte := 0x2a
def dollar : Byte := 0x24

/-- The loop of `matchstar`; `here` is `matchhere` with the rest of the pattern. -/
def matchstar (here : List Byte → Bool) (c : Byte) : List Byte → Bool
  | [] => here []
  | t :: text => here (t :: text) || ((t == c || c == dot) && matchstar here c text)

/-- The last test of `matchhere`. -/
def matchone (here : List Byte → Bool) (c : Byte) : List Byte → Bool
  | [] => false
  | t :: text => (c == dot || c == t) && here text

def matchhere : List Byte → List Byte → Bool
  | [], _ => true
  | [c], text => if c = dollar then text.isEmpty else matchone (fun _ => true) c text
  | c :: d :: re, text =>
    if d = star then matchstar (matchhere re) c text else matchone (matchhere (d :: re)) c text

/-- The loop of `match`. -/
def search (here : List Byte → Bool) : List Byte → Bool
  | [] => here []
  | t :: text => here (t :: text) || search here text

/-- `match`. -/
def matchText (re text : List Byte) : Bool :=
  if re.head? = some caret then matchhere re.tail text else search (matchhere re) text

/-- The one-byte strings that a character of the pattern stands for. -/
def atom (c : Byte) : Language Byte := {w | ∃ t, w = [t] ∧ (c = dot ∨ c = t)}

/-- The texts that begin with the pattern. -/
def lang : List Byte → Language Byte
  | [] => ⊤
  | [c] => if c = dollar then 1 else atom c * ⊤
  | c :: d :: re => if d = star then (atom c)∗ * lang re else atom c * lang (d :: re)

/-- The texts that match the pattern. -/
def matching (re : List Byte) : Language Byte :=
  if re.head? = some caret then lang re.tail else ⊤ * lang re

section

variable {c : Byte} {l : Language Byte} {here : List Byte → Bool} {text : List Byte}

theorem mem_atom_mul : text ∈ atom c * l ↔ ∃ t s, text = t :: s ∧ (c = dot ∨ c = t) ∧ s ∈ l := by
  rw [Language.mem_mul]
  constructor
  · rintro ⟨_, ⟨t, rfl, hc⟩, s, hs, rfl⟩
    exact ⟨t, s, rfl, hc, hs⟩
  · rintro ⟨t, s, rfl, hc, hs⟩
    exact ⟨[t], ⟨t, rfl, hc⟩, s, hs, rfl⟩

theorem mem_kstar_mul : text ∈ (atom c)∗ * l ↔ text ∈ l ∨ text ∈ atom c * ((atom c)∗ * l) := by
  nth_rewrite 1 [← Language.one_add_self_mul_kstar_eq_kstar (atom c)]
  rw [add_mul, one_mul, mul_assoc, Language.mem_add]

variable (h : ∀ s, here s = true ↔ s ∈ l)

include h

theorem matchone_iff : matchone here c text = true ↔ text ∈ atom c * l := by
  rw [mem_atom_mul]
  cases text with
  | nil => simp [matchone]
  | cons t text => simp [matchone, h]

theorem matchstar_iff : matchstar here c text = true ↔ text ∈ (atom c)∗ * l := by
  induction text with
  | nil =>
    rw [mem_kstar_mul, mem_atom_mul, matchstar, h]
    simp
  | cons t text ih =>
    rw [mem_kstar_mul, mem_atom_mul, matchstar, Bool.or_eq_true, h, Bool.and_eq_true, ih,
      Bool.or_eq_true, beq_iff_eq, beq_iff_eq, or_comm (a := t = c), eq_comm (a := t)]
    refine or_congr_right ⟨fun ht => ⟨t, text, rfl, ht⟩, ?_⟩
    rintro ⟨_, _, heq, ht⟩
    cases heq
    exact ht

theorem search_iff : search here text = true ↔ text ∈ ⊤ * l := by
  rw [Language.mem_mul]
  induction text with
  | nil =>
    rw [search, h]
    refine ⟨fun hl => ⟨[], trivial, [], hl, rfl⟩, ?_⟩
    rintro ⟨a, -, s, hs, heq⟩
    exact (List.append_eq_nil_iff.mp heq).2 ▸ hs
  | cons t text ih =>
    rw [search, Bool.or_eq_true, h, ih]
    constructor
    · rintro (hl | ⟨a, -, s, hs, rfl⟩)
      · exact ⟨[], trivial, _, hl, rfl⟩
      · exact ⟨t :: a, trivial, s, hs, rfl⟩
    · rintro ⟨a, -, s, hs, heq⟩
      cases a with
      | nil => exact Or.inl (heq ▸ hs)
      | cons b a => exact Or.inr ⟨a, trivial, s, hs, (List.cons.inj heq).2⟩

end

theorem matchhere_iff (re text : List Byte) : matchhere re text = true ↔ text ∈ lang re := by
  match re with
  | [] => exact iff_of_true rfl trivial
  | [c] =>
    rw [matchhere, lang]
    split_ifs
    · rw [List.isEmpty_iff, Language.mem_one]
    · exact matchone_iff fun _ => iff_of_true rfl trivial
  | c :: d :: re =>
    rw [matchhere, lang]
    split_ifs
    · exact matchstar_iff fun s => matchhere_iff re s
    · exact matchone_iff fun s => matchhere_iff (d :: re) s

/-- The matcher decides the language of the pattern. -/
theorem match_iff (re text : List Byte) : matchText re text = true ↔ text ∈ matching re := by
  rw [matchText, matching]
  split_ifs
  · exact matchhere_iff re.tail text
  · exact search_iff (matchhere_iff re)

/-! ## The loop -/

/-- `sizeof(buf)`. -/
def bufSize : ℕ := 1024

/-- `strchr` of `ulib.c`, as an offset; what is behind the list is a zero. -/
def strchr (c : Byte) : List Byte → Option ℕ
  | [] => none
  | b :: s => if b = 0 then none else if b = c then some 0 else (strchr c s).map (· + 1)

/-- What is printed for a line. -/
def printed (re line : List Byte) : List Byte := if matchText re line then line ++ [newline] else []

/-- The loop over the lines in the buffer from `p` on, at most `fuel` rounds: what it prints, and
the rest. -/
def scan (re : List Byte) : ℕ → List Byte → List Byte × List Byte
  | 0, p => ([], p)
  | fuel + 1, p =>
    match strchr newline p with
    | none => ([], p)
    | some q =>
      let r := scan re fuel (p.drop (q + 1))
      (printed re (p.take q) ++ r.1, r.2)

/-- The loop of `grep` with `buf` in the buffer and `input` to be read, at most `fuel` rounds. Read
number `i` fails, or returns `reads i + 1` bytes if there is room for them and so many are left. -/
def grepLoop (re : List Byte) (reads : ℕ → Option ℕ) : ℕ → ℕ → List Byte → List Byte → List Byte
  | 0, _, _, _ => []
  | fuel + 1, i, buf, input =>
    match reads i with
    | none => []
    | some k =>
      let n := min (k + 1) (min (bufSize - buf.length - 1) input.length)
      if n = 0 then []
      else
        let p := buf ++ input.take n
        let r := scan re p.length p
        r.1 ++ grepLoop re reads fuel (i + 1) r.2 (input.drop n)

def grep (re : List Byte) (reads : ℕ → Option ℕ) (input : List Byte) : List Byte :=
  grepLoop re reads (input.length + 1) 0 [] input

/-- The lines that `grep` looks at. -/
def seenLines (input : List Byte) : List (List Byte) :=
  ((cstring input).splitOn newline).dropLast.takeWhile fun line => line.length + 1 < bufSize

section

variable {c : Byte} {p buf : List Byte} {q : ℕ}

/-- The string that `strchr` finds, up to the character. -/
theorem strchr_some (h : strchr c p = some q) :
    ∃ line rest, p = line ++ c :: rest ∧ line.length = q ∧ c ∉ line ∧
      ∀ s, cstring (line ++ c :: s) = line ++ c :: cstring s := by
  induction p generalizing q with
  | nil => cases h
  | cons b p ih =>
    rw [strchr] at h
    split_ifs at h with h0 hc
    · cases h
      subst hc
      exact ⟨[], p, rfl, rfl, List.not_mem_nil, fun s => cstring_cons h0⟩
    · obtain ⟨k, hk, rfl⟩ := Option.map_eq_some_iff.mp h
      obtain ⟨line, rest, rfl, rfl, hline, hs⟩ := ih hk
      refine ⟨b :: line, rest, rfl, rfl, ?_, fun s => ?_⟩
      · rw [List.mem_cons, not_or]
        exact ⟨fun he => hc he.symm, hline⟩
      · rw [List.cons_append, cstring_cons h0, hs, List.cons_append]

theorem strchr_none (h : strchr c p = none) : c ∉ cstring p := by
  induction p with
  | nil => exact List.not_mem_nil
  | cons b p ih =>
    rw [strchr] at h
    split_ifs at h with h0 hc
    · rw [h0, cstring_zero]
      exact List.not_mem_nil
    · rw [cstring_cons h0, List.mem_cons, not_or]
      exact ⟨fun he => hc he.symm, ih (Option.map_eq_none_iff.mp h)⟩

/-- More input does not change what is found, and what is found later lies behind. -/
theorem strchr_append (input : List Byte) :
    (∀ q, strchr c p = some q → strchr c (p ++ input) = some q) ∧
      (strchr c p = none → ∀ q, strchr c (p ++ input) = some q → p.length ≤ q) := by
  induction p with
  | nil => exact ⟨fun q h => absurd h (by simp [strchr]), fun _ q _ => Nat.zero_le q⟩
  | cons b p ih =>
    rw [List.cons_append, strchr, strchr]
    split_ifs
    · simp
    · simp
    · refine ⟨fun q h => ?_, fun h q hq => ?_⟩
      · obtain ⟨k, hk, rfl⟩ := Option.map_eq_some_iff.mp h
        rw [ih.1 k hk]
        rfl
      · obtain ⟨k, hk, rfl⟩ := Option.map_eq_some_iff.mp hq
        have := ih.2 (Option.map_eq_none_iff.mp h) k hk
        rw [List.length_cons]
        omega

theorem seenLines_none (h : strchr newline p = none) : seenLines p = [] := by
  rw [seenLines, List.splitOn_eq_singleton (strchr_none h)]
  rfl

theorem seenLines_some (h : strchr newline p = some q) : q < p.length ∧
    seenLines p = if q + 1 < bufSize then p.take q :: seenLines (p.drop (q + 1)) else [] := by
  obtain ⟨line, rest, rfl, rfl, hline, hs⟩ := strchr_some h
  have hdrop : (line ++ newline :: rest).drop (line.length + 1) = rest := by simp
  rw [hdrop, List.take_left, seenLines, hs, List.splitOn_append_cons_self_of_not_mem hline,
    List.dropLast_cons_of_ne_nil (List.splitOn_ne_nil _ _), List.takeWhile_cons]
  exact ⟨by simp, by simp [seenLines]⟩

/-- A buffer that is full and has no newline ends everything. -/
theorem seenLines_full (h : strchr newline buf = none) (hfull : bufSize ≤ buf.length + 1)
    (input : List Byte) : seenLines (buf ++ input) = [] := by
  cases hq : strchr newline (buf ++ input) with
  | none => exact seenLines_none hq
  | some q =>
    have hle := (strchr_append input).2 h q hq
    rw [(seenLines_some hq).2, if_neg (by omega)]

theorem scan_spec (re : List Byte) {fuel : ℕ} (hfuel : p.length ≤ fuel) (hp : p.length < bufSize) :
    strchr newline (scan re fuel p).2 = none ∧ (scan re fuel p).2.length ≤ p.length ∧
    ∀ input, (seenLines (p ++ input)).flatMap (printed re) =
      (scan re fuel p).1 ++ (seenLines ((scan re fuel p).2 ++ input)).flatMap (printed re) := by
  induction fuel generalizing p with
  | zero =>
    obtain rfl := List.length_eq_zero_iff.mp (Nat.le_zero.mp hfuel)
    exact ⟨rfl, le_rfl, fun input => rfl⟩
  | succ fuel ih =>
    rw [scan]
    cases hq : strchr newline p with
    | none => exact ⟨hq, le_rfl, fun input => rfl⟩
    | some q =>
      have hlt := (seenLines_some hq).1
      obtain ⟨hnone, hle, hlines⟩ :=
        @ih (p.drop (q + 1)) (by rw [List.length_drop]; omega) (by rw [List.length_drop]; omega)
      refine ⟨hnone, hle.trans (by rw [List.length_drop]; omega), fun input => ?_⟩
      rw [(seenLines_some ((strchr_append input).1 q hq)).2, if_pos (by omega), List.flatMap_cons,
        List.take_append_of_le_length hlt.le, List.drop_append_of_le_length (by omega), hlines,
          List.append_assoc]

theorem grepLoop_spec (re : List Byte) (reads : ℕ → Option ℕ) {fuel i : ℕ} {input : List Byte}
    (hfuel : input.length < fuel) (h : strchr newline buf = none) (hbuf : buf.length < bufSize) :
    grepLoop re reads fuel i buf input <+: (seenLines (buf ++ input)).flatMap (printed re) ∧
    ((∀ j, reads j ≠ none) →
      grepLoop re reads fuel i buf input = (seenLines (buf ++ input)).flatMap (printed re)) := by
  induction fuel generalizing i buf input with
  | zero => omega
  | succ fuel ih =>
    rw [grepLoop]
    cases hk : reads i with
    | none => exact ⟨List.nil_prefix, fun hall => absurd hk (hall i)⟩
    | some k =>
      simp only
      split_ifs with hn
      · -- The end of the input, or no room in the buffer.
        have hnil : seenLines (buf ++ input) = [] := by
          rcases Nat.eq_zero_or_pos input.length with h0 | hpos
          · rw [List.length_eq_zero_iff.mp h0, List.append_nil]
            exact seenLines_none h
          · exact seenLines_full h (by omega) input
        rw [hnil]
        exact ⟨List.prefix_rfl, fun _ => rfl⟩
      · generalize hn' : min (k + 1) (min (bufSize - buf.length - 1) input.length) = n at hn ⊢
        have hlen : (buf ++ input.take n).length = buf.length + n := by simp; omega
        obtain ⟨hnone, hle, hlines⟩ :=
          scan_spec re (le_refl (buf ++ input.take n).length) (by omega)
        have hsplit : buf ++ input = (buf ++ input.take n) ++ input.drop n := by simp
        obtain ⟨hpre, heq⟩ :=
          @ih _ (i + 1) (input.drop n) (by rw [List.length_drop]; omega) hnone (by omega)
        rw [hsplit, hlines]
        exact ⟨(List.prefix_append_right_inj _).mpr hpre, fun hall => congrArg _ (heq hall)⟩

end

/-- `grep` prints, in order, the lines it looks at that match, however the reads cut the input; if a
read fails, the first ones of them. -/
theorem grep_prints_matching_lines (re : List Byte) (reads : ℕ → Option ℕ) (input : List Byte) :
    grep re reads input <+: (seenLines input).flatMap (printed re) ∧
    ((∀ i, reads i ≠ none) → grep re reads input = (seenLines input).flatMap (printed re)) ∧
    ∀ line, printed re line = line ++ [newline] ↔ line ∈ matching re := by
  obtain ⟨hpre, heq⟩ := @grepLoop_spec [] re reads _ 0 input (Nat.lt_succ_self _) rfl (by decide)
  refine ⟨hpre, heq, fun line => ?_⟩
  rw [printed, ← match_iff]
  split_ifs with h <;> simp [h]

-- `grep a*b$`, byte by byte.
example : grep [0x61, star, 0x62, dollar] (fun _ => some 0)
    [0x78, 0x61, 0x62, newline, 0x62, 0x61, newline] = [0x78, 0x61, 0x62, newline] := by decide

end NeulaCpu.User
