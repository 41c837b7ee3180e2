import NeulaCpu.Xv6.Copy
import NeulaCpu.Xv6.PageTables

/-!
# User copies byte by byte

A user address is translated by the entry of its page. `copyin`, `copyinstr` and `copyout` work
through a range page by page. What they do is what a translation of each address on its own would
do, as long as the pages that are written are not pages of the page table: `copyout` looks the table
up again for every page.
-/

namespace NeulaCpu.Xv6

open ByteStore (Byte)
open Forest Function

theorem pgSize_pos : 0 < pgSize := by decide

namespace Pte

@[simp] theorem word_ofWord (w : BitVec 64) : (ofWord w).word = w := by
  rw [word, ofWord, BitVec.ofNat_toNat, BitVec.setWidth_eq]
  rw [BitVec.extractLsb'_append_extractLsb'_eq_extractLsb' (by rfl)]
  exact BitVec.extractLsb'_eq_self

end Pte

namespace VmState

variable {s t : VmState} {pt va pa : ℕ}

/-! ## Bytes of physical memory -/

theorem byte_setByte (pa : ℕ) (b : Byte) (a : ℕ) :
    (s.setByte pa b).byte a = if a = pa then b else s.byte a := by
  simp only [byte, setByte, setPte, setPage]
  by_cases hpage : a / pgSize = pa / pgSize
  · rw [hpage, update_self]
    by_cases hword : wordIdx a = wordIdx pa
    · rw [hword, update_self, Pte.word_ofWord, Paging.lane_setLane _ _ (Nat.mod_lt _ (by decide))]
      have hidx : a / 8 % 512 = pa / 8 % 512 := congrArg Fin.val hword
      have hiff : a % 8 = pa % 8 ↔ a = pa := by
        rw [pgSize] at hpage
        omega
      simp only [hiff]
    · rw [update_of_ne hword, if_neg]
      rintro rfl
      exact hword rfl
  · rw [update_of_ne hpage, if_neg]
    rintro rfl
    exact hpage rfl

theorem byte_memmove (pa : ℕ) (l : List Byte) :
    (s.memmove pa l).byte = ByteStore.put s.byte pa l := by
  induction l generalizing pa s with
  | nil =>
    funext a
    exact (ByteStore.put_apply_of_disjoint (by simp only [List.length_nil]; omega)).symm
  | cons b l ih =>
    rw [memmove, ih, show b :: l = [b] ++ l from rfl, ByteStore.put_append, List.length_singleton]
    congr 1
    funext a
    rw [byte_setByte, ByteStore.put]
    split_ifs with h1 h2 h2
    · rw [h1, Nat.sub_self]
      rfl
    · omega
    · rw [List.getElem?_eq_none (by rw [List.length_singleton]; omega)]
      rfl
    · rfl

/-- A copy that stays in a page changes this page only. -/
theorem memmove_eq_setPage (l : List Byte) (hfits : pa % pgSize + l.length ≤ pgSize) :
    ∃ content, s.memmove pa l = s.setPage (pa / pgSize) content := by
  induction l generalizing pa s with
  | nil => exact ⟨s.mem (pa / pgSize), by rw [memmove, setPage, update_eq_self]⟩
  | cons b l ih =>
    rw [List.length_cons] at hfits
    rw [memmove]
    obtain ⟨c, hc⟩ : ∃ c, s.setByte pa b = s.setPage (pa / pgSize) c := ⟨_, rfl⟩
    rcases l.eq_nil_or_concat with rfl | ⟨_, _, hl⟩
    · exact ⟨c, hc⟩
    · have hpos : 0 < l.length := by rw [hl, List.length_concat]; omega
      have hdiv : (pa + 1) / pgSize = pa / pgSize ∧ (pa + 1) % pgSize = pa % pgSize + 1 := by
        rw [pgSize] at hfits ⊢
        omega
      obtain ⟨content, hcontent⟩ : ∃ content, (s.setByte pa b).memmove (pa + 1) l =
          (s.setByte pa b).setPage ((pa + 1) / pgSize) content := ih (by omega)
      refine ⟨content, ?_⟩
      rw [hcontent, hc, hdiv.1]
      simp only [setPage, update_idem]

theorem mem_setPage_of_ne {p q : ℕ} (hne : q ≠ p) (content : Fin 512 → Pte) :
    (s.setPage p content).mem q = s.mem q :=
  update_of_ne hne ..

/-! ## Translation -/

section Translation

variable (s pt va)

/-- The entry of the page of a virtual address, if it is valid. -/
def entry : Option Pte := if va < maxVa then leafPte s.mem pt (va / pgSize) else none

/-- The entry, if it is valid and user-accessible. -/
def userPte : Option Pte := (s.entry pt va).filter Pte.user

/-- The physical address. -/
def translate : Option ℕ := (s.userPte pt va).map fun e => e.ppn * pgSize + va % pgSize

/-- The byte that a user sees. -/
def userByte : Option Byte := (s.translate pt va).map s.byte

/-- The page is below `MAXVA`, valid and user-accessible, and is not mapped to physical page 0. -/
def Mapped : Prop := ∃ e, s.userPte pt va = some e ∧ e.ppn ≠ 0

instance : Decidable (s.Mapped pt va) :=
  decidable_of_iff ((s.userPte pt va).any (·.ppn ≠ 0) = true) (by simp [Mapped, Option.any_eq_true])

end Translation

theorem walkaddr_eq :
    s.walkaddr pt (pgRoundDown va) = ((s.userPte pt va).map fun e => e.ppn * pgSize).getD 0 := by
  rw [walkaddr, userPte, entry, pgRoundDown]
  by_cases hlt : va < maxVa
  · have hv : va / pgSize < 2 ^ 26 := by
      rw [maxVa] at hlt
      rw [pgSize]
      omega
    rw [if_neg (lt_maxVa hv), PageInv.walk_find pt hv, if_pos hlt, leafPte]
    cases hn : follow (child s.mem) pt (vpnDir (va / pgSize)) with
    | none => rfl
    | some n =>
      simp only [Option.map_some, Option.bind_some]
      cases hvalid : (s.mem n (vpnIdx (va / pgSize))).valid with
      | false => rfl
      | true =>
        cases huser : (s.mem n (vpnIdx (va / pgSize))).user with
        | false => simp [Option.filter, huser]
        | true => simp [Option.filter, huser]
  · have hge : maxVa ≤ va / pgSize * pgSize := by
      rw [maxVa] at hlt ⊢
      rw [pgSize]
      omega
    rw [if_pos hge, if_neg hlt]
    rfl

theorem entry_congr {va' : ℕ} (h : va' / pgSize = va / pgSize) :
    s.entry pt va' = s.entry pt va := by
  have hlt : va' < maxVa ↔ va < maxVa := by
    rw [pgSize] at h
    rw [maxVa]
    omega
  simp only [entry, hlt, h]

theorem userPte_congr {va' : ℕ} (h : va' / pgSize = va / pgSize) :
    s.userPte pt va' = s.userPte pt va := by
  rw [userPte, userPte, entry_congr h]

/-- Two addresses of one byte are at the same offset of one frame. -/
theorem translate_eq_some {va' : ℕ} (hva : s.translate pt va = some pa)
    (hva' : s.translate pt va' = some pa) :
    ∃ e e', s.userPte pt va = some e ∧ s.userPte pt va' = some e' ∧ e.ppn = e'.ppn ∧
      va % pgSize = va' % pgSize := by
  obtain ⟨e, he, hpa⟩ := Option.map_eq_some_iff.mp hva
  obtain ⟨e', he', hpa'⟩ := Option.map_eq_some_iff.mp hva'
  rw [← hpa'] at hpa
  have hoff : va % pgSize = va' % pgSize := by
    have hcongr := congrArg (· % pgSize) hpa
    simpa only [Nat.mul_add_mod_self_right, Nat.mod_mod] using hcongr
  rw [hoff] at hpa
  exact ⟨e, e', he, he', Nat.eq_of_mul_eq_mul_right pgSize_pos (Nat.add_right_cancel hpa), hoff⟩

theorem eq_of_div_mod {va' : ℕ} (hdiv : va / pgSize = va' / pgSize)
    (hmod : va % pgSize = va' % pgSize) : va = va' := by
  rw [← Nat.div_add_mod' va pgSize, ← Nat.div_add_mod' va' pgSize, hdiv, hmod]

theorem Mapped.congr {va' : ℕ} (h : va' / pgSize = va / pgSize) :
    s.Mapped pt va' ↔ s.Mapped pt va := by
  rw [Mapped, Mapped, userPte_congr h]

theorem walkaddr_eq_zero_iff : s.walkaddr pt (pgRoundDown va) = 0 ↔ ¬ s.Mapped pt va := by
  rw [walkaddr_eq, Mapped]
  cases s.userPte pt va with
  | none => simp
  | some e => simp [pgSize]

theorem sub_pgRoundDown : va - pgRoundDown va = va % pgSize := by
  have hdiv := Nat.div_add_mod' va pgSize
  rw [pgRoundDown]
  omega

/-- What `walkaddr` and the offset in the page give. -/
theorem Mapped.walkaddr_add (h : s.Mapped pt va) :
    s.translate pt va = some (s.walkaddr pt (pgRoundDown va) + (va - pgRoundDown va)) := by
  obtain ⟨e, he, _⟩ := h
  rw [walkaddr_eq, translate, he, sub_pgRoundDown]
  rfl

section Piece

variable {len k : ℕ}

/-- The addresses of a piece are translated like its first one. -/
theorem translate_piece (hk : k < Paging.piece pgSize va m) (hpa : s.translate pt va = some pa) :
    s.translate pt (va + k) = some (pa + k) := by
  rw [translate, userPte_congr (Paging.div_of_lt_piece hk), Paging.mod_of_lt_piece hk]
  rw [translate] at hpa
  obtain ⟨e, he, rfl⟩ := Option.map_eq_some_iff.mp hpa
  rw [he, Option.map_some, Nat.add_assoc]

theorem mapped_piece (hk : k < Paging.piece pgSize va m) : s.Mapped pt (va + k) ↔ s.Mapped pt va :=
  Mapped.congr (Paging.div_of_lt_piece hk)

theorem get_piece {n : ℕ} (hn : n ≤ Paging.piece pgSize va m) (hpa : s.translate pt va = some pa) :
    (ByteStore.get s.byte pa n).map some = (List.range n).map fun k => s.userByte pt (va + k) := by
  rw [ByteStore.get, List.map_map]
  refine List.map_congr_left fun k hk => ?_
  rw [userByte, translate_piece (lt_of_lt_of_le (List.mem_range.mp hk) hn) hpa]
  rfl

end Piece

/-! ## copyin -/

theorem range_map_add {α : Type*} (f : ℕ → α) (n m : ℕ) :
    (List.range n).map f ++ (List.range m).map (fun k => f (n + k)) =
      (List.range (n + m)).map f := by
  rw [List.range_add, List.map_append, List.map_map]
  rfl

/-- The next round of a loop over user pages starts where this one ends, unless nothing is left. -/
theorem next_round {len n : ℕ} (hn : n = Paging.piece pgSize va len) :
    n = len ∨ pgRoundDown va + pgSize = va + n :=
  hn ▸ Paging.piece_eq_or pgSize_pos

theorem min_eq_piece (len : ℕ) :
    min (pgSize - (va - pgRoundDown va)) len = Paging.piece pgSize va len := by
  rw [sub_pgRoundDown, Paging.piece]

theorem copyinLoop_zero (fuel a a' : ℕ) (dst : List Byte) :
    s.copyinLoop pt fuel a 0 dst = s.copyinLoop pt fuel a' 0 dst := by
  cases fuel with
  | zero => rfl
  | succ fuel => rw [copyinLoop, copyinLoop, if_pos rfl, if_pos rfl]

/-- A round of `copyin`. -/
theorem copyinLoop_succ (fuel srcva : ℕ) {len n : ℕ} (dst : List Byte) (hlen : 0 < len)
    (hn : n = Paging.piece pgSize srcva len) (hpa : s.translate pt srcva = some pa)
    (hmapped : s.Mapped pt srcva) :
    s.copyinLoop pt (fuel + 1) srcva len dst =
      s.copyinLoop pt fuel (srcva + n) (len - n) (dst ++ ByteStore.get s.byte pa n) := by
  have hpa' := hmapped.walkaddr_add
  rw [hpa, Option.some.injEq] at hpa'
  rw [copyinLoop, if_neg (by omega)]
  simp only [walkaddr_eq_zero_iff, hmapped, not_true, if_false, min_eq_piece, ← hn, ← hpa']
  rcases next_round hn with h | h
  · rw [h, Nat.sub_self]
    exact copyinLoop_zero fuel _ _ _
  · rw [h]

theorem copyinLoop_fail (fuel srcva : ℕ) {len : ℕ} (dst : List Byte) (hlen : 0 < len)
    (hmapped : ¬ s.Mapped pt srcva) : s.copyinLoop pt (fuel + 1) srcva len dst = (false, dst) := by
  rw [copyinLoop, if_neg (by omega)]
  simp only [walkaddr_eq_zero_iff, hmapped, not_false_eq_true, if_true]

/-- `copyin` of `len` bytes copies the bytes `l`, up to the first page that is not mapped. -/
structure CopiedIn (s : VmState) (pt srcva len : ℕ) (l : List Byte) : Prop where
  le : l.length ≤ len
  mapped : ∀ k < l.length, s.Mapped pt (srcva + k)
  stop : l.length < len → ¬ s.Mapped pt (srcva + l.length)
  bytes : l.map some = (List.range l.length).map fun k => s.userByte pt (srcva + k)

namespace CopiedIn

variable {srcva len : ℕ}

theorem nil (h : 0 < len → ¬ s.Mapped pt srcva) : s.CopiedIn pt srcva len [] :=
  ⟨Nat.zero_le len, fun k hk => absurd hk (Nat.not_lt_zero k), h, rfl⟩

/-- A piece, and what is copied from there on. -/
theorem cons_piece {n : ℕ} {l : List Byte} (hn : n = Paging.piece pgSize srcva len)
    (hmapped : s.Mapped pt srcva) (hpa : s.translate pt srcva = some pa)
    (h : s.CopiedIn pt (srcva + n) (len - n) l) :
    s.CopiedIn pt srcva len (ByteStore.get s.byte pa n ++ l) := by
  obtain ⟨hle, hmap, hstop, hbytes⟩ := h
  have hn' : n ≤ len := hn ▸ Paging.piece_le
  refine ⟨?_, fun k hk => ?_, fun hlt => ?_, ?_⟩
  all_goals rw [List.length_append, ByteStore.length_get] at *
  · omega
  · rcases lt_or_ge k n with hlt | hge
    · exact (mapped_piece (m := len) (by omega)).mpr hmapped
    · have hk' := hmap (k - n) (by omega)
      rwa [Nat.add_assoc, Nat.add_sub_cancel' hge] at hk'
  · rw [← Nat.add_assoc]
    exact hstop (by omega)
  · rw [List.map_append, get_piece hn.le hpa, hbytes, ← range_map_add]
    simp only [Nat.add_assoc]

end CopiedIn

theorem copyinLoop_spec (s : VmState) (pt fuel srcva len : ℕ) (dst : List Byte)
    (hfuel : len ≤ fuel) :
    ∃ l, s.CopiedIn pt srcva len l ∧
      s.copyinLoop pt fuel srcva len dst = (decide (l.length = len), dst ++ l) := by
  induction fuel generalizing srcva len dst with
  | zero =>
    obtain rfl : len = 0 := by omega
    exact ⟨[], .nil fun h => absurd h (Nat.lt_irrefl 0), by simp [copyinLoop]⟩
  | succ fuel ih =>
    rcases Nat.eq_zero_or_pos len with rfl | hlen
    · exact ⟨[], .nil fun h => absurd h (Nat.lt_irrefl 0), by simp [copyinLoop]⟩
    by_cases hmapped : s.Mapped pt srcva
    · obtain ⟨n, hn⟩ : ∃ n, n = Paging.piece pgSize srcva len := ⟨_, rfl⟩
      have hpos : 0 < n := hn ▸ Paging.piece_pos pgSize_pos hlen
      have hle : n ≤ len := hn ▸ Paging.piece_le
      have hpa := hmapped.walkaddr_add
      obtain ⟨l, hl, heq⟩ := ih (srcva + n) (len - n) (dst ++ ByteStore.get s.byte _ n) (by omega)
      refine ⟨_, hl.cons_piece hn hmapped hpa, ?_⟩
      rw [copyinLoop_succ fuel srcva dst hlen hn hpa hmapped, heq, List.append_assoc,
        List.length_append, ByteStore.length_get]
      congr 2
      exact propext (by omega)
    · refine ⟨[], .nil fun _ => hmapped, ?_⟩
      rw [copyinLoop_fail fuel srcva dst hlen hmapped, List.append_nil, List.length_nil,
        decide_eq_false hlen.ne]

theorem copyin_spec (s : VmState) (pt srcva len : ℕ) :
    ((s.copyin pt srcva len).1 = true ↔ ∀ k < len, s.Mapped pt (srcva + k)) ∧
      ((s.copyin pt srcva len).1 = true → (s.copyin pt srcva len).2.map some =
          (List.range len).map fun k => s.userByte pt (srcva + k)) := by
  obtain ⟨l, hl, heq⟩ := copyinLoop_spec s pt len srcva len [] le_rfl
  rw [copyin, heq, decide_eq_true_iff]
  refine ⟨⟨fun h => h ▸ hl.mapped, fun h => ?_⟩, fun h => h ▸ hl.bytes⟩
  by_contra hne
  have hlt := lt_of_le_of_ne hl.le hne
  exact hl.stop hlt (h _ hlt)

/-! ## copyinstr -/

/-- The string at a user address has `n` bytes before its zero byte. -/
structure StringAt (s : VmState) (pt va n : ℕ) : Prop where
  mapped : ∀ k ≤ n, s.Mapped pt (va + k)
  body : ∀ k < n, s.userByte pt (va + k) ≠ some 0
  null : s.userByte pt (va + n) = some 0

theorem StringAt.unique {n m : ℕ} (hn : s.StringAt pt va n) (hm : s.StringAt pt va m) : n = m := by
  rcases lt_trichotomy n m with h | h | h
  · exact absurd hn.null (hm.body n h)
  · exact h
  · exact absurd hm.null (hn.body m h)

theorem copyinstrPage_spec (n p : ℕ) :
    (∃ j < n, (∀ i < j, s.byte (p + i) ≠ 0) ∧ s.byte (p + j) = 0 ∧
      s.copyinstrPage n p = (true, ByteStore.get s.byte p (j + 1))) ∨
    ((∀ i < n, s.byte (p + i) ≠ 0) ∧ s.copyinstrPage n p = (false, ByteStore.get s.byte p n)) := by
  induction n generalizing p with
  | zero => exact .inr ⟨fun i hi => absurd hi (Nat.not_lt_zero i), rfl⟩
  | succ n ih =>
    have hcons : ∀ m, ByteStore.get s.byte p (m + 1) =
        s.byte p :: ByteStore.get s.byte (p + 1) m := by
      intro m
      rw [Nat.add_comm m 1, ByteStore.get_add]
      rfl
    rw [copyinstrPage]
    by_cases hzero : s.byte p = 0
    · refine .inl ⟨0, by omega, fun i hi => absurd hi (Nat.not_lt_zero i), hzero, ?_⟩
      rw [if_pos hzero, hcons, hzero]
      rfl
    · have hshift : ∀ {m : ℕ}, (∀ i < m, s.byte (p + 1 + i) ≠ 0) →
          ∀ i < m + 1, s.byte (p + i) ≠ 0 := by
        intro m h i hi
        rcases Nat.eq_zero_or_pos i with rfl | hpos
        · exact hzero
        · have hi' := h (i - 1) (by omega)
          rwa [show p + 1 + (i - 1) = p + i by omega] at hi'
      rw [if_neg hzero]
      rcases ih (p + 1) with ⟨j, hj, hbody, hnull, heq⟩ | ⟨hbody, heq⟩
      · refine .inl
          ⟨j + 1, by omega, hshift hbody, by rwa [← Nat.add_assoc, Nat.add_right_comm], ?_⟩
        rw [heq, hcons]
      · refine .inr ⟨hshift hbody, ?_⟩
        rw [heq, hcons]

theorem copyinstrLoop_zero (fuel a a' : ℕ) (dst : List Byte) :
    s.copyinstrLoop pt fuel a 0 dst = s.copyinstrLoop pt fuel a' 0 dst := by
  cases fuel with
  | zero => rfl
  | succ fuel => rw [copyinstrLoop, copyinstrLoop, if_pos rfl, if_pos rfl]

theorem copyinstrLoop_fail (fuel srcva : ℕ) {max : ℕ} (dst : List Byte) (hmax : 0 < max)
    (hmapped : ¬ s.Mapped pt srcva) :
    s.copyinstrLoop pt (fuel + 1) srcva max dst = (false, dst) := by
  rw [copyinstrLoop, if_neg (by omega)]
  simp only [walkaddr_eq_zero_iff, hmapped, not_false_eq_true, if_true]

/-- A round of `copyinstr`, which ends the loop if it finds the zero byte. -/
theorem copyinstrLoop_succ {fuel srcva max n : ℕ} {dst l : List Byte} {found : Bool}
    (hmax : 0 < max) (hn : n = Paging.piece pgSize srcva max)
    (hpa : s.translate pt srcva = some pa) (hmapped : s.Mapped pt srcva)
    (hpage : s.copyinstrPage n pa = (found, l)) :
    s.copyinstrLoop pt (fuel + 1) srcva max dst = if found then (true, dst ++ l)
      else s.copyinstrLoop pt fuel (srcva + n) (max - n) (dst ++ l) := by
  have hpa' := hmapped.walkaddr_add
  rw [hpa, Option.some.injEq] at hpa'
  rw [copyinstrLoop, if_neg (by omega)]
  simp only [walkaddr_eq_zero_iff, hmapped, not_true, if_false, min_eq_piece, ← hn, ← hpa', hpage]
  rcases next_round hn with h | h
  · rw [h, Nat.sub_self, copyinstrLoop_zero fuel _ (srcva + max)]
  · rw [h]

/-- The string goes on in the next page. -/
theorem stringAt_add {n m : ℕ} (hmapped : ∀ k < n, s.Mapped pt (va + k))
    (hbody : ∀ k < n, s.userByte pt (va + k) ≠ some 0) :
    s.StringAt pt va (n + m) ↔ s.StringAt pt (va + n) m := by
  constructor
  · intro h
    refine ⟨fun k hk => ?_, fun k hk => ?_, ?_⟩
    · rw [Nat.add_assoc]
      exact h.mapped _ (by omega)
    · rw [Nat.add_assoc]
      exact h.body _ (by omega)
    · rw [Nat.add_assoc]
      exact h.null
  · intro h
    refine ⟨fun k hk => ?_, fun k hk => ?_, ?_⟩
    · rcases lt_or_ge k n with hlt | hge
      · exact hmapped k hlt
      · have hk' := h.mapped (k - n) (by omega)
        rwa [Nat.add_assoc, Nat.add_sub_cancel' hge] at hk'
    · rcases lt_or_ge k n with hlt | hge
      · exact hbody k hlt
      · have hk' := h.body (k - n) (by omega)
        rwa [Nat.add_assoc, Nat.add_sub_cancel' hge] at hk'
    · rw [← Nat.add_assoc]
      exact h.null

/-- What `copyinstr` leaves: a whole string, or none was there and at most `max` bytes are
written. -/
def StringCopied (s : VmState) (pt srcva max : ℕ) (dst : List Byte) (r : Bool × List Byte) : Prop :=
  (∃ n < max, s.StringAt pt srcva n ∧ r.1 = true ∧
    r.2.map some = dst.map some ++ (List.range (n + 1)).map fun k => s.userByte pt (srcva + k)) ∨
  ((¬ ∃ n < max, s.StringAt pt srcva n) ∧ r.1 = false ∧ r.2.length ≤ dst.length + max)

/-- The page at hand has no zero byte, and the rest is done from the next page on. -/
theorem StringCopied.of_next {srcva max n : ℕ} {dst l : List Byte} {r : Bool × List Byte}
    (hle : n ≤ max) (hmapped : ∀ k < n, s.Mapped pt (srcva + k))
    (hbody : ∀ k < n, s.userByte pt (srcva + k) ≠ some 0)
    (hl : l.map some = (List.range n).map fun k => s.userByte pt (srcva + k))
    (h : s.StringCopied pt (srcva + n) (max - n) (dst ++ l) r) :
    s.StringCopied pt srcva max dst r := by
  have hlen : l.length = n := by
    have hcongr := congrArg List.length hl
    rwa [List.length_map, List.length_map, List.length_range] at hcongr
  rcases h with ⟨m, hm, hstr, hok, hbytes⟩ | ⟨hnone, hfail, hlength⟩
  · refine .inl ⟨n + m, by omega, (stringAt_add hmapped hbody).mpr hstr, hok, ?_⟩
    rw [hbytes, List.map_append, List.append_assoc, hl, Nat.add_assoc,
      ← range_map_add (fun k => s.userByte pt (srcva + k))]
    simp only [Nat.add_assoc]
  · refine .inr ⟨?_, hfail, ?_⟩
    · rintro ⟨m, hm, hstr⟩
      have hge : n ≤ m := by
        by_contra hlt
        exact hbody m (by omega) hstr.null
      refine hnone ⟨m - n, by omega, (stringAt_add hmapped hbody).mp ?_⟩
      rwa [Nat.add_sub_cancel' hge]
    · rw [List.length_append] at hlength
      omega

/-- The loop copies the whole string if there is one. -/
theorem copyinstrLoop_spec (fuel srcva max : ℕ) (dst : List Byte) (hfuel : max ≤ fuel) :
    s.StringCopied pt srcva max dst (s.copyinstrLoop pt fuel srcva max dst) := by
  have hnone : ∀ a, ¬ ∃ n < 0, s.StringAt pt a n := by
    rintro a ⟨n, hn, _⟩
    exact Nat.not_lt_zero n hn
  induction fuel generalizing srcva max dst with
  | zero =>
    obtain rfl : max = 0 := by omega
    exact .inr ⟨hnone srcva, rfl, le_rfl⟩
  | succ fuel ih =>
    rcases Nat.eq_zero_or_pos max with rfl | hmax
    · exact .inr ⟨hnone srcva, rfl, le_rfl⟩
    by_cases hmapped : s.Mapped pt srcva
    · have hpa := hmapped.walkaddr_add
      generalize s.walkaddr pt (pgRoundDown srcva) + (srcva - pgRoundDown srcva) = pa at hpa
      obtain ⟨n, hn⟩ : ∃ n, n = Paging.piece pgSize srcva max := ⟨_, rfl⟩
      have hpos : 0 < n := hn ▸ Paging.piece_pos pgSize_pos hmax
      have hle : n ≤ max := hn ▸ Paging.piece_le
      have hbyte : ∀ k < n, s.userByte pt (srcva + k) = some (s.byte (pa + k)) := by
        intro k hk
        rw [userByte, translate_piece (m := max) (by omega) hpa]
        rfl
      have hmap : ∀ k < n, s.Mapped pt (srcva + k) :=
        fun k hk => (mapped_piece (m := max) (by omega)).mpr hmapped
      rcases s.copyinstrPage_spec n pa with ⟨j, hj, hbody, hnull, heq⟩ | ⟨hbody, heq⟩
      · rw [copyinstrLoop_succ hmax hn hpa hmapped heq, if_pos rfl]
        refine .inl ⟨j, by omega, ⟨fun k hk => hmap k (by omega), fun k hk => ?_, ?_⟩, rfl, ?_⟩
        · rw [hbyte k (by omega)]
          exact fun h => hbody k hk (Option.some.inj h)
        · rw [hbyte j hj, hnull]
        · rw [List.map_append, get_piece (m := max) (by omega) hpa]
      · rw [copyinstrLoop_succ hmax hn hpa hmapped heq, if_neg Bool.false_ne_true]
        refine .of_next hle hmap (fun k hk => ?_) (get_piece (m := max) hn.le hpa)
          (ih (srcva + n) (max - n) _ (by omega))
        rw [hbyte k hk]
        exact fun h => hbody k hk (Option.some.inj h)
    · rw [copyinstrLoop_fail fuel srcva dst hmax hmapped]
      refine .inr ⟨?_, rfl, Nat.le_add_right _ _⟩
      rintro ⟨n, _, hstr⟩
      exact hmapped (hstr.mapped 0 (Nat.zero_le n))

theorem copyinstr_spec (s : VmState) (pt srcva max : ℕ) :
    s.StringCopied pt srcva max [] (s.copyinstr pt srcva max) :=
  copyinstrLoop_spec max srcva max [] le_rfl

/-! ## copyout -/

/-- The page is a node of the page table. -/
def IsNode (s : VmState) (pt n : ℕ) : Prop :=
  ∃ path : List (Fin 512), path.length ≤ 2 ∧ follow (child s.mem) pt path = some n

/-- The nodes of the table have the entries that they had. -/
def SameTable (s t : VmState) (pt : ℕ) : Prop := ∀ n, s.IsNode pt n → t.mem n = s.mem n

namespace SameTable

variable (h : SameTable s t pt)

include h

theorem follow_eq {path : List (Fin 512)} (hlen : path.length ≤ 2) :
    follow (child t.mem) pt path = follow (child s.mem) pt path := by
  refine follow_congr fun q i r b hpath hb => ?_
  have hq : q.length ≤ 2 := by
    rw [hpath, List.length_append] at hlen
    omega
  rw [child, child, h b ⟨q, hq, hb⟩]

theorem isNode (n : ℕ) : t.IsNode pt n ↔ s.IsNode pt n := by
  constructor
  · rintro ⟨path, hlen, hn⟩
    exact ⟨path, hlen, by rwa [h.follow_eq hlen] at hn⟩
  · rintro ⟨path, hlen, hn⟩
    exact ⟨path, hlen, by rwa [h.follow_eq hlen]⟩

theorem entry_eq (va : ℕ) : t.entry pt va = s.entry pt va := by
  have hlen : (vpnDir (va / pgSize)).length ≤ 2 := (length_vpnDir _).le
  rw [entry, entry, leafPte, leafPte, h.follow_eq hlen]
  cases hn : follow (child s.mem) pt (vpnDir (va / pgSize)) with
  | none => rfl
  | some n => simp only [Option.bind_some, h n ⟨_, hlen, hn⟩]

theorem userPte_eq (va : ℕ) :
    t.userPte pt va = s.userPte pt va := by rw [userPte, userPte, h.entry_eq]

theorem translate_eq (va : ℕ) :
    t.translate pt va = s.translate pt va := by rw [translate, translate, h.userPte_eq]

theorem mapped (va : ℕ) : t.Mapped pt va ↔ s.Mapped pt va := by rw [Mapped, Mapped, h.userPte_eq]

theorem trans {u : VmState} (h' : SameTable t u pt) : SameTable s u pt := by
  intro n hn
  rw [h' n ((h.isNode n).mpr hn), h n hn]

end SameTable

/-- No two addresses of the range are the same byte. -/
def Separate (s : VmState) (pt va n : ℕ) : Prop :=
  ∀ j < n, ∀ k < n, ∀ pa, s.translate pt (va + j) = some pa → s.translate pt (va + k) = some pa →
    j = k

/-- The bytes `l` have been written from the user address `va` on. -/
structure CopiedOut (s t : VmState) (pt va : ℕ) (l : List Byte) : Prop where
  rest : t = { s with mem := t.mem }
  table : SameTable s t pt
  page : ∀ p, (∀ k < l.length, ∀ e, s.userPte pt (va + k) = some e → e.ppn ≠ p) → t.mem p = s.mem p
  kept : ∀ pa, (∀ k < l.length, s.translate pt (va + k) ≠ some pa) → t.byte pa = s.byte pa
  written : s.Separate pt va l.length →
    ∀ k (hk : k < l.length) pa, s.translate pt (va + k) = some pa → t.byte pa = l[k]

theorem CopiedOut.refl (s : VmState) (pt va : ℕ) : CopiedOut s s pt va [] where
  rest := rfl
  table _ _ := rfl
  page _ _ := rfl
  kept _ _ := rfl
  written _ k hk := absurd hk (Nat.not_lt_zero k)

/-- One piece. -/
theorem CopiedOut.of_piece {m : ℕ} {l : List Byte} (hl : l.length ≤ Paging.piece pgSize va m)
    (hpa : s.translate pt va = some pa)
    (hnode : ∀ e, s.userPte pt va = some e → ¬ s.IsNode pt e.ppn) :
    CopiedOut s (s.memmove pa l) pt va l := by
  have htr : ∀ k < l.length, s.translate pt (va + k) = some (pa + k) := fun k hk =>
    translate_piece (m := m) (by omega) hpa
  obtain ⟨e, he, rfl⟩ := Option.map_eq_some_iff.mp hpa
  have hmod := Nat.mod_lt va pgSize_pos
  have hpage : (e.ppn * pgSize + va % pgSize) / pgSize = e.ppn := by
    rw [Nat.add_comm, Nat.add_mul_div_right _ _ pgSize_pos, Nat.div_eq_of_lt hmod, Nat.zero_add]
  have hfits : (e.ppn * pgSize + va % pgSize) % pgSize + l.length ≤ pgSize := by
    rw [Nat.mul_add_mod_self_right, Nat.mod_mod]
    have hle : l.length ≤ pgSize - va % pgSize := hl.trans (min_le_left _ _)
    omega
  obtain ⟨content, hcontent⟩ := memmove_eq_setPage (s := s) l hfits
  rw [hpage] at hcontent
  refine ⟨by
    rw [hcontent]; rfl, fun n hn => ?_, fun p hp => ?_, fun a ha => ?_, fun _ k hk a ha => ?_⟩
  · have hne : n ≠ e.ppn := by
      rintro rfl
      exact hnode e he hn
    rw [hcontent, mem_setPage_of_ne hne]
  · rcases l.eq_nil_or_concat with rfl | ⟨_, _, hcons⟩
    · rfl
    · have hpos : 0 < l.length := by rw [hcons, List.length_concat]; omega
      rw [hcontent, mem_setPage_of_ne (hp 0 hpos e he).symm]
  · rw [byte_memmove]
    refine ByteStore.put_apply_of_disjoint ?_
    by_contra hin
    refine ha (a - (e.ppn * pgSize + va % pgSize)) (by omega) ?_
    rw [htr _ (by omega)]
    congr 1
    omega
  · rw [htr k hk, Option.some.injEq] at ha
    rw [byte_memmove, ← ha, ByteStore.put_apply_add hk]

/-- One after the other. -/
theorem CopiedOut.append {u : VmState} {l l' : List Byte} (h : CopiedOut s t pt va l)
    (h' : CopiedOut t u pt (va + l.length) l') : CopiedOut s u pt va (l ++ l') := by
  have hshift : ∀ k, va + l.length + k = va + (l.length + k) := fun k => Nat.add_assoc ..
  refine ⟨by
    rw [h'.rest, h.rest], h.table.trans h'.table, fun p hp => ?_, fun pa hpa => ?_,
      fun hsep k hk pa hpa => ?_⟩
  · rw [h'.page p fun k hk e he => ?_, h.page p fun k hk e he => ?_]
    · exact hp k (by rw [List.length_append]; omega) e he
    · rw [h.table.userPte_eq, hshift] at he
      exact hp (l.length + k) (by rw [List.length_append]; omega) e he
  · rw [h'.kept pa fun k hk he => ?_, h.kept pa fun k hk he => ?_]
    · exact hpa k (by rw [List.length_append]; omega) he
    · rw [h.table.translate_eq, hshift] at he
      exact hpa (l.length + k) (by rw [List.length_append]; omega) he
  · rw [List.length_append] at hsep hk
    rcases lt_or_ge k l.length with hlt | hge
    · have hkept := h'.kept pa fun j hj he => by
        rw [h.table.translate_eq, hshift] at he
        have hjk := hsep (l.length + j) (by omega) k (by omega) pa he hpa
        omega
      rw [hkept, List.getElem_append_left hlt]
      exact h.written (fun j hj m hm => hsep j (by omega) m (by omega)) k hlt pa hpa
    · rw [List.getElem_append_right hge]
      refine h'.written (fun j hj m hm a hja hma => ?_) (k - l.length) (by omega) pa ?_
      · rw [h.table.translate_eq, hshift] at hja hma
        have hjm := hsep _ (by omega) _ (by omega) a hja hma
        omega
      · rwa [h.table.translate_eq, hshift, Nat.add_sub_cancel' hge]

theorem copyoutLoop_nil (fuel a : ℕ) : s.copyoutLoop pt fuel a [] = (true, s) := by
  cases fuel with
  | zero => rfl
  | succ fuel => rw [copyoutLoop, if_pos List.length_nil]

/-- A round of `copyout`. -/
theorem copyoutLoop_succ (fuel : ℕ) {dstva n : ℕ} {src : List Byte} (hlen : 0 < src.length)
    (hn : n = Paging.piece pgSize dstva src.length) (hpa : s.translate pt dstva = some pa)
    (hmapped : s.Mapped pt dstva) :
    s.copyoutLoop pt (fuel + 1) dstva src =
      (s.memmove pa (src.take n)).copyoutLoop pt fuel (dstva + n) (src.drop n) := by
  have hpa' := hmapped.walkaddr_add
  rw [hpa, Option.some.injEq] at hpa'
  rw [copyoutLoop, if_neg (by omega)]
  simp only [walkaddr_eq_zero_iff, hmapped, not_true, if_false, min_eq_piece, ← hn, ← hpa']
  rcases next_round hn with h | h
  · rw [h, List.drop_length, copyoutLoop_nil, copyoutLoop_nil]
  · rw [h]

theorem copyoutLoop_fail (fuel : ℕ) {dstva : ℕ} {src : List Byte} (hlen : 0 < src.length)
    (hmapped : ¬ s.Mapped pt dstva) : s.copyoutLoop pt (fuel + 1) dstva src = (false, s) := by
  rw [copyoutLoop, if_neg (by omega)]
  simp only [walkaddr_eq_zero_iff, hmapped, not_false_eq_true, if_true]

/-- The pages of the range are not pages of the page table. -/
def OffTable (s : VmState) (pt va n : ℕ) : Prop :=
  ∀ k < n, ∀ e, s.userPte pt (va + k) = some e → ¬ s.IsNode pt e.ppn

/-- `copyout` has written the bytes before the first address that is not mapped, or all of them. -/
structure CopyoutDone (s : VmState) (pt dstva : ℕ) (src : List Byte) (r : Bool × VmState) (m : ℕ) :
    Prop where
  le : m ≤ src.length
  mapped : ∀ k < m, s.Mapped pt (dstva + k)
  copied : CopiedOut s r.2 pt dstva (src.take m)
  result : r.1 = true ∧ m = src.length ∨ r.1 = false ∧ m < src.length ∧ ¬ s.Mapped pt (dstva + m)

/-- The loop copies a first part of the data, all of it if it succeeds. -/
theorem copyoutLoop_spec (fuel dstva : ℕ) (src : List Byte) (hfuel : src.length ≤ fuel)
    (hoff : s.OffTable pt dstva src.length) :
    ∃ m, CopyoutDone s pt dstva src (s.copyoutLoop pt fuel dstva src) m := by
  induction fuel generalizing dstva src s with
  | zero =>
    obtain rfl : src = [] := List.eq_nil_of_length_eq_zero (by omega)
    exact ⟨0, le_rfl, fun k hk => absurd hk (Nat.not_lt_zero k), .refl s pt dstva, .inl ⟨rfl, rfl⟩⟩
  | succ fuel ih =>
    rcases Nat.eq_zero_or_pos src.length with hlen | hlen
    · obtain rfl : src = [] := List.eq_nil_of_length_eq_zero hlen
      rw [copyoutLoop_nil]
      exact ⟨0, le_rfl, fun k hk => absurd hk (Nat.not_lt_zero k), .refl s pt dstva,
        .inl ⟨rfl, rfl⟩⟩
    by_cases hmapped : s.Mapped pt dstva
    · have hpa := hmapped.walkaddr_add
      generalize s.walkaddr pt (pgRoundDown dstva) + (dstva - pgRoundDown dstva) = pa at hpa
      obtain ⟨n, hn⟩ : ∃ n, n = Paging.piece pgSize dstva src.length := ⟨_, rfl⟩
      have hpos : 0 < n := hn ▸ Paging.piece_pos pgSize_pos hlen
      have hle : n ≤ src.length := hn ▸ Paging.piece_le
      have htake : (src.take n).length = n := List.length_take_of_le hle
      have hfirst : CopiedOut s (s.memmove pa (src.take n)) pt dstva (src.take n) :=
        .of_piece (m := src.length) (by omega) hpa (hoff 0 hlen)
      have hoff' : (s.memmove pa (src.take n)).OffTable pt (dstva + n) (src.drop n).length := by
        intro k hk e he
        rw [hfirst.table.userPte_eq, Nat.add_assoc] at he
        rw [hfirst.table.isNode]
        rw [List.length_drop] at hk
        exact hoff (n + k) (by omega) e he
      obtain ⟨m, hm⟩ := ih (dstva + n) (src.drop n) (by rw [List.length_drop]; omega) hoff'
      rw [copyoutLoop_succ fuel hlen hn hpa hmapped]
      have hle' := hm.le
      rw [List.length_drop] at hle'
      refine ⟨n + m, by omega, fun k hk => ?_, ?_, ?_⟩
      · rcases lt_or_ge k n with hlt | hge
        · exact (mapped_piece (m := src.length) (by omega)).mpr hmapped
        · have hk' := (hfirst.table.mapped _).mp (hm.mapped (k - n) (by omega))
          rwa [Nat.add_assoc, Nat.add_sub_cancel' hge] at hk'
      · rw [List.take_add]
        refine hfirst.append ?_
        rw [htake]
        exact hm.copied
      · rcases hm.result with ⟨hok, hall⟩ | ⟨hfail, hlt, hnot⟩
        · rw [List.length_drop] at hall
          exact .inl ⟨hok, by omega⟩
        · rw [List.length_drop] at hlt
          rw [hfirst.table.mapped, Nat.add_assoc] at hnot
          exact .inr ⟨hfail, by omega, hnot⟩
    · rw [copyoutLoop_fail fuel hlen hmapped]
      exact ⟨0, by omega, fun k hk => absurd hk (Nat.not_lt_zero k), .refl s pt dstva,
        .inr ⟨rfl, hlen, hmapped⟩⟩

theorem copyout_spec (dstva : ℕ) (src : List Byte) (hoff : s.OffTable pt dstva src.length) :
    ∃ m, CopyoutDone s pt dstva src (s.copyout pt dstva src) m :=
  copyoutLoop_spec src.length dstva src le_rfl hoff

end VmState

end NeulaCpu.Xv6
