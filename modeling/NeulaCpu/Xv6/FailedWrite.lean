import NeulaCpu.Xv6.FileArray
import NeulaCpu.Xv6.UserCopies
import NeulaCpu.Xv6.WritePieces

/-!
# Writes that fail

`either_copyin` copies a user buffer straight into the cached block and stops at the first bad
address; `log_write` is called only if the whole piece was copied. So a bad address inside a block
leaves the bytes before it in the cache: they are not counted as written, and the block is not in
the transaction. All that `writei` reports before this piece is there and is logged, which is shown
by cutting the loop at the start of the piece.
-/

namespace NeulaCpu.Xv6

open ByteStore Outcome Function

namespace Txn

/-! ## The piece that is torn -/

/-- Where the piece begins that the loop copies offset `k` of the source with. -/
def pieceStart (off k : ℕ) : ℕ := k - min k ((off + k) % bSize)

theorem pieceStart_spec (off k : ℕ) :
    pieceStart off k ≤ k ∧ (pieceStart off k = 0 ∨ (off + pieceStart off k) % bSize = 0) ∧
      (off + pieceStart off k) % bSize + (k - pieceStart off k) < bSize := by
  simp only [pieceStart, bSize]
  omega

/-- The copy stops at offset `k` of the source, in the middle of a piece; there are free blocks for
the file to get as far as this piece. -/
structure TearsAt (sb : Superblock) (src : Source) (ip : Dinode) (d : Disk) (off n k : ℕ) :
    Prop where
  lt : k < n
  bad : src k = none
  good : ∀ j < k, src j ≠ none
  inside : pieceStart off k < k
  free : ip.missing d (neededSlots (blocksOf off (pieceStart off k + 1))) ≤ freeBlocks sb d

/-- How the loop of `writei` ends: `p` bytes of the next piece are in the cache. -/
structure LoopEnd (sb : Superblock) (i : ℕ) (src : Source) (n : ℕ) (d : Disk) (off p : ℕ)
    (r : ℕ × ℕ × Dinode) (t : Txn) : Prop where
  grown : Grown sb i (fun x => off ≤ x ∧ x < r.1 + p) (dinodeAt sb d) d
    (update (dinodeAt sb d) i r.2.2) t.disk
  off_eq : r.1 = off + r.2.1
  le : r.2.1 ≤ n
  fits : r.1 % bSize + p ≤ bSize
  block : 0 < p → r.2.2.block t.disk (r.1 / bSize) ≠ 0
  bytes : ∀ j < p, src (r.2.1 + j) = some (r.2.2.byte t.disk (r.1 + j))
  recorded :
    ∀ b, t.disk b ≠ d b → b ∈ t.calls ∨ 0 < p ∧ b = (dinodeAt sb d i).block d (r.1 / bSize) ∧ b ≠ 0
  spared : 0 < p → (dinodeAt sb d i).block d (r.1 / bSize) ≠ 0 →
    (dinodeAt sb d i).block d (r.1 / bSize) ∉ t.calls
  rest : 0 < p → (dinodeAt sb d i).block d (r.1 / bSize) ≠ 0 →
    ∀ k, (k < r.1 % bSize ∨ r.1 % bSize + p ≤ k) →
    t.disk ((dinodeAt sb d i).block d (r.1 / bSize)) k =
      d ((dinodeAt sb d i).block d (r.1 / bSize)) k
  torn : p = 0 ∧ (∀ k, ¬ TearsAt sb src (dinodeAt sb d i) d off n k) ∨
    0 < p ∧ TearsAt sb src (dinodeAt sb d i) d off n (r.2.1 + p) ∧
      r.2.1 = pieceStart off (r.2.1 + p)

section Torn

variable {sb : Superblock} {d : Disk} {i n off : ℕ} {src : Source} {E : FsPanic → Prop}

/-- The offset at which the copy stops is the first bad one. -/
theorem TearsAt.eq {ip : Dinode} {k k' : ℕ} (h : TearsAt sb src ip d off n k') (hbad : src k = none)
    (hgood : ∀ j < k, src j ≠ none) : k' = k := by
  rcases Nat.lt_trichotomy k' k with hlt | heq | hlt
  · exact absurd h.bad (hgood k' hlt)
  · exact heq
  · exact absurd hbad (h.good k hlt)

/-- What the loop has done on good addresses. -/
structure GoodEnd (sb : Superblock) (i : ℕ) (src : Source) (m : ℕ) (d : Disk) (off : ℕ)
    (r : ℕ × ℕ × Dinode) (t : Txn) : Prop where
  written : Written sb i src m (dinodeAt sb d) d off 0 r t.disk
  fills : ∃ F, WriteFills sb src m off 0 (dinodeAt sb d i) d r t.disk F
  touched : Touched (Spares (dinodeAt sb d i) d (blocksOf off m)) ⟨d, []⟩ t

theorem writeLoop_good (wf : sb.Wf) (con : Consistent sb d) (hi : Allocated sb (dinodeAt sb d) i)
    {m fuel : ℕ} (hfuel : m ≤ fuel) (hmax : off + m ≤ maxFile * bSize)
    (hsrc : ∀ k < m, src k ≠ none) :
    Ends E (writeLoop sb src fuel (dinodeAt sb d i) off 0 m) ⟨d, []⟩
      (GoodEnd sb i src m d off) := by
  have hdisk : Ends E (Xv6.writeLoop sb src fuel (dinodeAt sb d i) off 0 m) d _ :=
    writeLoop_spec wf con.blocks hi (Nat.sub_le_of_le_add hfuel) (Nat.zero_le m) (by omega)
  have hcalls : Ends E (writeLoop sb src fuel (dinodeAt sb d i) off 0 m) ⟨d, []⟩ _ :=
    writeLoop_touched wf hsrc con.blocks hi (Nat.zero_le m) (by omega)
  exact (((projects_writeLoop sb src m fuel _ off 0).ends hdisk).and hcalls).mono fun r t h =>
    ⟨h.1.1, h.1.2, h.2⟩

/-- Good addresses change nothing past what is reported. -/
theorem GoodEnd.grown {m : ℕ} {r : ℕ × ℕ × Dinode} {t : Txn} (h : GoodEnd sb i src m d off r t)
    (hsrc : ∀ k < m, src k ≠ none) :
    Grown sb i (fun x => off ≤ x ∧ x < r.1) (dinodeAt sb d) d
      (update (dinodeAt sb d) i r.2.2) t.disk := by
  refine h.written.grown.mono ?_
  rintro x ⟨h1, _, h3⟩
  refine ⟨h1, ?_⟩
  by_contra hx
  obtain ⟨k, hk, hnone⟩ := h3 (by omega)
  exact hsrc k hk hnone

/-- The loop has ended and the cache has nothing that is not reported. -/
theorem LoopEnd.clean {tot : ℕ} {ip : Dinode} {t : Txn}
    (hg : Grown sb i (fun x => off ≤ x ∧ x < off + tot) (dinodeAt sb d) d
    (update (dinodeAt sb d) i ip) t.disk)
    (hle : tot ≤ n) (hlog : ∀ b, t.disk b ≠ d b → b ∈ t.calls)
    (hno : ∀ k, ¬ TearsAt sb src (dinodeAt sb d i) d off n k) :
    LoopEnd sb i src n d off 0 (off + tot, tot, ip) t where
  grown := hg
  off_eq := rfl
  le := hle
  fits := (Nat.mod_lt _ (by norm_num [bSize])).le
  block h := absurd h (Nat.lt_irrefl 0)
  bytes j hj := absurd hj (Nat.not_lt_zero j)
  recorded b hb := .inl (hlog b hb)
  spared h := absurd h (Nat.lt_irrefl 0)
  rest h := absurd h (Nat.lt_irrefl 0)
  torn := .inl ⟨rfl, hno⟩

theorem GoodEnd.loopEnd {m : ℕ} {r : ℕ × ℕ × Dinode} {t : Txn} (h : GoodEnd sb i src m d off r t)
    (hm : m ≤ n) (hsrc : ∀ k < m, src k ≠ none)
    (hno : ∀ k, ¬ TearsAt sb src (dinodeAt sb d i) d off n k) :
    LoopEnd sb i src n d off 0 r t := by
  obtain ⟨off', tot, ip⟩ := r
  obtain rfl : off' = off + tot := h.written.off_eq
  exact .clean (h.grown hsrc) (h.written.le_n.trans hm) h.touched.logged hno

/-- The block of the piece at `m` has been looked up. -/
structure PieceMapped (sb : Superblock) (i : ℕ) (d : Disk) (off m : ℕ) (r : ℕ × Dinode) (t : Txn) :
    Prop where
  grown : Grown sb i (fun x => off ≤ x ∧ x < off + m) (dinodeAt sb d) d
    (update (dinodeAt sb d) i r.2) t.disk
  addr : r.1 = r.2.block t.disk ((off + m) / bSize)
  logged : ∀ b, t.disk b ≠ d b → b ∈ t.calls
  fresh : (dinodeAt sb d i).block d ((off + m) / bSize) = 0 → r.1 = 0 ∨ r.1 ∈ t.calls
  spared : (dinodeAt sb d i).block d ((off + m) / bSize) ≠ 0 →
    (dinodeAt sb d i).block d ((off + m) / bSize) ∉ t.calls
  free :
    r.1 ≠ 0 ↔ (dinodeAt sb d i).missing d (neededSlots (blocksOf off (m + 1))) ≤ freeBlocks sb d

section

variable (wf : sb.Wf) (hi : Allocated sb (dinodeAt sb d) i)

include wf hi

/-- `bmap` of the block in which the next piece begins. -/
theorem bmap_piece {m : ℕ}
    (hmax : off + m < maxFile * bSize) (hcut : m = 0 ∨ (off + m) % bSize = 0)
    (hsrc : ∀ j < m, src j ≠ none) {ip : Dinode}
    {s : Txn} (h : GoodEnd sb i src m d off (off + m, m, ip) s) :
    Ends E (bmap sb ip ((off + m) / bSize)) s (PieceMapped sb i d off m) := by
  have hg := h.grown hsrc
  obtain ⟨F, hF⟩ := h.fills
  simp only at hg
  have hip : update (dinodeAt sb d) i ip i = ip := update_self ..
  have hi₁ := hg.allocated_iff.mpr hi
  have hbn : (off + m) / bSize < maxFile := by rwa [Nat.div_lt_iff_lt_mul (by norm_num [bSize])]
  have hmem : (off + m) / bSize ∈ blocksOf off (m + 1) := mem_blocksOf (by omega) (by omega)
  have hsub : blocksOf off m ⊆ blocksOf off (m + 1) := blocksOf_subset le_rfl (by omega)
  -- the piece is in a block that the loop has not come to yet
  have hnot : (off + m) / bSize ∉ blocksOf off m := by
    intro hmem
    obtain ⟨x, hx, heq⟩ := Finset.mem_image.mp hmem
    have hx := Finset.mem_range.mp hx
    simp only [bSize] at heq hcut
    omega
  have hsame : ip.block s.disk ((off + m) / bSize) =
      (dinodeAt sb d i).block d ((off + m) / bSize) := by
    have hslot := hF.filled.slot ((off + m) / bSize) fun hmem => ?_
    · rwa [Dinode.slot_of_ne hbn.ne, Dinode.slot_of_ne hbn.ne] at hslot
    · exact hnot ((mem_neededSlots.mp (hF.needed hmem)).resolve_right fun h => hbn.ne h.1)
  have hspec := bmap_spec (E := E) hg.ok wf hi₁ hbn
  rw [hip] at hspec
  refine (((projects_bmap sb ip _).ends hspec).and (bmap_calls wf.size_lt hbn)).mono ?_
  rintro ⟨addr, ip₂⟩ t ⟨⟨hg₂, haddr, ⟨F₂, hF₂, hfilled₂⟩, hfails⟩, M, hmap⟩
  have hlogged := hmap.block
  simp only at hg₂ haddr hfilled₂ hfails hlogged ⊢
  rw [update_idem] at hg₂
  rw [hip] at hfilled₂
  rw [hsame] at hlogged
  have hgt := hg.trans (hg₂.mono fun _ h => h.elim)
  have hfilled := hF.filled.trans hfilled₂
  have hneeded : F ∪ F₂ ⊆ neededSlots (blocksOf off (m + 1)) :=
    Finset.union_subset (hF.needed.trans (neededSlots_mono hsub))
      (hF₂.trans (neededSlots_mono (Finset.singleton_subset_iff.mpr hmem)))
  have hlog : Touched (fun _ => True) ⟨d, []⟩ t :=
    (h.touched.mono fun _ _ => trivial).trans (hlogged.touched.mono fun _ _ => trivial)
  refine ⟨hgt, haddr, hlog.logged, hlogged.fresh, fun hne hcall => ?_, fun h0 => ?_,
    fun hfree h0 => ?_⟩
  · have hind :=
      spares_of_grown hgt hi (c := (dinodeAt sb d i).block d ((off + m) / bSize)) (S := ∅)
    rw [update_self] at hind
    rcases hlogged.touched.only _ hcall with hcall | ⟨_, hzero⟩ | hcall | hcall
    · exact (h.touched.only _ hcall).elim List.not_mem_nil fun hspare => hspare _ hnot hne rfl
    · exact hne hzero
    · exact hind (.inl (hcall.lt wf)) _ (Finset.notMem_empty _) hne rfl
    · exact hind (.inr (.inl hcall.1)) _ (Finset.notMem_empty _) hne rfl
  · refine hfilled.missing_le fun x hx => Dinode.slot_ne_of_needed (fun bn hbn => ?_) hx
    obtain ⟨x, hx, rfl⟩ := Finset.mem_image.mp hbn
    rcases Nat.lt_succ_iff_lt_or_eq.mp (Finset.mem_range.mp hx) with hlt | rfl
    · have hkept := hg₂.file
      rw [hip, update_self] at hkept
      exact hkept.block_ne
        (h.written.bytes (off + x) (by omega) (show off + x < off + m by omega)).1
    · rwa [← haddr]
  · have h0 : addr = 0 := h0
    have hempty : ip₂.slot t.disk ((off + m) / bSize) = 0 := by
      rw [Dinode.slot_of_ne hbn.ne, ← haddr, h0]
    have hlt := hfilled.lt_missing hneeded (subset_neededSlots _ hmem) hempty (hfails h0)
    omega

/-- Bytes are copied into the block of the piece, but it is not logged. -/
theorem PieceMapped.tear {m p addr : ℕ} {ip : Dinode} {t : Txn}
    {l : List Byte} (h : PieceMapped sb i d off m (addr, ip) t) (h0 : addr ≠ 0) (hp : 0 < p)
    (hlen : l.length = p)
    (hcopy : ∀ j < p, src (m + j) = l[j]?) (hfit : (off + m) % bSize + p < bSize)
    (hpiece : pieceStart off (m + p) = m)
    (hlt : m + p < n) (hbad : src (m + p) = none) (hgood : ∀ j < m + p, src j ≠ none) :
    LoopEnd sb i src n d off p (off + m, m, ip)
      ⟨update t.disk addr (put (t.disk addr) ((off + m) % bSize) l), t.calls⟩ := by
  have hgt := h.grown
  have haddr := h.addr
  simp only at hgt haddr
  have hip : update (dinodeAt sb d) i ip i = ip := update_self ..
  have hw : Grown sb i (fun x => off ≤ x ∧ x < off + m + p) (update (dinodeAt sb d) i ip) t.disk
      (update (dinodeAt sb d) i ip)
      (update t.disk addr (put (t.disk addr) ((off + m) % bSize) l)) := by
    have hne : (update (dinodeAt sb d) i ip i).block t.disk ((off + m) / bSize) ≠ 0 := by
      rwa [hip, ← haddr]
    have hw : Grown sb i (fun x => off ≤ x ∧ x < off + m + p) (update (dinodeAt sb d) i ip) t.disk _
        (update t.disk _ (put (t.disk addr) ((off + m) % bSize) l)) :=
      hgt.ok.write wf (hgt.allocated_iff.mpr hi) hne fun x hx hout => ?_
    · rwa [hip, ← haddr] at hw
    · have hdiv : (off + m) / bSize * bSize + (off + m) % bSize = off + m := Nat.div_add_mod' ..
      rw [hip, ← haddr, put_apply_of_disjoint (by omega)]
  have hkept := hw.file
  rw [hip] at hkept
  have hold := hgt.file ((off + m) / bSize)
  rw [hip, ← haddr] at hold
  have hgrow := (hgt.mono fun x hx => ⟨hx.1, hx.2.trans_le (Nat.le_add_right _ p)⟩).trans hw
  refine ⟨hgrow, rfl, ?_, hfit.le, fun _ => ?_, fun j hj => ?_, fun b hb => ?_,
    fun _ => h.spared, fun _ hne k hk => ?_, .inr ⟨hp, ⟨hlt, hbad, hgood, ?_, ?_⟩, hpiece.symm⟩⟩
  · show m ≤ n
    omega
  · exact hkept.block_ne (by rwa [← haddr])
  · have hb := (byte_of_write haddr h0 (by omega) hkept (x := off + m + j) (by omega) (by omega)).2
    rwa [Nat.add_sub_cancel_left, ← hcopy j hj] at hb
  · by_cases hba : b = addr
    · by_cases hpresent : (dinodeAt sb d i).block d ((off + m) / bSize) = 0
      · rw [hba]
        exact .inl ((h.fresh hpresent).resolve_left h0)
      · exact .inr ⟨hp, hba.trans (hold hpresent).1, by rwa [hba]⟩
    · have hu : update t.disk addr (put (t.disk addr) ((off + m) % bSize) l) b = t.disk b :=
        update_of_ne hba ..
      exact .inl (h.logged b (by rwa [← hu]))
  · -- the block has not been logged, so it is as it was
    have hsame : t.disk addr = d addr := by
      by_contra hdiff
      have hcall := h.logged addr hdiff
      rw [(hold hne).1] at hcall
      exact h.spared hne hcall
    simp only
    rw [← (hold hne).1, update_self, put_apply_of_disjoint (by simp only at hk; omega), hsame]
  · show pieceStart off (m + p) < m + p
    omega
  · show Dinode.missing _ d (neededSlots (blocksOf off (pieceStart off (m + p) + 1))) ≤ _
    rw [hpiece]
    exact h.free.mp h0

/-- The loop is at the piece with the first bad address `k`. -/
theorem writeLoop_tear (hmax : off + n ≤ maxFile * bSize) {k m : ℕ} (hk : k < n)
    (hbad : src k = none) (hgood : ∀ j < k, src j ≠ none) (hm : pieceStart off k = m) {ip : Dinode}
    {s : Txn} (h : GoodEnd sb i src m d off (off + m, m, ip) s) :
    Ends E (writeLoop sb src (n - m) ip (off + m) m n) s fun r t =>
      ∃ p, LoopEnd sb i src n d off p r t := by
  obtain ⟨hle, hcut, hfit⟩ := pieceStart_spec off k
  rw [hm] at hle hcut hfit
  obtain ⟨p, rfl⟩ := Nat.exists_eq_add_of_le hle
  rw [Nat.add_sub_cancel_left] at hfit
  have hfirst (k : ℕ) (htear : TearsAt sb src (dinodeAt sb d i) d off n k) : k = m + p :=
    htear.eq hbad hgood
  rw [show n - m = n - m - 1 + 1 by omega]
  unfold writeLoop
  rw [if_pos (by omega)]
  refine (bmap_piece wf hi (by omega) hcut (fun j hj => hgood j (by omega)) h).andThen ?_
  rintro ⟨addr, ip₂⟩ t hmap
  simp only
  by_cases h0 : addr = 0
  · rw [if_pos h0]
    refine .pure ⟨0, .clean hmap.grown (by omega) hmap.logged fun k htear => ?_⟩
    have hfree := htear.free
    rw [hfirst k htear, hm] at hfree
    exact hmap.free.mpr hfree h0
  rw [if_neg h0]
  obtain ⟨hfail, hlen, hcopy⟩ :=
    copyIn_spec (m := min (n - m) (bSize - (off + m) % bSize)) (by omega)
      (fun j hj => hgood (m + j) (by omega)) fun _ => hbad
  refine .bind (.modify ?_)
  rw [hfail, decide_eq_false (by omega), if_neg Bool.false_ne_true]
  generalize (copyIn src m (min (n - m) (bSize - (off + m) % bSize))).1 = l at hlen hcopy ⊢
  rcases Nat.eq_zero_or_pos p with rfl | hp
  · -- the first byte of the piece is bad, so nothing has been copied
    have hsame : update t.disk addr (put (t.disk addr) ((off + m) % bSize) l) = t.disk := by
      rw [update_eq_self_iff]
      funext x
      exact put_apply_of_disjoint (by omega)
    refine .pure ⟨0, .clean ?_ (by omega) ?_ fun k htear => ?_⟩
    · simp only [hsame]
      exact hmap.grown
    · simp only [hsame]
      exact hmap.logged
    · have hin := htear.inside
      rw [hfirst k htear, hm] at hin
      omega
  · exact .pure ⟨p, hmap.tear wf hi h0 hp hlen hcopy hfit hm hk hbad hgood⟩

end

/-- How the loop of `writei` ends. -/
theorem writeLoop_end (wf : sb.Wf) (con : Consistent sb d) (hi : Allocated sb (dinodeAt sb d) i)
    (hmax : off + n ≤ maxFile * bSize) :
    Ends E (writeLoop sb src n (dinodeAt sb d i) off 0 n) ⟨d, []⟩ fun r t =>
      ∃ p, LoopEnd sb i src n d off p r t := by
  by_cases hall : ∀ k < n, src k ≠ none
  · exact (writeLoop_good wf con hi le_rfl hmax hall).mono fun r t h =>
      ⟨0, h.loopEnd le_rfl hall fun k hk => hall k hk.lt hk.bad⟩
  · obtain ⟨k, hk, hbad, hgood⟩ : ∃ k < n, src k = none ∧ ∀ j < k, src j ≠ none := by
      push Not at hall
      have hex : ∃ k, k < n ∧ src k = none := hall
      refine ⟨Nat.find hex, (Nat.find_spec hex).1, (Nat.find_spec hex).2, fun j hj hnone => ?_⟩
      exact Nat.find_min hex hj ⟨hj.trans (Nat.find_spec hex).1, hnone⟩
    obtain ⟨hle, hcut, _⟩ := pieceStart_spec off k
    generalize hm : pieceStart off k = m at hle hcut
    have hgood' : ∀ j < m, src j ≠ none := fun j hj => hgood j (by omega)
    rw [writeLoop_split (by omega) (Nat.zero_le m)
      (by omega) (hcut.imp Eq.symm fun h => by rwa [Nat.sub_zero])]
    refine (writeLoop_good wf con hi (by omega) (by omega) hgood').andThen ?_
    rintro ⟨off', tot, ip⟩ t h
    obtain rfl : off' = off + tot := h.written.off_eq
    by_cases hreach : tot = m
    · subst hreach
      rw [if_pos rfl]
      exact writeLoop_tear wf hi hmax hk hbad hgood hm h
    · rw [if_neg hreach]
      refine .pure ⟨0, h.loopEnd (by omega) hgood' fun k' htear => hreach ?_⟩
      obtain ⟨F, hF⟩ := h.fills
      have hfree := htear.free
      rw [htear.eq hbad hgood, hm] at hfree
      refine hF.eq_of_free hgood' h.written.le_n
        (le_trans (Dinode.missing_mono (neededSlots_mono ?_)) hfree)
      exact blocksOf_subset le_rfl (by omega)

/-! ## What a failed write leaves -/

/-- A write that fails leaves the rest of the file as it was for every reader, and every cached
block that differs from the disk `home` is recorded in the transaction; `lh` are the blocks that
were recorded before. -/
structure Reports (lh : List ℕ) (home d : Disk) (ip : Dinode) (off : ℕ) (r : ℤ × Dinode) (t : Txn) :
    Prop where
  bytes : ∀ x, (x < off ∨ off + r.1.toNat ≤ x) → (r.2.contents t.disk)[x]? = (ip.contents d)[x]?
  recorded : ∀ b, t.disk b ≠ home b → b ∈ lh ∨ b ∈ t.calls

/-- A bad address has cut a piece, and one of the bytes before it is new: it is in the file, or in a
block of the file that is not in the transaction. -/
def Torn (sb : Superblock) (src : Source) (lh : List ℕ) (ip : Dinode) (d : Disk) (off n : ℕ) :
    Prop :=
  off ≤ ip.size.toNat ∧ off + n ≤ maxFile * bSize ∧ ∃ k, TearsAt sb src ip d off n k ∧
    ∃ j, pieceStart off k ≤ j ∧ j < k ∧ src j ≠ some (ip.byte d (off + j)) ∧
      (off + j < ip.size.toNat ∨ ip.block d ((off + j) / bSize) ≠ 0 ∧
        ip.block d ((off + j) / bSize) ∉ lh)

namespace LoopEnd

variable {p : ℕ} {r : ℕ × ℕ × Dinode} {t : Txn} {ip : Dinode}

section

variable (h : LoopEnd sb i src n d off p r t)

include h

theorem div_mod {j : ℕ} (hj : j < p) :
    (r.1 + j) / bSize = r.1 / bSize ∧ (r.1 + j) % bSize = r.1 % bSize + j := by
  have hfit := h.fits
  simp only [bSize] at hfit ⊢
  omega

/-- The inode goes to the disk; the bytes of the file stay. -/
theorem byte_iupdate (wf : sb.Wf) (hi : Allocated sb (dinodeAt sb d) i)
    (haddrs : ip.addrs = r.2.2.addrs) {x : ℕ} (hx : r.2.2.block t.disk (x / bSize) ≠ 0) :
    ip.byte (setDinode sb t.disk i ip) x = r.2.2.byte t.disk x := by
  have hi' := h.grown.allocated_iff.mpr hi
  have hself : update (dinodeAt sb d) i r.2.2 i = r.2.2 := update_self ..
  have hkept := h.grown.ok.kept_setDinode wf ip hi.1 hi' (T := fun _ => False)
  rw [hself] at hkept
  have hblock (bn : ℕ) : ip.block (setDinode sb t.disk i ip) bn =
      r.2.2.block (setDinode sb t.disk i ip) bn :=
    Dinode.block_congr (fun k => by rw [Dinode.addr, Dinode.addr, haddrs]) fun _ => rfl
  rw [← hkept.byte_eq hx not_false, Dinode.byte, Dinode.byte, hblock]

/-- The bytes outside of what is reported are the old ones exactly if those before the bad address
are. -/
theorem contents_iff (wf : sb.Wf) (con : Consistent sb d) (hi : Allocated sb (dinodeAt sb d) i)
    (hoff : off ≤ (dinodeAt sb d i).size.toNat) (haddrs : ip.addrs = r.2.2.addrs)
    (hsize : ip.size.toNat = max (dinodeAt sb d i).size.toNat r.1) :
    (∀ x, (x < off ∨ r.1 ≤ x) →
        (ip.contents (setDinode sb t.disk i ip))[x]? = ((dinodeAt sb d i).contents d)[x]?) ↔
      ∀ j < p, r.1 + j < (dinodeAt sb d i).size.toNat →
        src (r.2.1 + j) = some ((dinodeAt sb d i).byte d (r.1 + j)) := by
  have hfull := con.full i hi
  have hkept := h.grown.file
  rw [update_self] at hkept
  have hold {x : ℕ} (hx : x < (dinodeAt sb d i).size.toNat) :
      (dinodeAt sb d i).block d (x / bSize) ≠ 0 := by
    have hle := Nat.div_mul_le_self x bSize
    exact hfull _ (by omega)
  have hbyte {x : ℕ} (hx : x < (dinodeAt sb d i).size.toNat) :
      (ip.contents (setDinode sb t.disk i ip))[x]? = some (r.2.2.byte t.disk x) := by
    rw [Dinode.getElem?_contents (by omega), h.byte_iupdate wf hi haddrs (hkept.block_ne (hold hx))]
  constructor
  · intro hall j hj hlt
    have hx := hall (r.1 + j) (.inr (by omega))
    rw [hbyte hlt, Dinode.getElem?_contents hlt] at hx
    rw [h.bytes j hj, hx]
  · intro hall x hx
    rcases lt_or_ge x (dinodeAt sb d i).size.toNat with hlt | hge
    · rw [hbyte hlt, Dinode.getElem?_contents hlt]
      by_cases hin : r.1 ≤ x ∧ x < r.1 + p
      · obtain ⟨j, rfl⟩ := Nat.exists_eq_add_of_le hin.1
        have hj : j < p := by omega
        rw [← h.bytes j hj, hall j hj hlt]
      · rw [hkept.byte_eq (hold hlt) (by rintro ⟨h1, h2⟩; omega)]
    · rw [List.getElem?_eq_none (by rw [Dinode.length_contents]; omega),
        List.getElem?_eq_none (by rwa [Dinode.length_contents])]

/-- Every changed block is recorded exactly if the bytes before the bad address are the old ones, or
their block has been recorded before. -/
theorem recorded_iff (wf : sb.Wf) (con : Consistent sb d) (hi : Allocated sb (dinodeAt sb d) i)
    {lh : List ℕ} {home : Disk} (hhome : ∀ b, d b ≠ home b → b ∈ lh) :
    (∀ b, setDinode sb t.disk i ip b ≠ home b → b ∈ lh ∨ b ∈ t.calls ++ [iBlock sb i]) ↔
      ∀ j < p, (dinodeAt sb d i).block d (r.1 / bSize) ≠ 0 →
        (dinodeAt sb d i).block d (r.1 / bSize) ∉ lh →
        src (r.2.1 + j) = some ((dinodeAt sb d i).byte d (r.1 + j)) := by
  have hib := wf.iBlock_lt_nmeta hi.1
  have hkept := h.grown.file (r.1 / bSize)
  rw [update_self] at hkept
  -- a byte of the cut piece, in the block that the file has had
  have hbyte {j : ℕ} (hj : j < p) (hne : (dinodeAt sb d i).block d (r.1 / bSize) ≠ 0) :
      src (r.2.1 + j) = some (t.disk ((dinodeAt sb d i).block d (r.1 / bSize)) (r.1 % bSize + j)) ∧
      (dinodeAt sb d i).byte d (r.1 + j) =
        d ((dinodeAt sb d i).block d (r.1 / bSize)) (r.1 % bSize + j) := by
    obtain ⟨hdiv, hmod⟩ := h.div_mod hj
    rw [h.bytes j hj, Dinode.byte, Dinode.byte, hdiv, hmod, (hkept hne).1]
    exact ⟨rfl, rfl⟩
  constructor
  · intro hall j hj hne hnot
    have hmeta := (con.blocks.inUse_block hi hne).1
    obtain ⟨hsrc, hold⟩ := hbyte hj hne
    rw [hsrc, hold]
    by_contra hdiff
    generalize hb : (dinodeAt sb d i).block d (r.1 / bSize) = b at hne hnot hmeta hdiff
    have hhome : home b = d b := by
      by_contra hne
      exact hnot (hhome b (Ne.symm hne))
    have hmem : b ∈ t.calls ++ [iBlock sb i] := by
      refine (hall b fun heq => hdiff ?_).resolve_left hnot
      rw [setDinode_apply_of_ne (by omega), hhome] at heq
      rw [heq]
    rcases List.mem_append.mp hmem with hmem | hmem
    · subst hb
      exact h.spared (by omega) hne hmem
    · have := List.mem_singleton.mp hmem
      omega
  · intro hall b hb
    by_contra hcon
    rw [not_or, List.mem_append, List.mem_singleton, not_or] at hcon
    obtain ⟨hnot, hcalls, hblock⟩ := hcon
    have hhome : home b = d b := by
      by_contra hne
      exact hnot (hhome b (Ne.symm hne))
    rw [setDinode_apply_of_ne hblock, hhome] at hb
    obtain ⟨hp, rfl, hne⟩ := (h.recorded b hb).resolve_left hcalls
    refine hb (funext fun k => ?_)
    by_cases hk : r.1 % bSize ≤ k ∧ k < r.1 % bSize + p
    · obtain ⟨j, rfl⟩ := Nat.exists_eq_add_of_le hk.1
      have hj : j < p := by omega
      obtain ⟨hsrc, hold⟩ := hbyte hj hne
      have hsame := hall j hj hne hnot
      rw [hsrc, hold] at hsame
      exact Option.some.inj hsame
    · exact h.rest hp hne k (by omega)

/-- The write is torn exactly if a byte of the cut piece is new. -/
theorem torn_iff (hoff : off ≤ (dinodeAt sb d i).size.toNat)
    (hmax : off + n ≤ maxFile * bSize) {lh : List ℕ} :
    Torn sb src lh (dinodeAt sb d i) d off n ↔
      ∃ j < p, src (r.2.1 + j) ≠ some ((dinodeAt sb d i).byte d (r.1 + j)) ∧
        (r.1 + j < (dinodeAt sb d i).size.toNat ∨ (dinodeAt sb d i).block d (r.1 / bSize) ≠ 0 ∧
            (dinodeAt sb d i).block d (r.1 / bSize) ∉ lh) := by
  have hr := h.off_eq
  constructor
  · rintro ⟨_, _, k, htear, j, hge, hlt, hdiff, hwhere⟩
    rcases h.torn with ⟨_, hno⟩ | ⟨hp, htear', hstart⟩
    · exact absurd htear (hno k)
    · obtain rfl := htear.eq htear'.bad htear'.good
      rw [← hstart] at hge
      obtain ⟨x, rfl⟩ := Nat.exists_eq_add_of_le hge
      have hx : x < p := by omega
      have hsum : off + (r.2.1 + x) = r.1 + x := by omega
      rw [hsum] at hdiff hwhere
      rw [(h.div_mod hx).1] at hwhere
      exact ⟨x, hx, hdiff, hwhere⟩
  · rintro ⟨j, hj, hdiff, hwhere⟩
    rcases h.torn with ⟨rfl, _⟩ | ⟨hp, htear, hstart⟩
    · exact absurd hj (Nat.not_lt_zero j)
    · have hsum : off + (r.2.1 + j) = r.1 + j := by omega
      refine ⟨hoff, hmax, _, htear, r.2.1 + j, by rw [← hstart]; omega, by omega, ?_⟩
      rw [hsum, (h.div_mod hj).1]
      exact ⟨hdiff, hwhere⟩

end

end LoopEnd

/-- A write that is refused changes nothing. -/
theorem Reports.refused {lh : List ℕ} {home : Disk} {ip : Dinode}
    (hhome : ∀ b, d b ≠ home b → b ∈ lh) : Reports lh home d ip off (-1, ip) ⟨d, []⟩ :=
  ⟨fun _ _ => rfl, fun b hb => .inl (hhome b hb)⟩

theorem writei_reports_iff (wf : sb.Wf) (con : Consistent sb d)
    (hi : Allocated sb (dinodeAt sb d) i) (hn : n < 2 ^ 32) {lh : List ℕ} {home : Disk}
    (hhome : ∀ b, d b ≠ home b → b ∈ lh) :
    Ends E (writei sb i (dinodeAt sb d i) src off n) ⟨d, []⟩ fun r t =>
      (r.1 < n → Reports lh home d (dinodeAt sb d i) off r t) ↔
      ¬ Torn sb src lh (dinodeAt sb d i) d off n := by
  have hbound : maxFile * bSize < 2 ^ 32 := by norm_num [maxFile, nDirect, nIndirect, bSize]
  have hsizeLt := (dinodeAt sb d i).size.isLt
  unfold writei
  by_cases hoff : (dinodeAt sb d i).size.toNat < off ∨ (off + n) % 2 ^ 32 < off
  · rw [if_pos hoff]
    refine .pure (iff_of_true (fun _ => .refused hhome) ?_)
    rintro ⟨h1, h2, _⟩
    omega
  rw [if_neg hoff]
  have hsum : (off + n) % 2 ^ 32 = off + n := by omega
  rw [hsum]
  by_cases hmax : maxFile * bSize < off + n
  · rw [if_pos hmax]
    refine .pure (iff_of_true (fun _ => .refused hhome) ?_)
    rintro ⟨_, h2, _⟩
    omega
  rw [if_neg hmax]
  have hle : off ≤ (dinodeAt sb d i).size.toNat := by omega
  refine (writeLoop_end wf con hi (by omega)).andThen ?_
  rintro ⟨off', tot, ip₁⟩ t ⟨p, h⟩
  obtain rfl : off' = off + tot := h.off_eq
  have htot : tot ≤ n := h.le
  have hsize : ip₁.size = (dinodeAt sb d i).size := by
    have hsz := h.grown.size_eq
    rwa [update_self] at hsz
  simp only
  generalize hip : (if ip₁.size.toNat < off + tot then
    { ip₁ with size := BitVec.ofNat 32 (off + tot) } else ip₁ : Dinode) = ip
  have haddrs : ip.addrs = ip₁.addrs := by
    rw [← hip]
    split_ifs <;> rfl
  have hsize' : ip.size.toNat = max (dinodeAt sb d i).size.toNat (off + tot) := by
    rw [← hip]
    split_ifs with hlt
    · rw [hsize] at hlt
      show (off + tot) % 2 ^ 32 = _
      rw [Nat.mod_eq_of_lt (by omega)]
      omega
    · rw [hsize] at hlt ⊢
      omega
  refine .bind (.bind (.modify (.modify (.pure ?_))))
  rw [h.torn_iff hle (by omega)]
  have hcontents := h.contents_iff wf con hi hle haddrs hsize'
  have hrecorded : (∀ b, setDinode sb t.disk i ip b ≠ home b → _) ↔ _ :=
    h.recorded_iff wf con hi hhome
  constructor
  · rintro hrep ⟨j, hj, hdiff, hwhere⟩
    have hlt : tot < n := by
      rcases h.torn with ⟨rfl, _⟩ | ⟨_, htear, _⟩
      · exact absurd hj (Nat.not_lt_zero j)
      · have hk : tot + p < n := htear.lt
        omega
    have hreports := hrep (Int.ofNat_lt.mpr hlt)
    rcases hwhere with hin | ⟨hne, hnot⟩
    · exact hdiff (hcontents.mp hreports.bytes j hj hin)
    · exact hdiff (hrecorded.mp hreports.recorded j hj hne hnot)
  · intro hno _
    refine ⟨hcontents.mpr fun j hj hin => ?_, hrecorded.mpr fun j hj hne hnot => ?_⟩
    · by_contra hdiff
      exact hno ⟨j, hj, hdiff, .inl hin⟩
    · by_contra hdiff
      exact hno ⟨j, hj, hdiff, .inr ⟨hne, hnot⟩⟩

end Torn

/-- A write that fails changes nothing that it does not report, exactly if no piece is torn. -/
theorem failed_write_reports_changes (sb : Superblock) (wf : sb.Wf) (d home : Disk)
    (con : Consistent sb d) (i : ℕ) (hi : Allocated sb (dinodeAt sb d) i) (lh : List ℕ)
    (hhome : ∀ b, d b ≠ home b → b ∈ lh) (src : Source) (off n : ℕ) (hn : n < 2 ^ 32) :
    (∃ r ip' t, writei sb i (dinodeAt sb d i) src off n ⟨d, []⟩ = .ok ((r, ip'), t) ∧
        (r < n → Reports lh home d (dinodeAt sb d i) off (r, ip') t)) ↔
      ¬ Torn sb src lh (dinodeAt sb d i) d off n := by
  obtain ⟨⟨r, ip'⟩, t, hrun, hiff⟩ :=
    (writei_reports_iff wf con hi hn hhome).exists_ok
  rw [← hiff]
  constructor
  · rintro ⟨r', ip'', t', hrun', h⟩
    rw [hrun, Except.ok.injEq, Prod.mk.injEq, Prod.mk.injEq] at hrun'
    obtain ⟨⟨rfl, rfl⟩, rfl⟩ := hrun'
    exact h
  · exact fun h => ⟨r, ip', t, hrun, h⟩

/-- A buffer that begins at the first page that is not mapped: nothing is copied. -/
theorem failed_write_reports_changes_unmapped :
    ∃ r ip' t, writei Mkfs.sb 2 (dinodeAt Mkfs.sb (sampleDisk 2) 2)
        ((VmState.onePage ⟨9, 17⟩).source 1 4096) 0 20 ⟨sampleDisk 2, []⟩ = .ok ((r, ip'), t) ∧
      (r < (20 : ℕ) → Reports [] (sampleDisk 2) (sampleDisk 2) (dinodeAt Mkfs.sb (sampleDisk 2) 2) 0
        (r, ip') t) := by
  have hi : Allocated Mkfs.sb (dinodeAt Mkfs.sb (sampleDisk 2)) 2 :=
    ⟨by decide +kernel, by decide +kernel⟩
  refine (failed_write_reports_changes Mkfs.sb (by decide) (sampleDisk 2)
    (sampleDisk 2) consistent_sample 2 hi []
    (fun b hb => absurd rfl hb) _ 0 20 (by norm_num)).mpr ?_
  rintro ⟨_, _, k, htear, _⟩
  have hbad : (VmState.onePage ⟨9, 17⟩).source 1 4096 0 = none := by decide +kernel
  obtain rfl := htear.eq hbad fun j hj => absurd hj (Nat.not_lt_zero j)
  exact absurd htear.inside (Nat.not_lt_zero _)

/-- A buffer of 20 bytes whose last 10 bytes are in the first page that is not mapped. No byte is
reported as written, but the first byte of the file is 0 now, and its block has not been logged. -/
theorem torn_write_loses_byte :
    ∃ ip' t, writei Mkfs.sb 2 (dinodeAt Mkfs.sb (sampleDisk 2) 2)
        ((VmState.onePage ⟨9, 17⟩).source 1 4086) 0 20 ⟨sampleDisk 2, []⟩ = .ok ((0, ip'), t) ∧
      (dinodeAt Mkfs.sb (sampleDisk 2) 2).byte (sampleDisk 2) 0 = 2 ∧ ip'.byte t.disk 0 = 0 ∧
      t.disk 47 ≠ sampleDisk 2 47 ∧ 47 ∉ t.calls := by
  have hrun : (writei Mkfs.sb 2 (dinodeAt Mkfs.sb (sampleDisk 2) 2)
    ((VmState.onePage ⟨9, 17⟩).source 1 4086) 0 20
      ⟨sampleDisk 2, []⟩).toOption.map (fun x =>
        (x.1.1, x.1.2.byte x.2.disk 0, x.2.disk 47 0, x.2.calls)) =
        some (0, 0, 0, [32]) := by decide +kernel
  have hold : sampleDisk 2 47 0 = 2 := by decide +kernel
  generalize writei Mkfs.sb 2 _ _ 0 20 ⟨sampleDisk 2, []⟩ = o at hrun ⊢
  rcases o with e | ⟨⟨r, ip'⟩, t⟩
  · exact absurd hrun (by simp [Except.toOption])
  · simp only [Except.toOption, Option.map_some, Option.some.injEq, Prod.mk.injEq] at hrun
    obtain ⟨rfl, hbyte, hdata, hcalls⟩ := hrun
    refine ⟨ip', t, rfl, by decide +kernel, hbyte, fun heq => ?_, by rw [hcalls]; decide⟩
    rw [heq, hold] at hdata
    exact absurd hdata (by decide)

end Txn

end NeulaCpu.Xv6
