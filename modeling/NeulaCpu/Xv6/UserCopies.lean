import NeulaCpu.Xv6.UserBytes

/-!
# What user copies guarantee

`copyin`, `copyinstr` and `copyout` against the translation of each address on its own, and which
pages `copyout` changes. `walkaddr` asks for `PTE_V` and `PTE_U` and never for `PTE_W`, so that
`copyout` writes to read-only pages.
-/

namespace NeulaCpu.Xv6

open ByteStore (Byte)
open Forest

namespace VmState

variable {s : VmState} {pt va dstva n : ℕ}

/-! ## Translation byte by byte -/

/-- Distinct user pages are mapped to distinct frames. -/
def DistinctFrames (s : VmState) (pt : ℕ) : Prop :=
  ∀ va va' e e', s.userPte pt va = some e → s.userPte pt va' = some e' → e.ppn = e'.ppn →
    va / pgSize = va' / pgSize

theorem DistinctFrames.translate_inj (h : s.DistinctFrames pt) {va va' pa : ℕ}
    (hva : s.translate pt va = some pa) (hva' : s.translate pt va' = some pa) : va = va' := by
  obtain ⟨e, e', he, he', hppn, hmod⟩ := translate_eq_some hva hva'
  exact eq_of_div_mod (h va va' e e' he he' hppn) hmod

/-- A list whose elements are those of the range is the list. -/
theorem eq_of_map_some {l : List Byte} {f : ℕ → Option Byte} {src : List Byte}
    (hl : l.map some = (List.range src.length).map f)
    (hf : ∀ k (hk : k < src.length), f k = some src[k]) : l = src := by
  apply List.map_injective_iff.mpr (Option.some_injective Byte)
  rw [hl]
  apply List.ext_getElem
  · simp
  · intro k hk _
    simp only [List.length_map, List.length_range] at hk
    simp only [List.getElem_map, List.getElem_range, hf k hk]

/-- What is copied out can be copied in again, and is all that a user sees change. -/
theorem copyin_copyout {src : List Byte} (hdist : s.DistinctFrames pt)
    (hoff : s.OffTable pt dstva src.length) (hok : (s.copyout pt dstva src).1 = true) :
    (s.copyout pt dstva src).2.copyin pt dstva src.length = (true, src) ∧
    ∀ va, va < dstva ∨ dstva + src.length ≤ va →
      (s.copyout pt dstva src).2.userByte pt va = s.userByte pt va := by
  obtain ⟨m, hm⟩ := copyout_spec dstva src hoff
  generalize s.copyout pt dstva src = r at hok hm ⊢
  have hall : m = src.length := by
    rcases hm.result with ⟨_, h⟩ | ⟨h, _⟩
    · exact h
    · rw [h] at hok
      exact absurd hok Bool.false_ne_true
  have hcopied := hm.copied
  rw [hall, List.take_length] at hcopied
  have hmapped : ∀ k < src.length, s.Mapped pt (dstva + k) := fun k hk => hm.mapped k (by omega)
  constructor
  · obtain ⟨hiff, hbytes⟩ := copyin_spec r.2 pt dstva src.length
    have htrue := hiff.mpr fun k hk => (hcopied.table.mapped _).mpr (hmapped k hk)
    refine Prod.ext htrue (eq_of_map_some (hbytes htrue) fun k hk => ?_)
    have hpa := (hmapped k hk).walkaddr_add
    rw [userByte, hcopied.table.translate_eq, hpa, Option.map_some, hcopied.written _ k hk _ hpa]
    intro i _ j _ pa hi hj
    have heq := hdist.translate_inj hi hj
    omega
  · intro va hva
    rw [userByte, userByte, hcopied.table.translate_eq]
    cases hpa : s.translate pt va with
    | none => rfl
    | some pa =>
      rw [Option.map_some, Option.map_some, hcopied.kept pa]
      intro k hk hk'
      have heq := hdist.translate_inj hpa hk'
      omega

/-- User copies are byte-wise translation. A page that is mapped to physical page 0 is as good as
not mapped, and the pages that `copyout` writes are not pages of the page table. -/
theorem user_copies_translate (s : VmState) (pt : ℕ) :
    (∀ srcva len, ((s.copyin pt srcva len).1 = true ↔ ∀ k < len, s.Mapped pt (srcva + k)) ∧
        ((s.copyin pt srcva len).1 = true → (s.copyin pt srcva len).2.map some =
            (List.range len).map fun k => s.userByte pt (srcva + k))) ∧
      (∀ srcva max, ((s.copyinstr pt srcva max).1 = true ↔ ∃ n < max, s.StringAt pt srcva n) ∧
        (∀ n < max, s.StringAt pt srcva n → (s.copyinstr pt srcva max).2.map some =
            (List.range (n + 1)).map fun k => s.userByte pt (srcva + k)) ∧
        (s.copyinstr pt srcva max).2.length ≤ max) ∧
      (s.DistinctFrames pt →
        ∀ dstva src, s.OffTable pt dstva src.length → (s.copyout pt dstva src).1 = true →
        (s.copyout pt dstva src).2.copyin pt dstva src.length = (true, src) ∧
          ∀ va, va < dstva ∨ dstva + src.length ≤ va →
            (s.copyout pt dstva src).2.userByte pt va = s.userByte pt va) := by
  refine ⟨copyin_spec s pt, fun srcva max => ?_, fun hdist dstva src hoff hok =>
    copyin_copyout hdist hoff hok⟩
  have hspec := copyinstr_spec s pt srcva max
  generalize s.copyinstr pt srcva max = r at hspec
  rcases hspec with ⟨n, hn, hstr, hok, hbytes⟩ | ⟨hnone, hfail, hlen⟩
  · refine ⟨⟨fun _ => ⟨n, hn, hstr⟩, fun _ => hok⟩, fun m _ hm => ?_, ?_⟩
    · obtain rfl := hstr.unique hm
      exact hbytes
    · have hlen := congrArg List.length hbytes
      simp only [List.length_map, List.map_nil, List.nil_append, List.length_range] at hlen
      omega
  · refine ⟨⟨fun h => absurd h (by simp [hfail]), fun h => absurd h hnone⟩, fun m hm hstr => ?_, ?_⟩
    · exact absurd ⟨m, hm, hstr⟩ hnone
    · rwa [List.length_nil, Nat.zero_add] at hlen

/-! ### A table with one page -/

/-- A page table at page 1, with nodes at 2 and 3, that maps the first page. -/
def onePage (e : Pte) : VmState where
  mem n i :=
    if i ≠ 0 then .zero else if n = 1 then ⟨2, Pte.flagV⟩ else if n = 2 then ⟨3, Pte.flagV⟩
    else if n = 3 then e else .zero
  freelist := []
  kend := 0
  trampoline := 0
  deny _ := false
  calls := 0

section OnePage

variable {e f : Pte}

theorem child_onePage (hn : n = 1 ∨ n = 2) (i : Fin 512) :
    child (onePage e).mem n i = if i = 0 then some (n + 1) else none := by
  rcases hn with rfl | rfl
  · by_cases hi : i = 0
    · simp [child, onePage, hi]
    · simp [child, onePage, hi]
  · by_cases hi : i = 0
    · simp [child, onePage, hi]
    · simp [child, onePage, hi]

theorem entry_onePage (h : (onePage e).entry 1 va = some f) : va / pgSize = 0 ∧ f = e := by
  rw [entry] at h
  split_ifs at h with hlt
  rw [leafPte, vpnDir, follow_cons, child_onePage (.inl rfl)] at h
  split_ifs at h with hi
  · rw [Option.bind_some, follow_cons, child_onePage (.inr rfl)] at h
    split_ifs at h with hj
    · simp only [Option.bind_some, follow_nil] at h
      split_ifs at h with hvalid
      have hk : vpnIdx (va / pgSize) = 0 := by
        by_contra hk
        simp [onePage, hk] at hvalid
      refine ⟨?_, ?_⟩
      · simp only [vpnIdx, Fin.ext_iff, Fin.val_ofNat, Fin.val_zero] at hi hj hk
        rw [maxVa] at hlt
        rw [pgSize] at *
        omega
      · simpa [onePage, hk] using (Option.some.inj h).symm
    · simp at h
  · simp at h

theorem userPte_onePage (h : (onePage e).userPte 1 va = some f) : va / pgSize = 0 ∧ f = e :=
  entry_onePage (Option.filter_eq_some_iff.mp h).1

theorem distinctFrames_onePage : (onePage e).DistinctFrames 1 := by
  intro va va' f f' hf hf' _
  rw [(userPte_onePage hf).1, (userPte_onePage hf').1]

theorem isNode_onePage (h : (onePage e).IsNode 1 n) : n ≤ 3 := by
  obtain ⟨path, hlen, hn⟩ := h
  match path, hlen with
  | [], _ =>
    simp only [follow_nil, Option.some.injEq] at hn
    omega
  | [i], _ =>
    rw [follow_cons, child_onePage (.inl rfl)] at hn
    split_ifs at hn
    · simp only [Option.bind_some, follow_nil, Option.some.injEq] at hn
      omega
    · simp at hn
  | [i, j], _ =>
    rw [follow_cons, child_onePage (.inl rfl)] at hn
    split_ifs at hn
    · rw [Option.bind_some, follow_cons, child_onePage (.inr rfl)] at hn
      split_ifs at hn
      · simp only [Option.bind_some, follow_nil, Option.some.injEq] at hn
        omega
      · simp at hn
    · simp at hn

theorem offTable_onePage (hppn : 3 < e.ppn) (dstva len : ℕ) : (onePage e).OffTable 1 dstva len := by
  intro k _ f hf hnode
  have hle := isNode_onePage hnode
  rw [(userPte_onePage hf).2] at hle
  omega

end OnePage

/-- A data page. -/
def dataPage : VmState := onePage ⟨4, Pte.flagV ||| Pte.flagR ||| Pte.flagW ||| Pte.flagU⟩

/-- What is copied to a page comes back. -/
theorem user_copies_translate_dataPage :
    (dataPage.copyout 1 5 [72, 105, 0]).2.copyin 1 5 3 = (true, [72, 105, 0]) := by
  have hok : (dataPage.copyout 1 5 [72, 105, 0]).1 = true := by decide +kernel
  have hoff : dataPage.OffTable 1 5 3 := offTable_onePage (by decide) 5 3
  exact ((user_copies_translate dataPage 1).2.2 distinctFrames_onePage 5 [72, 105, 0] hoff hok).1

/-- The user page is physical page 0. -/
def frameZero : VmState := onePage ⟨0, Pte.flagV ||| Pte.flagR ||| Pte.flagU⟩

/-- The user page is the page of the page table that maps it. -/
def selfMapped : VmState := onePage ⟨3, Pte.flagV ||| Pte.flagR ||| Pte.flagW ||| Pte.flagU⟩

/-- A user page in physical page 0 cannot be copied from; and a user page that holds the entry of
its own mapping is lost when it is written. -/
theorem copies_not_translation :
    ((frameZero.userPte 1 0).isSome = true ∧ (frameZero.copyin 1 0 1).1 = false) ∧
    (selfMapped.DistinctFrames 1 ∧ (selfMapped.copyout 1 0 (List.replicate 8 0)).1 = true ∧
      ((selfMapped.copyout 1 0 (List.replicate 8 0)).2.copyin 1 0 8).1 = false) := by
  refine ⟨⟨?_, ?_⟩, distinctFrames_onePage, ?_, ?_⟩
  all_goals decide +kernel

/-! ## Write protection -/

/-- The page of the address is valid, user-accessible and writable. -/
def WritableAt (s : VmState) (pt va : ℕ) : Prop :=
  ∃ e, s.entry pt va = some e ∧ e.user = true ∧ e.writable = true

/-- The bytes of the physical page are the same. -/
def SamePage (s t : VmState) (p : ℕ) : Prop :=
  ∀ o < pgSize, t.byte (p * pgSize + o) = s.byte (p * pgSize + o)

/-- `copyout` leaves every page alone that the table does not map as user-writable, and fails if the
range has an address in such a page. -/
structure Protects (s : VmState) (pt dstva : ℕ) (src : List Byte) : Prop where
  unchanged : ∀ va e, s.entry pt va = some e → ¬ s.WritableAt pt va →
    s.SamePage (s.copyout pt dstva src).2 e.ppn
  fails : ∀ k < src.length, ¬ s.WritableAt pt (dstva + k) → (s.copyout pt dstva src).1 = false

/-- The pages of the range are mapped only once. -/
def MappedOnce (s : VmState) (pt dstva len : ℕ) : Prop :=
  ∀ k < len, ∀ e, s.userPte pt (dstva + k) = some e →
    ∀ va e', s.entry pt va = some e' → e'.ppn = e.ppn → va / pgSize = (dstva + k) / pgSize

theorem writableAt_iff {e : Pte} (he : s.userPte pt va = some e) :
    s.WritableAt pt va ↔ e.writable = true := by
  obtain ⟨hentry, huser⟩ := Option.filter_eq_some_iff.mp he
  rw [WritableAt, hentry]
  constructor
  · rintro ⟨f, hf, _, hw⟩
    rwa [Option.some.inj hf]
  · intro hw
    exact ⟨e, rfl, huser, hw⟩

theorem MappedOnce.separate {len m : ℕ} (h : s.MappedOnce pt dstva len) (hm : m ≤ len) :
    s.Separate pt dstva m := by
  intro j hj k hk pa hpa hpa'
  obtain ⟨e, e', he, he', hppn, hmod⟩ := translate_eq_some hpa hpa'
  have hdiv := h j (by omega) e he (dstva + k) e' (Option.filter_eq_some_iff.mp he').1 hppn.symm
  have heq := eq_of_div_mod hdiv.symm hmod
  omega

theorem CopiedOut.samePage {t : VmState} {l : List Byte} {p : ℕ} (h : CopiedOut s t pt dstva l)
    (hp : ∀ k < l.length, ∀ e, s.userPte pt (dstva + k) = some e → e.ppn ≠ p) : s.SamePage t p := by
  intro o ho
  have hpage : (p * pgSize + o) / pgSize = p := by
    rw [Nat.add_comm, Nat.add_mul_div_right _ _ pgSize_pos, Nat.div_eq_of_lt ho, Nat.zero_add]
  rw [byte, byte, hpage, h.page p hp]

/-- `copyout` respects the write protection of a range, whatever it copies there, exactly if every
page that it comes to by valid and user-accessible pages is writable. -/
theorem copyout_protects_iff (s : VmState) (pt dstva len : ℕ) (honce : s.MappedOnce pt dstva len)
    (hoff : s.OffTable pt dstva len) :
    (∀ src : List Byte, src.length = len → s.Protects pt dstva src) ↔
      ∀ k < len, (∀ j ≤ k, s.Mapped pt (dstva + j)) → s.WritableAt pt (dstva + k) := by
  constructor
  · intro hprot k hk hmapped
    by_contra hnot
    -- Every byte that is copied differs from the one that is there.
    let src := (List.range len).map fun i => (s.userByte pt (dstva + i)).getD 0 + 1
    have hlen : src.length = len := by simp [src]
    obtain ⟨m, hm⟩ := copyout_spec dstva src (hlen.symm ▸ hoff)
    have hkm : k < m := by
      rcases hm.result with ⟨_, h⟩ | ⟨_, _, h⟩
      · omega
      · by_contra hge
        exact h (hmapped m (by omega))
    obtain ⟨e, he, _⟩ := hmapped k le_rfl
    have hentry := (Option.filter_eq_some_iff.mp he).1
    have hpa : s.translate pt (dstva + k) = some (e.ppn * pgSize + (dstva + k) % pgSize) := by
      rw [translate, he]
      rfl
    have hsame := (hprot src hlen).unchanged _ e hentry hnot _ (Nat.mod_lt (dstva + k) pgSize_pos)
    have htake : (src.take m).length = m := List.length_take_of_le hm.le
    have hwritten := hm.copied.written (by rw [htake]; exact honce.separate (hlen ▸ hm.le)) k
      (by omega) _ hpa
    rw [hwritten, List.getElem_take] at hsame
    simp only [src, List.getElem_map, List.getElem_range, userByte, hpa, Option.map_some,
      Option.getD_some] at hsame
    simp at hsame
  · rintro hcond src rfl
    obtain ⟨m, hm⟩ := copyout_spec dstva src hoff
    have hle := hm.le
    have hwritable : ∀ k < m, s.WritableAt pt (dstva + k) := fun k hk =>
      hcond k (by omega) fun j hj => hm.mapped j (by omega)
    refine ⟨fun va e he hnot => hm.copied.samePage fun k hk f hf hppn => ?_, fun k hk hnot => ?_⟩
    · rw [List.length_take_of_le hle] at hk
      have hpage := honce k (by omega) f hf va e he hppn.symm
      refine hnot ?_
      have hw := hwritable k hk
      rwa [WritableAt, ← entry_congr hpage] at hw
    · rcases hm.result with ⟨_, rfl⟩ | ⟨hfail, _⟩
      · exact absurd (hwritable k hk) hnot
      · exact hfail

/-- A text page. -/
def textPage : VmState := onePage ⟨4, Pte.flagV ||| Pte.flagR ||| Pte.flagX ||| Pte.flagU⟩

theorem not_writableAt_textPage : ¬ textPage.WritableAt 1 0 := by
  rintro ⟨e, he, _, hw⟩
  obtain rfl := (entry_onePage he).2
  exact absurd hw (by decide)

/-- `copyout` to a text page succeeds and changes it. -/
theorem copyout_writes_text :
    (¬ textPage.WritableAt 1 0 ∧ (textPage.copyout 1 0 [1]).1 = true ∧
        textPage.byte (4 * pgSize) = 0 ∧ (textPage.copyout 1 0 [1]).2.byte (4 * pgSize) = 1) ∧
      ¬ textPage.Protects 1 0 [1] := by
  have hok : (textPage.copyout 1 0 [1]).1 = true := by decide +kernel
  refine ⟨⟨not_writableAt_textPage, hok, by decide +kernel, by decide +kernel⟩, fun h => ?_⟩
  have hfail := h.fails 0 (by decide) not_writableAt_textPage
  rw [hok] at hfail
  exact Bool.noConfusion hfail

theorem mappedOnce_onePage {e : Pte} (dstva len : ℕ) : (onePage e).MappedOnce 1 dstva len := by
  intro k _ f hf va f' hf' _
  rw [(entry_onePage hf').1, (userPte_onePage hf).1]

/-- A data page is written, and the next page is not mapped. -/
theorem copyout_protects_iff_dataPage : dataPage.Protects 1 4090 (List.replicate 10 7) := by
  refine (copyout_protects_iff dataPage 1 4090 10 (mappedOnce_onePage 4090 10)
    (offTable_onePage (by decide) 4090 10)).mpr
    (fun k hk hmapped => ?_) _ rfl
  obtain ⟨e, he, _⟩ := hmapped k le_rfl
  rw [writableAt_iff he, (userPte_onePage he).2]
  decide

end VmState

end NeulaCpu.Xv6
