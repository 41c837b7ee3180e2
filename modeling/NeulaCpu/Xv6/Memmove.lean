import NeulaCpu.Lib.CopyOrder

/-!
# memmove

`memmove` of `kernel/string.c` and of `user/ulib.c`. Both copy upwards or downwards, whichever reads
every byte before it is overwritten, but they decide by different tests. Pointers have `w` bits and
are compared as unsigned numbers; the loops run over the pointers themselves.

* `moveUp_eq`, `moveDown_eq`: the loops copy the bytes in the order of their indices, and in the
  opposite order.
* `safe_up`, `safe_down`: when these orders are safe.
* `kmemmove_moved`, `umemmove_moved`: what the two functions do.
-/

namespace NeulaCpu.Xv6

open CopyOrder

variable {w : ℕ}

abbrev Ram (w : ℕ) := BitVec w → BitVec 8

/-- `while(n-- > 0) *d++ = *s++;` -/
def moveUp : ℕ → BitVec w → BitVec w → Ram w → Ram w
  | 0, _, _, m => m
  | n + 1, d, s, m => moveUp n (d + 1) (s + 1) (Function.update m d (m s))

/-- `while(n-- > 0) *--d = *--s;` -/
def moveDown : ℕ → BitVec w → BitVec w → Ram w → Ram w
  | 0, _, _, m => m
  | n + 1, d, s, m => moveDown n (d - 1) (s - 1) (Function.update m (d - 1) (m (s - 1)))

/-- `memmove` of the kernel, where `n` is unsigned. The pointer that is returned, and the memory. -/
def kmemmove (m : Ram w) (dst src : BitVec w) (n : ℕ) : BitVec w × Ram w :=
  if n = 0 then (dst, m)
  else if src < dst ∧ dst < src + BitVec.ofNat w n then
    (dst, moveDown n (dst + BitVec.ofNat w n) (src + BitVec.ofNat w n) m)
  else (dst, moveUp n dst src m)

/-- `memmove` of the user library, where `n` is an `int`. -/
def umemmove (m : Ram w) (dst src : BitVec w) (n : ℤ) : BitVec w × Ram w :=
  if dst < src then (dst, moveUp n.toNat dst src m)
  else (dst, moveDown n.toNat (dst + BitVec.ofInt w n) (src + BitVec.ofInt w n) m)

/-- The bytes from `src` on are at `dst`, and nothing else has changed. -/
structure Moved (m : Ram w) (dst src : BitVec w) (n : ℕ) (m' : Ram w) : Prop where
  bytes : ∀ i < n, m' (dst + BitVec.ofNat w i) = m (src + BitVec.ofNat w i)
  rest : ∀ a, (∀ i < n, dst + BitVec.ofNat w i ≠ a) → m' a = m a

variable {m m' m'' : Ram w} {dst src : BitVec w} {n : ℕ}

theorem Moved.unique (h : Moved m dst src n m') (h' : Moved m dst src n m'') : m' = m'' := by
  funext a
  by_cases ha : ∃ i < n, dst + BitVec.ofNat w i = a
  · obtain ⟨i, hi, rfl⟩ := ha
    rw [h.bytes i hi, h'.bytes i hi]
  · push Not at ha
    rw [h.rest a ha, h'.rest a ha]

/-- A copy in a safe order of the indices below `n`. -/
theorem moved_of_safe {is : List ℕ} (his : ∀ i, i ∈ is ↔ i < n)
    (h : Safe (fun i => dst + BitVec.ofNat w i) (fun i => src + BitVec.ofNat w i) is) :
    Moved m dst src n (copyEach (fun i => dst + BitVec.ofNat w i) (fun i => src + BitVec.ofNat w i)
      is m) where
  bytes _ hi := copyEach_of_mem h ((his _).mpr hi)
  rest _ ha := copyEach_of_notMem fun i hi => ha i ((his i).mp hi)

/-! ## The loops -/

theorem moveUp_eq (k : ℕ) :
    moveUp n (dst + BitVec.ofNat w k) (src + BitVec.ofNat w k) m =
      copyEach (fun i => dst + BitVec.ofNat w i) (fun i => src + BitVec.ofNat w i)
        (List.range' k n) m := by
  induction n generalizing m k with
  | zero => rfl
  | succ n ih =>
    have hnext (a : BitVec w) : a + BitVec.ofNat w k + 1 = a + BitVec.ofNat w (k + 1) := by
      rw [BitVec.add_assoc, BitVec.ofNat_add]
      rfl
    rw [moveUp, hnext, hnext, ih, List.range'_succ, copyEach]

theorem moveDown_eq : moveDown n (dst + BitVec.ofNat w n) (src + BitVec.ofNat w n) m =
    copyEach (fun i => dst + BitVec.ofNat w i) (fun i => src + BitVec.ofNat w i)
      (List.range n).reverse m := by
  induction n generalizing m with
  | zero => rfl
  | succ n ih =>
    have hlast (a : BitVec w) : a + BitVec.ofNat w (n + 1) - 1 = a + BitVec.ofNat w n := by
      rw [BitVec.ofNat_add, ← BitVec.add_assoc]
      exact BitVec.add_sub_cancel ..
    rw [moveDown, hlast, hlast, ih, List.range_succ, List.reverse_append, List.reverse_singleton,
      List.singleton_append, copyEach]

/-! ## The order -/

/-- No wrap-around: the addresses are ordered as the indices are. -/
theorem toNat_add_ofNat {a : BitVec w} (ha : a.toNat + n ≤ 2 ^ w) {i : ℕ} (hi : i < n) :
    (a + BitVec.ofNat w i).toNat = a.toNat + i := by
  rw [BitVec.toNat_add, BitVec.toNat_ofNat, Nat.add_mod_mod, Nat.mod_eq_of_lt (by omega)]

section Safe

variable (hdst : dst.toNat + n ≤ 2 ^ w) (hsrc : src.toNat + n ≤ 2 ^ w)

include hdst hsrc

/-- Upwards, if the bytes go down or the ranges are apart. -/
theorem safe_up (h : dst.toNat ≤ src.toNat ∨ src.toNat + n ≤ dst.toNat) :
    Safe (fun i => dst + BitVec.ofNat w i) (fun i => src + BitVec.ofNat w i) (List.range' 0 n) := by
  refine List.Pairwise.imp_of_mem (fun {i j} hi hj hij => ?_) List.pairwise_lt_range'
  rw [List.mem_range'_1] at hi hj
  simp only [ne_eq, ← BitVec.toNat_inj, toNat_add_ofNat hdst (show i < n by omega),
    toNat_add_ofNat hdst (show j < n by omega), toNat_add_ofNat hsrc (show j < n by omega)]
  omega

/-- Downwards, if the bytes go up or the ranges are apart. -/
theorem safe_down (h : src.toNat ≤ dst.toNat ∨ dst.toNat + n ≤ src.toNat) :
    Safe (fun i => dst + BitVec.ofNat w i) (fun i => src + BitVec.ofNat w i)
      (List.range n).reverse := by
  rw [Safe, List.pairwise_reverse]
  refine List.Pairwise.imp_of_mem (fun {i j} hi hj hij => ?_) List.pairwise_lt_range
  rw [List.mem_range] at hi hj
  simp only [ne_eq, ← BitVec.toNat_inj, toNat_add_ofNat hdst hi, toNat_add_ofNat hdst hj,
    toNat_add_ofNat hsrc hi]
  omega

theorem moveUp_moved (h : dst.toNat ≤ src.toNat ∨ src.toNat + n ≤ dst.toNat) :
    Moved m dst src n (moveUp n dst src m) := by
  have heq : moveUp n (dst + BitVec.ofNat w 0) (src + BitVec.ofNat w 0) m = _ := moveUp_eq 0
  rw [BitVec.add_zero, BitVec.add_zero] at heq
  rw [heq]
  refine moved_of_safe (fun i => ?_) (safe_up hdst hsrc h)
  rw [List.mem_range'_1]
  omega

theorem moveDown_moved (h : src.toNat ≤ dst.toNat ∨ dst.toNat + n ≤ src.toNat) :
    Moved m dst src n (moveDown n (dst + BitVec.ofNat w n) (src + BitVec.ofNat w n) m) := by
  rw [moveDown_eq]
  refine moved_of_safe (fun i => ?_) (safe_down hdst hsrc h)
  rw [List.mem_reverse, List.mem_range]

/-! ## The two functions -/

theorem kmemmove_moved : Moved m dst src n (kmemmove m dst src n).2 := by
  unfold kmemmove
  split_ifs with hzero hover
  · rw [hzero]
    exact ⟨fun i hi => absurd hi (Nat.not_lt_zero i), fun _ _ => rfl⟩
  · rw [BitVec.lt_def] at hover
    exact moveDown_moved hdst hsrc (.inl hover.1.le)
  · -- the end of the source is an address, or the destination is not above the source
    rw [BitVec.lt_def, BitVec.lt_def, BitVec.toNat_add, BitVec.toNat_ofNat,
      Nat.add_mod_mod] at hover
    refine moveUp_moved hdst hsrc ?_
    rcases Nat.lt_or_ge (src.toNat + n) (2 ^ w) with hlt | hge
    · rw [Nat.mod_eq_of_lt hlt] at hover
      omega
    · omega

theorem umemmove_moved : Moved m dst src n (umemmove m dst src n).2 := by
  unfold umemmove
  rw [Int.toNat_natCast, BitVec.ofInt_natCast]
  split_ifs with hlt
  · rw [BitVec.lt_def] at hlt
    exact moveUp_moved hdst hsrc (.inl hlt.le)
  · rw [BitVec.lt_def] at hlt
    exact moveDown_moved hdst hsrc (.inl (by omega))

end Safe

/-- A length that is not positive. -/
theorem umemmove_nonpos {k : ℤ} (hk : k ≤ 0) : (umemmove m dst src k).2 = m := by
  unfold umemmove
  rw [Int.toNat_of_nonpos hk]
  split_ifs
  · rfl
  · rfl

/-- Both functions move the bytes, whether the ranges overlap or not, and so agree; and both return
the destination. A negative length of the user library's moves nothing. -/
theorem memmove_overlap_safe (m : Ram w) (dst src : BitVec w) (n : ℕ) (hdst : dst.toNat + n ≤ 2 ^ w)
    (hsrc : src.toNat + n ≤ 2 ^ w) :
    Moved m dst src n (kmemmove m dst src n).2 ∧ Moved m dst src n (umemmove m dst src n).2 ∧
      kmemmove m dst src n = umemmove m dst src n ∧ (kmemmove m dst src n).1 = dst ∧
      ∀ k : ℤ, k ≤ 0 → (umemmove m dst src k).2 = m := by
  have hk : (kmemmove m dst src n).1 = dst := by
    unfold kmemmove
    split_ifs <;> rfl
  have hu : (umemmove m dst src n).1 = dst := by
    unfold umemmove
    split_ifs <;> rfl
  have hkm := kmemmove_moved (m := m) hdst hsrc
  have hum := umemmove_moved (m := m) hdst hsrc
  exact ⟨hkm, hum, Prod.ext (hk.trans hu.symm) (hkm.unique hum), hk, fun k hk => umemmove_nonpos hk⟩

/-- Three bytes moved up by one. -/
theorem memmove_overlap_safe_up_one :
    (∀ i < 3, (kmemmove (w := 8) id 5 4 3).2 (5 + BitVec.ofNat 8 i) = 4 + BitVec.ofNat 8 i) ∧
        (kmemmove (w := 8) id 5 4 3).2 8 = 8 := by
  have h := memmove_overlap_safe (w := 8) id 5 4 3 (by decide) (by decide)
  exact ⟨h.1.bytes, h.1.rest 8 (by decide)⟩

end NeulaCpu.Xv6
