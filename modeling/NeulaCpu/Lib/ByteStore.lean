import Mathlib.Tactic

/-!
# Bytes at addresses

A store maps addresses to bytes. Records are laid out in it field by field, with the low byte first.
Reading a field back gives what was put there last, and fields that do not overlap do not disturb
each other.
-/

namespace ByteStore

abbrev Byte := BitVec 8

/-- Store the bytes `l` from address `a` on. -/
def put (m : ℕ → Byte) (a : ℕ) (l : List Byte) : ℕ → Byte :=
  fun k => if a ≤ k then (l[k - a]?).getD (m k) else m k

/-- The `n` bytes from address `a` on. -/
def get (m : ℕ → Byte) (a n : ℕ) : List Byte := (List.range n).map fun k => m (a + k)

def word16 (m : ℕ → Byte) (a : ℕ) : BitVec 16 := m (a + 1) ++ m a

def word32 (m : ℕ → Byte) (a : ℕ) : BitVec 32 := m (a + 3) ++ m (a + 2) ++ m (a + 1) ++ m a

def le16 (v : BitVec 16) : List Byte := [v.extractLsb' 0 8, v.extractLsb' 8 8]

def le32 (v : BitVec 32) : List Byte :=
  [v.extractLsb' 0 8, v.extractLsb' 8 8, v.extractLsb' 16 8, v.extractLsb' 24 8]

/-- Store an array of words, one after the other. -/
def putWords (m : ℕ → Byte) (a : ℕ) : List (BitVec 32) → ℕ → Byte
  | [] => m
  | x :: xs => putWords (put m a (le32 x)) (a + 4) xs

/-- The `n` words of an array. -/
def words (m : ℕ → Byte) (a n : ℕ) : List (BitVec 32) :=
  (List.range n).map fun k => word32 m (a + 4 * k)

section Bytes

variable {m m' : ℕ → Byte} {a b k n : ℕ} {l : List Byte}

theorem put_apply_lt (h : k < a) : put m a l k = m k := if_neg (by omega)

theorem put_apply_ge (h : a + l.length ≤ k) : put m a l k = m k := by
  rw [put, if_pos (by omega), List.getElem?_eq_none (by omega)]
  rfl

theorem put_apply_add (h : k < l.length) : put m a l (a + k) = l[k] := by
  rw [put, if_pos (by omega), Nat.add_sub_cancel_left, List.getElem?_eq_getElem h]
  rfl

theorem put_apply_of_disjoint (h : k < a ∨ a + l.length ≤ k) : put m a l k = m k := by
  rcases h with h | h
  · exact put_apply_lt h
  · exact put_apply_ge h

@[simp] theorem length_get : (get m a n).length = n := by simp [get]

@[simp] theorem get_zero : get m a 0 = [] := rfl

theorem get_eq_of_getElem? (h : ∀ k < l.length, l[k]? = some (m (a + k))) :
    get m a l.length = l := by
  refine List.ext_getElem? fun k => ?_
  rcases lt_or_ge k l.length with hk | hk
  · rw [h k hk, get, List.getElem?_map, List.getElem?_range hk]
    rfl
  · rw [List.getElem?_eq_none (by rwa [length_get]), List.getElem?_eq_none hk]

theorem get_congr (h : ∀ k, a ≤ k → k < a + n → m k = m' k) : get m a n = get m' a n := by
  refine List.map_congr_left fun k hk => h _ (by omega) ?_
  have hlt := List.mem_range.mp hk
  omega

theorem get_add {n' : ℕ} : get m a (n + n') = get m a n ++ get m (a + n) n' := by
  simp only [get, List.range_add, List.map_append, List.map_map]
  congr 1
  exact List.map_congr_left fun k _ => congrArg m (Nat.add_assoc ..).symm

theorem put_append {l' : List Byte} : put m a (l ++ l') = put (put m a l) (a + l.length) l' := by
  funext k
  rcases lt_or_ge k (a + l.length) with h | h
  · rw [put_apply_lt h, put, put, List.getElem?_append]
    split_ifs <;> first | rfl | omega
  · rw [put, put, if_pos (by omega), if_pos h,
      List.getElem?_append_right (by omega), put_apply_ge h]
    congr 2
    omega

end Bytes

section Words

variable {m m' : ℕ → Byte} {a b n : ℕ}

@[simp] theorem length_le16 (v : BitVec 16) : (le16 v).length = 2 := rfl

@[simp] theorem length_le32 (v : BitVec 32) : (le32 v).length = 4 := rfl

theorem word16_congr (h : ∀ k, a ≤ k → k < a + 2 → m k = m' k) : word16 m a = word16 m' a := by
  rw [word16, word16, h a (by omega) (by omega), h (a + 1) (by omega) (by omega)]

theorem word32_congr (h : ∀ k, a ≤ k → k < a + 4 → m k = m' k) : word32 m a = word32 m' a := by
  rw [word32, word32, h a (by omega) (by omega), h (a + 1) (by omega) (by omega),
    h (a + 2) (by omega) (by omega), h (a + 3) (by omega) (by omega)]

theorem word16_put_self (v : BitVec 16) : word16 (put m a (le16 v)) a = v := by
  rw [word16, put_apply_add (k := 1) (by simp), ← Nat.add_zero a, put_apply_add (k := 0) (by simp)]
  simp only [le16, List.getElem_cons_succ, List.getElem_cons_zero]
  rw [BitVec.extractLsb'_append_extractLsb'_eq_extractLsb' (by rfl)]
  exact BitVec.extractLsb'_eq_self

theorem word32_put_self (v : BitVec 32) : word32 (put m a (le32 v)) a = v := by
  rw [word32, put_apply_add (k := 3) (by simp), put_apply_add (k := 2) (by simp),
    put_apply_add (k := 1) (by simp), ← Nat.add_zero a, put_apply_add (k := 0) (by simp)]
  simp only [le32, List.getElem_cons_succ, List.getElem_cons_zero]
  rw [BitVec.extractLsb'_append_extractLsb'_eq_extractLsb' (by rfl),
    BitVec.extractLsb'_append_extractLsb'_eq_extractLsb' (by rfl),
    BitVec.extractLsb'_append_extractLsb'_eq_extractLsb' (by rfl)]
  exact BitVec.extractLsb'_eq_self

variable {l : List Byte} {ws : List (BitVec 32)}

theorem word16_put_of_disjoint (h : a + l.length ≤ b ∨ b + 2 ≤ a) :
    word16 (put m a l) b = word16 m b :=
  word16_congr fun _ _ _ => put_apply_of_disjoint (by omega)

theorem word32_put_of_disjoint (h : a + l.length ≤ b ∨ b + 4 ≤ a) :
    word32 (put m a l) b = word32 m b :=
  word32_congr fun _ _ _ => put_apply_of_disjoint (by omega)

theorem putWords_apply_of_disjoint {k : ℕ} (h : k < a ∨ a + 4 * ws.length ≤ k) :
    putWords m a ws k = m k := by
  induction ws generalizing m a with
  | nil => rfl
  | cons x xs ih =>
    rw [List.length_cons] at h
    rw [putWords, ih (by omega), put_apply_of_disjoint (by rw [length_le32]; omega)]

theorem word32_putWords_of_disjoint (h : a + 4 * ws.length ≤ b ∨ b + 4 ≤ a) :
    word32 (putWords m a ws) b = word32 m b :=
  word32_congr fun _ _ _ => putWords_apply_of_disjoint (by omega)

theorem words_succ : words m a (n + 1) = word32 m a :: words m (a + 4) n := by
  simp only [words, List.range_succ_eq_map, List.map_cons, List.map_map, Nat.mul_zero, Nat.add_zero]
  congr 1
  refine List.map_congr_left fun k _ => ?_
  show word32 m (a + 4 * (k + 1)) = word32 m (a + 4 + 4 * k)
  congr 1
  ring

theorem words_putWords_self : words (putWords m a ws) a ws.length = ws := by
  induction ws generalizing m a with
  | nil => rfl
  | cons x xs ih =>
    rw [List.length_cons, words_succ, putWords, ih, word32_putWords_of_disjoint (by omega),
      word32_put_self]

theorem putWords_eq_put : putWords m a ws = put m a (ws.flatMap le32) := by
  induction ws generalizing m a with
  | nil =>
    funext k
    exact (put_apply_of_disjoint (by simp only [List.flatMap_nil, List.length_nil]; omega)).symm
  | cons x xs ih => rw [putWords, ih, List.flatMap_cons, put_append, length_le32]

/-- A word of an array that was stored. -/
theorem word32_put_words {k : ℕ} (h : k < ws.length) :
    word32 (put m a (ws.flatMap le32)) (a + 4 * k) = ws[k] := by
  have hwords : words (putWords m a ws) a ws.length = ws := words_putWords_self
  have hw := List.getElem_of_eq hwords (i := k) (by simpa [words] using h)
  simp only [words, List.getElem_map, List.getElem_range] at hw
  rwa [← putWords_eq_put]

end Words

end ByteStore
