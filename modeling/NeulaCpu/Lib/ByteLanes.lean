import Mathlib.Tactic

/-!
# Memories of words with byte lanes

A word has four byte lanes and a store writes the lanes of its mask. A memory that has seen a list
of stores holds, in every lane of every word, what the last store to that lane wrote.
-/

namespace ByteLanes

/-- Byte lane `i` of a word. -/
def byte (w : BitVec 32) (i : Fin 4) : BitVec 8 := w.extractLsb' (8 * i) 8

/-- The lanes of `new` where the mask is set, of `old` elsewhere. -/
def merge (old : BitVec 32) (we : BitVec 4) (new : BitVec 32) : BitVec 32 :=
  let lane (i : Fin 4) : BitVec 8 := if we.getLsbD i then byte new i else byte old i
  lane 3 ++ lane 2 ++ lane 1 ++ lane 0

theorem ext_byte {a b : BitVec 32} (h : ∀ i, byte a i = byte b i) : a = b := by
  apply BitVec.eq_of_getLsbD_eq
  intro j hj
  have hbit := congrArg (fun v => v.getLsbD (j % 8)) (h ⟨j / 8, by omega⟩)
  simp only [byte, BitVec.getLsbD_extractLsb'] at hbit
  rw [Nat.div_add_mod j 8] at hbit
  simpa [Nat.mod_lt] using hbit

theorem byte_append (b3 b2 b1 b0 : BitVec 8) (i : Fin 4) :
    byte (b3 ++ b2 ++ b1 ++ b0) i =
      match i with
      | 0 => b0
      | 1 => b1
      | 2 => b2
      | 3 => b3 := by
  apply BitVec.eq_of_getLsbD_eq
  intro j hj
  rw [byte, BitVec.getLsbD_extractLsb', decide_eq_true hj, Bool.true_and]
  match i with
  | 0 =>
    rw [BitVec.getLsbD_append, if_pos (show 8 * ((0 : Fin 4) : ℕ) + j < 8 by simp; omega)]
    congr 1
    simp
  | 1 =>
    rw [BitVec.getLsbD_append, if_neg (show ¬ 8 * ((1 : Fin 4) : ℕ) + j < 8 by simp),
      BitVec.getLsbD_append, if_pos (show 8 * ((1 : Fin 4) : ℕ) + j - 8 < 8 by simp; omega)]
    congr 1
    simp
  | 2 =>
    rw [BitVec.getLsbD_append, if_neg (show ¬ 8 * ((2 : Fin 4) : ℕ) + j < 8 by simp; omega),
      BitVec.getLsbD_append, if_neg (show ¬ 8 * ((2 : Fin 4) : ℕ) + j - 8 < 8 by simp; omega),
      BitVec.getLsbD_append, if_pos (show 8 * ((2 : Fin 4) : ℕ) + j - 8 - 8 < 8 by simp; omega)]
    congr 1
    simp
    omega
  | 3 =>
    rw [BitVec.getLsbD_append, if_neg (show ¬ 8 * ((3 : Fin 4) : ℕ) + j < 8 by simp; omega),
      BitVec.getLsbD_append, if_neg (show ¬ 8 * ((3 : Fin 4) : ℕ) + j - 8 < 8 by simp; omega),
      BitVec.getLsbD_append, if_neg (show ¬ 8 * ((3 : Fin 4) : ℕ) + j - 8 - 8 < 8 by simp; omega)]
    congr 1
    simp
    omega

theorem byte_merge (old : BitVec 32) (we : BitVec 4) (new : BitVec 32) (i : Fin 4) :
    byte (merge old we new) i = if we.getLsbD i then byte new i else byte old i := by
  rw [merge, byte_append]
  match i with
  | 0 | 1 | 2 | 3 => rfl

@[simp] theorem merge_zero (old new : BitVec 32) : merge old 0 new = old := by
  apply ext_byte
  intro i
  rw [byte_merge, if_neg (by simp)]

@[simp] theorem merge_allOnes (old new : BitVec 32) : merge old 0b1111#4 new = new := by
  apply ext_byte
  intro i
  have hset : (0b1111#4).getLsbD i = true := by
    revert i
    decide
  rw [byte_merge, if_pos hset]

/-! ## Stores -/

variable {α : Type*} [DecidableEq α]

structure Store (α : Type*) where
  addr : α
  we : BitVec 4
  data : BitVec 32
deriving DecidableEq, Repr

def Store.apply (m : α → BitVec 32) (s : Store α) : α → BitVec 32 :=
  Function.update m s.addr (merge (m s.addr) s.we s.data)

/-- The memory after a list of stores, the oldest first. -/
def replay (m₀ : α → BitVec 32) (stores : List (Store α)) : α → BitVec 32 :=
  stores.foldl Store.apply m₀

/-- Lane `i` of word `a` as the last store to it left it, or as it was in the beginning. -/
def lastByte (m₀ : α → BitVec 32) (stores : List (Store α)) (a : α) (i : Fin 4) : BitVec 8 :=
  match stores.reverse.find? (fun s => decide (s.addr = a) && s.we.getLsbD i) with
  | some s => byte s.data i
  | none => byte (m₀ a) i

theorem replay_append (m₀ : α → BitVec 32) (stores : List (Store α)) (s : Store α) :
    replay m₀ (stores ++ [s]) = s.apply (replay m₀ stores) := by
  simp [replay]

theorem byte_replay (m₀ : α → BitVec 32) (stores : List (Store α)) (a : α) (i : Fin 4) :
    byte (replay m₀ stores a) i = lastByte m₀ stores a i := by
  induction stores using List.reverseRecOn with
  | nil => rfl
  | append_singleton stores s ih =>
    rw [replay_append, Store.apply, lastByte, List.reverse_concat, List.find?_cons]
    by_cases ha : s.addr = a
    · subst ha
      rw [Function.update_self, byte_merge]
      by_cases hw : s.we.getLsbD i = true
      · simp only [hw, if_true, decide_true, Bool.and_self]
      · rw [if_neg hw, ih, lastByte]
        simp only [hw, decide_true, Bool.and_false]
    · rw [Function.update_of_ne (Ne.symm ha), ih, lastByte]
      simp [ha]

end ByteLanes
