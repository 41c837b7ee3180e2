import Mathlib.Data.List.TakeWhile
import Mathlib.Tactic

/-!
# Words between separators

The words of a list are the nonempty pieces between separators. A scanner that skips separators,
takes what comes up to the next separator, and skips separators again, yields the words one after
the other.
-/

namespace Words

variable {α : Type*} (p : α → Bool)

/-- The nonempty pieces of `l` between elements that satisfy `p`. -/
def words (l : List α) : List (List α) := (l.splitOnP p).filter (!·.isEmpty)

variable {p} {l : List α}

@[simp] theorem words_nil : words p [] = [] := by rw [words, List.splitOnP_nil]; rfl

theorem words_cons_sep {a : α} (h : p a = true) : words p (a :: l) = words p l := by
  have hsplit : ([] ++ a :: l).splitOnP p = [] :: l.splitOnP p :=
    List.splitOnP_append_cons_of_forall_mem (fun _ hx => absurd hx List.not_mem_nil) a h l
  rw [List.nil_append] at hsplit
  rw [words, hsplit]
  rfl

/-- A word that ends the list. -/
theorem words_of_last {w : List α} (hne : w ≠ []) (hw : ∀ a ∈ w, p a = false) :
    words p w = [w] := by
  rw [words, List.splitOnP_eq_singleton hw, List.filter_cons_of_pos (by simp [hne])]
  rfl

/-- A word before a separator. -/
theorem words_append_sep {w : List α} {a : α} (hne : w ≠ []) (hw : ∀ a ∈ w, p a = false)
    (h : p a = true) : words p (w ++ a :: l) = w :: words p l := by
  rw [words, List.splitOnP_append_cons_of_forall_mem hw a h l,
    List.filter_cons_of_pos (by simp [hne])]
  rfl

/-- Separators at the start do not matter. -/
theorem words_dropWhile : words p (l.dropWhile p) = words p l := by
  induction l with
  | nil => rfl
  | cons a l ih =>
    by_cases h : p a = true
    · rw [List.dropWhile_cons_of_pos h, ih, words_cons_sep h]
    · rw [List.dropWhile_cons_of_neg h]

/-- The word at the start of the list, and the words after it. -/
theorem words_eq_cons (hne : l ≠ []) (hhead : ∀ a ∈ l.head?, p a = false) :
    words p l = l.takeWhile (!p ·) :: words p (l.dropWhile (!p ·)) := by
  have hw : ∀ a ∈ l.takeWhile (!p ·), p a = false := by
    intro a ha
    simpa using List.mem_takeWhile_imp ha
  have hword : l.takeWhile (!p ·) ≠ [] := by
    cases l with
    | nil => exact absurd rfl hne
    | cons a l => simp [hhead a (by simp)]
  cases hrest : l.dropWhile (!p ·) with
  | nil =>
    have hall : l.takeWhile (!p ·) = l := by
      have hsum := List.takeWhile_append_dropWhile (p := (!p ·)) (l := l)
      rwa [hrest, List.append_nil] at hsum
    rw [hall] at hw ⊢
    rw [words_nil, words_of_last hne hw]
  | cons a rest =>
    have hsep : p a = true := by
      have hnot := List.head_dropWhile_not (!p ·) (l :=
        l) (by rw [hrest]; exact List.cons_ne_nil a rest)
      simpa [hrest] using hnot
    have hsum := List.takeWhile_append_dropWhile (p := (!p ·)) (l := l)
    rw [hrest] at hsum
    conv_lhs => rw [← hsum]
    rw [words_append_sep hword hw hsep, words_cons_sep hsep]

theorem words_eq_nil_iff (hhead : ∀ a ∈ l.head?, p a = false) : words p l = [] ↔ l = [] := by
  constructor
  · intro h
    by_contra hne
    rw [words_eq_cons hne hhead] at h
    exact List.cons_ne_nil _ _ h
  · rintro rfl
    exact words_nil

end Words
