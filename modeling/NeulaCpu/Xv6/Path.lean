import NeulaCpu.Lib.Words
import NeulaCpu.Xv6.Fs

/-!
# Paths

What `skipelem` makes of a path: called again and again it gives the nonempty pieces between
slashes, each cut to `DIRSIZ` bytes. `namexPath` is the loop of `namex` as it moves its pointer
along the path; it does what the loop over the list of the elements does.
-/

namespace NeulaCpu.Xv6

open ByteStore Words

/-- The string that a path holds: what is before the first zero. -/
def cstring (path : List Byte) : List Byte := path.takeWhile (· ≠ 0)

/-- The nonempty pieces between slashes, cut to the length of a name. -/
def components (path : List Byte) : List (List Byte) :=
  (words (· = slash) (cstring path)).map (·.take dirSiz)

section Skipelem

variable {path name rest : List Byte}

theorem cstring_cons {c : Byte} (h : c ≠ 0) : cstring (c :: path) = c :: cstring path := by
  rw [cstring, List.takeWhile_cons_of_pos (by simpa using h)]
  rfl

theorem cstring_zero : cstring (0 :: path) = [] := by
  rw [cstring, List.takeWhile_cons_of_neg (by decide)]

theorem headD_eq_zero_iff : path.headD 0 = 0 ↔ cstring path = [] := by
  cases path with
  | nil => simp [cstring]
  | cons c path =>
    by_cases hc : c = 0
    · exact iff_of_true hc (by rw [hc, cstring_zero])
    · rw [cstring_cons hc, List.headD_cons]
      exact ⟨fun h => absurd h hc, fun h => absurd h (List.cons_ne_nil _ _)⟩

theorem cstring_skip :
    cstring (path.dropWhile (· = slash)) = (cstring path).dropWhile (· = slash) := by
  induction path with
  | nil => rfl
  | cons c path ih =>
    by_cases hs : c = slash
    · have h0 : c ≠ 0 := by rw [hs]; decide
      rw [cstring_cons h0, List.dropWhile_cons_of_pos (by simpa using hs),
        List.dropWhile_cons_of_pos (by simpa using hs), ih]
    · rw [List.dropWhile_cons_of_neg (by simpa using hs)]
      by_cases h0 : c = 0
      · rw [h0, cstring_zero, List.dropWhile_nil]
      · rw [cstring_cons h0, List.dropWhile_cons_of_neg (by simpa using hs)]

theorem takeWhile_element :
    path.takeWhile (fun c => c ≠ slash ∧ c ≠ 0) = (cstring path).takeWhile (! · = slash) := by
  rw [cstring, List.takeWhile_takeWhile]
  congr 1
  funext c
  simp

theorem cstring_element :
    cstring (path.drop (path.takeWhile fun c => c ≠ slash ∧ c ≠ 0).length) =
      (cstring path).dropWhile (! · = slash) := by
  induction path with
  | nil => rfl
  | cons c path ih =>
    by_cases hend : c ≠ slash ∧ c ≠ 0
    · rw [List.takeWhile_cons_of_pos (by simpa using hend), List.length_cons, List.drop_succ_cons,
        ih, cstring_cons hend.2, List.dropWhile_cons_of_pos (by simpa using hend.1)]
    · rw [List.takeWhile_cons_of_neg (by simpa using hend), List.length_nil, List.drop_zero]
      by_cases h0 : c = 0
      · rw [h0, cstring_zero, List.dropWhile_nil]
      · have hs : c = slash := by
          by_contra hs
          exact hend ⟨hs, h0⟩
        rw [cstring_cons h0, List.dropWhile_cons_of_neg (by simp [hs])]

theorem head_skip {l : List Byte} :
    ∀ a ∈ (l.dropWhile (· = slash)).head?, decide (a = slash) = false := by
  intro a ha
  have hne : l.dropWhile (· = slash) ≠ [] := by
    intro h
    rw [h] at ha
    exact Option.not_mem_none a ha
  have hnot := List.head_dropWhile_not (· = slash) hne
  rw [List.head?_eq_some_head hne, Option.mem_some_iff] at ha
  rwa [← ha]

theorem components_skip : components (path.dropWhile (· = slash)) = components path := by
  rw [components, components, cstring_skip, words_dropWhile]

/-- There is no element exactly if nothing is left but slashes. -/
theorem skipelem_eq_none_iff : skipelem path = none ↔ components path = [] := by
  rw [← components_skip, components, List.map_eq_nil_iff, cstring_skip,
    words_eq_nil_iff head_skip, ← cstring_skip, ← headD_eq_zero_iff, skipelem]
  split_ifs with h
  · exact iff_of_true rfl h
  · exact iff_of_false not_false h

/-- `skipelem` takes the first component; where it stops, the path has ended exactly if there is
none left. -/
theorem skipelem_eq_some (h : skipelem path = some (name, rest)) :
    components path = name :: components rest ∧ (rest.headD 0 = 0 ↔ components rest = []) ∧
      rest.length < path.length := by
  rw [skipelem] at h
  split_ifs at h with hend
  obtain ⟨rfl, rfl⟩ := Prod.mk.inj (Option.some.inj h)
  generalize hs : path.dropWhile (· = slash) = s at hend
  have hne : cstring s ≠ [] := fun h => hend (headD_eq_zero_iff.mpr h)
  have hhead : ∀ a ∈ (cstring s).head?, decide (a = slash) = false := by
    rw [← hs, cstring_skip]
    exact head_skip
  refine ⟨?_, ?_, ?_⟩
  · have hskip : components s = components path := by rw [← hs, components_skip]
    rw [← hskip, components_skip, components, words_eq_cons hne hhead, List.map_cons,
      takeWhile_element, components, ← takeWhile_element, cstring_element]
  · rw [headD_eq_zero_iff, components, List.map_eq_nil_iff,
      words_eq_nil_iff (by rw [cstring_skip]; exact head_skip)]
  · have hpos : 0 < (s.takeWhile fun c => c ≠ slash ∧ c ≠ 0).length := by
      rw [takeWhile_element, List.length_pos_iff]
      intro hnil
      rw [List.takeWhile_eq_nil_iff] at hnil
      have hlen : 0 < (cstring s).length := List.length_pos_iff.mpr hne
      have := hhead _ (by rw [List.head?_eq_getElem?, List.getElem?_eq_getElem hlen]; rfl)
      exact hnil hlen (by simpa using this)
    have hle : s.length ≤ path.length := by
      rw [← hs]
      exact (List.dropWhile_sublist _).length_le
    have hrest := (List.dropWhile_sublist (· = slash) (l :=
      s.drop (s.takeWhile fun c => c ≠ slash ∧ c ≠ 0).length)).length_le
    rw [List.length_drop] at hrest
    have hs0 : 0 < s.length := by
      have := (List.takeWhile_sublist (fun c => decide (c ≠ slash ∧ c ≠ 0)) (l := s)).length_le
      omega
    omega

/-- `skipelem`, called until it gives nothing, yields the components. -/
theorem elements_eq_components {n : ℕ} :
    ∀ {path : List Byte}, path.length ≤ n → elements n path = components path := by
  induction n with
  | zero =>
    intro path h
    obtain rfl := List.eq_nil_of_length_eq_zero (Nat.le_zero.mp h)
    rfl
  | succ n ih =>
    intro path h
    rw [elements]
    cases hskip : skipelem path with
    | none => exact (skipelem_eq_none_iff.mp hskip).symm
    | some r =>
      obtain ⟨name, rest⟩ := r
      obtain ⟨hcomp, _, hlt⟩ := skipelem_eq_some hskip
      rw [hcomp, ← ih (show rest.length ≤ n by omega)]

end Skipelem

namespace Fs

variable (sb : Superblock)

/-- The loop of `namex` with its path pointer; `fuel` bounds the number of elements. -/
def namexPath (nameiparent : Bool) : ℕ → ℕ → List Byte → FsM (Option (ℕ × List Byte))
  | 0, ip, _ => namexLoop sb nameiparent ip []
  | fuel + 1, ip, path =>
    match skipelem path with
    | none =>
      if nameiparent then do
        iput sb ip
        pure none
      else pure (some (ip, []))
    | some (name, path) => do
      ilock sb ip
      let c ← copy ip
      if c.type ≠ tDir then
        iput sb ip
        pure none
      else if nameiparent ∧ path.headD 0 = 0 then pure (some (ip, name))
      else
        match ← dirlookup sb ip name with
        | none =>
          iput sb ip
          pure none
        | some (next, _) =>
          iput sb ip
          namexPath nameiparent fuel next path

/-- The end of the path is the end of the list of its elements. -/
theorem namexPath_eq {par : Bool} {fuel : ℕ} :
    ∀ {ip : ℕ} {path : List Byte}, path.length ≤ fuel →
      namexPath sb par fuel ip path = namexLoop sb par ip (components path) := by
  induction fuel with
  | zero =>
    intro ip path h
    obtain rfl := List.eq_nil_of_length_eq_zero (Nat.le_zero.mp h)
    rfl
  | succ fuel ih =>
    intro ip path h
    rw [namexPath]
    cases hskip : skipelem path with
    | none =>
      rw [skipelem_eq_none_iff.mp hskip]
      rfl
    | some r =>
      obtain ⟨name, rest⟩ := r
      obtain ⟨hcomp, hend, hlt⟩ := skipelem_eq_some hskip
      rw [hcomp, namexLoop]
      refine bind_congr fun _ => bind_congr fun c =>
        if_congr Iff.rfl rfl (if_congr (and_congr_right' hend) rfl ?_)
      refine bind_congr fun r => ?_
      rcases r with _ | ⟨next, _⟩
      · rfl
      · exact bind_congr fun _ => ih (by omega)

end Fs

end NeulaCpu.Xv6
