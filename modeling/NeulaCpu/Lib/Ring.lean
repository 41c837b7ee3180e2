import Mathlib.Tactic

/-!
# Rings with running counters

A ring of `cap` slots with two counters that are never reset: `wr` counts what has been put in, `rd`
what has been taken out, both modulo `2 ^ w`, and an entry is in the slot of its number modulo
`cap`. If `cap` divides `2 ^ w` the wrap of the counters does not disturb the slots. The two lists
say what has been put in and what has been taken out since the beginning.
-/

namespace Ring

variable {α : Type*} {w cap : ℕ}

/-- The ring behaves as a queue: what was taken out is a beginning of what was put in, at most `cap`
entries are between, and these are in their slots. -/
structure Holds (cap : ℕ) (data : ℕ → α) (rd wr : BitVec w) (taken put : List α) : Prop where
  read : rd = BitVec.ofNat w taken.length
  written : wr = BitVec.ofNat w put.length
  fifo : taken <+: put
  room : put.length ≤ taken.length + cap
  slots : ∀ k x, taken.length ≤ k → put[k]? = some x → data (k % cap) = x

/-- What is in the ring. -/
def entries (taken put : List α) : List α := put.drop taken.length

theorem holds_nil (cap : ℕ) (data : ℕ → α) : Holds cap data (0 : BitVec w) 0 [] [] where
  read := rfl
  written := rfl
  fifo := List.prefix_rfl
  room := Nat.zero_le _
  slots k x _ hx := by simp at hx

/-- The slot of a counter is the slot of the number it stands for. -/
theorem toNat_ofNat_mod (hcap : cap ∣ 2 ^ w) (n : ℕ) :
    (BitVec.ofNat w n).toNat % cap = n % cap := by
  rw [BitVec.toNat_ofNat, Nat.mod_mod_of_dvd n hcap]

theorem ofNat_add_inj {n k : ℕ} (hk : k < 2 ^ w) {j : ℕ} (hj : j < 2 ^ w) :
    BitVec.ofNat w (n + k) = BitVec.ofNat w (n + j) ↔ k = j := by
  constructor
  · intro h
    have hmod : (n + k) % 2 ^ w = (n + j) % 2 ^ w := by simpa using congrArg BitVec.toNat h
    have hkj : k % 2 ^ w = j % 2 ^ w := Nat.ModEq.add_left_cancel' n hmod
    rwa [Nat.mod_eq_of_lt hk, Nat.mod_eq_of_lt hj] at hkj
  · rintro rfl
    rfl

namespace Holds

variable {data : ℕ → α} {rd wr : BitVec w} {taken put : List α} {x : α}

section

variable (h : Holds cap data rd wr taken put)

include h

theorem length_le : taken.length ≤ put.length := h.fifo.length_le

/-- The number of entries in the ring. -/
theorem toNat_sub (hcap : cap < 2 ^ w) : (wr - rd).toNat = put.length - taken.length := by
  have hle := h.length_le
  have hroom := h.room
  have hsub : wr - rd = BitVec.ofNat w (put.length - taken.length) := by
    rw [h.read, h.written, ← Nat.sub_add_cancel hle, BitVec.ofNat_add, BitVec.add_sub_cancel,
      Nat.add_sub_cancel]
  rw [hsub, BitVec.toNat_ofNat, Nat.mod_eq_of_lt (by omega)]

theorem empty_iff (hcap : cap < 2 ^ w) : rd = wr ↔ taken.length = put.length := by
  have hle := h.length_le
  have hroom := h.room
  obtain ⟨k, hk⟩ := Nat.exists_eq_add_of_le hle
  have hinj := ofNat_add_inj (n := taken.length) (k := 0) (j := k) (w := w) (by omega) (by omega)
  rw [h.read, h.written, hk]
  rw [Nat.add_zero] at hinj
  rw [hinj]
  omega

theorem full_iff (hcap : cap < 2 ^ w) :
    wr = rd + BitVec.ofNat w cap ↔ put.length = taken.length + cap := by
  have hle := h.length_le
  have hroom := h.room
  obtain ⟨k, hk⟩ := Nat.exists_eq_add_of_le hle
  rw [h.read, h.written, hk, ← BitVec.ofNat_add, ofNat_add_inj (by omega) hcap]
  omega

/-- Put an entry in when the ring is not full. -/
theorem push (hdvd : cap ∣ 2 ^ w) (hroom : put.length < taken.length + cap) (x : α) :
    Holds cap (Function.update data (wr.toNat % cap) x) rd (wr + 1) taken (put ++ [x]) where
  read := h.read
  written := by
    rw [h.written, List.length_append, List.length_singleton, BitVec.ofNat_add]
    rfl
  fifo := h.fifo.trans (List.prefix_append put [x])
  room := by
    rw [List.length_append, List.length_singleton]
    omega
  slots k y hk hy := by
    have hle := h.length_le
    rw [h.written, toNat_ofNat_mod hdvd]
    by_cases hkn : k < put.length
    · rw [List.getElem?_append_left hkn] at hy
      -- two entries of the ring are less than a whole turn apart
      have hne : k % cap ≠ put.length % cap := by
        intro he
        have hdvd' : cap ∣ put.length - k := (Nat.modEq_iff_dvd' hkn.le).mp he
        have hle' := Nat.le_of_dvd (by omega) hdvd'
        omega
      rw [Function.update_of_ne hne]
      exact h.slots k y hk hy
    · rw [List.getElem?_append_right (by omega), List.getElem?_singleton] at hy
      split_ifs at hy with hzero
      have hkeq : k = put.length := by omega
      rw [hkeq, Function.update_self]
      exact Option.some.inj hy

theorem entries_push (x : α) : entries taken (put ++ [x]) = entries taken put ++ [x] :=
  List.drop_append_of_le_length h.length_le

end

section

variable (h : Holds cap data rd wr taken put) (hdvd : cap ∣ 2 ^ w) (hne : taken.length ≠ put.length)

include h hdvd hne

/-- The entry that is read next. -/
theorem next : put[taken.length]? = some (data (rd.toNat % cap)) := by
  have hlt : taken.length < put.length := lt_of_le_of_ne h.length_le hne
  rw [h.read, toNat_ofNat_mod hdvd, h.slots _ _ le_rfl (List.getElem?_eq_getElem hlt)]
  exact List.getElem?_eq_getElem hlt

theorem entries_pop : entries taken put =
    data (rd.toNat % cap) :: entries (taken ++ [data (rd.toNat % cap)]) put := by
  have hlt : taken.length < put.length := lt_of_le_of_ne h.length_le hne
  have hnext := h.next hdvd hne
  rw [List.getElem?_eq_getElem hlt, Option.some.injEq] at hnext
  rw [entries, entries, List.drop_eq_getElem_cons hlt, hnext, List.length_append,
    List.length_singleton]

/-- Take the next entry out when the ring is not empty. -/
theorem pop : Holds cap data (rd + 1) wr (taken ++ [data (rd.toNat % cap)]) put := by
  have hlt : taken.length < put.length := lt_of_le_of_ne h.length_le hne
  have hnext := h.next hdvd hne
  rw [List.getElem?_eq_getElem hlt, Option.some.injEq] at hnext
  have hroom := h.room
  refine ⟨?_, h.written, ?_, ?_, fun k x hk => h.slots k x ?_⟩
  · rw [h.read, List.length_append, List.length_singleton, BitVec.ofNat_add]
    rfl
  · rw [← hnext]
    exact List.concat_get_prefix h.fifo hlt
  · rw [List.length_append, List.length_singleton]
    omega
  · rw [List.length_append, List.length_singleton] at hk
    omega

end

/-- Take the last entry back that was put in, if it was not taken out. -/
theorem unpush (h : Holds cap data rd wr taken (put ++ [x])) (hle : taken.length ≤ put.length) :
    Holds cap data rd (wr - 1) taken put where
  read := h.read
  written := by
    rw [h.written, List.length_append, List.length_singleton, BitVec.ofNat_add]
    exact BitVec.add_sub_cancel ..
  fifo := List.prefix_of_prefix_length_le h.fifo (List.prefix_append put [x]) hle
  room := by
    have hroom := h.room
    rw [List.length_append, List.length_singleton] at hroom
    omega
  slots k y hk hy := by
    refine h.slots k y hk ?_
    obtain ⟨hlt, _⟩ := List.getElem?_eq_some_iff.mp hy
    rw [List.getElem?_append_left hlt, hy]

/-- The last entry that was put in. -/
theorem last (h : Holds cap data rd wr taken (put ++ [x])) (hdvd : cap ∣ 2 ^ w)
    (hle : taken.length ≤ put.length) : data ((wr - 1).toNat % cap) = x := by
  rw [(h.unpush hle).written, toNat_ofNat_mod hdvd]
  exact h.slots put.length x hle List.getElem?_concat_length

end Holds

end Ring
