import NeulaCpu.Xv6.BlockConsistency

/-!
# Files as byte arrays

The contents of a file are a list of bytes. `writei` replaces a part of the list, which it makes
longer if the part goes past its end, and `readi` gives a part of the list.
-/

namespace NeulaCpu.Xv6

open ByteStore Outcome

/-- The bytes of the file. -/
def Dinode.contents (ip : Dinode) (d : Disk) : List Byte := get (ip.byte d) 0 ip.size.toNat

/-- The bytes from `a` to `b`, as far as the file has them. -/
def Dinode.range (ip : Dinode) (d : Disk) (a b : ℕ) : List Byte :=
  ((ip.contents d).drop a).take (b - a)

/-- The list with `data` in the place of the bytes from `off` on. -/
def patch (old : List Byte) (off : ℕ) (data : List Byte) : List Byte :=
  old.take off ++ data ++ old.drop (off + data.length)

section Lists

variable {old data : List Byte} {off x : ℕ}

theorem getElem?_patch (hoff : off ≤ old.length) : (patch old off data)[x]? =
      if x < off then old[x]? else if x < off + data.length then data[x - off]? else old[x]? := by
  have htake : (old.take off).length = off := List.length_take_of_le hoff
  rw [patch, List.append_assoc]
  split_ifs with h1 h2
  · rw [List.getElem?_append_left (by omega), List.getElem?_take_of_lt h1]
  · rw [List.getElem?_append_right (by omega), htake, List.getElem?_append_left (by omega)]
  · rw [List.getElem?_append_right (by omega), htake,
      List.getElem?_append_right (by omega), List.getElem?_drop]
    congr 1
    omega

end Lists

section Contents

variable {ip ip' : Dinode} {d d' : Disk} {sb : Superblock} {E : FsPanic → Prop}

theorem Dinode.length_contents : (ip.contents d).length = ip.size.toNat := length_get

theorem Dinode.getElem?_contents {x : ℕ} (hx : x < ip.size.toNat) :
    (ip.contents d)[x]? = some (ip.byte d x) := by
  rw [contents, ByteStore.get, List.getElem?_map, List.getElem?_range hx, Option.map_some,
    Nat.zero_add]

/-- A part of the file. -/
theorem Dinode.get_byte_eq {a m : ℕ} (h : a + m ≤ ip.size.toNat) :
    get (ip.byte d) a m = ((ip.contents d).drop a).take m := by
  apply List.ext_getElem?
  intro k
  rcases lt_or_ge k m with hk | hk
  · rw [List.getElem?_take_of_lt hk, List.getElem?_drop,
      getElem?_contents (by omega), ByteStore.get, List.getElem?_map, List.getElem?_range hk]
    rfl
  · rw [List.getElem?_eq_none (by rwa [length_get]), List.getElem?_eq_none]
    rw [List.length_take]
    omega

/-- A file that keeps its blocks, its bytes and its size keeps its contents. -/
theorem FileKept.contents_eq (h : FileKept (fun _ => False) ip d ip' d') (hfull : ip.Full d)
    (hsize : ip'.size = ip.size) : ip'.contents d' = ip.contents d := by
  rw [Dinode.contents, Dinode.contents, hsize]
  refine get_congr fun x _ hx => h.byte_eq (hfull _ ?_) not_false
  have hle := Nat.div_mul_le_self x bSize
  omega

theorem Dinode.range_eq (ip : Dinode) (d : Disk) {a b : ℕ} (ha : a ≤ ip.size.toNat) :
    ip.range d a b = get (ip.byte d) a (min (b - a) (ip.size.toNat - a)) := by
  rw [get_byte_eq (by omega), range]
  rcases le_total (b - a) (ip.size.toNat - a) with hle | hle
  · rw [min_eq_left hle]
  · have hlen : ((ip.contents d).drop a).length = ip.size.toNat - a := by
      rw [List.length_drop, length_contents]
    rw [min_eq_right hle, List.take_of_length_le (by omega), List.take_of_length_le hlen.le]

/-- `readi` of the range from `a` to `b`. -/
theorem readi_contents (hfull : ip.Full d) {a b : ℕ} (hab : a ≤ b) (hb : b < 2 ^ 32) {dst : Dest}
    (hdst : ∀ k, dst k = true) :
    Ends E (readi sb ip dst a (b - a)) d fun r d' =>
      d' = d ∧ r = (((ip.range d a b).length : ℤ), ip.range d a b, ip) := by
  by_cases hoff : a ≤ ip.size.toNat
  · refine (readi_spec hfull (by omega)).mono ?_
    rintro ⟨n, bytes, ip'⟩ d' ⟨hd, hip, h⟩
    obtain ⟨hn, hbytes⟩ := h hdst hoff (by omega)
    refine ⟨hd, ?_⟩
    rw [Dinode.range_eq ip d hoff, length_get]
    exact Prod.ext hn (Prod.ext hbytes hip)
  · have hnil : ip.range d a b = [] := by
      rw [Dinode.range, List.drop_eq_nil_of_le (by rw [Dinode.length_contents]; omega),
        List.take_nil]
    rw [readi, if_pos (.inl (by omega)), hnil]
    exact .pure ⟨rfl, rfl⟩

/-- What has been written is in the contents. -/
theorem Wrote.contents_eq {src : Source} {off n : ℕ} {data : List Byte}
    (h : Wrote src off n n ip d ip' d') (hfull : ip.Full d) (hlen : data.length = n)
    (hsrc : ∀ k (hk : k < data.length), src k = some data[k]) :
    ip'.contents d' = patch (ip.contents d) off data := by
  have hoff := h.off_le
  have hsize := h.size
  have hkept : ∀ x < ip.size.toNat, (x < off ∨ off + n ≤ x) → ip'.byte d' x = ip.byte d x := by
    intro x hx hout
    refine h.kept.byte_eq (hfull _ ?_) ?_
    · have hle := Nat.div_mul_le_self x bSize
      omega
    · rintro ⟨h1, h2, _⟩
      omega
  apply List.ext_getElem?
  intro x
  rw [getElem?_patch (by rwa [Dinode.length_contents])]
  rcases lt_or_ge x ip'.size.toNat with hx | hx
  · rw [Dinode.getElem?_contents hx]
    split_ifs with h1 h2
    · rw [Dinode.getElem?_contents (by omega), hkept x (by omega) (.inl h1)]
    · rw [← h.bytes x (by omega) (by omega), hsrc _ (by omega), List.getElem?_eq_getElem]
    · rw [Dinode.getElem?_contents (by omega), hkept x (by omega) (.inr (by omega))]
  · have hnone : ∀ {l : List Byte}, l.length ≤ x → l[x]? = none := List.getElem?_eq_none
    rw [hnone (by rwa [Dinode.length_contents]), if_neg (by omega), if_neg (by omega),
      hnone (by rw [Dinode.length_contents]; omega)]

end Contents

section Writei

variable {sb : Superblock} {d : Disk} {i off n : ℕ} {src : Source} {E : FsPanic → Prop}

section

variable (wf : sb.Wf) (con : Consistent sb d) (hi : Allocated sb (dinodeAt sb d) i)
  (hoff : off ≤ (dinodeAt sb d i).size.toNat)

include wf con hi hoff

/-- Without a bad address, `writei` writes everything exactly if the file may get so long and the
blocks that it has not got are free. -/
theorem writei_all_iff (hlt : off + n < 2 ^ 32) (hsrc : ∀ k < n, src k ≠ none) :
    Ends E (writei sb i (dinodeAt sb d i) src off n) d fun r _ => r.1 = n ↔
      off + n ≤ maxFile * bSize ∧
        (dinodeAt sb d i).missing d (neededSlots (blocksOf off n)) ≤ freeBlocks sb d := by
  unfold writei
  rw [if_neg (by rw [Nat.mod_eq_of_lt hlt]; omega), Nat.mod_eq_of_lt hlt]
  by_cases hmax : maxFile * bSize < off + n
  · rw [if_pos hmax]
    refine .pure ⟨fun h => ?_, fun h => absurd h.1 (by omega)⟩
    have hneg : (-1 : ℤ) = n := h
    omega
  · rw [if_neg hmax]
    refine (writeLoop_spec wf con.blocks hi (by omega) (Nat.zero_le _) (by omega)).andThen ?_
    rintro ⟨off', tot, ip⟩ d' ⟨hw, F, hF⟩
    refine .bind (.modify (.pure ⟨fun h => ⟨by omega, ?_⟩, fun h => ?_⟩))
    · obtain rfl : tot = n := Int.ofNat_inj.mp h
      have hoff' : off' + 0 = off + tot := hw.off_eq
      refine hF.filled.missing_le fun k hk => Dinode.slot_ne_of_needed (fun bn hbn => ?_) hk
      obtain ⟨m, hm, rfl⟩ := Finset.mem_image.mp hbn
      have hm := Finset.mem_range.mp hm
      exact (hw.bytes (off + m) (by omega) (show off + m < off' by omega)).1
    · obtain rfl : tot = n := hF.eq_of_free hsrc hw.le_n (by rw [Nat.sub_zero]; exact h.2)
      rfl

/-- With enough free blocks and no bad address, `writei` writes everything. -/
theorem writei_all (hmax : off + n ≤ maxFile * bSize) (hsrc : ∀ k < n, src k ≠ none)
    (hfree : (dinodeAt sb d i).missing d (neededSlots (blocksOf off n)) ≤ freeBlocks sb d) :
    Ends E (writei sb i (dinodeAt sb d i) src off n) d fun r _ => r.1 = n := by
  have hlt : off + n < 2 ^ 32 := by
    simp only [maxFile, nDirect, nIndirect, bSize] at hmax
    omega
  exact (writei_all_iff wf con hi hoff hlt hsrc).mono fun _ _ h => h.mpr ⟨hmax, hfree⟩

end

/-- No block that a file has below its size needs to be allocated. -/
theorem Dinode.Full.missing_eq_zero {ip : Dinode} (hfull : ip.Full d)
    (hle : off + n ≤ ip.size.toNat) : ip.missing d (neededSlots (blocksOf off n)) = 0 := by
  rw [missing, Finset.card_eq_zero, Finset.filter_eq_empty_iff]
  intro k hk
  refine slot_ne_of_needed (fun bn hbn => ?_) hk
  obtain ⟨m, hm, rfl⟩ := Finset.mem_image.mp hbn
  have hlt := Finset.mem_range.mp hm
  have hmul := Nat.div_mul_le_self (off + m) bSize
  exact hfull _ (by omega)

end Writei

/-- A file is an array of bytes. -/
theorem file_is_byte_array (sb : Superblock) (d : Disk) (wf : sb.Wf) (con : Consistent sb d) (i : ℕ)
    (hi : Allocated sb (dinodeAt sb d) i) :
    -- a write that gets its blocks and its bytes
    (∀ (off : ℕ) (data : List Byte) (src : Source), off ≤ (dinodeAt sb d i).size.toNat →
      off + data.length ≤ maxFile * bSize → (∀ k (hk : k < data.length), src k = some data[k]) →
      (dinodeAt sb d i).missing d (neededSlots (blocksOf off data.length)) ≤ freeBlocks sb d →
      ∃ ip' d', writei sb i (dinodeAt sb d i) src off data.length d = .ok ((data.length, ip'), d') ∧
        dinodeAt sb d' i = ip' ∧
          ip'.size.toNat = max (dinodeAt sb d i).size.toNat (off + data.length) ∧
        ip'.contents d' = patch ((dinodeAt sb d i).contents d) off data ∧
        (∀ a b, a ≤ b → b < 2 ^ 32 → ∀ dst : Dest, (∀ k, dst k = true) →
          readi sb ip' dst a (b - a) d' =
          .ok (((ip'.range d' a b).length, ip'.range d' a b, ip'), d')) ∧
        ∀ j, j ≠ i → Allocated sb (dinodeAt sb d) j →
          dinodeAt sb d' j = dinodeAt sb d j ∧ (dinodeAt sb d' j).contents d' =
            (dinodeAt sb d j).contents d) ∧
    -- a write that is refused
    ∀ (off n : ℕ) (src : Source), off < 2 ^ 32 → n < 2 ^ 32 →
      ((dinodeAt sb d i).size.toNat < off ∨ 2 ^ 32 ≤ off + n ∨ maxFile * bSize < off + n) →
      writei sb i (dinodeAt sb d i) src off n d = .ok ((-1, dinodeAt sb d i), d) := by
  refine ⟨fun off data src hoff hmax hsrc hfree => ?_, fun off n src hoff hn hbad => ?_⟩
  · have hlt : data.length < 2 ^ 32 := by
      simp only [maxFile, nDirect, nIndirect, bSize] at hmax
      omega
    have hsome : ∀ k < data.length, src k ≠ none := by
      intro k hk
      rw [hsrc k hk]
      exact Option.some_ne_none _
    obtain ⟨⟨n, ip'⟩, d', hrun, hdone, hn⟩ :=
      ((writei_spec (E := fun _ => False) wf con hi hlt).and
        (writei_all wf con hi hoff hmax hsome hfree)).exists_ok
    obtain rfl : n = data.length := hn
    have hwrote : Wrote src off data.length data.length (dinodeAt sb d i) d ip' d' := by
      rcases hdone.result with ⟨h, _⟩ | ⟨tot, htot, h⟩
      · have h1 : ((data.length : ℕ) : ℤ) = -1 := congrArg Prod.fst h
        omega
      · obtain rfl : data.length = tot := Int.ofNat_inj.mp htot
        exact h
    have hself : dinodeAt sb d' i = ip' := by rw [hdone.inodes i hi.1, Function.update_self]
    have hfull : ip'.Full d' := by
      rw [← hself]
      refine hdone.consistent.full i ⟨hi.1, ?_⟩
      have htype : ip'.type = (dinodeAt sb d i).type := by
        have hkeep := hdone.self
        simp only at hkeep
        rw [hkeep]
      rw [hself, htype]
      exact hi.2
    refine ⟨ip', d', hrun, hself, hwrote.size, hwrote.contents_eq (con.full i hi) rfl hsrc,
      fun a b hab hb dst hdst => ?_, fun j hj hal => ?_⟩
    · obtain ⟨r, d'', hread, rfl, rfl⟩ :=
        (readi_contents (E := fun _ => False) hfull hab hb hdst).exists_ok
      exact hread
    · have hsame : dinodeAt sb d' j = dinodeAt sb d j := by
        rw [hdone.inodes j hal.1, Function.update_of_ne hj]
      refine ⟨hsame, ?_⟩
      rw [hsame]
      exact (hdone.others j hj hal).contents_eq (con.full j hal) rfl
  · have hsize := (dinodeAt sb d i).size.isLt
    rw [writei]
    by_cases hguard : (dinodeAt sb d i).size.toNat < off ∨ (off + n) % 2 ^ 32 < off
    · rw [if_pos hguard]
      rfl
    · rw [if_neg hguard, if_pos]
      · rfl
      · omega

/-- Three bytes are appended to the file of the sample disk. -/
theorem file_is_byte_array_sample :
    ∃ ip' d', writei Mkfs.sb 2 (dinodeAt Mkfs.sb (sampleDisk 2) 2) (.ofBytes [1, 2, 3]) 64 3
        (sampleDisk 2) = .ok ((3, ip'), d') ∧
      ip'.contents d' = patch ((dinodeAt Mkfs.sb (sampleDisk 2) 2).contents (sampleDisk 2)) 64
        [1, 2, 3] := by
  have hi : Allocated Mkfs.sb (dinodeAt Mkfs.sb (sampleDisk 2)) 2 :=
    ⟨by decide +kernel, by decide +kernel⟩
  obtain ⟨ip', d', hrun, _, _, hcontents, _⟩ :=
    (file_is_byte_array Mkfs.sb (sampleDisk 2) (by decide) consistent_sample 2
    hi).1 64 [1, 2, 3] (.ofBytes [1, 2, 3]) (by decide +kernel) (by decide) (by decide) (by
      decide +kernel)
  exact ⟨ip', d', hrun, hcontents⟩

end NeulaCpu.Xv6
