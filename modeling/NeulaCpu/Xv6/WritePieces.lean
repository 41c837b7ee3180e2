import Mathlib.Data.List.TakeWhile
import NeulaCpu.Xv6.FileBlocks
import NeulaCpu.Xv6.TxnBlocks
import NeulaCpu.Xv6.UserBytes

/-!
# The pieces of a write

`writei` copies its source piece by piece, one for each block of the file. For a user buffer the
copy is `copyin`: it stops at the first page that is not mapped and leaves the bytes before it in
the destination. The loop may be cut at the start of a block, and as long as every address is good
it logs exactly the blocks that it changes.
-/

namespace NeulaCpu.Xv6

open ByteStore Outcome Function

/-! ## User buffers -/

namespace VmState

variable {s : VmState} {pt : ℕ}

/-- A user buffer as the source of a copy. -/
def source (s : VmState) (pt srcva : ℕ) : Source := fun k =>
  if s.Mapped pt (srcva + k) then s.userByte pt (srcva + k) else none

/-- The copy of a part of a user buffer is `copyin`. -/
theorem copyIn_source (srcva tot len : ℕ) :
    copyIn (s.source pt srcva) tot len =
      ((s.copyin pt (srcva + tot) len).2, (s.copyin pt (srcva + tot) len).1) := by
  obtain ⟨l, hl, heq⟩ := copyinLoop_spec s pt len (srcva + tot) len [] le_rfl
  have hsrc : ∀ k < l.length, s.source pt srcva (tot + k) = l[k]? := by
    intro k hk
    have hget := congrArg (fun l => l[k]?) hl.bytes
    simp only [List.getElem?_map, List.getElem?_range hk, Option.map_some] at hget
    rw [source, ← Nat.add_assoc, if_pos (hl.mapped k hk)]
    rw [List.getElem?_eq_getElem hk] at hget ⊢
    exact (Option.some.inj hget).symm
  obtain ⟨hok, hlen, hbytes⟩ := @copyIn_spec (s.source pt srcva) tot len l.length hl.le
    (fun j hj => by rw [hsrc j hj, List.getElem?_eq_getElem hj]; exact Option.some_ne_none _)
    fun hlt => if_neg (by rw [← Nat.add_assoc]; exact hl.stop hlt)
  rw [copyin, heq]
  refine Prod.ext (List.ext_getElem? fun j => ?_) hok
  rcases lt_or_ge j l.length with hj | hj
  · rw [← hbytes j hj, hsrc j hj]
    rfl
  · rw [List.getElem?_eq_none (by omega)]
    exact (List.getElem?_eq_none hj).symm

end VmState

namespace Txn

/-! ## Pieces that are copied completely -/

/-- `c` is not a block of the file outside the blocks `bns`. -/
def Spares (ip : Dinode) (d : Disk) (bns : Finset ℕ) (c : ℕ) : Prop :=
  ∀ bn ∉ bns, ip.block d bn ≠ 0 → c ≠ ip.block d bn

section Loop

variable {sb : Superblock} {din din' : ℕ → Dinode} {d d' : Disk} {i n c : ℕ} {src : Source}
  {E : FsPanic → Prop}

theorem Spares.of_kept {T : ℕ → Prop} {ip ip' : Dinode} {bns bns' : Finset ℕ}
    (hkept : FileKept T ip d ip' d') (hsub : bns' ⊆ bns) (h : Spares ip' d' bns' c) :
    Spares ip d bns c := by
  intro bn hbn hne
  rw [← (hkept bn hne).1]
  exact h bn (fun hmem => hbn (hsub hmem)) (hkept.block_ne hne)

/-- Blocks before the data blocks, the indirect block and the blocks `S` spare the others. -/
theorem spares_of_grown {T : ℕ → Prop} {S : Finset ℕ} (hg : Grown sb i T din d din' d')
    (hi : Allocated sb din i)
    (hc : c < sb.nmeta ∨ c = (din' i).addr nDirect ∨ ∃ bn ∈ S, c = (din' i).block d' bn) :
    Spares (din i) d S c := by
  have hi' := hg.allocated_iff.mpr hi
  refine Spares.of_kept hg.file subset_rfl fun bn hbn hne => ?_
  rcases hc with hc | rfl | ⟨bm, hbm, rfl⟩
  · have hmeta := (hg.ok.inUse_block hi' hne).1
    omega
  · exact hg.ok.addr_ne_block hi' hi' hne
  · intro heq
    have hslot := Dinode.slot_of_block hne
    have hslot' := Dinode.slot_of_block (heq ▸ hne : (din' i).block d' bm ≠ 0)
    have hsame := (hg.ok.slot_inj hi' hi' (hslot.trans_ne hne)
      (hslot'.trans (heq.trans hslot.symm))).2
    exact hbn (hsame ▸ hbm)

/-- Without a bad address, the loop of `writei` logs every block that it changes, and no block of
the file that it does not write to. -/
theorem writeLoop_touched (wf : sb.Wf) (hsrc : ∀ k < n, src k ≠ none) {fuel : ℕ} :
    ∀ {din : ℕ → Dinode} {s : Txn} {off tot : ℕ}, BlocksOk sb din s.disk →
      Allocated sb din i → tot ≤ n → off + (n - tot) ≤ maxFile * bSize →
      Ends E (writeLoop sb src fuel (din i) off tot n) s fun _ t =>
        Touched (Spares (din i) s.disk (blocksOf off (n - tot))) s t := by
  induction fuel with
  | zero => exact fun _ _ _ _ => .pure .refl
  | succ fuel ih =>
    intro din s off tot ok hi hle hmax
    unfold writeLoop
    by_cases htot : tot < n
    · rw [if_pos htot]
      have hbn : off / bSize < maxFile := by
        rw [Nat.div_lt_iff_lt_mul (by norm_num [bSize])]
        omega
      have hblk : off / bSize ∈ blocksOf off (n - tot) := mem_blocksOf le_rfl (by omega)
      refine (((projects_bmap sb (din i) _).ends (bmap_spec ok wf hi hbn)).and
        (bmap_calls wf.size_lt hbn)).andThen ?_
      rintro ⟨addr, ip⟩ t ⟨⟨hg, haddr, -, -⟩, M, hmap⟩
      simp only at hg haddr ⊢
      have hip : update din i ip i = ip := update_self ..
      have hspares : ∀ c, (c < sb.nmeta ∨ c = ip.addr nDirect ∨ c = addr) →
          Spares (din i) s.disk (blocksOf off (n - tot)) c := by
        intro c hc
        refine spares_of_grown hg hi (hc.imp_right fun h => ?_)
        rw [hip]
        exact h.imp_right fun h => ⟨_, hblk, h.trans haddr⟩
      have hfirst : Touched (Spares (din i) s.disk (blocksOf off (n - tot))) s t := by
        refine hmap.block.touched.mono fun c hc => hspares c ?_
        rcases hc with hc | hc | hc
        · exact .inr (.inr hc.1)
        · exact .inl (hc.lt wf)
        · exact .inr (.inl hc.1)
      by_cases h0 : addr = 0
      · rw [if_pos h0]
        exact .pure hfirst
      · rw [if_neg h0]
        generalize hm : min (n - tot) (bSize - off % bSize) = m
        have hok : (copyIn src tot m).2 = true := by
          rw [← Bool.not_eq_false]
          intro hbad
          obtain ⟨k, _, hk, hnone⟩ := copyIn_of_not_ok hbad
          exact hsrc k (by omega) hnone
        have hi₁ : Allocated sb (update din i ip) i := hg.allocated_iff.mpr hi
        have hne : (update din i ip i).block t.disk (off / bSize) ≠ 0 := by rwa [hip, ← haddr]
        have hw : Grown sb i (fun _ => True) (update din i ip) t.disk (update din i ip)
            (update t.disk ((update din i ip i).block t.disk (off / bSize))
              (put (t.disk addr) (off % bSize) (copyIn src tot m).1)) :=
          hg.ok.write wf hi₁ hne fun _ _ h => absurd trivial h
        rw [hip, ← haddr] at hw
        refine .bind (.modify ?_)
        rw [if_pos hok]
        refine .bind (.modify ?_)
        have hrec := @ih _ ⟨_, t.calls ++ [addr]⟩ (off + m) (tot + m) hw.ok hi₁
          (by omega) (by omega)
        rw [hip] at hrec
        refine hrec.mono fun r u hu =>
          (hfirst.trans (.write ?_ (hspares addr (.inr (.inr rfl))))).trans (hu.mono ?_)
        · exact fun c hc => update_of_ne hc ..
        · have hkept := ((hg.mono fun _ h => h.elim).trans hw).file
          rw [hip] at hkept
          exact fun c hc => hc.of_kept hkept (blocksOf_subset (by omega) (by omega))
    · rw [if_neg htot]
      exact .pure .refl

theorem writeLoop_fuel {fuel : ℕ} :
    ∀ {fuel' : ℕ} {ip : Dinode} {off tot : ℕ}, n - tot ≤ fuel → n - tot ≤ fuel' →
      writeLoop sb src fuel ip off tot n = writeLoop sb src fuel' ip off tot n := by
  have hdone : ∀ {fuel : ℕ} {ip : Dinode} {off tot : ℕ}, n - tot = 0 →
      writeLoop sb src fuel ip off tot n = pure (off, tot, ip) := by
    intro fuel ip off tot h
    cases fuel with
    | zero => rfl
    | succ fuel => rw [writeLoop, if_neg (by omega)]
  induction fuel with
  | zero =>
    intro fuel' ip off tot h _
    rw [hdone (by omega), hdone (by omega)]
  | succ fuel ih =>
    intro fuel' ip off tot h h'
    cases fuel' with
    | zero => rw [hdone (by omega), hdone (by omega)]
    | succ fuel' =>
      rw [writeLoop, writeLoop]
      have hmod : off % bSize < bSize := Nat.mod_lt _ (by norm_num [bSize])
      refine ite_congr rfl (fun htot => ?_) fun _ => rfl
      refine bind_congr fun r => ite_congr rfl (fun _ => rfl) fun _ => bind_congr fun _ => ?_
      exact ite_congr rfl (fun _ => bind_congr fun _ => ih (by omega) (by omega)) fun _ => rfl

/-- The loop is cut at the start of a block. -/
theorem writeLoop_split {m fuel : ℕ} (hmn : m ≤ n) :
    ∀ {ip : Dinode} {off tot : ℕ}, tot ≤ m → n - tot ≤ fuel →
      (tot = m ∨ (off + (m - tot)) % bSize = 0) →
    writeLoop sb src fuel ip off tot n = writeLoop sb src fuel ip off tot m >>= fun r =>
      if r.2.1 = m then writeLoop sb src (n - m) r.2.2 r.1 m n else pure r := by
  have hstop : ∀ {fuel : ℕ} {ip : Dinode} {off : ℕ}, writeLoop sb src fuel ip off m m =
      pure (off, m, ip) := by
    intro fuel ip off
    cases fuel with
    | zero => rfl
    | succ fuel => rw [writeLoop, if_neg (Nat.lt_irrefl m)]
  induction fuel with
  | zero =>
    intro ip off tot hle hfuel _
    obtain rfl : tot = m := by omega
    rw [hstop, pure_bind, if_pos rfl]
    exact writeLoop_fuel hfuel le_rfl
  | succ fuel ih =>
    intro ip off tot hle hfuel hcut
    by_cases htot : tot = m
    · subst htot
      rw [hstop, pure_bind, if_pos rfl]
      exact writeLoop_fuel hfuel le_rfl
    · have hal := hcut.resolve_left htot
      -- the piece ends with its block, before `m`
      have hpiece : min (n - tot) (bSize - off % bSize) = min (m - tot) (bSize - off % bSize) ∧
          bSize - off % bSize ≤ m - tot ∧ 0 < bSize - off % bSize := by
        simp only [bSize] at hal ⊢
        omega
      rw [writeLoop, writeLoop, if_pos (by omega), if_pos (by omega), bind_assoc]
      refine bind_congr fun r => ?_
      simp only
      by_cases h0 : r.1 = 0
      · rw [if_pos h0, if_pos h0, pure_bind, if_neg htot]
      · rw [if_neg h0, if_neg h0, hpiece.1, bind_assoc]
        refine bind_congr fun _ => ?_
        generalize hk : min (m - tot) (bSize - off % bSize) = k
        by_cases hok : (copyIn src tot k).2 = true
        · rw [if_pos hok, if_pos hok, bind_assoc]
          refine bind_congr fun _ => ih (by omega) (by omega) (.inr ?_)
          rwa [show off + k + (m - (tot + k)) = off + (m - tot) by omega]
        · rw [if_neg hok, if_neg hok, pure_bind, if_neg htot]

end Loop

end Txn

end NeulaCpu.Xv6
