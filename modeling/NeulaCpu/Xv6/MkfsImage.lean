import NeulaCpu.Xv6.FsTree
import NeulaCpu.Xv6.MkfsAppend

/-!
# The files on the image

An image is built up from the contents of its files: `ialloc` adds an empty one, and `iappend`
appends bytes to one. What the inodes hold, which blocks they own and the counter of free blocks
follow from the contents.
-/

namespace NeulaCpu.Xv6.Mkfs

open ByteStore Outcome Function

/-- A file, as far as it is written. -/
structure Content where
  type : BitVec 16
  bytes : List Byte

/-- The blocks before the first free one. -/
def total (cs : List Content) : ℕ := nmeta + (cs.map fun c => blocksFor c.bytes.length).sum

/-- The inode `ip` holds the file. -/
structure Holds (c : Content) (ip : Dinode) (d : Disk) : Prop where
  type : ip.type = c.type
  nlink : ip.nlink = 1
  le : c.bytes.length ≤ maxFile * bSize
  size : ip.size.toNat = c.bytes.length
  mapped : Mapped ip d c.bytes.length
  bytes : ∀ x < c.bytes.length, c.bytes[x]? = some (ip.byte d x)

/-- The image holds the files, from inode 1 on, and nothing else, if the inodes are `din`. -/
structure Built (cs : List Content) (din : ℕ → Dinode) (s : Image) : Prop where
  sectors : s.sectors = fsSize
  super : s.disk 1 = put (fun _ => 0) 0 (sb.words.flatMap le32)
  freeinode : s.freeinode = cs.length + 1
  freeblock : s.freeblock = total cs
  lt : cs.length < room.ninodes
  types : ∀ c ∈ cs, c.type ≠ 0
  blocks : BlocksOk room din s.view
  zero : ∀ b, s.freeblock ≤ b → s.disk b = fun _ => 0
  holds : ∀ k (hk : k < cs.length), Holds cs[k] (din (k + 1)) s.view
  free : ∀ i < room.ninodes, i = 0 ∨ cs.length < i → (din i).type = 0

/-- The inodes are on the image. -/
def Stored (cs : List Content) (s : Image) : Prop := Built cs (dinodeAt room s.view) s

section Total

variable {cs : List Content} {c : Content} {k : ℕ}

theorem total_append : total (cs ++ [c]) = total cs + blocksFor c.bytes.length := by
  rw [total, total, List.map_append, List.sum_append, Nat.add_assoc]
  rfl

theorem total_set (hk : k < cs.length) :
    total (cs.set k c) + blocksFor cs[k].bytes.length = total cs + blocksFor c.bytes.length := by
  induction cs generalizing k with
  | nil => exact absurd hk (Nat.not_lt_zero k)
  | cons c' cs ih =>
    cases k with
    | zero =>
      simp only [total, List.set_cons_zero, List.map_cons, List.sum_cons, List.getElem_cons_zero]
      omega
    | succ k =>
      have h := ih (Nat.lt_of_succ_lt_succ hk)
      simp only [total, List.set_cons_succ, List.map_cons, List.sum_cons,
        List.getElem_cons_succ] at h ⊢
      omega

theorem total_set_mono {c' : Content} (hk : k < cs.length) (h : c.bytes.length ≤ c'.bytes.length) :
    total (cs.set k c) ≤ total (cs.set k c') := by
  have h₁ := total_set (c := c) hk
  have h₂ := total_set (c := c') hk
  have hmono := blocksFor_mono h
  omega

theorem le_total (hk : k < cs.length) : nmeta + blocksFor cs[k].bytes.length ≤ total cs := by
  have hmem : blocksFor cs[k].bytes.length ∈ cs.map fun c => blocksFor c.bytes.length :=
    List.mem_map.mpr ⟨cs[k], List.getElem_mem hk, rfl⟩
  exact Nat.add_le_add_left (List.le_sum_of_mem hmem) _

end Total

section Holds

variable {c : Content} {ip : Dinode} {d d' : Disk} {x : ℕ}

theorem Holds.block_ne (h : Holds c ip d) (hx : x < c.bytes.length) :
    ip.block d (x / bSize) ≠ 0 := by
  have hle := Nat.div_mul_le_self x bSize
  have hmax : x / bSize < maxFile := by
    rw [Nat.div_lt_iff_lt_mul (by norm_num [bSize])]
    exact hx.trans_le h.le
  rw [← Dinode.slot_of_ne hmax.ne, h.mapped, Reaches, if_neg hmax.ne]
  omega

/-- The blocks of the file are as they were. -/
theorem Holds.of_data (h : Holds c ip d)
    (hd : ∀ n, ip.slot d n ≠ 0 → d' (ip.slot d n) = d (ip.slot d n)) : Holds c ip d' := by
  have hind : ip.slot d maxFile = ip.addr nDirect := if_pos rfl
  have hkeep (h0 : ip.addr nDirect ≠ 0) : d' (ip.addr nDirect) = d (ip.addr nDirect) := by
    have hm := hd maxFile
    rw [hind] at hm
    exact hm h0
  refine ⟨h.type, h.nlink, h.le, h.size, fun k => ?_, fun x hx => ?_⟩
  · rw [Dinode.slot_congr (fun _ => rfl) hkeep]
    exact h.mapped k
  · have hne := h.block_ne hx
    have hb := hd (x / bSize)
    rw [Dinode.slot_of_block hne] at hb
    rw [h.bytes x hx, Dinode.byte, Dinode.byte, Dinode.block_congr (fun _ => rfl) hkeep, hb hne]

end Holds

section Inodes

variable {s : Image} {i : ℕ}

theorem iBlock_lt_fsSize (hi : i < room.ninodes) : iBlock sb i < fsSize :=
  (room_wf.iBlock_lt_nmeta hi).trans (by decide)

theorem rinode_spec (hs : s.sectors = fsSize) (hi : i < room.ninodes) :
    rinode i s = .ok (dinodeAt room s.view i, s) := by
  show (rsect (iBlock sb i) s).bind _ = _
  rw [rsect_of_lt (by rw [hs]; exact iBlock_lt_fsSize hi), Image.dinodeAt_view hi]
  rfl

/-- `winode` is `iupdate` of the kernel. -/
theorem winode_ok (ip : Dinode) (hs : s.sectors = fsSize) (hi : i < room.ninodes) :
    ∃ t, winode i ip s = .ok ((), t) ∧ t.view = setDinode room s.view i ip ∧
      (∀ b, b ≠ iBlock sb i → t.disk b = s.disk b) ∧ t.sectors = s.sectors ∧
    t.freeinode = s.freeinode ∧ t.freeblock = s.freeblock := by
  have hlt : iBlock sb i < s.sectors := by
    rw [hs]
    exact iBlock_lt_fsSize hi
  have hne : iBlock sb i ≠ sb.bmapstart := (room_wf.iBlock_lt hi).ne
  refine ⟨s.write (iBlock sb i) (put (s.disk (iBlock sb i)) (i % ipb * 64) ip.bytes), ?_, ?_,
      fun b hb =>
    update_of_ne hb .., rfl, rfl, rfl⟩
  · show (rsect (iBlock sb i) s).bind _ = _
    rw [rsect_of_lt hlt]
    exact wsect_of_lt hlt
  · rw [Image.view_write hne, ← Image.view_of_ne hne]
    rfl

end Inodes

section Built

variable {cs : List Content} {c : Content} {din : ℕ → Dinode} {s t : Image} {i k : ℕ} {ip : Dinode}
  {E : Failure → Prop}

namespace Built

theorem allocated (h : Built cs din s) (hk : k < cs.length) : Allocated room din (k + 1) := by
  refine ⟨Nat.lt_of_le_of_lt hk h.lt, ?_⟩
  rw [(h.holds k hk).type]
  exact h.types _ (List.getElem_mem hk)

theorem nmeta_le (h : Built cs din s) : nmeta ≤ s.freeblock := by
  rw [h.freeblock]
  exact Nat.le_add_right ..

/-- The blocks of the files are below `freeblock`. -/
theorem slot_bounds (h : Built cs din s) (hk : k < cs.length) {n : ℕ}
    (hn : (din (k + 1)).slot s.view n ≠ 0) :
    nmeta ≤ (din (k + 1)).slot s.view n ∧ (din (k + 1)).slot s.view n < s.freeblock := by
  obtain ⟨hge, hlt, hbit⟩ := h.blocks.inUse (h.allocated hk) hn
  rw [Image.bitAt_view (hlt.trans (by decide))] at hbit
  exact ⟨hge, of_decide_eq_true hbit⟩

/-- The inode that was changed in memory goes to the image. -/
theorem winode (h : Built cs (update (dinodeAt room s.view) i ip) s) (hi : i < room.ninodes) :
    Ends E (winode i ip) s fun _ t => Stored cs t := by
  obtain ⟨t, hok, hview, hdisk, hsect, hinode, hfree⟩ := winode_ok ip h.sectors hi
  have hib := room_wf.iBlock_lt_nmeta hi
  refine .of_eq_ok hok ?_
  rw [Stored, hview, dinodeAt_setDinode]
  refine ⟨hsect.trans h.sectors, ?_, hinode.trans h.freeinode, hfree.trans h.freeblock, h.lt,
    h.types, ?_, fun b hb => ?_, fun k hk => ?_, h.free⟩
  · rw [hdisk 1 (by rw [iBlock]; exact (Nat.lt_of_lt_of_le (by decide) (Nat.le_add_left ..)).ne),
      h.super]
  · rw [hview]
    exact h.blocks.setDinode room_wf hi
  · rw [hfree] at hb
    rw [hdisk b (hib.trans_le (h.nmeta_le.trans hb)).ne', h.zero b hb]
  · rw [hview]
    refine (h.holds k hk).of_data fun n hn => setDinode_apply_of_ne ?_
    exact (hib.trans_le (h.slot_bounds hk hn).1).ne'

theorem congr {din' : ℕ → Dinode} (h : Built cs din s) (hdin : ∀ j < room.ninodes, din' j = din j) :
    Built cs din' s :=
  { h with
    blocks := h.blocks.congr (fun _ _ => rfl) (fun _ => Allocated.congr hdin) fun j hj n => by
      rw [hdin j hj.1]
    holds := fun k hk => by
      rw [hdin (k + 1) (h.allocated hk).1]
      exact h.holds k hk
    free := fun j hj hj' => by
      rw [hdin j hj]
      exact h.free j hj hj' }

variable {p : List Byte} {base : ℕ}

/-- Another file while bytes are appended to the file `k`. -/
theorem other (h : Built cs din s) {j : ℕ} (hk : k < cs.length) (hj : j < cs.length) (hne : j ≠ k)
    {T : ℕ → Prop} (ha : Appends din (k + 1) T (din (k + 1)) s ip t) :
    Holds cs[j] (din (j + 1)) t.view := by
  refine (h.holds j hj).of_data fun n hn => ?_
  obtain ⟨hge, hlt⟩ := h.slot_bounds hj hn
  rw [Image.view_of_ge hge, Image.view_of_ge hge]
  refine ha.elsewhere _ hlt fun m hm => absurd ?_ hne
  have hinj := h.blocks.slot_inj (h.allocated hj) (h.allocated hk) hn hm
  omega

section

variable (h : Built cs din s) (hk : k < cs.length) (hmax : cs[k].bytes.length + p.length ≤
  maxFile * bSize)
  (ha : Appends din (k + 1) (fun x => cs[k].bytes.length ≤ x ∧ x < cs[k].bytes.length + p.length)
    (din (k + 1)) s ip t)

include h hk hmax ha

/-- The file `k` after bytes were appended to it. -/
theorem self (hmapped : Mapped ip t.view (cs[k].bytes.length + p.length))
    (hbytes : ∀ x, cs[k].bytes.length ≤ x → x < cs[k].bytes.length + p.length →
      p[x - cs[k].bytes.length]? = some (ip.byte t.view x)) :
    Holds ⟨cs[k].type, cs[k].bytes ++ p⟩
      { ip with size := BitVec.ofNat 32 (cs[k].bytes.length + p.length) } t.view := by
  have hself := ha.grown.self
  rw [update_self, update_self] at hself
  have hhold := h.holds k hk
  have hslot (n : ℕ) : Dinode.slot
    { ip with size := BitVec.ofNat 32 (cs[k].bytes.length + p.length) } t.view n =
      ip.slot t.view n := Dinode.slot_congr (fun _ => rfl) fun _ => rfl
  have hbyte (x : ℕ) : Dinode.byte
    { ip with size := BitVec.ofNat 32 (cs[k].bytes.length + p.length) } t.view x =
      ip.byte t.view x := rfl
  refine ⟨?_, ?_, ?_, ?_, fun n => ?_, fun x hx => ?_⟩
  · rw [hself]
    exact hhold.type
  · rw [hself]
    exact hhold.nlink
  · rwa [List.length_append]
  · simp only [maxFile, nIndirect, nDirect, bSize] at hmax
    rw [List.length_append]
    exact Nat.mod_eq_of_lt (by omega)
  · rw [hslot, List.length_append]
    exact hmapped n
  · rw [List.length_append] at hx
    rw [hbyte]
    rcases Nat.lt_or_ge x cs[k].bytes.length with hlt | hge
    · rw [List.getElem?_append_left hlt, hhold.bytes x hlt,
        ha.file.byte_eq (hhold.block_ne hlt) fun hT => absurd hT.1 (by omega)]
    · rw [List.getElem?_append_right hge]
      exact hbytes x hge hx

/-- Bytes were appended to the file `k` in memory. -/
theorem append
    (hbase : total cs = base + blocksFor cs[k].bytes.length)
    (hext : Extent base ip t (cs[k].bytes.length + p.length))
    (hbytes : ∀ x, cs[k].bytes.length ≤ x → x < cs[k].bytes.length + p.length →
      p[x - cs[k].bytes.length]? = some (ip.byte t.view x)) :
    Built (cs.set k ⟨cs[k].type, cs[k].bytes ++ p⟩) (update din (k + 1)
      { ip with size := BitVec.ofNat 32 (cs[k].bytes.length + p.length) }) t := by
  have hset := total_set (c := ⟨cs[k].type, cs[k].bytes ++ p⟩) hk
  rw [List.length_append] at hset
  have hfree := hext.freeblock
  refine ⟨ha.ready.sectors, ?_,
    ?_, by omega, ?_, fun c hc => ?_, ?_, ha.ready.zero, fun j hj => ?_, fun j hj hj' => ?_⟩
  · rw [ha.elsewhere 1 (Nat.lt_of_lt_of_le (by decide) h.nmeta_le), h.super]
    intro n hn
    have hge := (h.slot_bounds hk (n := n) (by omega)).1
    exact absurd (hn ▸ hge) (by decide)
  · rw [ha.freeinode, h.freeinode, List.length_set]
  · rw [List.length_set]
    exact h.lt
  · rcases List.mem_or_eq_of_mem_set hc with hc | rfl
    · exact h.types c hc
    · exact h.types cs[k] (List.getElem_mem hk)
  · have htype :
      ({ ip with size := BitVec.ofNat 32 (cs[k].bytes.length + p.length) } : Dinode).type =
      (update din (k + 1) ip (k + 1)).type := by rw [update_self]
    have hup := ha.grown.ok.update htype (by rw [update_self])
    rwa [update_idem] at hup
  · rw [List.length_set] at hj
    rw [List.getElem_set]
    split_ifs with hjk
    · subst hjk
      rw [update_self]
      exact h.self hk hmax ha hext.mapped hbytes
    · rw [update_of_ne (by omega)]
      exact h.other hk hj (Ne.symm hjk) ha
  · rw [List.length_set] at hj'
    rw [update_of_ne (by omega)]
    exact h.free j hj hj'

end

end Built

theorem addr_new {type : BitVec 16} (k : ℕ) :
    ({ Dinode.zero with type := type, nlink := 1 } : Dinode).addr k = 0 := by
  simp [Dinode.addr, Dinode.zero]

theorem holds_new {type : BitVec 16} {d : Disk} :
    Holds ⟨type, []⟩ { Dinode.zero with type := type, nlink := 1 } d where
  type := rfl
  nlink := rfl
  le := Nat.zero_le _
  size := rfl
  mapped k := by
    rw [Dinode.slot_zero addr_new, Reaches]
    split_ifs <;> simp
  bytes x hx := absurd hx (Nat.not_lt_zero x)

theorem ialloc_spec (h : Stored cs s) {type : BitVec 16} (htype : type ≠ 0)
    (hroom : cs.length + 1 < room.ninodes) :
    Ends E (ialloc type) s fun i t => i = cs.length + 1 ∧ Stored (cs ++ [⟨type, []⟩]) t := by
  rw [Stored] at h
  have hfree := h.free (cs.length + 1) hroom (Or.inr (Nat.lt_succ_self _))
  have hlen : (cs ++ [(⟨type, []⟩ : Content)]).length = cs.length + 1 := List.length_append
  have hbuilt : Built (cs ++ [⟨type, []⟩]) (update (dinodeAt room s.view) (cs.length + 1)
      { Dinode.zero with type := type, nlink := 1 }) { s with freeinode := cs.length + 1 + 1 } := by
    refine ⟨h.sectors, h.super, by
      rw [hlen], ?_, by rwa [hlen], fun c hc => ?_, ?_, h.zero, fun k hk => ?_, fun j hj hj' => ?_⟩
    · have hzero : blocksFor 0 = 0 := by decide
      rw [total_append, List.length_nil, hzero]
      exact h.freeblock
    · rcases List.mem_append.mp hc with hc | hc
      · exact h.types c hc
      · rw [List.mem_singleton.mp hc]
        exact htype
    · exact h.blocks.update_empty addr_new fun hal => absurd hfree hal.2
    · rcases Nat.lt_or_ge k cs.length with hlt | hge
      · rw [List.getElem_append_left hlt, update_of_ne (by omega)]
        exact h.holds k hlt
      · obtain rfl : k = cs.length := by omega
        rw [List.getElem_append_right le_rfl, update_self]
        simp only [Nat.sub_self, List.getElem_cons_zero]
        exact holds_new
    · rw [hlen] at hj'
      rw [update_of_ne (by omega)]
      exact h.free j hj (hj'.imp_right fun h => by omega)
  refine .bind (.get (.bind (.set (.bind ?_))))
  rw [h.freeinode]
  exact (Built.winode hbuilt hroom).mono fun _ t ht => .pure ⟨rfl, ht⟩

/-- `iappend` appends the bytes to the file. -/
theorem iappend_spec (h : Stored cs s) (hk : k < cs.length) {p : List Byte}
    (hmax : cs[k].bytes.length + p.length ≤ maxFile * bSize)
    (hroom : total (cs.set k ⟨cs[k].type, cs[k].bytes ++ p⟩) ≤ fsSize) :
    Ends E (iappend (k + 1) p) s fun _ t => Stored (cs.set k ⟨cs[k].type, cs[k].bytes ++ p⟩) t := by
  rw [Stored] at h
  have hhold := h.holds k hk
  have hal := h.allocated hk
  have hready : Ready (dinodeAt room s.view) (k + 1) (dinodeAt room s.view (k + 1)) s :=
    ⟨by rw [update_eq_self]; exact h.blocks, hal.1, hal.2, h.nmeta_le, h.sectors, h.zero⟩
  -- the blocks that the other files and the areas before them take
  obtain ⟨base, hbase⟩ := Nat.exists_eq_add_of_le' (le_of_add_le_right (le_total hk))
  have hext : Extent base (dinodeAt room s.view (k + 1)) s cs[k].bytes.length :=
    ⟨hhold.mapped, h.freeblock.trans hbase⟩
  have hset := total_set (c := ⟨cs[k].type, cs[k].bytes ++ p⟩) hk
  rw [List.length_append] at hset
  refine .bind (.of_eq_ok (rinode_spec h.sectors hal.1) (.bind ?_))
  rw [hhold.size]
  refine (iappendLoop_spec hready hext le_rfl hmax (by omega)).mono ?_
  rintro ⟨ip, off⟩ t ⟨rfl, ha, hext', hbytes⟩
  refine Built.winode ((h.append hk hmax ha hbase hext' hbytes).congr fun j hj => ?_) hal.1
  by_cases hjk : j = k + 1
  · rw [hjk, update_self, update_self]
  · rw [update_of_ne hjk, update_of_ne hjk, ha.grown.inodes j hj]

theorem appendAll_spec {bufs : List (List Byte)} :
    ∀ {cs : List Content} {s : Image} (hk : k < cs.length), Stored cs s →
      cs[k].bytes.length + bufs.flatten.length ≤ maxFile * bSize →
      total (cs.set k ⟨cs[k].type, cs[k].bytes ++ bufs.flatten⟩) ≤ fsSize →
      Ends E (appendAll (k + 1) bufs) s fun _ t =>
        Stored (cs.set k ⟨cs[k].type, cs[k].bytes ++ bufs.flatten⟩) t := by
  induction bufs with
  | nil =>
    intro cs s hk h _ _
    rw [List.flatten_nil, List.append_nil, List.set_getElem_self]
    exact .pure h
  | cons buf bufs ih =>
    intro cs s hk h hmax hroom
    rw [List.flatten_cons, List.length_append] at hmax
    rw [List.flatten_cons, ← List.append_assoc] at hroom ⊢
    have hfirst :=
      (total_set_mono (c := ⟨cs[k].type, cs[k].bytes ++ buf⟩) hk
        (List.sublist_append_left ..).length_le).trans hroom
    refine (iappend_spec h hk (by omega) hfirst).andThen fun _ t ht => ?_
    have hk' : k < (cs.set k ⟨cs[k].type, cs[k].bytes ++ buf⟩).length := by rwa [List.length_set]
    have hrec := ih hk' ht
    simp only [List.getElem_set_self, List.set_set, List.length_append] at hrec
    exact hrec (by omega) hroom

end Built

/-- The entries of the root directory. -/
def dirents (files : List HostFile) : List Dirent :=
  ⟨rootIno, strncpy dirSiz dot⟩ :: ⟨rootIno, strncpy dirSiz dotdot⟩ ::
    files.mapIdx fun k f => ⟨k + 2, strncpy dirSiz f.name⟩

/-- The root directory and the files. -/
def contents (files : List HostFile) : List Content :=
  ⟨tDir, (dirents files).flatMap Dirent.bytes⟩ :: files.map fun f => ⟨tFile, f.bytes⟩

section Files

variable {files done : List HostFile} {f : HostFile} {s : Image} {E : Failure → Prop}

theorem length_dirents : (dirents files).length = files.length + 2 := by
  simp only [dirents, List.length_cons, List.length_mapIdx]

theorem length_contents : (contents files).length = files.length + 1 := by
  simp only [contents, List.length_cons, List.length_map]

theorem dirents_append :
    dirents (done ++ [f]) = dirents done ++ [⟨done.length + 2, strncpy dirSiz f.name⟩] := by
  simp only [dirents, List.mapIdx_concat, List.cons_append]

theorem length_bytes_of_mem {de : Dirent} (h : de ∈ dirents files) :
    de.bytes.length = direntSize := by
  refine Dirent.length_bytes ?_
  rcases List.mem_cons.mp h with rfl | h
  · exact length_strncpy ..
  rcases List.mem_cons.mp h with rfl | h
  · exact length_strncpy ..
  obtain ⟨k, hk, rfl⟩ := List.mem_mapIdx.mp h
  exact length_strncpy ..

theorem length_rootBytes :
    ((dirents files).flatMap Dirent.bytes).length = (files.length + 2) * direntSize := by
  rw [List.length_flatMap, List.map_congr_left fun de hde => length_bytes_of_mem hde,
    List.map_const', List.sum_replicate, length_dirents, smul_eq_mul]

theorem total_contents_append {rest : List HostFile} :
    total (contents done) ≤ total (contents (done ++ rest)) := by
  have hroot : blocksFor ((dirents done).flatMap Dirent.bytes).length ≤
      blocksFor ((dirents (done ++ rest)).flatMap Dirent.bytes).length := by
    refine blocksFor_mono ?_
    rw [length_rootBytes, length_rootBytes, List.length_append]
    exact Nat.mul_le_mul_right _ (by omega)
  simp only [total, contents, List.map_cons, List.sum_cons, List.map_append, List.sum_append]
  omega

theorem rootBytes_append :
    (dirents (done ++ [f])).flatMap Dirent.bytes =
      (dirents done).flatMap Dirent.bytes ++
        Dirent.bytes ⟨done.length + 2, strncpy dirSiz f.name⟩ := by
  rw [dirents_append, List.flatMap_append, List.flatMap_singleton]

/-- The root directory has room for an entry for every inode. -/
theorem rootBytes_le (hcount : files.length + 1 < room.ninodes) :
    ((dirents files).flatMap Dirent.bytes).length ≤ maxFile * bSize := by
  have hmax : (room.ninodes + 1) * direntSize ≤ maxFile * bSize := by decide
  rw [length_rootBytes]
  refine le_trans (Nat.mul_le_mul_right _ ?_) hmax
  omega

/-- The files after the entry of `f` is written and before its bytes are. -/
def withEntry (done : List HostFile) (f : HostFile) : List Content :=
  ⟨tDir, (dirents (done ++ [f])).flatMap Dirent.bytes⟩ ::
    ((done.map fun f => ⟨tFile, f.bytes⟩) ++ [⟨tFile, []⟩])

theorem withEntry_eq :
    (contents done ++ [(⟨tFile, []⟩ : Content)]).set 0
        ⟨tDir, (dirents done).flatMap Dirent.bytes ++
          Dirent.bytes ⟨done.length + 2, strncpy dirSiz f.name⟩⟩ =
      withEntry done f := by
  rw [← rootBytes_append]
  rfl

theorem getElem_withEntry (h : done.length + 1 < (withEntry done f).length) :
    (withEntry done f)[done.length + 1] = ⟨tFile, []⟩ := by
  simp only [withEntry, List.getElem_cons_succ]
  rw [List.getElem_append_right (by rw [List.length_map])]
  simp only [List.length_map, Nat.sub_self, List.getElem_cons_zero]

theorem set_withEntry :
    (withEntry done f).set (done.length + 1) ⟨tFile, f.bytes⟩ = contents (done ++ [f]) := by
  rw [withEntry, List.set_cons_succ,
    List.set_append_right _ _ (by rw [List.length_map]), List.length_map, Nat.sub_self,
    List.set_cons_zero, contents, List.map_append]
  rfl

/-- One more file, with its directory entry. -/
theorem addFile_spec (h : Stored (contents done) s) (hslash : slash ∉ f.shortname)
    (hcount : done.length + 2 < room.ninodes) (hsize : f.bytes.length ≤ maxFile * bSize)
    (hroom : total (contents (done ++ [f])) ≤ fsSize) :
    Ends E (addFile rootIno f) s fun _ t => Stored (contents (done ++ [f])) t := by
  have hlen : done.length + 1 < (withEntry done f).length := by
    simp only [withEntry, List.length_cons, List.length_append, List.length_map, List.length_nil]
    omega
  have hget := getElem_withEntry hlen
  have hmid : total (withEntry done f) ≤ fsSize := by
    have hset := total_set (c := ⟨tFile, f.bytes⟩) hlen
    have hzero : blocksFor 0 = 0 := by decide
    rw [set_withEntry, hget, List.length_nil, hzero] at hset
    omega
  have hroot : ((dirents (done ++ [f])).flatMap Dirent.bytes).length ≤ maxFile * bSize :=
    rootBytes_le (by rw [List.length_append]; exact hcount)
  rw [rootBytes_append, List.length_append] at hroot
  unfold addFile
  rw [if_neg hslash]
  refine (ialloc_spec h (by decide) (by rwa [length_contents])).andThen ?_
  rintro _ s₁ ⟨rfl, h₁⟩
  rw [length_contents]
  refine (iappend_spec (k := 0) h₁ (by simp [contents]) hroot ?_).andThen fun _ s₂ h₂ => ?_
  · rw [← withEntry_eq] at hmid
    exact hmid
  · replace h₂ : Stored (withEntry done f) s₂ := by
      rw [← withEntry_eq]
      exact h₂
    have hsize' : (withEntry done f)[done.length + 1].bytes.length + f.reads.flatten.length ≤
        maxFile * bSize := by
      rw [hget, List.length_nil, Nat.zero_add]
      exact hsize
    have hset : (withEntry done f).set (done.length + 1) ⟨(withEntry done f)[done.length + 1].type,
        (withEntry done f)[done.length + 1].bytes ++ f.reads.flatten⟩ = contents (done ++ [f]) := by
      rw [hget]
      exact set_withEntry
    have hall := appendAll_spec (E := E) hlen h₂ hsize' (by rwa [hset])
    rwa [hset] at hall

theorem addFiles_spec :
    ∀ {done : List HostFile} {s : Image}, Stored (contents done) s →
      (∀ f ∈ files, slash ∉ f.shortname ∧ f.bytes.length ≤ maxFile * bSize) →
      done.length + files.length + 1 < room.ninodes → total (contents (done ++ files)) ≤ fsSize →
      Ends E (addFiles rootIno files) s fun _ t => Stored (contents (done ++ files)) t := by
  induction files with
  | nil =>
    intro done s h _ _ _
    rw [List.append_nil]
    exact .pure h
  | cons f files ih =>
    intro done s h hf hcount hroom
    have happ : done ++ [f] ++ files = done ++ f :: files := List.append_cons .. |>.symm
    rw [List.length_cons] at hcount
    rw [← happ] at hroom ⊢
    obtain ⟨hslash, hsize⟩ := hf f List.mem_cons_self
    refine (addFile_spec h hslash (by omega) hsize (total_contents_append.trans hroom)).andThen
      fun _ t ht => ?_
    refine ih ht (fun g hg => hf g (.tail _ hg)) ?_ hroom
    rw [List.length_append, List.length_singleton]
    omega

end Files

section Main

variable {files : List HostFile} {s : Image} {E : Failure → Prop}

theorem wzeroes_ok {m n a b : ℕ} :
    wzeroes (List.range' m n) ⟨fun _ _ => 0, m, a, b⟩ = .ok ((), ⟨fun _ _ => 0, m + n, a, b⟩) := by
  induction n generalizing m with
  | zero => rfl
  | succ n ih =>
    have hw : wsect m (fun _ => 0) ⟨fun _ _ => 0, m, a, b⟩ =
        .ok ((), ⟨fun _ _ => 0, m + 1, a, b⟩) := by
      have hdisk : update (fun _ _ => 0 : Disk) m (fun _ => 0) = fun _ _ => 0 := update_eq_self ..
      have hmax : max m (m + 1) = m + 1 := max_eq_right (Nat.le_succ m)
      show Except.ok ((), (⟨update (fun _ _ => 0) m fun _ => 0, max m (m + 1), a, b⟩ : Image)) = _
      rw [hdisk, hmax]
    rw [List.range'_succ, wzeroes]
    show (wsect m (fun _ => 0) ⟨fun _ _ => 0, m, a, b⟩).bind (fun r =>
      wzeroes (List.range' (m + 1) n) r.2) = _
    rw [hw]
    show wzeroes (List.range' (m + 1) n) _ = _
    rw [ih, Nat.add_assoc, Nat.add_comm 1 n]

/-- The image after the super block is written. -/
def blank : Image :=
  Image.write ⟨fun _ _ => 0, fsSize, 1, nmeta⟩ 1 (put (fun _ => 0) 0 (sb.words.flatMap le32))

theorem blank_disk_one : blank.disk 1 = put (fun _ => 0) 0 (sb.words.flatMap le32) := by
  simp only [blank, Image.write, update_self]

theorem blank_disk_of_ne {b : ℕ} (h : b ≠ 1) : blank.disk b = fun _ => 0 := by
  simp only [blank, Image.write, update_of_ne h]

theorem dinodeAt_blank {i : ℕ} (hi : i < room.ninodes) : (dinodeAt room blank.view i).type = 0 := by
  have hne : iBlock room i ≠ 1 := by
    rw [iBlock]
    exact (Nat.lt_of_lt_of_le (by decide) (Nat.le_add_left ..)).ne'
  have hzero : blank.view (iBlock room i) = fun _ => 0 := by
    rw [Image.view_of_ne (room_wf.iBlock_lt hi).ne, blank_disk_of_ne hne]
  simp only [dinodeAt, hzero, word16]
  rfl

theorem stored_blank : Stored [] blank := by
  have hbits {b : ℕ} (hb : b < bpb) : bitAt room blank.view b = decide (b < nmeta) :=
    Image.bitAt_view hb
  rw [Stored]
  refine ⟨rfl, blank_disk_one, rfl,
    rfl, by decide, List.forall_mem_nil _, ⟨⟨fun b => ?_, ?_⟩, fun b hb => ?_⟩,
    fun b hb => ?_, fun k hk => absurd hk (Nat.not_lt_zero k), fun i hi _ => dinodeAt_blank hi⟩
  · refine iff_of_false ?_ ?_
    · rintro ⟨hge, hlt, hbit⟩
      rw [hbits (hlt.trans (by decide))] at hbit
      exact absurd (of_decide_eq_true hbit) (Nat.not_lt.mpr hge)
    · rintro ⟨x, hal, _⟩
      exact hal.2 (dinodeAt_blank hal.1)
  · rintro b x y ⟨hal, _⟩
    exact absurd (dinodeAt_blank hal.1) hal.2
  · rw [hbits (hb.trans (by decide))]
    exact decide_eq_true hb
  · exact blank_disk_of_ne (Nat.lt_of_lt_of_le (by decide) hb).ne'

/-- The inode of the root directory with its size rounded up. -/
def fixedRoot (d : Disk) : Dinode :=
  { dinodeAt room d rootIno with
    size := BitVec.ofNat 32 (((dinodeAt room d rootIno).size.toNat / bSize + 1) * bSize) }

/-- What `mkfs` leaves: the files, with the bitmap, and the root directory with its size rounded
up. -/
def Finished (files : List HostFile) (t : Image) : Prop :=
  ∃ s, Stored (contents files) s ∧ t.disk = setDinode room s.view rootIno (fixedRoot s.view) ∧
    t.freeblock = total (contents files)

theorem finish_spec (h : Stored (contents files) s) (hroom : total (contents files) ≤ fsSize) :
    Ends E (do
      fixSize rootIno
      let s ← get
      balloc s.freeblock) s fun _ t => Finished files t := by
  have hroot : rootIno < room.ninodes := by decide
  have hs := Built.sectors h
  have hf := Built.freeblock h
  obtain ⟨t, hok, hview, hdisk, hsect, hinode, hfree⟩ := winode_ok (fixedRoot s.view) hs hroot
  refine .bind (.bind (.of_eq_ok (rinode_spec hs hroot) (.of_eq_ok hok (.bind (.get ?_)))))
  have hlt : t.freeblock < bSize * 8 := by
    rw [hfree, hf]
    exact Nat.lt_of_le_of_lt hroom (by decide)
  have hbm : sb.bmapstart < t.sectors := by
    rw [hsect, hs]
    decide
  rw [balloc, if_pos hlt]
  refine .of_eq_ok (wsect_of_lt hbm) ⟨s, h, ?_, hfree.trans hf⟩
  rw [← hview]
  rfl

theorem main_spec (hf : ∀ f ∈ files, slash ∉ f.shortname ∧ f.bytes.length ≤ maxFile * bSize)
    (hcount : files.length + 1 < room.ninodes) (hroom : total (contents files) ≤ fsSize) :
    ∃ t, main files ⟨fun _ _ => 0, 0, 1, nmeta⟩ = .ok ((), t) ∧ Finished files t := by
  have hzero : wzeroes (List.range fsSize) ⟨fun _ _ => 0, 0, 1, nmeta⟩ =
      .ok ((), ⟨fun _ _ => 0, fsSize, 1, nmeta⟩) := by
    rw [List.range_eq_range', wzeroes_ok, Nat.zero_add]
  have hone : 1 < (⟨fun _ _ => 0, fsSize, 1, nmeta⟩ : Image).sectors := by decide
  have hsuper :
      wsect 1 (put (fun _ => 0) 0 (sb.words.flatMap le32)) ⟨fun _ _ => 0, fsSize, 1, nmeta⟩ =
      .ok ((), blank) := by
    rw [wsect_of_lt hone, blank]
  have htype : tDir ≠ 0 := by decide
  have halloc := ialloc_spec (E := fun _ => False) stored_blank htype (by decide)
  refine Ends.exists_ok_unit ?_
  unfold main
  generalize List.range fsSize = sectors at hzero
  refine .bind (.of_eq_ok hzero ?_)
  refine .bind (.of_eq_ok hsuper (.bind (halloc.mono ?_)))
  rintro _ s ⟨rfl, h⟩
  have hdot : (Dirent.bytes ⟨rootIno, strncpy dirSiz dot⟩).length = direntSize := rfl
  have hdotdot : (Dirent.bytes ⟨rootIno, strncpy dirSiz dotdot⟩).length = direntSize := rfl
  have hino : ([] : List Content).length + 1 = rootIno := rfl
  rw [hino, if_pos rfl]
  refine (iappend_spec (k := 0) h Nat.one_pos ?_ ?_).andThen fun _ s₁ h₁ => ?_
  · exact hdot.trans_le (by decide)
  · show nmeta + (blocksFor (Dirent.bytes ⟨rootIno, strncpy dirSiz dot⟩).length + 0) ≤ fsSize
    rw [hdot]
    decide
  refine (iappend_spec (k := 0) h₁ Nat.one_pos ?_ ?_).andThen fun _ s₂ h₂ => ?_
  · show (Dirent.bytes ⟨rootIno, strncpy dirSiz dot⟩).length + _ ≤ _
    rw [hdot, hdotdot]
    decide
  · have hmono : total (contents []) ≤ total (contents ([] ++ files)) := total_contents_append
    exact hmono.trans hroom
  replace h₂ : Stored (contents []) s₂ := h₂
  refine (addFiles_spec h₂ hf ?_ hroom).andThen fun _ s₃ h₃ => finish_spec h₃ hroom
  rwa [List.length_nil, Nat.zero_add]

end Main

end NeulaCpu.Xv6.Mkfs
