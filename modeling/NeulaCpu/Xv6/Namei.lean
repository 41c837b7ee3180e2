import NeulaCpu.Xv6.DirMap
import NeulaCpu.Xv6.Path

/-!
# Path resolution

`namei` and `nameiparent` follow the components of a path. While `namex` walks it holds one inode,
and all other references are those from before the call. It may free an inode on its way: one
without links that nobody else holds. If it came to such an inode a second time, `ilock` would find
it free and panic; so what it returns is what the path leads to in the tree as it was at the start.
-/

namespace NeulaCpu.Xv6

open ByteStore Outcome Function

instance (de : Dirent) (name : List Byte) : Decidable (de.Names name) :=
  inferInstanceAs (Decidable (_ ∧ _))

/-- The inode that a directory has under a name. -/
def Node.lookup (n : Node) (name : List Byte) : Option ℕ :=
  (n.ents.find? (·.Names name)).map Dirent.inum

/-- The inode that is reached from `i` by looking up the names one after the other. -/
def resolve (nodes : ℕ → Node) : List (List Byte) → ℕ → Option ℕ
  | [], i => some i
  | name :: rest, i =>
    if (nodes i).type = tDir then ((nodes i).lookup name).bind fun j => resolve nodes rest j
      else none

/-- The directory that is reached by all names but the last, and the last name. -/
def resolveParent (nodes : ℕ → Node) (names : List (List Byte)) (i : ℕ) : Option (ℕ × List Byte) :=
  names.getLast?.bind fun name => (resolve nodes names.dropLast i).bind fun j =>
    if (nodes j).type = tDir then some (j, name) else none

/-- The inodes in which a name is looked up. -/
def visited (nodes : ℕ → Node) : List (List Byte) → ℕ → List ℕ
  | [], _ => []
  | name :: rest, i => i :: ((nodes i).lookup name).elim [] fun j => visited nodes rest j

section Resolve

variable {nodes : ℕ → Node} {name : List Byte} {rest : List (List Byte)} {i j : ℕ}

theorem resolve_cons (h : (nodes i).type = tDir) :
    resolve nodes (name :: rest) i =
      ((nodes i).lookup name).bind fun j => resolve nodes rest j := by
  rw [resolve, if_pos h]

theorem resolve_of_not_dir (h : (nodes i).type ≠ tDir) : resolve nodes (name :: rest) i = none := by
  rw [resolve, if_neg h]

theorem resolveParent_last :
    resolveParent nodes [name] i = if (nodes i).type = tDir then some (i, name) else none := rfl

theorem resolveParent_cons (hrest : rest ≠ []) (h : (nodes i).type = tDir) :
    resolveParent nodes (name :: rest) i =
      ((nodes i).lookup name).bind fun j => resolveParent nodes rest j := by
  rw [resolveParent, List.getLast?_cons_of_ne_nil hrest, List.dropLast_cons_of_ne_nil hrest,
    resolve_cons h]
  cases (nodes i).lookup name with
  | none => simp only [Option.bind_none, Option.bind_fun_none]
  | some j => rfl

theorem resolveParent_of_not_dir (h : (nodes i).type ≠ tDir) :
    resolveParent nodes (name :: rest) i = none := by
  cases rest with
  | nil => rw [resolveParent_last, if_neg h]
  | cons next rest =>
    rw [resolveParent, List.dropLast_cons_of_ne_nil (List.cons_ne_nil next rest),
      resolve_of_not_dir h]
    simp only [Option.bind_none, Option.bind_fun_none]

theorem visited_of_lookup (h : (nodes i).lookup name = some j) :
    visited nodes (name :: rest) i = i :: visited nodes rest j := by
  rw [visited, h, Option.elim_some]

/-- The names `pre` lead to an inode that is not a directory or that has no `name`. -/
def Blocked (nodes : ℕ → Node) (i : ℕ) (pre : List (List Byte)) (name : List Byte) : Prop :=
  ∃ j, resolve nodes pre i = some j ∧ ((nodes j).type ≠ tDir ∨ (nodes j).lookup name = none)

theorem blocked_cons {pre : List (List Byte)} {next : List Byte} (hdir : (nodes i).type = tDir)
    (hlook : (nodes i).lookup name = some j) :
    Blocked nodes i (name :: pre) next ↔ Blocked nodes j pre next := by
  rw [Blocked, Blocked, resolve_cons hdir, hlook, Option.bind_some]

/-- A path leads nowhere exactly if one of its names is blocked. -/
theorem resolve_eq_none_iff {names : List (List Byte)} :
    resolve nodes names i = none ↔
      ∃ pre name post, names = pre ++ name :: post ∧ Blocked nodes i pre name := by
  induction names generalizing i with
  | nil =>
    refine iff_of_false (Option.some_ne_none i) ?_
    rintro ⟨pre, name, post, h, _⟩
    exact List.append_ne_nil_of_right_ne_nil pre (List.cons_ne_nil name post) h.symm
  | cons name rest ih =>
    by_cases hdir : (nodes i).type = tDir
    · cases hlook : (nodes i).lookup name with
      | none =>
        rw [resolve_cons hdir, hlook]
        exact iff_of_true rfl ⟨[], name, rest, rfl, i, rfl, .inr hlook⟩
      | some j =>
        rw [resolve_cons hdir, hlook, Option.bind_some, ih]
        constructor
        · rintro ⟨pre, next, post, rfl, hb⟩
          exact ⟨name :: pre, next, post, rfl, (blocked_cons hdir hlook).mpr hb⟩
        · rintro ⟨pre, next, post, h, hb⟩
          cases pre with
          | nil =>
            obtain ⟨rfl, rfl⟩ := List.cons.inj h
            obtain ⟨_, hi, hblocked⟩ := hb
            obtain rfl := Option.some.inj hi
            rcases hblocked with hnot | hnone
            · exact absurd hdir hnot
            · exact absurd (hlook.symm.trans hnone) (Option.some_ne_none j)
          | cons name' pre =>
            obtain ⟨rfl, rfl⟩ := List.cons.inj h
            exact ⟨pre, next, post, rfl, (blocked_cons hdir hlook).mp hb⟩
    · rw [resolve_of_not_dir hdir]
      exact iff_of_true rfl ⟨[], name, rest, rfl, i, rfl, .inl hdir⟩

theorem resolveParent_concat {names : List (List Byte)} : resolveParent nodes (names ++ [name]) i =
    (resolve nodes names i).bind fun j => if (nodes j).type = tDir then some (j, name)
      else none := by
  rw [resolveParent, List.getLast?_concat, List.dropLast_concat, Option.bind_some]

theorem resolveParent_eq_none_iff {names : List (List Byte)} :
    resolveParent nodes names i = none ↔ names = [] ∨
        (∃ pre name post, post ≠ [] ∧ names = pre ++ name :: post ∧ Blocked nodes i pre name) ∨
        ∃ j, resolve nodes names.dropLast i = some j ∧ (nodes j).type ≠ tDir := by
  rcases names.eq_nil_or_concat' with rfl | ⟨init, last, rfl⟩
  · exact iff_of_true rfl (.inl rfl)
  rw [resolveParent_concat, List.dropLast_concat, Option.bind_eq_none_iff]
  have hne : init ++ [last] ≠ [] :=
    List.append_ne_nil_of_right_ne_nil init (List.cons_ne_nil last [])
  constructor
  · intro h
    right
    cases hr : resolve nodes init i with
    | none =>
      obtain ⟨pre, name, post, rfl, hb⟩ := resolve_eq_none_iff.mp hr
      exact .inl ⟨pre, name, post ++ [last],
        List.append_ne_nil_of_right_ne_nil post (List.cons_ne_nil last []),
        by rw [List.append_assoc, List.cons_append], hb⟩
    | some j =>
      refine .inr ⟨j, rfl, fun hdir => ?_⟩
      have hnone := h j hr
      rw [if_pos hdir] at hnone
      exact Option.some_ne_none _ hnone
  · rintro (h | ⟨pre, name, post, hpost, h, hb⟩ | ⟨j, hj, hnot⟩) k hk
    · exact absurd h hne
    · obtain ⟨post, last', rfl⟩ := post.eq_nil_or_concat'.resolve_left hpost
      rw [← List.cons_append, ← List.append_assoc] at h
      obtain ⟨rfl, _⟩ := List.append_inj' h rfl
      have hnone := resolve_eq_none_iff.mpr ⟨pre, name, post, rfl, hb⟩
      exact absurd (hk.symm.trans hnone) (Option.some_ne_none k)
    · obtain rfl := Option.some.inj (hj.symm.trans hk)
      exact if_neg hnot

end Resolve

namespace Fs

variable (sb : Superblock) (s : Fs)

/-- An inode without links that nobody holds. -/
def Unheld (j : ℕ) : Prop := (tree sb s.disk j).nlink = 0 ∧ s.refs j = 0

/-- A panic of a walk: the inode table has no room for the two inodes that it holds, it comes to an
inode that is free or that it may have freed itself, or the last entry of a directory is cut off. -/
def WalkPanic (names : List (List Byte)) (i : ℕ) (e : FsPanic) : Prop :=
  e = .igetNoInodes ∧ nInode ≤ s.used + 1 ∨
    ∃ j ∈ visited (tree sb s.disk) names i,
      e = .ilockNoType ∧ ((tree sb s.disk j).type = 0 ∨ s.Unheld sb j) ∨
      e = .dirlookupRead ∧ (dinodeAt sb s.disk j).size.toNat % direntSize ≠ 0

/-- The state in a walk that began in `s` and holds `x`. -/
structure Walking (t : Fs) (x : ℕ) : Prop where
  ok : t.Ok sb
  refs : t.refs = s.refs + Pi.single x 1
  used : t.used = s.used + if s.refs x = 0 then 1 else 0
  /-- An inode is as it was, or it has been freed. -/
  kept : ∀ j < sb.ninodes,
    dinodeAt sb t.disk j = dinodeAt sb s.disk j ∧ tree sb t.disk j = tree sb s.disk j ∨
    (tree sb t.disk j).type = 0 ∧ s.Unheld sb j

variable {sb} {s} {t u v : Fs} {x : ℕ} {names : List (List Byte)} {name : List Byte}
  {E : FsPanic → Prop}

theorem WalkPanic.tail {y : ℕ} {e : FsPanic} (h : s.WalkPanic sb names y e)
    (hlook : (tree sb s.disk x).lookup name = some y) : s.WalkPanic sb (name :: names) x e := by
  rcases h with h | ⟨j, hj, h⟩
  · exact .inl h
  · refine .inr ⟨j, ?_, h⟩
    rw [visited_of_lookup hlook]
    exact List.mem_cons_of_mem x hj

/-! ## The steps of a walk -/

/-- `iput` changes the disk only if it frees the inode, and then only that inode. -/
theorem iput_frame (wf : sb.Wf) (ok : s.Ok sb) (i : ℕ) :
    Ends E (iput sb i) s fun _ t =>
      t.used = s.used - (if s.refs i = 1 then 1 else 0) ∧ (¬ Freeable sb s i → t.disk = s.disk) ∧
      ∀ j < sb.ninodes, j ≠ i → dinodeAt sb t.disk j = dinodeAt sb s.disk j := by
  have hdrop {u : Fs} (hused : u.used = s.used) (href : (u.inode i).ref = s.refs i) :
      (if (u.inode i).ref = 1 then u.used - 1 else u.used) =
          s.used - (if s.refs i = 1 then 1 else 0) := by
    rw [href, hused]
    split_ifs <;> rfl
  refine .bind (.get ?_)
  by_cases hf : Freeable sb s i
  · rw [if_pos ((freeable_iff ok).mp hf)]
    have hal := ok.allocated hf.2.1
    refine .bind (.bind (copy_spec ?_))
    rw [(ok.loaded i hf.2.1).1]
    refine .bind (.zoom ((Xv6.itrunc_spec wf ok.consistent.blocks hal).mono ?_))
    rintro c d' ⟨_, _, _, hinodes⟩
    refine .modify (.bind (.of_eq_ok rfl
      (.bind (.modify (.modify ⟨?_, fun hnot => absurd hf hnot, fun j hj hji => ?_⟩)))))
    · refine hdrop rfl ?_
      simp [setInode, refs]
    · show dinodeAt sb (setDinode sb d' i _) j = _
      rw [dinodeAt_setDinode, update_of_ne hji, hinodes j hj, update_of_ne hji]
  · rw [if_neg fun h => hf ((freeable_iff ok).mpr h)]
    exact .modify ⟨hdrop rfl rfl, fun _ => rfl, fun _ _ _ => rfl⟩

namespace Walking

theorem ref_pos (h : Walking sb s t x) : 0 < t.refs x := by
  rw [h.refs, Pi.add_apply, Pi.single_eq_same]
  exact Nat.succ_pos _

theorem lt (h : Walking sb s t x) : x < sb.ninodes := h.ok.inRange x h.ref_pos

theorem kept_of_type (h : Walking sb s t x) {j : ℕ} (hj : j < sb.ninodes)
    (ht : (tree sb t.disk j).type ≠ 0) :
    dinodeAt sb t.disk j = dinodeAt sb s.disk j ∧ tree sb t.disk j = tree sb s.disk j :=
  (h.kept j hj).resolve_right fun hfree => ht hfree.1

/-- The inode that the walk holds is free only if it was, or if the walk has freed it. -/
theorem free_of_type (h : Walking sb s t x) (ht : (dinodeAt sb t.disk x).type = 0) :
    (tree sb s.disk x).type = 0 ∨ s.Unheld sb x := by
  rcases h.kept x h.lt with ⟨_, hnode⟩ | ⟨_, hun⟩
  · left
    rw [← hnode, tree_type h.lt, ht]
  · exact .inr hun

/-- `ilock` changes neither the disk nor the references. -/
theorem ilock (h : Walking sb s t x) (hat : After sb t t.refs (tree sb t.disk) u)
    (hdisk : u.disk = t.disk) (hused : u.used = t.used) : Walking sb s u x where
  ok := hat.ok
  refs := hat.refs_eq.trans h.refs
  used := hused.trans h.used
  kept j hj := by
    rw [hdisk]
    exact h.kept j hj

/-- The first reference of the walk. -/
theorem start (ok : t.Ok sb) (hrefs : t.refs = s.refs + Pi.single x 1) (hdisk : t.disk = s.disk)
    (hused : t.used = s.used + if s.refs x = 0 then 1 else 0) : Walking sb s t x where
  ok := ok
  refs := hrefs
  used := hused
  kept j _ := by
    rw [hdisk]
    exact .inl ⟨rfl, rfl⟩

/-- `iget` of the next inode and `iput` of this one. -/
theorem next (wf : sb.Wf) (h : Walking sb s t x) {y : ℕ}
    (hat : After sb t (Function.update t.refs y (t.refs y + 1)) (tree sb t.disk) u)
    (hdisk : u.disk = t.disk) (hused : u.used = t.used + if t.refs y = 0 then 1 else 0) :
    Ends E (iput sb x) u fun _ v => Walking sb s v y := by
  have hrefs : u.refs = s.refs + Pi.single y 1 + Pi.single x 1 := by
    rw [hat.refs_eq, h.refs]
    funext j
    by_cases hj : j = y
    · subst hj
      rw [update_self, Pi.add_apply, Pi.add_apply, Pi.add_apply, Pi.single_eq_same]
      omega
    · rw [update_of_ne hj, Pi.add_apply, Pi.add_apply, Pi.add_apply, Pi.single_eq_of_ne hj]
      omega
  have hx : u.refs x = s.refs x + (Pi.single y 1 : ℕ → ℕ) x + 1 := by
    rw [hrefs, Pi.add_apply, Pi.add_apply, Pi.single_eq_same]
  refine (((iput_spec wf hat.ok).and (iput_frame wf hat.ok x)).and_right (iput_refs sb hrefs)).mono
    ?_
  rintro _ v ⟨⟨⟨nodes, hput, hv⟩, hvused, hvdisk, hvothers⟩, hvrefs⟩
  refine ⟨hv.ok, hvrefs, ?_, fun j hj => ?_⟩
  · have hy : t.refs y = s.refs y + (Pi.single x 1 : ℕ → ℕ) y := by rw [h.refs, Pi.add_apply]
    rw [hvused, hused, h.used, hx, hy]
    by_cases hxy : y = x
    · subst hxy
      have h1 : ¬ s.refs y + 1 = 0 := Nat.succ_ne_zero _
      have h2 : ¬ s.refs y + 1 + 1 = 1 := by omega
      rw [Pi.single_eq_same, if_neg h1, if_neg h2, Nat.add_zero, Nat.sub_zero]
    · rw [Pi.single_eq_of_ne hxy, Pi.single_eq_of_ne (Ne.symm hxy)]
      split_ifs <;> omega
  · rcases hput with ⟨hf, rfl⟩ | ⟨hnot, rfl⟩
    · by_cases hjx : j = x
      · -- the inode that is put is freed: it was nobody else's
        subst hjx
        have hlinks : (tree sb s.disk j).nlink = 0 := by
          have htype : (tree sb t.disk j).type ≠ 0 := by
            rw [← hdisk]
            exact allocated_iff_tree.mp (hat.ok.allocated hf.2.1)
          rw [← (h.kept_of_type hj htype).2, ← hdisk]
          exact hf.2.2
        have hone := hf.1
        refine .inr ⟨?_, hlinks, by omega⟩
        rw [hv.nodes_eq, update_self]
        rfl
      · rw [hv.nodes_eq, update_of_ne hjx, hvothers j hj hjx, hdisk]
        exact h.kept j hj
    · rw [hvdisk hnot, hdisk]
      exact h.kept j hj

/-- The walk looks at a directory that it has locked. -/
theorem dirOk (h : Walking sb s t x) (hl : t.Loaded x) (hdir : (t.inode x).copy.type = tDir) :
    t.DirOk sb x ∧ t.entries x = (tree sb s.disk x).ents ∧
      (t.inode x).copy.size = (dinodeAt sb s.disk x).size := by
  have hcopy := (h.ok.loaded x hl).1
  obtain ⟨hdinode, hnode⟩ := h.kept_of_type h.lt (allocated_iff_tree.mp (h.ok.allocated hl))
  refine ⟨⟨h.ok.consistent, h.ref_pos, hcopy, h.lt, hcopy ▸ hdir⟩, ?_, by rw [hcopy, hdinode]⟩
  rw [← hnode, h.ok.node hl]
  rfl

end Walking

theorem lookup_of_first {n : Node} {k : ℕ} {de : Dirent} (hde : n.ents[k]? = some de)
    (hname : de.Names name) (hfirst : ∀ j < k, ∀ e, n.ents[j]? = some e → ¬ e.Names name) :
    n.lookup name = some de.inum := by
  have hfind : n.ents.find? (·.Names name) = some de := by
    obtain ⟨hk, hget⟩ := List.getElem?_eq_some_iff.mp hde
    refine List.find?_eq_some_iff_getElem.mpr ⟨by simpa using hname, k, hk, hget, fun j hj => ?_⟩
    simpa using hfirst j hj _ (List.getElem?_eq_getElem (hj.trans hk))
  rw [Node.lookup, hfind, Option.map_some]

theorem lookup_eq_none {n : Node} (h : ∀ de ∈ n.ents, ¬ de.Names name) : n.lookup name = none := by
  rw [Node.lookup, Option.map_eq_none_iff, List.find?_eq_none]
  intro de hde
  simpa using h de hde

/-- What `namex` returns. -/
def answer (par : Bool) (nodes : ℕ → Node) (names : List (List Byte)) (i : ℕ) :
    Option (ℕ × List Byte) :=
  if par then resolveParent nodes names i else (resolve nodes names i).map (·, [])

theorem answer_of_not_dir {nodes : ℕ → Node} {i : ℕ} (h : (nodes i).type ≠ tDir) (par : Bool) :
    answer par nodes (name :: names) i = none := by
  cases par with
  | false => exact (congrArg (Option.map (·, [])) (resolve_of_not_dir h) : _)
  | true => exact resolveParent_of_not_dir h

theorem answer_cons {nodes : ℕ → Node} {i : ℕ} {par : Bool} (h : (nodes i).type = tDir)
    (hmore : ¬ (par = true ∧ names = [])) :
    answer par nodes (name :: names) i =
      ((nodes i).lookup name).bind fun j => answer par nodes names j := by
  cases par with
  | false =>
    show (resolve nodes (name :: names) i).map (·, []) = _
    rw [resolve_cons h, Option.map_bind]
    rfl
  | true => exact resolveParent_cons (fun hnil => hmore ⟨rfl, hnil⟩) h

/-- The walk of `namex` from the inode that it holds. -/
theorem namexLoop_walk (wf : sb.Wf) (hs : s.Sound sb) {par : Bool} {names : List (List Byte)} :
    ∀ {t : Fs} {x : ℕ}, Walking sb s t x → (∀ e, s.WalkPanic sb names x e → E e) →
    Ends E (namexLoop sb par x names) t fun r _ => r = answer par (tree sb s.disk) names x := by
  induction names with
  | nil =>
    intro t x h _
    cases par with
    | false => exact .pure rfl
    | true => exact (iput_spec wf h.ok).andThen fun _ _ _ => .pure rfl
  | cons name names ih =>
    intro t x h hE
    have hin : x ∈ visited (tree sb s.disk) (name :: names) x := List.mem_cons_self
    refine (ilock_wp h.ok h.ref_pos fun ht =>
      hE _ (.inr ⟨x, hin, .inl ⟨rfl, h.free_of_type ht⟩⟩)).andThen ?_
    rintro _ u ⟨⟨hat, hl⟩, hdisk, hused⟩
    have hu := h.ilock hat hdisk hused
    have hnode := (hu.kept_of_type hu.lt (allocated_iff_tree.mp (hu.ok.allocated hl))).2
    have htype : (u.inode x).copy.type = (tree sb s.disk x).type := by rw [← hnode, hu.ok.node hl]
    refine .bind (copy_spec ?_)
    by_cases hdir : (u.inode x).copy.type ≠ tDir
    · rw [if_pos hdir]
      refine (iput_spec wf hu.ok).andThen fun _ _ _ => .pure ?_
      rw [answer_of_not_dir (by rwa [← htype])]
    rw [if_neg hdir]
    rw [not_not] at hdir
    obtain ⟨hdok, hents, hsize⟩ := hu.dirOk hl hdir
    by_cases hlast : par = true ∧ names = []
    · rw [if_pos hlast]
      obtain ⟨rfl, rfl⟩ := hlast
      refine .pure ?_
      show _ = resolveParent (tree sb s.disk) [name] x
      rw [resolveParent_last, if_pos (by rw [← htype, hdir])]
    rw [if_neg hlast, answer_cons (by rw [← htype, hdir]) hlast]
    refine .bind (dirlookup_wp hdok.readable (fun hcut => ?_) (fun hnone _ => ?_)
      fun k de hde hname hfirst => ?_)
    · rw [hsize] at hcut
      exact hE _ (.inr ⟨x, hin, .inr ⟨rfl, hcut⟩⟩)
    · refine (iput_spec wf hu.ok).andThen fun _ _ _ => .pure ?_
      rw [lookup_eq_none (by rwa [← hents]), Option.bind_none]
    · rw [hents] at hde hfirst
      have hlook : (tree sb s.disk x).lookup name = some de.inum := lookup_of_first hde hname hfirst
      have hrange := hs.inRange x de (List.mem_of_getElem? hde)
      refine (iget_wp hu.ok hrange fun _ hfull => hE _ (.inl ⟨rfl, ?_⟩)).mono ?_
      · have := hu.used
        split_ifs at this <;> omega
      rintro _ v ⟨⟨hv, _⟩, hvdisk, hvused⟩
      refine (hu.next wf hv hvdisk hvused).andThen fun _ w hw => ?_
      rw [hlook, Option.bind_some]
      exact ih hw fun e he => hE e (he.tail hlook)

/-- The inode at which `namex` begins. -/
def startOf (cwd : ℕ) (path : List Byte) : ℕ := if path.headD 0 = slash then rootIno else cwd

theorem namex_walk (wf : sb.Wf) (hs : s.Sound sb) {cwd : ℕ} (hcwd : 0 < s.refs cwd)
    (par : Bool) (path : List Byte) :
    Ends (s.WalkPanic sb (components path) (startOf cwd path)) (namex sb cwd par path) s fun r t =>
      r = answer par (tree sb s.disk) (components path) (startOf cwd path) ∧
      t.refs = s.refs + taken (r.map Prod.fst) := by
  refine Ends.and_right ?_ (namex_refs sb cwd par path)
  unfold namex
  rw [elements_eq_components le_rfl]
  by_cases habs : path.headD 0 = slash
  · rw [if_pos habs, startOf, if_pos habs]
    refine ((iget_wp hs.ok wf.root fun _ hfull =>
      .inl ⟨rfl, by omega⟩).and_right (iget_refs rootIno)).andThen ?_
    rintro _ t ⟨⟨⟨hat, _⟩, hdisk, hused⟩, hrefs⟩
    exact namexLoop_walk wf hs (.start hat.ok hrefs hdisk hused) fun _ he => he
  · rw [if_neg habs, startOf, if_neg habs]
    have hkept : Ends (fun _ => True) (idup cwd) s fun _ t => t.disk = s.disk ∧ t.used = s.used :=
      .modify ⟨rfl, rfl⟩
    refine (((idup_spec hs.ok hcwd).and_right hkept).and_right (idup_refs cwd)).andThen ?_
    rintro _ t ⟨⟨hat, hdisk, hused⟩, hrefs⟩
    refine namexLoop_walk wf hs (.start hat.ok hrefs hdisk ?_) fun _ he => he
    rw [hused, if_neg hcwd.ne', Nat.add_zero]

/-- Path resolution follows the components of the path. -/
theorem path_resolution (sb : Superblock) (wf : sb.Wf) (s : Fs) (hs : s.Sound sb) (cwd : ℕ)
    (hcwd : 0 < s.refs cwd) (path : List Byte) :
    -- `skipelem`
    ((∀ p : List Byte, (skipelem p = none ↔ components p = []) ∧ ∀ name rest,
        skipelem p = some (name, rest) → components p = name :: components rest ∧
          (rest.headD 0 = 0 ↔ components rest = []) ∧ rest.length < p.length) ∧
      elements path.length path = components path ∧
      ∀ par ip, namexPath sb par path.length ip path = namexLoop sb par ip
        (elements path.length path)) ∧
    -- `namei`
    (Ends (s.WalkPanic sb (components path) (startOf cwd path)) (namei sb cwd path) s fun r t =>
      r = resolve (tree sb s.disk) (components path) (startOf cwd path) ∧
      (r = none ↔ ∃ pre name post, components path = pre ++ name :: post ∧
        Blocked (tree sb s.disk) (startOf cwd path) pre name) ∧
      t.refs = s.refs + taken r) ∧
    -- `nameiparent`
    Ends (s.WalkPanic sb (components path) (startOf cwd path))
      (nameiparent sb cwd path) s fun r t =>
      r = resolveParent (tree sb s.disk) (components path) (startOf cwd path) ∧
      (r = none ↔ components path = [] ∨
        (∃ pre name post, post ≠ [] ∧ components path = pre ++ name :: post ∧
          Blocked (tree sb s.disk) (startOf cwd path) pre name) ∨
        ∃ j, resolve (tree sb s.disk) (components path).dropLast (startOf cwd path) = some j ∧
          (tree sb s.disk j).type ≠ tDir) ∧
      t.refs = s.refs + taken (r.map Prod.fst) := by
  refine ⟨⟨fun p => ⟨skipelem_eq_none_iff, fun name rest h => skipelem_eq_some h⟩,
    elements_eq_components le_rfl, fun par ip => ?_⟩, ?_, ?_⟩
  · rw [namexPath_eq sb le_rfl, elements_eq_components le_rfl]
  · refine (namex_walk wf hs hcwd false path).andThen ?_
    rintro r t ⟨rfl, hrefs⟩
    have hmap : (answer false (tree sb s.disk) (components path) (startOf cwd path)).map Prod.fst =
        resolve (tree sb s.disk) (components path) (startOf cwd path) := by
      show ((resolve _ _ _).map _).map _ = _
      rw [Option.map_map]
      exact Option.map_id'
    rw [hmap] at hrefs
    refine .pure ⟨hmap, ?_, ?_⟩
    · rw [hmap]
      exact resolve_eq_none_iff
    · rw [hmap]
      exact hrefs
  · refine (namex_walk wf hs hcwd true path).mono ?_
    rintro r t ⟨rfl, hrefs⟩
    exact ⟨rfl, resolveParent_eq_none_iff, hrefs⟩

/-- The file `x` of the sample disk, with more slashes than there need be. -/
theorem path_resolution_sample :
    ∃ t, namei Mkfs.sb rootIno [slash, slash, 120, slash] (sampleFs 2) = .ok (some 2, t) ∧
      t.refs = (sampleFs 2).refs + taken (some 2) := by
  have hrun :
      (namei Mkfs.sb rootIno [slash, slash, 120, slash] (sampleFs 2)).toOption.map Prod.fst =
      some (some 2) := by
    decide +kernel
  obtain ⟨⟨r, t⟩, hok, hr⟩ := Option.map_eq_some_iff.mp hrun
  obtain rfl : r = some 2 := hr
  have hends := (path_resolution Mkfs.sb (by decide) (sampleFs 2) sound_sample rootIno (by decide)
    [slash, slash, 120, slash]).2.1
  cases hcall : namei Mkfs.sb rootIno [slash, slash, 120, slash] (sampleFs 2) with
  | error e =>
    rw [hcall] at hok
    exact absurd hok (Option.some_ne_none _).symm
  | ok p =>
    rw [hcall] at hok
    obtain rfl : p = (some 2, t) := Option.some.inj hok
    exact ⟨t, rfl, (hends.of_ok hcall).2.2⟩

end Fs

end NeulaCpu.Xv6
