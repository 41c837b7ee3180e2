import NeulaCpu.Lib.Tally
import NeulaCpu.Xv6.BlockConsistency
import NeulaCpu.Xv6.File
import NeulaCpu.Xv6.InodeRefs

/-!
# Accounting of open files

After every sequence of calls, with all their failures, `ref` of an entry of the file table is the
number of descriptors that hold it, the references to an inode are the open files and the current
directories that hold it, and a pipe is freed once, when the last of its ends is closed.

Within a call references are held by local variables, and a descriptor may be filled before or
cleared after the reference is counted. The functions are therefore described with the references
`own` to files and `held` to inodes that are counted beyond what the tables hold; these are negative
while a table holds too much.
-/

namespace NeulaCpu.Xv6

open ByteStore Outcome Tally Function

/-- The inode that an open file refers to. -/
def File.inode (x : File) : Option ℕ :=
  match x.type with
  | .inode | .device => some x.ip
  | .pipe | .none => none

/-- The end of a pipe that an open file is; `true` is the end that is written. -/
def File.pipeEnd (x : File) : Option (ℕ × Bool) :=
  match x.type with
  | .pipe => some (x.pipe, x.writable)
  | .inode | .device | .none => none

/-- Whether an end of the pipe is open. -/
def Pipe.isOpen (pi : Pipe) (writable : Bool) : Bool :=
  if writable then pi.writeopen else pi.readopen

theorem Pipe.isOpen_close (pi : Pipe) (w w' : Bool) :
    (pi.close w).isOpen w' = (pi.isOpen w' && w' != w) := by
  cases w <;> cases w' <;> simp [isOpen, close]

/-- Panics other than those of `filedup` and `fileclose`, and not the use of a pipe that was
freed. -/
def KernelPanic.Other (e : KernelPanic) : Prop := e ≠ .filedup ∧ e ≠ .fileclose ∧ e ≠ .freedPipe

theorem KernelPanic.other_fs (e : FsPanic) : (KernelPanic.fs e).Other := ⟨nofun, nofun, nofun⟩

namespace Kernel

/-- The references to files and inodes. -/
structure FileAcc (own : Fin nFile → ℤ) (held : ℕ → ℤ) (s : Kernel) : Prop where
  ref : ∀ f, (s.file f).ref.toInt = tally s.ofile (some f) + own f
  nonneg : ∀ f, 0 ≤ (s.file f).ref.toInt
  closed : ∀ f, (s.file f).ref = 0 → (s.file f).type = .none
  inode : ∀ i, (s.fs.refs i : ℤ) =
    tally (fun f => (s.file f).inode) (some i) + tally s.cwd (some i) + held i

/-- Every open end of a pipe is one file, and a pipe is freed with its last end. -/
structure PipeAcc (s : Kernel) : Prop where
  ends : ∀ n w, tally (fun f => (s.file f).pipeEnd) (some (n, w)) =
    (s.pipes n).elim 0 fun pi => (pi.isOpen w).toNat
  live : ∀ n pi, s.pipes n = some pi → n < s.npipe ∧ ∃ w, pi.isOpen w = true
  frees : ∀ n, s.frees n = if n < s.npipe ∧ s.pipes n = none then 1 else 0

/-- The accounting within a call. -/
structure Acc (own : Fin nFile → ℤ) (held : ℕ → ℤ) (s : Kernel) : Prop where
  files : s.FileAcc own held
  pipes : s.PipeAcc

/-- The processes are as they were. -/
structure SameProcs (s t : Kernel) : Prop where
  state : t.state = s.state
  ofile : t.ofile = s.ofile
  cwd : t.cwd = s.cwd

theorem SameProcs.refl (s : Kernel) : SameProcs s s := ⟨rfl, rfl, rfl⟩

theorem SameProcs.trans {s t u : Kernel} (h : SameProcs s t) (h' : SameProcs t u) : SameProcs s u :=
  ⟨h'.state.trans h.state, h'.ofile.trans h.ofile, h'.cwd.trans h.cwd⟩

variable {s t : Kernel} {own own' : Fin nFile → ℤ} {held held' : ℕ → ℤ} {f : Fin nFile}
  {p : Fin nProc}
  {fd : Fin nOFile}

/-! ## Changes of the tables -/

theorem PipeAcc.congr (h : s.PipeAcc) (hfile : ∀ f, (t.file f).pipeEnd = (s.file f).pipeEnd)
    (hpipes : t.pipes = s.pipes) (hnpipe : t.npipe = s.npipe) (hfrees : t.frees = s.frees) :
    t.PipeAcc where
  ends n w := by
    simp only [hfile, hpipes]
    exact h.ends n w
  live n pi := by
    rw [hpipes, hnpipe]
    exact h.live n pi
  frees n := by
    rw [hpipes, hnpipe, hfrees]
    exact h.frees n

theorem file_setFile (s : Kernel) (f : Fin nFile) (x : File) (g : Fin nFile) :
    (s.setFile f x).file g = if g = f then x else s.file g := update_apply ..

theorem map_setFile {α : Type} (F : File → α) (s : Kernel) (f : Fin nFile) (x : File) :
    (fun g => F ((s.setFile f x).file g)) = Function.update (fun g => F (s.file g)) f (F x) :=
  comp_update F ..

theorem FileAcc.setFile (h : s.FileAcc own held) (x : File) (hnonneg : 0 ≤ x.ref.toInt)
    (hclosed : x.ref = 0 → x.type = .none)
    (hown : ∀ g, own' g = own g + if g = f then x.ref.toInt - (s.file f).ref.toInt else 0) :
    (s.setFile f x).FileAcc own' (held + unit (s.file f).inode - unit x.inode) where
  ref g := by
    have hg := h.ref g
    rw [hown g, file_setFile]
    by_cases hgf : g = f
    · rw [hgf] at hg ⊢
      rw [if_pos rfl, if_pos rfl]
      show _ = (tally s.ofile (some f) : ℤ) + _
      omega
    · rw [if_neg hgf, if_neg hgf, add_zero]
      exact hg
  nonneg g := by
    rw [file_setFile]
    split_ifs
    · exact hnonneg
    · exact h.nonneg g
  closed g := by
    rw [file_setFile]
    split_ifs
    · exact hclosed
    · exact h.closed g
  inode i := by
    have hi := h.inode i
    rw [map_setFile File.inode, update_some]
    show (s.fs.refs i : ℤ) =
      _ + tally s.cwd (some i) + (held i + unit (s.file f).inode i - unit x.inode i)
    omega

theorem PipeAcc.setFile (h : s.PipeAcc) {x : File} (hx : x.pipeEnd = (s.file f).pipeEnd) :
    (s.setFile f x).PipeAcc := by
  refine h.congr (fun g => ?_) rfl rfl rfl
  rw [file_setFile]
  split_ifs with hgf
  · rw [hgf, hx]
  · rfl

/-- Only `ref` of a file changes. -/
theorem Acc.setRef (h : s.Acc own held) {r : BitVec 32} (hnonneg : 0 ≤ r.toInt)
    (hclosed : r = 0 → (s.file f).type = .none)
    (hown : ∀ g, own' g = own g + if g = f then r.toInt - (s.file f).ref.toInt else 0) :
    (s.setFile f { s.file f with ref := r }).Acc own' held where
  files := by
    have hacc := h.files.setFile { s.file f with ref := r } hnonneg hclosed hown
    have hsame :
        held + unit (s.file f).inode - unit ({ s.file f with ref := r } : File).inode = held :=
      add_sub_cancel_right held _
    rwa [hsame] at hacc
  pipes := h.pipes.setFile rfl

theorem Acc.setOfile (h : s.Acc own held) (p : Fin nProc) (fd : Fin nOFile)
    (x : Option (Fin nFile)) :
    (s.setOfile p fd x).Acc (own + unit (s.ofile (p, fd)) - unit x) held where
  files :=
    { ref := fun f => by
        have hf := h.files.ref f
        have htally := update_some s.ofile (p, fd) x f
        simp only [Kernel.setOfile, Pi.add_apply, Pi.sub_apply]
        omega
      nonneg := h.files.nonneg
      closed := h.files.closed
      inode := h.files.inode }
  pipes := h.pipes.congr (fun _ => rfl) rfl rfl rfl

theorem Acc.setCwd (h : s.Acc own held) (x : Option ℕ) :
    (s.setCwd p x).Acc own (held + unit (s.cwd p) - unit x) where
  files :=
    { ref := h.files.ref
      nonneg := h.files.nonneg
      closed := h.files.closed
      inode := fun i => by
        have hi := h.files.inode i
        have htally := update_some s.cwd p x i
        show (s.fs.refs i : ℤ) = tally (fun f => (s.file f).inode) (some i) +
          tally (Function.update s.cwd p x) (some i) + (held i + unit (s.cwd p) i - unit x i)
        omega }
  pipes := h.pipes.congr (fun _ => rfl) rfl rfl rfl

/-- The file system takes and gives back references. -/
theorem Acc.setFs (h : s.Acc own held) {u : Fs}
    (hu : ∀ i, (u.refs i : ℤ) - s.fs.refs i = held' i - held i) :
    ({ s with fs := u } : Kernel).Acc own held' where
  files :=
    { ref := h.files.ref
      nonneg := h.files.nonneg
      closed := h.files.closed
      inode := fun i => by
        have hi := h.files.inode i
        have := hu i
        show (u.refs i : ℤ) =
          tally (fun f => (s.file f).inode) (some i) + tally s.cwd (some i) + held' i
        omega }
  pipes := h.pipes.congr (fun _ => rfl) rfl rfl rfl

/-! ## The functions on files -/

theorem FileAcc.congr (h : s.FileAcc own held) (hfile : t.file = s.file)
    (hofile : t.ofile = s.ofile) (hcwd : t.cwd = s.cwd) (hfs : t.fs = s.fs) :
    t.FileAcc own held where
  ref := by rw [hfile, hofile]; exact h.ref
  nonneg := by rw [hfile]; exact h.nonneg
  closed := by rw [hfile]; exact h.closed
  inode := by rw [hfile, hcwd, hfs]; exact h.inode

theorem onFs_ends {α : Type} {c : FsM α} {Q : α → Kernel → Prop}
    (h : Ends (fun _ => True) c s.fs fun a u => Q a { s with fs := u }) :
    Ends KernelPanic.Other (onFs c) s Q :=
  .embed (h.mono_error fun e _ => KernelPanic.other_fs e)

/-- A function of the file system that takes a reference to the inode `o a`, if any. -/
theorem onFs_taken {α : Type} {c : FsM α} {o : α → Option ℕ} (h : s.Acc own held)
    (hc : Ends (fun _ => True) c s.fs fun a u => u.refs = s.fs.refs + Fs.taken (o a)) :
    Ends KernelPanic.Other (onFs c) s fun a t => t.Acc own (held + unit (o a)) ∧ SameProcs s t := by
  refine onFs_ends (hc.mono fun a u hu => ⟨h.setFs fun i => ?_, rfl, rfl, rfl⟩)
  have hi : (u.refs i : ℤ) = s.fs.refs i + Fs.taken (o a) i := by
    rw [hu, Pi.add_apply, Nat.cast_add]
  have ho : (Fs.taken (o a) i : ℤ) = unit (o a) i := by
    cases o a with
    | none => rfl
    | some j =>
      rw [Fs.taken, unit_some, Pi.single_apply]
      simp only [eq_comm, Nat.cast_ite, Nat.cast_one, Nat.cast_zero]
  rw [hi, ho, Pi.add_apply]
  omega

/-- A function of the file system that leaves the references. -/
theorem onFs_kept {α : Type} {c : FsM α} (h : s.Acc own held)
    (hc : Ends (fun _ => True) c s.fs fun _ u => u.refs = s.fs.refs) :
    Ends KernelPanic.Other (onFs c) s fun _ t => t.Acc own held ∧ SameProcs s t := by
  refine onFs_ends (hc.mono fun _ u hu => ⟨h.setFs fun i => ?_, rfl, rfl, rfl⟩)
  rw [hu]
  omega

variable (sb : Superblock)

theorem iput_acc {i : ℕ} (h : s.Acc own held) (hpos : 0 < s.fs.refs i) :
    Ends KernelPanic.Other (onFs (Fs.iput sb i)) s fun _ t => t.Acc own (held - unit (some i)) ∧
      SameProcs s t := by
  have hr : s.fs.refs = Function.update s.fs.refs i (s.fs.refs i - 1) + Pi.single i 1 := by
    funext j
    by_cases hj : j = i
    · subst hj
      rw [Pi.add_apply, update_self, Pi.single_eq_same]
      omega
    · rw [Pi.add_apply, update_of_ne hj, Pi.single_eq_of_ne hj, add_zero]
  refine onFs_ends ((Fs.iput_refs sb hr).mono fun _ u hu => ⟨h.setFs fun j => ?_, rfl, rfl, rfl⟩)
  rw [hu, Pi.sub_apply, unit_some]
  by_cases hj : j = i
  · subst hj
    rw [update_self, if_pos rfl]
    omega
  · rw [update_of_ne hj, if_neg (Ne.symm hj)]
    omega

theorem filealloc_spec (h : s.Acc own held) : Ends KernelPanic.Other filealloc s fun o t =>
    o = none ∧ t = s ∨ ∃ f, o = some f ∧ (s.file f).ref = 0 ∧ t = s.setFile f
      { s.file f with ref := 1 } ∧ t.Acc (own + unit (some f)) held := by
  refine .bind (.get ?_)
  cases hfind : (List.finRange nFile).find? fun f => (s.file f).ref == 0 with
  | none => exact .pure (.inl ⟨rfl, rfl⟩)
  | some f =>
    have h0 : (s.file f).ref = 0 := by simpa using List.find?_some hfind
    refine .bind (.set (.pure
      (.inr ⟨f, rfl, h0, rfl, h.setRef (by decide) (fun h1 => absurd h1 (by decide)) ?_⟩)))
    intro g
    simp only [Pi.add_apply, unit_some, h0, eq_comm]
    rfl

theorem toInt_sub_one {x : BitVec 32} (h : 1 ≤ x.toInt) : (x - 1).toInt = x.toInt - 1 := by
  have hlt := BitVec.toInt_lt (x := x)
  rw [BitVec.toInt_sub, show (1 : BitVec 32).toInt = 1 from rfl, Int.bmod_eq_of_le] <;> omega

theorem toInt_add_one {x : BitVec 32} (h0 : 0 ≤ x.toInt) (h : x.toInt < 2 ^ 31 - 1) :
    (x + 1).toInt = x.toInt + 1 := by
  rw [BitVec.toInt_add, show (1 : BitVec 32).toInt = 1 from rfl, Int.bmod_eq_of_le] <;> omega

/-- There are fewer descriptors than `ref` can count. -/
theorem FileAcc.ref_le (h : s.FileAcc own held) (f : Fin nFile) :
    (s.file f).ref.toInt ≤ 1024 + own f := by
  have hle := Tally.le_card s.ofile (some f)
  have hcard : Fintype.card (Fin nProc × Fin nOFile) = 1024 := by
    rw [Fintype.card_prod, Fintype.card_fin, Fintype.card_fin]
    rfl
  have := h.ref f
  omega

theorem filedup_spec (h : s.Acc own held) (hpos : 1 ≤ (s.file f).ref.toInt) (hown : own f ≤ 1) :
    Ends KernelPanic.Other (filedup f) s fun _ t => t.Acc (own + unit (some f)) held ∧
      SameProcs s t := by
  have hle := h.files.ref_le f
  have hsucc := toInt_add_one (h.files.nonneg f) (by omega)
  refine .bind (.get ?_)
  rw [if_neg (by omega)]
  refine .set ⟨h.setRef (by omega) (fun h0 => ?_) fun g => ?_, rfl, rfl, rfl⟩
  · rw [h0, show (0 : BitVec 32).toInt = 0 from rfl] at hsucc
    omega
  · rw [hsucc, Pi.add_apply, unit_some]
    simp only [eq_comm (a := f)]
    split_ifs <;> omega

/-- The end of a pipe that a file is is open. -/
theorem PipeAcc.isOpen (h : s.PipeAcc) {n : ℕ} {w : Bool} (hf : (s.file f).pipeEnd = some (n, w)) :
    ∃ pi, s.pipes n = some pi ∧ pi.isOpen w = true := by
  have hpos : 0 < tally (fun f => (s.file f).pipeEnd) (some (n, w)) := Tally.pos_iff.mpr ⟨f, hf⟩
  rw [h.ends n w] at hpos
  cases hp : s.pipes n with
  | none =>
    rw [hp, Option.elim_none] at hpos
    exact absurd hpos (lt_irrefl 0)
  | some pi =>
    rw [hp, Option.elim_some] at hpos
    refine ⟨pi, rfl, ?_⟩
    cases hw : pi.isOpen w with
    | true => rfl
    | false =>
      rw [hw] at hpos
      exact absurd hpos (lt_irrefl 0)

/-- The open ends after a file of the pipe `n` is closed. -/
theorem PipeAcc.ends_close (h : s.PipeAcc) {n : ℕ} {w : Bool} {pi : Pipe}
    (hf : (s.file f).pipeEnd = some (n, w)) (hpi : s.pipes n = some pi) (hw : pi.isOpen w = true)
    {x : File} (hx : x.pipeEnd = none) (n' : ℕ) (w' : Bool) :
    tally (fun g => ((s.setFile f x).file g).pipeEnd) (some (n', w')) =
      (Function.update s.pipes n (some (pi.close w)) n').elim 0 fun pi => (pi.isOpen w').toNat := by
  have hup := Tally.update (fun g => (s.file g).pipeEnd) f none (some (n', w'))
  rw [map_setFile File.pipeEnd, hx]
  rw [h.ends n' w', hf] at hup
  by_cases hn : n' = n
  · subst hn
    rw [update_self, Option.elim_some, Pipe.isOpen_close]
    rw [hpi, Option.elim_some] at hup
    by_cases hww : w' = w
    · subst hww
      simp only [hw, if_true, reduceCtorEq, if_false, Bool.toNat_true] at hup
      simp only [bne_self_eq_false, Bool.and_false, Bool.toNat_false]
      omega
    · have hne : (some (n', w) : Option (ℕ × Bool)) ≠ some (n', w') := by simp [Ne.symm hww]
      simp only [if_neg hne, reduceCtorEq, if_false, add_zero] at hup
      rw [hup, bne_iff_ne.mpr hww, Bool.and_true]
  · have hne : (some (n, w) : Option (ℕ × Bool)) ≠ some (n', w') := by simp [Ne.symm hn]
    simp only [if_neg hne, reduceCtorEq, if_false, add_zero] at hup
    rw [hup, update_of_ne hn]

/-- A file of the pipe is closed, and `pipeclose` closes its end. -/
theorem pipeclose_spec (h : s.PipeAcc) {n : ℕ} {w : Bool} (hf : (s.file f).pipeEnd = some (n, w))
    {x : File} (hx : x.pipeEnd = none) :
    Ends KernelPanic.Other (pipeclose n w) (s.setFile f x) fun _ t =>
      t.PipeAcc ∧ t.file = (s.setFile f x).file ∧ t.fs = s.fs ∧ SameProcs s t := by
  obtain ⟨pi, hpi, hw⟩ := h.isOpen hf
  have hends := h.ends_close hf hpi hw hx
  have hlt : n < s.npipe := (h.live n pi hpi).1
  refine .bind (.get ?_)
  simp only [show (s.setFile f x).pipes n = some pi from hpi]
  refine .bind (.set ?_)
  split_ifs with hboth
  · -- the other end was closed before, so the page is freed
    have hshut (w' : Bool) : (pi.close w).isOpen w' = false := by
      cases w' <;> simp [Pipe.isOpen, hboth]
    refine .modify ⟨⟨fun n' w' => ?_, fun n' pi' h' => ?_, fun n' => ?_⟩, rfl, rfl, rfl, rfl, rfl⟩
    · show tally (fun g => ((s.setFile f x).file g).pipeEnd) (some (n', w')) =
        (Function.update (Function.update s.pipes n (some (pi.close w))) n none n').elim 0 _
      rw [hends n' w', update_idem]
      by_cases hn : n' = n
      · subst hn
        rw [update_self, update_self, Option.elim_some, hshut]
        rfl
      · rw [update_of_ne hn, update_of_ne hn]
    · have hn : n' ≠ n := by
        rintro rfl
        simp [Kernel.setPipe] at h'
      refine h.live n' pi' ?_
      simpa [Kernel.setPipe, Kernel.setFile, update_of_ne hn] using h'
    · have hfrees := h.frees n'
      by_cases hn : n' = n
      · subst hn
        rw [hpi, if_neg (by simp)] at hfrees
        simp [Kernel.setPipe, Kernel.setFile, hlt, hfrees]
      · simpa [Kernel.setPipe, Kernel.setFile, update_of_ne hn] using hfrees
  · refine .pure ⟨⟨hends, fun n' pi' h' => ?_, fun n' => ?_⟩, rfl, rfl, rfl, rfl, rfl⟩
    · by_cases hn : n' = n
      · subst hn
        obtain rfl : pi.close w = pi' := by simpa [Kernel.setPipe] using h'
        refine ⟨hlt, ?_⟩
        by_contra hnone
        rw [not_exists] at hnone
        exact hboth
          ⟨by simpa [Pipe.isOpen] using hnone false, by simpa [Pipe.isOpen] using hnone true⟩
      · refine h.live n' pi' ?_
        simpa [Kernel.setPipe, Kernel.setFile, update_of_ne hn] using h'
    · have hfrees := h.frees n'
      by_cases hn : n' = n
      · subst hn
        rw [hpi, if_neg (by simp)] at hfrees
        simp [Kernel.setPipe, Kernel.setFile, hfrees]
      · simpa [Kernel.setPipe, Kernel.setFile, update_of_ne hn] using hfrees

/-- `fileclose` gives up one reference. -/
theorem fileclose_spec (h : s.Acc own held) (hpos : 1 ≤ (s.file f).ref.toInt)
    (hheld : ∀ i, 0 ≤ held i) :
    Ends KernelPanic.Other (fileclose sb f) s fun _ t =>
      t.Acc (own - unit (some f)) held ∧ SameProcs s t := by
  have hpred := toInt_sub_one hpos
  have hown (g : Fin nFile) (d : ℤ) (hd : d = -1) :
      (own - unit (some f)) g = own g + if g = f then d else 0 := by
    rw [Pi.sub_apply, unit_some, hd]
    simp only [eq_comm (a := f)]
    split_ifs <;> omega
  refine .bind (.get ?_)
  simp only
  rw [if_neg (by omega)]
  split_ifs with hmore
  · refine .set ⟨h.setRef (by omega) (fun h0 => ?_) fun g => hown g _ (by omega), rfl, rfl, rfl⟩
    rw [h0, show (0 : BitVec 32).toInt = 0 from rfl] at hmore
    exact absurd hmore (lt_irrefl 0)
  -- the last reference
  have hone : (s.file f).ref.toInt = 1 := by omega
  refine .bind (.set ?_)
  have hfiles : (s.setFile f { s.file f with ref := 0, type := .none }).FileAcc
      (own - unit (some f)) (held + unit (s.file f).inode - unit none) :=
    h.files.setFile { s.file f with ref := 0, type := .none } le_rfl (fun _ => rfl) fun g =>
      hown g _ (by rw [hone]; rfl)
  rw [unit_none, sub_zero] at hfiles
  have hput (hinode : (s.file f).inode = some (s.file f).ip) (hend : (s.file f).pipeEnd = none) :
      Ends KernelPanic.Other (onFs (Fs.iput sb (s.file f).ip))
        (s.setFile f { s.file f with ref := 0, type := .none }) fun _ t =>
          t.Acc (own - unit (some f)) held ∧ SameProcs s t := by
    rw [hinode] at hfiles
    have hrefs := hfiles.inode (s.file f).ip
    have hip := hheld (s.file f).ip
    rw [Pi.add_apply, unit_some, if_pos rfl] at hrefs
    refine (iput_acc sb ⟨hfiles, h.pipes.setFile hend.symm⟩ (by omega)).mono
      fun _ t ⟨hacc, hsame⟩ => ⟨?_, ?_⟩
    · rwa [add_sub_cancel_right] at hacc
    · exact ⟨hsame.state, hsame.ofile, hsame.cwd⟩
  cases htype : (s.file f).type with
  | none =>
    have hinode : (s.file f).inode = none := by rw [File.inode, htype]
    have hend : (s.file f).pipeEnd = none := by rw [File.pipeEnd, htype]
    rw [hinode, unit_none, add_zero] at hfiles
    exact .pure ⟨⟨hfiles, h.pipes.setFile hend.symm⟩, rfl, rfl, rfl⟩
  | pipe =>
    have hinode : (s.file f).inode = none := by rw [File.inode, htype]
    have hend : (s.file f).pipeEnd = some ((s.file f).pipe, (s.file f).writable) := by
      rw [File.pipeEnd, htype]
    rw [hinode, unit_none, add_zero] at hfiles
    refine (pipeclose_spec h.pipes hend rfl).mono fun _ t ⟨hpipes, hfile, hfs, hsame⟩ =>
      ⟨⟨?_, hpipes⟩, hsame⟩
    exact hfiles.congr hfile hsame.ofile hsame.cwd hfs
  | inode => exact hput (by rw [File.inode, htype]) (by rw [File.pipeEnd, htype])
  | device => exact hput (by rw [File.inode, htype]) (by rw [File.pipeEnd, htype])

/-- A reference that the caller holds is counted. -/
theorem FileAcc.pos_of_own (h : s.FileAcc own held) (hown : 1 ≤ own f) :
    1 ≤ (s.file f).ref.toInt := by
  have := h.ref f
  omega

theorem FileAcc.pos_of_slot (h : s.FileAcc own held) (hslot : s.ofile (p, fd) = some f)
    (hown : 0 ≤ own f) : 1 ≤ (s.file f).ref.toInt := by
  have := h.ref f
  have hpos : 0 < tally s.ofile (some f) := Tally.pos_iff.mpr ⟨_, hslot⟩
  omega

theorem FileAcc.refs_pos {i : ℕ} (h : s.FileAcc own held) (hi : 1 ≤ held i) : 0 < s.fs.refs i := by
  have := h.inode i
  omega

theorem pipeInit_pipes (h : s.PipeAcc) {f0 f1 : Fin nFile} (hne : f1 ≠ f0)
    (h0 : (s.file f0).pipeEnd = none) (h1 : (s.file f1).pipeEnd = none) (junk : ℕ → Byte) :
    (s.pipeInit f0 f1 junk).PipeAcc := by
  have hnew : s.pipes s.npipe = none := by
    by_contra hsome
    obtain ⟨pi, hpi⟩ := Option.ne_none_iff_exists'.mp hsome
    exact absurd (h.live _ pi hpi).1 (lt_irrefl _)
  have hends : (fun g => ((s.pipeInit f0 f1 junk).file g).pipeEnd) =
      Function.update (Function.update (fun g => (s.file g).pipeEnd) f0 (some (s.npipe, false))) f1
        (some (s.npipe, true)) := by
    rw [pipeInit, map_setFile File.pipeEnd, map_setFile File.pipeEnd]
    rfl
  have hpipes :
    (s.pipeInit f0 f1 junk).pipes = Function.update s.pipes s.npipe (some (.alloc junk)) := rfl
  have hnpipe : (s.pipeInit f0 f1 junk).npipe = s.npipe + 1 := rfl
  refine ⟨fun n w => ?_, fun n pi hpi => ?_, fun n => ?_⟩
  · have htally :=
      Tally.update (fun g => (s.file g).pipeEnd) f0 (some (s.npipe, false)) (some (n, w))
    have htally' :=
      Tally.update (Function.update (fun g => (s.file g).pipeEnd) f0 (some (s.npipe, false))) f1
        (some (s.npipe, true)) (some (n, w))
    rw [h0, h.ends n w] at htally
    rw [update_of_ne hne, h1] at htally'
    rw [hends, hpipes]
    by_cases hn : n = s.npipe
    · subst hn
      rw [hnew, Option.elim_none] at htally
      rw [update_self, Option.elim_some]
      have hopen : (Pipe.alloc junk).isOpen w = true := by cases w <;> rfl
      rw [hopen]
      cases w <;> simp at htally htally' ⊢ <;> omega
    · rw [update_of_ne hn]
      simp [Ne.symm hn] at htally htally' ⊢
      omega
  · rw [hpipes] at hpi
    rw [hnpipe]
    by_cases hn : n = s.npipe
    · subst hn
      rw [update_self, Option.some.injEq] at hpi
      exact ⟨Nat.lt_succ_self _, true, by rw [← hpi]; rfl⟩
    · rw [update_of_ne hn] at hpi
      obtain ⟨hlt, hw⟩ := h.live n pi hpi
      exact ⟨Nat.lt_succ_of_lt hlt, hw⟩
  · have hfrees := h.frees n
    rw [hpipes, hnpipe]
    show s.frees n = _
    by_cases hn : n = s.npipe
    · subst hn
      rw [hfrees, if_neg (by simp), if_neg (by simp)]
    · rw [hfrees, update_of_ne hn]
      have hlt : n < s.npipe + 1 ↔ n < s.npipe := by omega
      simp only [hlt]

/-- A file that was just allocated. -/
structure Blank (s : Kernel) (f : Fin nFile) : Prop where
  ref : (s.file f).ref = 1
  type : (s.file f).type = .none

theorem Blank.inode (h : s.Blank f) : (s.file f).inode = none := by rw [File.inode, h.type]

theorem Blank.pipeEnd (h : s.Blank f) : (s.file f).pipeEnd = none := by rw [File.pipeEnd, h.type]

/-- A blank file is filled in. -/
theorem FileAcc.fill (h : s.FileAcc own held) (hf : s.Blank f) {x : File}
    (hx : x.ref = (s.file f).ref) : (s.setFile f x).FileAcc own (held - unit x.inode) := by
  have hacc : (s.setFile f x).FileAcc own (held + unit (s.file f).inode - unit x.inode) :=
    h.setFile x (by rw [hx, hf.ref]; decide)
      (fun h0 => absurd (h0.symm.trans (hx.trans hf.ref)) (by decide)) fun g => by
        rw [hx, sub_self, ite_self, add_zero]
  rwa [hf.inode, unit_none, add_zero] at hacc

theorem pipeFile_inode (x : File) (n : ℕ) (w : Bool) : (pipeFile x n w).inode = none := rfl

theorem pipeInit_acc (h : s.Acc own held) {f0 f1 : Fin nFile} (hne : f1 ≠ f0) (h0 : s.Blank f0)
    (h1 : s.Blank f1) (junk : ℕ → Byte) : (s.pipeInit f0 f1 junk).Acc own held where
  files := by
    have hfiles : (s.addPipe junk).FileAcc own held := h.files.congr rfl rfl rfl rfl
    have h0' :=
      hfiles.fill (f := f0) ⟨h0.ref, h0.type⟩ (x := pipeFile (s.file f0) s.npipe false) rfl
    have hsame : ((s.addPipe junk).setFile f0 (pipeFile (s.file f0) s.npipe false)).file f1 =
        s.file f1 :=
      update_of_ne hne ..
    have h1' := h0'.fill (f := f1) ⟨by rw [hsame, h1.ref], by rw [hsame, h1.type]⟩
      (x := pipeFile (s.file f1) s.npipe true) (by rw [hsame]; rfl)
    rw [pipeInit, hsame]
    rwa [pipeFile_inode, pipeFile_inode, unit_none, sub_zero, sub_zero] at h1'
  pipes := pipeInit_pipes h.pipes hne h0.pipeEnd h1.pipeEnd junk

/-- The references to both files of a pipe are given back. -/
theorem closeBoth_spec {α : Type} (sb : Superblock) {rf wf : Fin nFile} (a : α)
    (h : s.Acc (unit (some rf) + unit (some wf)) 0) :
    Ends KernelPanic.Other (do
      fileclose sb rf
      fileclose sb wf
      pure a) s fun b t => b = a ∧ t.Acc 0 0 ∧ SameProcs s t := by
  have hpos := h.files.pos_of_own (f := rf) (by
    have := unit_nonneg (some wf) rf
    rw [Pi.add_apply, unit_self]
    omega)
  refine (fileclose_spec sb h hpos fun _ => le_rfl).andThen fun _ t ⟨ht, hst⟩ => ?_
  rw [add_sub_cancel_left] at ht
  have hpos' := ht.files.pos_of_own (f := wf) (unit_self ..).ge
  refine (fileclose_spec sb ht hpos' fun _ => le_rfl).andThen fun _ u ⟨hu, htu⟩ =>
    .pure ⟨rfl, ?_, hst.trans htu⟩
  rwa [sub_self] at hu

/-- `pipealloc` returns two references, or none. -/
theorem pipealloc_spec (kalloc : Option (ℕ → Byte)) (h : s.Acc 0 0) :
    Ends KernelPanic.Other (pipealloc sb kalloc) s fun o t => SameProcs s t ∧
      t.Acc (o.elim 0 fun (f0, f1) => unit (some f0) + unit (some f1)) 0 := by
  refine (filealloc_spec h).andThen ?_
  rintro _ t (⟨rfl, rfl⟩ | ⟨f0, rfl, h0, ht, hacc⟩)
  · exact .pure ⟨.refl _, h⟩
  have hst : SameProcs s t := by rw [ht]; exact ⟨rfl, rfl, rfl⟩
  have hblank : t.Blank f0 := by
    constructor <;> simp only [ht, Kernel.setFile, update_self]
    exact h.files.closed f0 h0
  rw [zero_add] at hacc
  refine (filealloc_spec hacc).andThen ?_
  rintro _ u (⟨rfl, rfl⟩ | ⟨f1, rfl, h1, hu, hacc'⟩)
  · have hpos := hacc.files.pos_of_own (f := f0) (unit_self ..).ge
    refine (fileclose_spec sb hacc hpos fun _ => le_rfl).andThen fun _ v ⟨hv, hsame⟩ =>
      .pure ⟨hst.trans hsame, ?_⟩
    rwa [sub_self] at hv
  have hne : f1 ≠ f0 := by
    rintro rfl
    rw [hblank.ref] at h1
    exact absurd h1 (by decide)
  have htu : SameProcs t u := by rw [hu]; exact ⟨rfl, rfl, rfl⟩
  cases kalloc with
  | none =>
    refine (closeBoth_spec sb none hacc').mono fun _ v ⟨ho, hv, hsame⟩ =>
      ⟨(hst.trans htu).trans hsame, ?_⟩
    rwa [ho]
  | some junk =>
    refine .bind (.modify (.pure ⟨?_, pipeInit_acc hacc' hne ?_ ?_ junk⟩))
    · exact ⟨htu.state.trans hst.state, htu.ofile.trans hst.ofile, htu.cwd.trans hst.cwd⟩
    · constructor <;> simp only [hu, Kernel.setFile, update_of_ne (Ne.symm hne)]
      · exact hblank.ref
      · exact hblank.type
    · constructor <;> simp only [hu, Kernel.setFile, update_self]
      exact hacc.files.closed f1 h1

theorem fdalloc_spec (h : s.Acc own held) :
    Ends KernelPanic.Other (fdalloc p f) s fun o t => o = none ∧ t = s ∨
      ∃ fd, o = some fd ∧ s.ofile (p, fd) = none ∧ t = s.setOfile p fd (some f) ∧
        t.Acc (own - unit (some f)) held := by
  refine .bind (.get ?_)
  cases hfind : (List.finRange nOFile).find? fun fd => (s.ofile (p, fd)).isNone with
  | none => exact .pure (.inl ⟨rfl, rfl⟩)
  | some fd =>
    have hnone : s.ofile (p, fd) = none := by simpa using List.find?_some hfind
    refine .bind (.set (.pure (.inr ⟨fd, rfl, hnone, rfl, ?_⟩)))
    have hacc := h.setOfile p fd (some f)
    rwa [hnone, unit_none, add_zero] at hacc

/-- A call of process `p` has changed only its own descriptors and current directory. -/
structure OnlyProc (p : Fin nProc) (s t : Kernel) : Prop where
  state : t.state = s.state
  ofile : ∀ q, q ≠ p → ∀ fd, t.ofile (q, fd) = s.ofile (q, fd)
  cwd : ∀ q, q ≠ p → t.cwd q = s.cwd q

theorem SameProcs.only (h : SameProcs s t) (p : Fin nProc) : OnlyProc p s t :=
  ⟨h.state, fun _ _ _ => by rw [h.ofile], fun _ _ => by rw [h.cwd]⟩

theorem OnlyProc.trans {u : Kernel} (h : OnlyProc p s t) (h' : OnlyProc p t u) : OnlyProc p s u :=
  ⟨h'.state.trans h.state, fun q hq fd => (h'.ofile q hq fd).trans (h.ofile q hq fd),
    fun q hq => (h'.cwd q hq).trans (h.cwd q hq)⟩

theorem OnlyProc.setOfile (s : Kernel) (p : Fin nProc) (fd : Fin nOFile) (x : Option (Fin nFile)) :
    OnlyProc p s (s.setOfile p fd x) :=
  ⟨rfl, fun _ hq _ => update_of_ne (fun h => hq (congrArg Prod.fst h)) .., fun _ _ => rfl⟩

/-- What a call of process `p` leaves. -/
structure CallOk (p : Fin nProc) (s t : Kernel) : Prop where
  acc : t.Acc 0 0
  only : OnlyProc p s t

theorem CallOk.refl (h : s.Acc 0 0) : CallOk p s s := ⟨h, (SameProcs.refl s).only p⟩

theorem setOfile_of_ne {x : Fin nOFile} (h : x ≠ fd) (o : Option (Fin nFile)) :
    (s.setOfile p fd o).ofile (p, x) = s.ofile (p, x) :=
  update_of_ne (by simp [h]) ..

/-! ## The calls -/

theorem argfd_some {x : BitVec 32} (h : s.argfd p x = some (fd, f)) : s.ofile (p, fd) = some f := by
  rw [argfd] at h
  split_ifs at h with hlt
  obtain ⟨g, hg, heq⟩ := Option.map_eq_some_iff.mp h
  obtain ⟨rfl, rfl⟩ := Prod.mk.inj heq
  exact hg

theorem sysDup_spec (h : s.Acc 0 0) (x : BitVec 32) :
    Ends KernelPanic.Other (sysDup p x) s fun _ => CallOk p s := by
  refine .bind (.get ?_)
  cases hx : s.argfd p x with
  | none => exact .pure (.refl h)
  | some y =>
    obtain ⟨fd, f⟩ := y
    have hpos := h.files.pos_of_slot (argfd_some hx) le_rfl
    refine (fdalloc_spec h).andThen ?_
    rintro _ t (⟨rfl, rfl⟩ | ⟨fd', rfl, -, rfl, hacc⟩)
    · exact .pure (.refl h)
    · have hown : ((0 : Fin nFile → ℤ) - unit (some f)) f ≤ 1 := by
        rw [Pi.sub_apply, unit_some, if_pos rfl, Pi.zero_apply]
        decide
      refine (filedup_spec hacc hpos hown).andThen fun _ u ⟨hu, hsame⟩ => .pure ⟨?_, ?_⟩
      · rwa [sub_add_cancel] at hu
      · exact (OnlyProc.setOfile s p fd' _).trans (hsame.only p)

theorem sysClose_spec (h : s.Acc 0 0) (x : BitVec 32) :
    Ends KernelPanic.Other (sysClose sb p x) s fun _ => CallOk p s := by
  refine .bind (.get ?_)
  cases hx : s.argfd p x with
  | none => exact .pure (.refl h)
  | some y =>
    obtain ⟨fd, f⟩ := y
    have hslot := argfd_some hx
    have hacc := h.setOfile p fd none
    rw [hslot, unit_none, zero_add, sub_zero] at hacc
    have hpos := hacc.files.pos_of_own (f := f) (unit_self ..).ge
    refine .bind (.set ((fileclose_spec sb hacc hpos fun _ => le_rfl).andThen fun _ t ⟨ht, hsame⟩ =>
      .pure ⟨?_, ?_⟩))
    · rwa [sub_self] at ht
    · exact (OnlyProc.setOfile s p fd none).trans (hsame.only p)

theorem myCwd_ends {Q : ℕ → Kernel → Prop} (h : ∀ ip, s.cwd p = some ip → Q ip s) :
    Ends KernelPanic.Other (myCwd p) s Q := by
  refine .bind (.get ?_)
  cases hcwd : s.cwd p with
  | none => exact .throw ⟨nofun, nofun, nofun⟩
  | some ip => exact .pure (h ip hcwd)

theorem openInode_refs (cwd : ℕ) (path : List Byte) (omode : BitVec 32) {u : Fs} :
    Ends (fun _ => True) (openInode sb cwd path omode) u fun o v =>
      v.refs = u.refs + Fs.taken o := by
  unfold openInode
  split_ifs
  · exact Fs.create_refs sb cwd path _ _ _
  · refine (Fs.namei_refs sb cwd path).andThen fun o v hv => ?_
    cases o with
    | none => exact .pure hv
    | some ip =>
      refine (Fs.keepsRefs_ilock sb ip).andThen hv fun _ w hw => (Fs.keepsRefs_copy ip).andThen hw
        fun c x hx => ?_
      split_ifs
      · exact (Fs.iput_refs sb hx).andThen fun _ _ hy => .pure (hy.trans (add_zero _).symm)
      · exact .pure hx

/-- The inode is given back. -/
theorem iput_loose {i : ℕ} (h : s.Acc own (unit (some i))) :
    Ends KernelPanic.Other (onFs (Fs.iput sb i)) s fun _ t => t.Acc own 0 ∧ SameProcs s t := by
  have hpos := h.files.refs_pos (i := i) (unit_self ..).ge
  refine (iput_acc sb h hpos).mono fun _ t ⟨ht, hsame⟩ => ⟨?_, hsame⟩
  rwa [sub_self] at ht

theorem openedFile_inode (x : File) (ip : ℕ) (c : Dinode) (omode : BitVec 32) :
    (openedFile x ip c omode).inode = some ip := by
  rw [openedFile]
  split_ifs <;> rfl

theorem openedFile_pipeEnd (x : File) (ip : ℕ) (c : Dinode) (omode : BitVec 32) :
    (openedFile x ip c omode).pipeEnd = none := by
  rw [openedFile]
  split_ifs <;> rfl

theorem openedFile_ref (x : File) (ip : ℕ) (c : Dinode) (omode : BitVec 32) :
    (openedFile x ip c omode).ref = x.ref := by
  rw [openedFile]
  split_ifs <;> rfl

/-- The reference to the inode goes to the file, or is given back. -/
theorem openFile_spec {ip : ℕ} (omode : BitVec 32) (h : s.Acc 0 (unit (some ip))) :
    Ends KernelPanic.Other (openFile sb p ip omode) s fun _ => CallOk p s := by
  refine (onFs_kept h (Fs.keepsRefs_copy ip s.fs)).andThen fun c t ⟨ht, hst⟩ => ?_
  by_cases hdev : c.type = tDevice ∧ (c.major.toInt < 0 ∨ nDev ≤ c.major.toInt)
  · rw [if_pos hdev]
    exact (iput_loose sb ht).andThen fun _ u ⟨hu, hsame⟩ => .pure ⟨hu, (hst.trans hsame).only p⟩
  rw [if_neg hdev]
  refine (filealloc_spec ht).andThen ?_
  rintro _ u (⟨rfl, rfl⟩ | ⟨f, rfl, h0, hu, hacc⟩)
  · exact (iput_loose sb ht).andThen fun _ u ⟨hu, hsame⟩ => .pure ⟨hu, (hst.trans hsame).only p⟩
  have hsu : SameProcs s u := by rw [hu]; exact ⟨hst.state, hst.ofile, hst.cwd⟩
  have hblank : u.Blank f := by
    constructor <;> simp only [hu, Kernel.setFile, update_self]
    exact ht.files.closed f h0
  rw [zero_add] at hacc
  refine (fdalloc_spec hacc).andThen ?_
  rintro _ v (⟨rfl, rfl⟩ | ⟨fd, rfl, -, rfl, hacc'⟩)
  · have hpos := hacc.files.pos_of_own (f := f) (unit_self ..).ge
    refine (fileclose_spec sb hacc hpos (unit_nonneg _)).andThen fun _ v ⟨hv, hsame⟩ => ?_
    rw [sub_self] at hv
    exact (iput_loose sb hv).andThen fun _ w ⟨hw, hsame'⟩ =>
      .pure ⟨hw, ((hsu.trans hsame).trans hsame').only p⟩
  rw [sub_self] at hacc'
  have hfill :
      ((u.setOfile p fd (some f)).setFile f (openedFile (u.file f) ip c omode)).Acc 0 0 := by
    constructor
    · have hfiles := hacc'.files.fill (f := f) ⟨hblank.ref, hblank.type⟩
        (openedFile_ref (u.file f) ip c omode)
      rwa [openedFile_inode, sub_self] at hfiles
    · exact hacc'.pipes.setFile ((openedFile_pipeEnd ..).trans hblank.pipeEnd.symm)
  have honly : OnlyProc p s
      ((u.setOfile p fd (some f)).setFile f (openedFile (u.file f) ip c omode)) := by
    obtain ⟨h1, h2, h3⟩ := (hsu.only p).trans (OnlyProc.setOfile u p fd (some f))
    exact ⟨h1, h2, h3⟩
  refine .bind (.modify ?_)
  split_ifs
  · exact (onFs_kept hfill (Fs.keepsRefs_itrunc sb ip _)).andThen fun _ w ⟨hw, hsame⟩ =>
      .pure ⟨hw, honly.trans (hsame.only p)⟩
  · exact .pure ⟨hfill, honly⟩

theorem sysOpen_spec (path : Option (List Byte)) (omode : BitVec 32)
    (h : s.Acc 0 0) : Ends KernelPanic.Other (sysOpen sb p path omode) s fun _ => CallOk p s := by
  cases path with
  | none => exact .pure (.refl h)
  | some path =>
    refine .bind (myCwd_ends fun cwd _ =>
      (onFs_taken h (openInode_refs sb cwd path omode)).andThen ?_)
    rintro (_ | ip) t ⟨ht, hst⟩
    · rw [unit_none, add_zero] at ht
      exact .pure ⟨ht, hst.only p⟩
    · rw [zero_add] at ht
      exact (openFile_spec sb omode ht).mono fun _ u ⟨hu, honly⟩ => ⟨hu, (hst.only p).trans honly⟩

/-- `sys_pipe`, with both failures of `copyout`. -/
theorem sysPipe_spec (kalloc : Option (ℕ → Byte)) (copyout₀ copyout₁ : Bool) (h : s.Acc 0 0) :
    Ends KernelPanic.Other (sysPipe sb p kalloc copyout₀ copyout₁) s fun _ => CallOk p s := by
  refine (pipealloc_spec sb kalloc h).andThen ?_
  rintro (_ | ⟨rf, wf⟩) t ⟨hst, ht⟩
  · exact .pure ⟨ht, hst.only p⟩
  simp only [Option.elim_some] at ht
  refine (fdalloc_spec ht).andThen ?_
  rintro _ u (⟨rfl, rfl⟩ | ⟨fd0, rfl, h0, rfl, hu⟩)
  · exact (closeBoth_spec sb _ ht).mono fun _ v ⟨_, hv, hsame⟩ => ⟨hv, (hst.trans hsame).only p⟩
  have honly0 := (hst.only p).trans (OnlyProc.setOfile t p fd0 (some rf))
  refine (fdalloc_spec hu).andThen ?_
  rintro _ v (⟨rfl, rfl⟩ | ⟨fd1, rfl, h1, rfl, hv⟩)
  · -- the first descriptor is cleared
    have hback := hu.setOfile p fd0 none
    have hslot : (t.setOfile p fd0 (some rf)).ofile (p, fd0) = some rf := update_self ..
    rw [hslot, unit_none, sub_zero, sub_add_cancel] at hback
    refine .bind (.modify ((closeBoth_spec sb _ hback).mono fun _ w ⟨_, hw, hsame⟩ => ⟨hw, ?_⟩))
    exact (honly0.trans (OnlyProc.setOfile _ p fd0 none)).trans (hsame.only p)
  have honly1 := honly0.trans (OnlyProc.setOfile (t.setOfile p fd0 (some rf)) p fd1 (some wf))
  split_ifs
  · refine .pure ⟨?_, honly1⟩
    rwa [add_sub_cancel_left, sub_self] at hv
  · -- both are cleared
    have hback := (hv.setOfile p fd0 none).setOfile p fd1 none
    have hne : fd0 ≠ fd1 := by
      rintro rfl
      simp [Kernel.setOfile] at h1
    have hslot0 : ((t.setOfile p fd0 (some rf)).setOfile p fd1 (some wf)).ofile (p, fd0) =
        some rf := by
      simp [Kernel.setOfile, hne]
    have hslot1 :
        (((t.setOfile p fd0 (some rf)).setOfile p fd1 (some wf)).setOfile p fd0 none).ofile
          (p, fd1) = some wf := by
      simp [Kernel.setOfile, hne.symm]
    rw [hslot0, hslot1, unit_none, sub_zero, sub_zero, add_sub_cancel_left, sub_self,
      zero_add] at hback
    refine .bind (.modify (.bind
      (.modify ((closeBoth_spec sb _ hback).mono fun _ w ⟨_, hw, hsame⟩ => ⟨hw, ?_⟩))))
    exact ((honly1.trans (OnlyProc.setOfile _ p fd0 none)).trans
      (OnlyProc.setOfile _ p fd1 none)).trans (hsame.only p)

theorem sysChdir_spec (path : Option (List Byte)) (h : s.Acc 0 0) :
    Ends KernelPanic.Other (sysChdir sb p path) s fun _ => CallOk p s := by
  cases path with
  | none => exact .pure (.refl h)
  | some path =>
    refine .bind (myCwd_ends fun cwd hcwd => (onFs_taken h (Fs.namei_refs sb cwd path)).andThen ?_)
    rintro (_ | ip) t ⟨ht, hst⟩
    · rw [unit_none, add_zero] at ht
      exact .pure ⟨ht, hst.only p⟩
    rw [zero_add] at ht
    refine (onFs_kept ht (Fs.keepsRefs_ilock sb ip _)).andThen fun _ u ⟨hu, htu⟩ => ?_
    refine (onFs_kept hu (Fs.keepsRefs_copy ip _)).andThen fun c v ⟨hv, huv⟩ => ?_
    have hsv := (hst.trans htu).trans huv
    split_ifs
    · exact (iput_loose sb hv).andThen fun _ w ⟨hw, hsame⟩ => .pure ⟨hw, (hsv.trans hsame).only p⟩
    · -- the old directory is put before `p->cwd` changes
      have hcwd' : v.cwd p = some cwd := by rw [hsv.cwd, hcwd]
      have hpos : 0 < v.fs.refs cwd := by
        have hrefs := hv.files.inode cwd
        have htally : 0 < tally v.cwd (some cwd) := Tally.pos_iff.mpr ⟨p, hcwd'⟩
        have hunit := unit_nonneg (some ip) cwd
        omega
      refine (iput_acc sb hv hpos).andThen fun _ w ⟨hw, hsame⟩ => .bind (.modify (.pure ⟨?_, ?_⟩))
      · have hset := hw.setCwd (p := p) (some ip)
        have hold : w.cwd p = some cwd := by rw [hsame.cwd, hcwd']
        rwa [hold, sub_add_cancel, sub_self] at hset
      · obtain ⟨h1, h2, h3⟩ := (hsv.trans hsame).only p
        exact ⟨h1, h2, fun q hq => (update_of_ne hq ..).trans (h3 q hq)⟩

theorem sysCreate_spec (path : Option (List Byte)) (type major minor : BitVec 16) (h : s.Acc 0 0) :
    Ends KernelPanic.Other (sysCreate sb p path type major minor) s fun _ => CallOk p s := by
  cases path with
  | none => exact .pure (.refl h)
  | some path =>
    refine .bind (myCwd_ends fun cwd _ =>
      (onFs_taken h (Fs.create_refs sb cwd path type major minor)).andThen ?_)
    rintro (_ | ip) t ⟨ht, hst⟩
    · rw [unit_none, add_zero] at ht
      exact .pure ⟨ht, hst.only p⟩
    · rw [zero_add] at ht
      exact (iput_loose sb ht).andThen fun _ u ⟨hu, hsame⟩ => .pure ⟨hu, (hst.trans hsame).only p⟩

theorem sysLink_spec (old new : Option (List Byte)) (h : s.Acc 0 0) :
    Ends KernelPanic.Other (sysLink sb p old new) s fun _ => CallOk p s := by
  unfold sysLink
  split
  · exact .bind (myCwd_ends fun cwd _ => (onFs_kept h (Fs.link_refs sb cwd _ _)).mono
        fun _ t ⟨ht, hsame⟩ =>
      ⟨ht, hsame.only p⟩)
  · exact .pure (.refl h)

theorem sysUnlink_spec (path : Option (List Byte)) (h : s.Acc 0 0) :
    Ends KernelPanic.Other (sysUnlink sb p path) s fun _ => CallOk p s := by
  cases path with
  | none => exact .pure (.refl h)
  | some path =>
    exact .bind (myCwd_ends fun cwd _ => (onFs_kept h (Fs.unlink_refs sb cwd path)).mono
        fun _ t ⟨ht, hsame⟩ =>
      ⟨ht, hsame.only p⟩)

/-! ## `fork` and `exit` -/

/-- The loop of `fork` fills descriptors of the child that are free. -/
theorem dupFiles_spec {np : Fin nProc} {fds : List (Fin nOFile)} :
    ∀ {s : Kernel}, fds.Nodup → s.Acc 0 0 → (∀ fd ∈ fds, s.ofile (np, fd) = none) →
      Ends KernelPanic.Other (dupFiles p np fds) s fun _ t =>
      t.Acc 0 0 ∧ OnlyProc np s t ∧ t.cwd = s.cwd := by
  induction fds with
  | nil => exact fun _ h _ => .pure ⟨h, (SameProcs.refl _).only np, rfl⟩
  | cons fd fds ih =>
    intro s hnodup h hfree
    obtain ⟨hnot, hnodup⟩ := List.nodup_cons.mp hnodup
    refine .bind (.get ?_)
    cases hslot : s.ofile (p, fd) with
    | none => exact ih hnodup h fun x hx => hfree x (List.mem_cons_of_mem fd hx)
    | some f =>
      refine (filedup_spec h (h.files.pos_of_slot hslot le_rfl) zero_le_one).andThen
        fun _ t ⟨ht, hst⟩ => ?_
      have hnone : t.ofile (np, fd) = none := by rw [hst.ofile, hfree fd List.mem_cons_self]
      have hset := ht.setOfile np fd (some f)
      rw [hnone, unit_none, add_zero, add_sub_cancel_right] at hset
      have honly := (hst.only np).trans (OnlyProc.setOfile t np fd (some f))
      refine .bind (.modify ((ih hnodup hset fun x hx => ?_).mono fun _ u ⟨hu, hou, hcwd⟩ =>
        ⟨hu, honly.trans hou, ?_⟩))
      · have hxfd : x ≠ fd := fun hxe => hnot (hxe ▸ hx)
        rw [setOfile_of_ne hxfd, hst.ofile, hfree x (List.mem_cons_of_mem fd hx)]
      · exact hcwd.trans hst.cwd

/-- The loop of `exit` clears the descriptors. -/
theorem closeFiles_spec {fds : List (Fin nOFile)} :
    ∀ {s : Kernel}, s.Acc 0 0 →
      Ends KernelPanic.Other (closeFiles sb p fds) s fun _ t => t.Acc 0 0 ∧ OnlyProc p s t ∧
        t.cwd = s.cwd ∧ ∀ fd, fd ∈ fds ∨ s.ofile (p, fd) = none → t.ofile (p, fd) = none := by
  induction fds with
  | nil => exact fun h => .pure ⟨h, (SameProcs.refl _).only p, rfl, fun fd hfd =>
    hfd.resolve_left List.not_mem_nil⟩
  | cons fd fds ih =>
    intro s h
    refine .bind (.get ?_)
    cases hslot : s.ofile (p, fd) with
    | none =>
      refine (ih h).mono fun _ t ⟨ht, honly, hcwd, hclear⟩ =>
        ⟨ht, honly, hcwd, fun x hx => hclear x ?_⟩
      rcases hx with hx | hx
      · rcases List.mem_cons.mp hx with rfl | hx
        · exact .inr hslot
        · exact .inl hx
      · exact .inr hx
    | some f =>
      have hpos := h.files.pos_of_slot hslot le_rfl
      refine (fileclose_spec sb h hpos fun _ => le_rfl).andThen fun _ t ⟨ht, hst⟩ => ?_
      have hsome : t.ofile (p, fd) = some f := by rw [hst.ofile, hslot]
      have hset := ht.setOfile p fd none
      rw [hsome, sub_add_cancel, unit_none, sub_zero] at hset
      have honly := (hst.only p).trans (OnlyProc.setOfile t p fd none)
      refine .bind (.modify ((ih hset).mono fun _ u ⟨hu, hou, hcwd, hclear⟩ =>
        ⟨hu, honly.trans hou, hcwd.trans hst.cwd, fun x hx => hclear x ?_⟩))
      by_cases hxfd : x = fd
      · rw [hxfd]
        exact .inr (update_self ..)
      · rw [setOfile_of_ne hxfd, hst.ofile]
        exact hx.imp_left fun hx => (List.mem_cons.mp hx).resolve_left hxfd

/-- Between two calls: the accounting, and the slots that are not in use hold nothing. -/
structure Sane (s : Kernel) : Prop where
  acc : s.Acc 0 0
  vacant : ∀ q, ¬ s.Live q → s.cwd q = none ∧ ∀ fd, s.ofile (q, fd) = none

theorem Sane.only (h : s.Sane) (hp : s.Live p) (ht : CallOk p s t) : t.Sane where
  acc := ht.acc
  vacant q hq := by
    have hq' : ¬ s.Live q := by rwa [Live, ← ht.only.state]
    have hne : q ≠ p := fun he => hq' (he ▸ hp)
    obtain ⟨hcwd, hofile⟩ := h.vacant q hq'
    exact ⟨(ht.only.cwd q hne).trans hcwd, fun fd => (ht.only.ofile q hne fd).trans (hofile fd)⟩

/-- The slots of the other processes when `p` is created or ends. -/
theorem Sane.vacant_other {q : Fin nProc} (h : s.Sane) (honly : OnlyProc p s t) (hne : q ≠ p)
    {x : Option ℕ} {st : ProcState} (hq : ¬ ((t.setCwd p x).setState p st).Live q) :
      ((t.setCwd p x).setState p st).cwd q = none ∧ ∀ fd, ((t.setCwd p x).setState p st).ofile
        (q, fd) = none := by
  have hq' : ¬ s.Live q := by
    simpa [Live, Kernel.setState, Kernel.setCwd, update_of_ne hne, honly.state] using hq
  obtain ⟨hcwd, hofile⟩ := h.vacant q hq'
  refine ⟨?_, fun fd => (honly.ofile q hne fd).trans (hofile fd)⟩
  simp only [Kernel.setState, Kernel.setCwd, update_of_ne hne]
  rw [honly.cwd q hne, hcwd]

theorem Acc.setState (h : s.Acc own held) (q : Fin nProc) (st : ProcState) :
    (s.setState q st).Acc own held :=
  ⟨h.files.congr rfl rfl rfl rfl, h.pipes.congr (fun _ => rfl) rfl rfl rfl⟩

theorem fork_spec (alloc copied : Bool) (h : s.Sane) :
    Ends KernelPanic.Other (fork p alloc copied) s fun _ t => t.Sane := by
  refine .bind (.get ?_)
  cases hfind : (List.finRange nProc).find? fun i => s.state i == .unused with
  | none => exact .pure h
  | some np =>
    simp only
    split_ifs
    swap
    · exact .pure h
    have hunused : s.state np = .unused := by simpa using List.find?_some hfind
    obtain ⟨hnocwd, hnofile⟩ := h.vacant np fun hl => hl.1 hunused
    refine (dupFiles_spec (List.nodup_finRange _) h.acc fun fd _ => hnofile fd).andThen
      fun _ t ⟨ht, honly, hcwd⟩ => .bind (myCwd_ends fun cwd _ => ?_)
    refine (onFs_taken (o := fun _ => some cwd) ht (Fs.idup_refs cwd)).andThen
      fun _ u ⟨hu, htu⟩ => .bind (.modify (.pure ⟨?_, fun q hq => ?_⟩))
    · have hnone : u.cwd np = none := by rw [htu.cwd, hcwd, hnocwd]
      have hset := hu.setCwd (p := np) (some cwd)
      rw [hnone, unit_none, add_zero, zero_add, sub_self] at hset
      exact hset.setState np .runnable
    · have hqnp : q ≠ np := by
        rintro rfl
        exact hq ⟨by simp [Kernel.setState], by simp [Kernel.setState]⟩
      exact h.vacant_other (honly.trans (htu.only np)) hqnp hq

theorem exit_spec (h : s.Sane) :
    Ends KernelPanic.Other (exit sb p) s fun _ t => t.Sane := by
  unfold exit
  split_ifs
  · exact .throw ⟨nofun, nofun, nofun⟩
  refine (closeFiles_spec sb h.acc).andThen fun _ t ⟨ht, honly, _, hclear⟩ => ?_
  refine .bind (myCwd_ends fun cwd hcwd => ?_)
  have hpos : 0 < t.fs.refs cwd := by
    have hrefs := ht.files.inode cwd
    have htally : 0 < tally t.cwd (some cwd) := Tally.pos_iff.mpr ⟨p, hcwd⟩
    rw [Pi.zero_apply] at hrefs
    omega
  refine (iput_acc sb ht hpos).andThen fun _ u ⟨hu, htu⟩ => .modify ⟨?_, fun q hq => ?_⟩
  · have hold : u.cwd p = some cwd := by rw [htu.cwd, hcwd]
    have hset := hu.setCwd (p := p) none
    rw [hold, sub_add_cancel, unit_none, sub_zero] at hset
    exact hset.setState p .zombie
  · by_cases hqp : q = p
    · subst hqp
      refine ⟨update_self .., fun fd => ?_⟩
      show u.ofile (q, fd) = none
      rw [htu.ofile]
      exact hclear fd (.inl (List.mem_finRange fd))
    · exact h.vacant_other (honly.trans (htu.only p)) hqp hq

/-! ## Every sequence of calls -/

theorem sane_init (disk : Disk) : (init disk).Sane where
  acc :=
    { files :=
        { ref := fun f => by
            have htally : tally (init disk).ofile (some f) = 0 :=
              Tally.eq_zero_iff.mpr fun _ => nofun
            rw [htally]
            rfl
          nonneg := fun _ => le_rfl
          closed := fun _ _ => rfl
          inode := fun i => by
            have hfiles : tally (fun f => ((init disk).file f).inode) (some i) = 0 :=
              Tally.eq_zero_iff.mpr fun _ => nofun
            have hnone : tally (fun _ : Fin nProc => (none : Option ℕ)) (some i) = 0 :=
              Tally.eq_zero_iff.mpr fun _ => nofun
            have hcwd :
                (init disk).cwd = Function.update (fun _ => none) initproc (some rootIno) := by
              funext q
              simp [init, update_apply]
            have hrefs : (init disk).fs.refs i = if rootIno = i then 1 else 0 := by
              simp only [Fs.refs, init, eq_comm (a := i)]
              split_ifs <;> rfl
            rw [hfiles, hcwd, update_some, hnone, unit_some, hrefs]
            split_ifs <;> rfl }
      pipes :=
        { ends := fun n w => Tally.eq_zero_iff.mpr fun _ => nofun
          live := fun n pi hpi => nomatch hpi
          frees := fun n => rfl } }
  vacant q hq := by
    have hne : q ≠ initproc := by
      rintro rfl
      exact hq ⟨by simp [init], by simp [init]⟩
    exact ⟨if_neg hne, fun _ => rfl⟩

/-- A call that changes only what belongs to the caller. -/
theorem Sane.after {α : Type} {c : KernelM α} (h : s.Sane) (hp : s.Live p)
    (hc : Ends KernelPanic.Other c s fun _ => CallOk p s) :
    Ends KernelPanic.Other (discard c) s fun _ t => t.Sane :=
  Ends.discard (hc.mono fun _ _ => h.only hp)

theorem command_sane (c : Syscall) (h : s.Sane) (hp : s.Live p) :
    Ends KernelPanic.Other (c.command sb p) s fun _ t => t.Sane := by
  cases c with
  | «open» path omode => exact h.after hp (sysOpen_spec sb path omode h.acc)
  | dup fd => exact h.after hp (sysDup_spec h.acc fd)
  | close fd => exact h.after hp (sysClose_spec sb h.acc fd)
  | pipe kalloc c0 c1 => exact h.after hp (sysPipe_spec sb kalloc c0 c1 h.acc)
  | fork alloc copied => exact Ends.discard (fork_spec alloc copied h)
  | exit => exact exit_spec sb h
  | chdir path => exact h.after hp (sysChdir_spec sb path h.acc)
  | mkdir path => exact h.after hp (sysCreate_spec sb path _ _ _ h.acc)
  | mknod path major minor =>
    exact h.after hp (sysCreate_spec sb path _ _ _ h.acc)
  | link old new => exact h.after hp (sysLink_spec sb old new h.acc)
  | unlink path => exact h.after hp (sysUnlink_spec sb path h.acc)

theorem Sane.step {sb : Superblock} {e : KernelEvent} (h : s.Sane) (ht : step sb s e = some t) :
    t.Sane := by
  cases e with
  | call p c =>
    simp only [Kernel.step] at ht
    split_ifs at ht with hp
    have hend := command_sane sb c h hp
    rw [Ends] at hend
    split at ht
    · rename_i heq
      rw [heq] at hend
      exact Option.some.inj ht ▸ hend
    · cases ht
  | freeproc q =>
    simp only [Kernel.step] at ht
    split_ifs at ht with hz
    obtain rfl := Option.some.inj ht
    refine ⟨h.acc.setState q .unused, fun r hr => ?_⟩
    refine h.vacant r fun hl => hr ?_
    have hrq : r ≠ q := by
      rintro rfl
      exact hl.2 hz
    simpa [Live, Kernel.setState, update_of_ne hrq] using hl

/-- The accounting of open files. -/
structure Accounted (s : Kernel) : Prop where
  /-- `ref` is the number of descriptors that hold the file. -/
  ref : ∀ f, (s.file f).ref.toNat = tally s.ofile (some f)
  closed : ∀ f, (s.file f).ref = 0 → (s.file f).type = .none
  /-- The references to an inode are those of the open files and of the current directories. -/
  inode : ∀ i, s.fs.refs i = tally (fun f => (s.file f).inode) (some i) + tally s.cwd (some i)
  /-- A pipe has been freed once if no file with a reference is an end of it, and not at all
  otherwise. -/
  pipe : ∀ n < s.npipe, s.frees n =
    if ∃ f w, (s.file f).ref ≠ 0 ∧ (s.file f).pipeEnd = some (n, w) then 0 else 1

/-- A pipe is allocated as long as a file with a reference is an end of it. -/
theorem Acc.allocated_iff (h : s.Acc own held) {n : ℕ} :
    s.pipes n ≠ none ↔ ∃ f w, (s.file f).ref ≠ 0 ∧ (s.file f).pipeEnd = some (n, w) := by
  constructor
  · intro hsome
    obtain ⟨pi, hpi⟩ := Option.ne_none_iff_exists'.mp hsome
    obtain ⟨w, hw⟩ := (h.pipes.live n pi hpi).2
    have hpos : 0 < tally (fun f => (s.file f).pipeEnd) (some (n, w)) := by
      rw [h.pipes.ends n w, hpi, Option.elim_some, hw]
      exact Nat.one_pos
    obtain ⟨f, hf⟩ := Tally.pos_iff.mp hpos
    refine ⟨f, w, fun h0 => ?_, hf⟩
    rw [File.pipeEnd, h.files.closed f h0] at hf
    exact nomatch hf
  · rintro ⟨f, w, -, hf⟩ hnone
    obtain ⟨pi, hpi, -⟩ := h.pipes.isOpen hf
    exact nomatch hnone.symm.trans hpi

theorem Sane.accounted (h : s.Sane) : s.Accounted where
  ref f := by
    have hf := h.acc.files.ref f
    have hnonneg := h.acc.files.nonneg f
    have hlt := (s.file f).ref.isLt
    rw [BitVec.toInt_eq_toNat_cond] at hf hnonneg
    rw [Pi.zero_apply] at hf
    split_ifs at hf hnonneg <;> omega
  closed := h.acc.files.closed
  inode i := by
    have hi := h.acc.files.inode i
    rw [Pi.zero_apply] at hi
    omega
  pipe n hn := by
    rw [h.acc.pipes.frees n]
    by_cases hnone : s.pipes n = none
    · rw [if_pos ⟨hn, hnone⟩, if_neg fun hend => h.acc.allocated_iff.mpr hend hnone]
    · rw [if_neg fun hand => hnone hand.2, if_pos (h.acc.allocated_iff.mp hnone)]

/-- **Open-file accounting.** After every sequence of calls the accounting is exact, and the next
call of any process does not panic in `filedup` or `fileclose` and does not use a pipe that was
freed. -/
theorem open_file_accounting (sb : Superblock) (disk : Disk) (es : List KernelEvent)
    (run : Trace.exec (step sb) (init disk) es = some s) :
    s.Accounted ∧ ∀ p c, s.Live p → ∀ e, panicOf sb s p c = some e → e.Other := by
  have hsane : s.Sane := Trace.always (fun _ _ _ h => h.step) (sane_init disk) run
  refine ⟨hsane.accounted, fun p c hp e he => ?_⟩
  have hend := command_sane sb c hsane hp
  rw [panicOf] at he
  rw [Ends] at hend
  split at he
  · cases he
  · rename_i heq
    rw [heq] at hend
    exact Option.some.inj he ▸ hend

/-- Two processes share a file and a pipe; two other pipes fail, for want of memory and at
`copyout`. -/
def sharedFiles : List KernelEvent :=
  [.call 0 (.open (some [slash, 120]) oRdwr), .call 0 (.pipe (some fun _ => 0) true true),
    .call 0 (.dup 0),
    .call 0 (.pipe none true true), .call 0 (.pipe (some fun _ => 0) true false),
      .call 0 (.fork true true),
    .call 1 (.close 2), .call 0 (.close 1), .call 0 (.close 2), .call 1 .exit, .freeproc 1,
      .call 0 (.close 0)]

theorem open_file_accounting_sharedFiles :
    ∃ s, Trace.exec (step Mkfs.sb) (init (sampleDisk 2)) sharedFiles = some s ∧
      s.npipe = 2 ∧ s.frees 0 = 1 ∧ s.frees 1 = 1 ∧ s.fs.refs 2 = 1 ∧ s.Accounted ∧
      ∀ p c, s.Live p → ∀ e, panicOf Mkfs.sb s p c = some e → e.Other := by
  have hsome : ((Trace.exec (step Mkfs.sb) (init (sampleDisk 2)) sharedFiles).any fun s =>
      decide (s.npipe = 2 ∧ s.frees 0 = 1 ∧ s.frees 1 = 1 ∧ s.fs.refs 2 = 1)) = true := by
    decide +kernel
  obtain ⟨s, hs, hd⟩ := (Option.any_eq_true _ _).mp hsome
  obtain ⟨h1, h2, h3, h4⟩ := of_decide_eq_true hd
  exact ⟨s, hs, h1, h2, h3, h4, open_file_accounting Mkfs.sb (sampleDisk 2) sharedFiles hs⟩

end Kernel

end NeulaCpu.Xv6
