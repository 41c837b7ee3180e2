import Mathlib.Tactic

/-!
# Families of processes

Processes live in slots that are used again and again; what tells them apart for ever is their pid.
A process makes another one in steps: it takes a free slot, links the new process to itself as its
parent, and starts it. A process that exits leaves its children to the root and stays in its slot
until its parent collects its status. Three histories say what has happened: who made whom, who has
exited with which status, and who collected whom.

The invariants are about every state that is reached by such steps: pids identify processes, a
parent is always a live process, and every exit is reported at most once, to the process that made
the child or, if that one has exited itself, to the root.
-/

namespace Family

open Function

variable {ι ω : Type*}

/-- The life of a slot. -/
inductive Phase
  | free | made | live | zombie
deriving DecidableEq, Repr

/-- A process has exited with a status and was collected. -/
structure Report (ω : Type*) where
  parent : ℕ
  child : ℕ
  status : ω

@[ext]
structure State (ι ω : Type*) where
  phase : ι → Phase
  pid : ι → ℕ
  parent : ι → Option ι
  status : ι → ω
  /-- The process that this one is making, and whether it is linked already. -/
  making : ι → Option (ι × Bool)
  /-- The next pid. -/
  next : ℕ
  /-- Pids of children and of the processes that made them. -/
  births : List (ℕ × ℕ)
  exits : List (ℕ × ω)
  reports : List (Report ω)

section Steps

variable [DecidableEq ι] (root : ι) (s : State ι ω) (p c : ι)

namespace State

/-- `p` takes the free slot `c`. -/
def make : State ι ω :=
  { s with
    phase := update s.phase c .made
    pid := update s.pid c s.next
    making := update s.making p (some (c, false))
    next := s.next + 1 }

/-- `p` becomes the parent of the process that it is making. -/
def link : State ι ω :=
  { s with
    parent := update s.parent c (some p)
    making := update s.making p (some (c, true))
    births := (s.pid c, s.pid p) :: s.births }

/-- The process that `p` has made begins to live. -/
def start : State ι ω :=
  { s with
    phase := update s.phase c .live
    making := update s.making p none }

/-- `p` leaves its children to the root. -/
def exit (status : ω) : State ι ω :=
  { s with
    phase := update s.phase p .zombie
    parent := fun i => if s.parent i = some p then some root else s.parent i
    status := update s.status p status
    exits := (s.pid p, status) :: s.exits }

/-- `p` collects its child `c`, whose slot becomes free. -/
def reap [Zero ω] : State ι ω :=
  { s with
    phase := update s.phase c .free
    pid := update s.pid c 0
    parent := update s.parent c none
    status := update s.status c 0
    reports := ⟨s.pid p, s.pid c, s.status c⟩ :: s.reports }

end State

/-- What can happen in a family with the given root. -/
inductive Step [Zero ω] (root : ι) (s : State ι ω) : State ι ω → Prop
  /-- A pid that nobody gets. -/
  | skip : Step root s { s with next := s.next + 1 }
  | make (p c : ι) (hp : s.phase p = .live) (hm : s.making p = none) (hc : s.phase c = .free) :
    Step root s (s.make p c)
  | link (p c : ι) (hm : s.making p = some (c, false)) : Step root s (s.link p c)
  | start (p c : ι) (hm : s.making p = some (c, true)) : Step root s (s.start p c)
  | exit (p : ι) (status : ω) (hp : s.phase p = .live) (hm : s.making p = none) (hr : p ≠ root) :
    Step root s (s.exit root p status)
  | reap (p c : ι) (hp : s.phase p = .live) (hc : s.parent c = some p) (hz : s.phase c = .zombie) :
    Step root s (s.reap p c)

end Steps

/-! ## Slots -/

/-- Who is in the slots. -/
structure Slots [Zero ω] (root : ι) (s : State ι ω) : Prop where
  free : ∀ i, s.phase i = .free → s.pid i = 0 ∧ s.parent i = none ∧ s.status i = 0
  pid : ∀ i, s.phase i ≠ .free → 0 < s.pid i ∧ s.pid i < s.next
  inj : ∀ i j, s.phase i ≠ .free → s.phase j ≠ .free → s.pid i = s.pid j → i = j
  root_live : s.phase root = .live
  root_parent : s.parent root = none
  parent_live : ∀ i j, s.parent i = some j → s.phase j = .live
  has_parent : ∀ i, i ≠ root → s.phase i = .live ∨ s.phase i = .zombie → s.parent i ≠ none
  making_live : ∀ p c b, s.making p = some (c, b) → s.phase p = .live ∧ s.phase c = .made
  making_parent : ∀ p c b, s.making p = some (c, b) → s.parent c = if b then some p else none
  making_inj : ∀ p q c b b', s.making p = some (c, b) → s.making q = some (c, b') → p = q

section Steps

variable [DecidableEq ι] [Zero ω] {root : ι} {s t : State ι ω} {p c : ι}

namespace Slots

section

variable (h : Slots root s)

include h

theorem make (hp : s.phase p = .live) (hc : s.phase c = .free) : Slots root (s.make p c) := by
  -- The slot is nobody's parent, nobody is making it, and its pid is new.
  have hchild : ∀ i, s.parent i ≠ some c := fun i hi => by simp [h.parent_live i c hi] at hc
  have hfresh : ∀ i, s.phase i ≠ .free → s.pid i ≠ s.next := fun i hi => (h.pid i hi).2.ne
  have hother : ∀ q b, s.making q ≠ some (c, b) :=
    fun q b hq => by simp [(h.making_live q c b hq).2] at hc
  obtain ⟨h1, h2, h3, h4, h5, h6, h7, h8, h9, h10⟩ := h
  constructor <;> simp only [State.make, update_apply] <;> grind

theorem link (hm : s.making p = some (c, false)) : Slots root (s.link p c) := by
  obtain ⟨hp, hc⟩ := h.making_live p c false hm
  -- The new process is no parent yet, and only `p` is making it.
  have hchild : ∀ i, s.parent i ≠ some c := fun i hi => by simp [h.parent_live i c hi] at hc
  have hother : ∀ q b, s.making q = some (c, b) → q = p :=
    fun q b hq => h.making_inj q p c b false hq hm
  obtain ⟨h1, h2, h3, h4, h5, h6, h7, h8, h9, h10⟩ := h
  constructor <;> simp only [State.link, update_apply] <;> grind

theorem start (hm : s.making p = some (c, true)) : Slots root (s.start p c) := by
  obtain ⟨hp, hc⟩ := h.making_live p c true hm
  have hparent : s.parent c = some p := h.making_parent p c true hm
  have hother : ∀ q b, s.making q = some (c, b) → q = p :=
    fun q b hq => h.making_inj q p c b true hq hm
  obtain ⟨h1, h2, h3, h4, h5, h6, h7, h8, h9, h10⟩ := h
  constructor <;> simp only [State.start, update_apply] <;> grind

theorem exit (status : ω) (hp : s.phase p = .live) (hm : s.making p = none)
    (hr : p ≠ root) : Slots root (s.exit root p status) := by
  -- Nobody is making `p`, and a process that `p` is making would be a reason for `p` not to exit.
  have hmade : ∀ q b, s.making q ≠ some (p, b) :=
    fun q b hq => by simp [(h.making_live q p b hq).2] at hp
  have hlinked : ∀ q c, s.making q = some (c, true) → s.parent c ≠ some p := by
    intro q c hq hc
    have hq' : s.parent c = some q := h.making_parent q c true hq
    rw [hq', Option.some.injEq] at hc
    rw [hc, hm] at hq
    cases hq
  obtain ⟨h1, h2, h3, h4, h5, h6, h7, h8, h9, h10⟩ := h
  constructor <;> simp only [State.exit, update_apply] <;> grind

theorem reap (hc : s.parent c = some p) (hz : s.phase c = .zombie) : Slots root (s.reap p c) := by
  -- A zombie is nobody's parent, so nobody loses its parent.
  have hchild : ∀ i, s.parent i ≠ some c := fun i hi => by simp [h.parent_live i c hi] at hz
  have hroot : c ≠ root := by
    rintro rfl
    rw [h.root_parent] at hc
    cases hc
  have hmade : ∀ q b, s.making q ≠ some (c, b) :=
    fun q b hq => by simp [(h.making_live q c b hq).2] at hz
  obtain ⟨h1, h2, h3, h4, h5, h6, h7, h8, h9, h10⟩ := h
  constructor <;> simp only [State.reap, update_apply] <;> grind

theorem step (hs : Step root s t) : Slots root t := by
  cases hs with
  | skip =>
    exact { h with pid := fun i hi =>
      ⟨(h.pid i hi).1, (h.pid i hi).2.trans (Nat.lt_succ_self s.next)⟩ }
  | make p c hp hm hc => exact h.make hp hc
  | link p c hm => exact h.link hm
  | start p c hm => exact h.start hm
  | exit p status hp hm hr => exact h.exit status hp hm hr
  | reap p c hp hc hz => exact h.reap hc hz

end

end Slots

/-! ## Histories -/

/-- A process has exited. -/
def State.Exited (s : State ι ω) (pid : ℕ) : Prop := ∃ status, (pid, status) ∈ s.exits

/-- `parent` made the process `pid`, or is the root and the one that made it has exited. -/
def State.Raises (root : ι) (s : State ι ω) (parent pid : ℕ) : Prop :=
  ∃ creator, (pid, creator) ∈ s.births ∧ (parent = creator ∨ parent = s.pid root ∧ s.Exited creator)

/-- Who made whom. -/
structure Births (root : ι) (s : State ι ω) : Prop where
  nodup : (s.births.map Prod.fst).Nodup
  lt : ∀ b ∈ s.births, b.1 < s.next
  unborn : ∀ i, s.phase i ≠ .free → s.parent i = none → ∀ b ∈ s.births, b.1 ≠ s.pid i
  parent : ∀ i j, s.parent i = some j → s.Raises root (s.pid j) (s.pid i)

/-- Who has exited. -/
structure Exits (s : State ι ω) : Prop where
  nodup : (s.exits.map Prod.fst).Nodup
  lt : ∀ e ∈ s.exits, e.1 < s.next
  zombie : ∀ i, s.phase i = .zombie → (s.pid i, s.status i) ∈ s.exits
  running : ∀ i, s.phase i = .made ∨ s.phase i = .live → ¬ s.Exited (s.pid i)

/-- Who was collected by whom. -/
structure Reports (root : ι) (s : State ι ω) : Prop where
  nodup : (s.reports.map Report.child).Nodup
  exited : ∀ r ∈ s.reports, (r.child, r.status) ∈ s.exits
  gone : ∀ r ∈ s.reports, ∀ i, s.phase i ≠ .free → s.pid i ≠ r.child
  parent : ∀ r ∈ s.reports, s.Raises root r.parent r.child
  kept : ∀ b ∈ s.births, (∃ r ∈ s.reports, r.child = b.1) ∨
    ∃ i, s.phase i ≠ .free ∧ s.pid i = b.1 ∧ s.parent i ≠ none

omit [DecidableEq ι] [Zero ω] in
/-- The histories only grow, so what they say stays true while the root keeps its pid. -/
theorem State.Raises.mono {parent pid : ℕ} (h : s.Raises root parent pid)
    (hroot : t.pid root = s.pid root) (hb : ∀ b ∈ s.births, b ∈ t.births)
    (he : ∀ e ∈ s.exits, e ∈ t.exits) : t.Raises root parent pid := by
  obtain ⟨creator, hborn, hpar⟩ := h
  refine ⟨creator, hb _ hborn, hpar.imp_right fun ⟨hp, status, hst⟩ => ?_⟩
  exact ⟨hp.trans hroot.symm, status, he _ hst⟩

namespace Births

theorem make (h : Births root s) (hslots : Slots root s) (hc : s.phase c = .free) :
    Births root (s.make p c) where
  nodup := h.nodup
  lt b hb := (h.lt b hb).trans (Nat.lt_succ_self s.next)
  unborn i hi hnone b hb := by
    simp only [State.make, update_apply] at hi hnone ⊢
    split at hi
    · rename_i hic
      rw [if_pos hic]
      exact (h.lt b hb).ne
    · rename_i hic
      rw [if_neg hic]
      exact h.unborn i hi hnone b hb
  parent i j hij := by
    have hi : i ≠ c := by
      rintro rfl
      have hnone := (hslots.free i hc).2.1
      rw [show s.parent i = some j from hij] at hnone
      cases hnone
    have hne {k : ι} (hk : s.phase k = .live) : k ≠ c := by
      rintro rfl
      rw [hc] at hk
      cases hk
    have hpid {k : ι} (hk : k ≠ c) : (s.make p c).pid k = s.pid k := update_of_ne hk _ _
    rw [hpid hi, hpid (hne (hslots.parent_live i j hij))]
    exact (h.parent i j hij).mono (hpid (hne hslots.root_live)) (fun _ => id) fun _ => id

theorem link (h : Births root s) (hslots : Slots root s) (hm : s.making p = some (c, false)) :
    Births root (s.link p c) := by
  obtain ⟨hp, hc⟩ := hslots.making_live p c false hm
  have hnone : s.parent c = none := hslots.making_parent p c false hm
  have hcfree : s.phase c ≠ .free := by simp [hc]
  refine ⟨?_, ?_, ?_, ?_⟩
  · exact List.nodup_cons.mpr ⟨fun hmem => by
      obtain ⟨b, hb, hpid⟩ := List.mem_map.mp hmem
      exact h.unborn c hcfree hnone b hb hpid, h.nodup⟩
  · intro b hb
    rcases List.mem_cons.mp hb with rfl | hb
    · exact (hslots.pid c hcfree).2
    · exact h.lt b hb
  · intro i hi hinone b hb
    have hic : i ≠ c := by
      rintro rfl
      simp [State.link] at hinone
    have hi' : s.parent i = none := by simpa [State.link, update_of_ne hic] using hinone
    rcases List.mem_cons.mp hb with rfl | hb
    · exact fun heq => hic (hslots.inj i c hi hcfree heq.symm)
    · exact h.unborn i hi hi' b hb
  · intro i j hij
    by_cases hic : i = c
    · subst hic
      have hj : p = j := by simpa [State.link] using hij
      exact ⟨s.pid p, List.mem_cons_self, Or.inl (by rw [← hj]; rfl)⟩
    · have hij' : s.parent i = some j := by simpa [State.link, update_of_ne hic] using hij
      exact (h.parent i j hij').mono rfl (fun b hb => List.mem_cons_of_mem _ hb) fun _ => id

theorem start (h : Births root s) (hslots : Slots root s) (hm : s.making p = some (c, true)) :
    Births root (s.start p c) where
  nodup := h.nodup
  lt := h.lt
  unborn i hi hnone := by
    refine h.unborn i (fun hfree => ?_) hnone
    have hic : i ≠ c := by
      rintro rfl
      rw [(hslots.making_live p i true hm).2] at hfree
      cases hfree
    exact hi (by simpa [State.start, update_of_ne hic] using hfree)
  parent := h.parent

omit [Zero ω] in
theorem exit (h : Births root s) (status : ω) (hp : s.phase p = .live) :
    Births root (s.exit root p status) where
  nodup := h.nodup
  lt := h.lt
  unborn i hi hnone := by
    have hfree : s.phase i ≠ .free := by
      by_cases hip : i = p
      · simp [hip, hp]
      · simpa [State.exit, update_of_ne hip] using hi
    refine h.unborn i hfree ?_
    by_contra hsome
    simp only [State.exit] at hnone
    split at hnone
    · cases hnone
    · exact hsome hnone
  parent i j hij := by
    have hexit : ∀ e ∈ s.exits, e ∈ (s.exit root p status).exits :=
      fun e he => List.mem_cons_of_mem _ he
    simp only [State.exit] at hij
    split at hij
    · -- The root takes over: if `p` made the child, then `p` has exited now.
      rename_i hip
      obtain rfl := Option.some.inj hij
      obtain ⟨creator, hborn, hpar | ⟨-, st, hst⟩⟩ := h.parent i p hip
      · exact ⟨creator, hborn, Or.inr ⟨rfl, status, hpar ▸ List.mem_cons_self⟩⟩
      · exact ⟨creator, hborn, Or.inr ⟨rfl, st, hexit _ hst⟩⟩
    · exact (h.parent i j hij).mono rfl (fun _ => id) hexit

theorem reap (h : Births root s) (hslots : Slots root s) (hz : s.phase c = .zombie) :
    Births root (s.reap p c) := by
  have hne {k : ι} (hk : s.phase k = .live) : k ≠ c := by
    rintro rfl
    rw [hz] at hk
    cases hk
  have hpid {k : ι} (hk : k ≠ c) : (s.reap p c).pid k = s.pid k := update_of_ne hk _ _
  refine ⟨h.nodup, h.lt, fun i hi hnone => ?_, fun i j hij => ?_⟩
  · have hic : i ≠ c := by
      rintro rfl
      simp [State.reap] at hi
    rw [hpid hic]
    exact h.unborn i (by simpa [State.reap, update_of_ne hic] using hi)
      (by simpa [State.reap, update_of_ne hic] using hnone)
  · have hic : i ≠ c := by
      rintro rfl
      simp [State.reap] at hij
    have hij' : s.parent i = some j := by simpa [State.reap, update_of_ne hic] using hij
    rw [hpid hic, hpid (hne (hslots.parent_live i j hij'))]
    exact (h.parent i j hij').mono (hpid (hne hslots.root_live)) (fun _ => id) fun _ => id

end Births

theorem Births.step (h : Births root s) (hslots : Slots root s) (hs : Step root s t) :
    Births root t := by
  cases hs with
  | skip => exact { h with lt := fun b hb => (h.lt b hb).trans (Nat.lt_succ_self s.next) }
  | make p c hp hm hc => exact h.make hslots hc
  | link p c hm => exact h.link hslots hm
  | start p c hm => exact h.start hslots hm
  | exit p status hp hm hr => exact h.exit status hp
  | reap p c hp hc hz => exact h.reap hslots hz

theorem Exits.step (h : Exits s) (hslots : Slots root s) (hs : Step root s t) : Exits t := by
  cases hs with
  | skip => exact { h with lt := fun e he => (h.lt e he).trans (Nat.lt_succ_self s.next) }
  | make p c hp hm hc =>
    -- A new pid is larger than those of all processes that have exited.
    have hnew : ¬ s.Exited s.next := fun ⟨_, hst⟩ => (h.lt _ hst).false
    obtain ⟨h1, h2, h3, h4⟩ := h
    constructor <;> simp only [State.make, State.Exited, update_apply] at * <;> grind
  | link p c hm => exact ⟨h.nodup, h.lt, h.zombie, h.running⟩
  | start p c hm =>
    have hc := (hslots.making_live p c true hm).2
    obtain ⟨h1, h2, h3, h4⟩ := h
    constructor <;> simp only [State.start, State.Exited, update_apply] at * <;> grind
  | exit p status hp hm hr =>
    have hlt := (hslots.pid p (by simp [hp])).2
    have hnot := h.running p (Or.inr hp)
    have hother : ∀ i, s.phase i ≠ .free → i ≠ p → s.pid i ≠ s.pid p := fun i hi hip heq =>
      hip (hslots.inj i p hi (by simp [hp]) heq)
    obtain ⟨h1, h2, h3, h4⟩ := h
    constructor <;> simp only [State.exit, State.Exited, update_apply] at * <;> grind
  | reap p c hp hc hz =>
    obtain ⟨h1, h2, h3, h4⟩ := h
    constructor <;> simp only [State.reap, State.Exited, update_apply] at * <;> grind

namespace Reports

theorem make (h : Reports root s) (hslots : Slots root s) (hexits : Exits s)
    (hc : s.phase c = .free) : Reports root (s.make p c) := by
  have hroot : root ≠ c := by
    rintro rfl
    rw [hslots.root_live] at hc
    cases hc
  have hpid {k : ι} (hk : k ≠ c) : (s.make p c).pid k = s.pid k := update_of_ne hk _ _
  have hphase {k : ι} (hk : k ≠ c) : (s.make p c).phase k = s.phase k := update_of_ne hk _ _
  refine ⟨h.nodup, h.exited, fun r hr i hi => ?_, fun r hr => ?_, fun b hb => ?_⟩
  · by_cases hic : i = c
    · have hnew : (s.make p c).pid i = s.next := by rw [hic]; exact update_self ..
      rw [hnew]
      exact (hexits.lt _ (h.exited r hr)).ne'
    · rw [hphase hic] at hi
      rw [hpid hic]
      exact h.gone r hr i hi
  · exact (h.parent r hr).mono (hpid hroot) (fun _ => id) fun _ => id
  · refine (h.kept b hb).imp_right fun ⟨i, hi, hib, hpar⟩ => ⟨i, ?_⟩
    have hic : i ≠ c := by
      rintro rfl
      exact hi hc
    rw [hphase hic, hpid hic]
    exact ⟨hi, hib, hpar⟩

theorem link (h : Reports root s) (hslots : Slots root s) (hm : s.making p = some (c, false)) :
    Reports root (s.link p c) := by
  refine ⟨h.nodup, h.exited, h.gone, fun r hr => ?_, fun b hb => ?_⟩
  · exact (h.parent r hr).mono rfl (fun _ hb => List.mem_cons_of_mem _ hb) fun _ => id
  · rcases List.mem_cons.mp hb with rfl | hb
    · refine Or.inr ⟨c, ?_, rfl, by simp [State.link]⟩
      show s.phase c ≠ .free
      simp [(hslots.making_live p c false hm).2]
    · refine (h.kept b hb).imp_right fun ⟨i, hi, hib, hpar⟩ => ⟨i, hi, hib, ?_⟩
      simp only [State.link, update_apply]
      split
      · exact Option.some_ne_none p
      · exact hpar

theorem start (h : Reports root s) (hslots : Slots root s) (hm : s.making p = some (c, true)) :
    Reports root (s.start p c) := by
  have hfree (i : ι) : (s.start p c).phase i = .free ↔ s.phase i = .free := by
    simp only [State.start, update_apply]
    split
    · rename_i hic
      simp [hic, (hslots.making_live p c true hm).2]
    · rfl
  refine ⟨h.nodup, h.exited, fun r hr i hi => ?_, h.parent, fun b hb => ?_⟩
  · exact h.gone r hr i ((hfree i).not.mp hi)
  · exact (h.kept b hb).imp_right fun ⟨i, hi, hib, hpar⟩ => ⟨i, (hfree i).not.mpr hi, hib, hpar⟩

omit [Zero ω] in
theorem exit (h : Reports root s) (status : ω) (hp : s.phase p = .live) :
    Reports root (s.exit root p status) := by
  have hexit : ∀ e ∈ s.exits, e ∈ (s.exit root p status).exits :=
    fun e he => List.mem_cons_of_mem _ he
  have hfree (i : ι) : (s.exit root p status).phase i = .free ↔ s.phase i = .free := by
    simp only [State.exit, update_apply]
    split
    · rename_i hip
      simp [hip, hp]
    · rfl
  refine ⟨h.nodup, fun r hr => hexit _ (h.exited r hr), fun r hr i hi => ?_, fun r hr => ?_,
    fun b hb => ?_⟩
  · exact h.gone r hr i ((hfree i).not.mp hi)
  · exact (h.parent r hr).mono rfl (fun _ => id) hexit
  · refine (h.kept b hb).imp_right fun ⟨i, hi, hib, hpar⟩ => ⟨i, (hfree i).not.mpr hi, hib, ?_⟩
    simp only [State.exit]
    split
    · exact Option.some_ne_none root
    · exact hpar

theorem reap (h : Reports root s) (hslots : Slots root s) (hbirths : Births root s)
    (hexits : Exits s) (hc : s.parent c = some p) (hz : s.phase c = .zombie) :
    Reports root (s.reap p c) := by
  have hcfree : s.phase c ≠ .free := by simp [hz]
  have hroot : root ≠ c := by
    rintro rfl
    rw [hslots.root_live] at hz
    cases hz
  have hpid {k : ι} (hk : k ≠ c) : (s.reap p c).pid k = s.pid k := update_of_ne hk _ _
  have hphase {k : ι} (hk : k ≠ c) : (s.reap p c).phase k = s.phase k := update_of_ne hk _ _
  refine ⟨?_, fun r hr => ?_, fun r hr i hi => ?_, fun r hr => ?_, fun b hb => ?_⟩
  · refine List.nodup_cons.mpr ⟨fun hmem => ?_, h.nodup⟩
    obtain ⟨r, hr, hchild⟩ := List.mem_map.mp hmem
    exact h.gone r hr c hcfree hchild.symm
  · rcases List.mem_cons.mp hr with rfl | hr
    · exact hexits.zombie c hz
    · exact h.exited r hr
  · have hic : i ≠ c := by
      rintro rfl
      simp [State.reap] at hi
    rw [hphase hic] at hi
    rw [hpid hic]
    rcases List.mem_cons.mp hr with rfl | hr
    · exact fun heq => hic (hslots.inj i c hi hcfree heq)
    · exact h.gone r hr i hi
  · rcases List.mem_cons.mp hr with rfl | hr
    · exact (hbirths.parent c p hc).mono (hpid hroot) (fun _ => id) fun _ => id
    · exact (h.parent r hr).mono (hpid hroot) (fun _ => id) fun _ => id
  · rcases h.kept b hb with ⟨r, hr, hrb⟩ | ⟨i, hi, hib, hpar⟩
    · exact Or.inl ⟨r, List.mem_cons_of_mem _ hr, hrb⟩
    · by_cases hic : i = c
      · exact Or.inl ⟨_, List.mem_cons_self, hic ▸ hib⟩
      · refine Or.inr ⟨i, ?_⟩
        rw [hphase hic, hpid hic]
        refine ⟨hi, hib, ?_⟩
        simpa [State.reap, update_of_ne hic] using hpar

theorem step (h : Reports root s) (hslots : Slots root s) (hbirths : Births root s)
    (hexits : Exits s) (hs : Step root s t) : Reports root t := by
  cases hs with
  | skip => exact ⟨h.nodup, h.exited, h.gone, h.parent, h.kept⟩
  | make p c hp hm hc => exact h.make hslots hexits hc
  | link p c hm => exact h.link hslots hm
  | start p c hm => exact h.start hslots hm
  | exit p status hp hm hr => exact h.exit status hp
  | reap p c hp hc hz => exact h.reap hslots hbirths hexits hc hz

end Reports

/-! ## All of it -/

/-- The invariant of a family. -/
structure Sound [Zero ω] (root : ι) (s : State ι ω) : Prop where
  slots : Slots root s
  births : Births root s
  exits : Exits s
  reports : Reports root s

theorem Sound.step (h : Sound root s) (hs : Step root s t) : Sound root t where
  slots := h.slots.step hs
  births := h.births.step h.slots hs
  exits := h.exits.step h.slots hs
  reports := h.reports.step h.slots h.births h.exits hs

omit [DecidableEq ι] in
/-- A family that consists of its root. -/
theorem Sound.single (hroot : s.phase root = .live) (hfree : ∀ i, i ≠ root → s.phase i = .free)
    (hpid : 0 < s.pid root ∧ s.pid root < s.next)
    (hzero : ∀ i, i ≠ root → s.pid i = 0 ∧ s.status i = 0)
    (hparent : ∀ i, s.parent i = none) (hmaking : ∀ i, s.making i = none) (hb : s.births = [])
    (he : s.exits = []) (hr : s.reports = []) :
    Sound root s := by
  refine ⟨?_, ?_, ?_, ?_⟩ <;> constructor <;> grind [State.Exited]

/-- A zombie keeps its slot until its parent collects its pid and its status. -/
theorem Step.zombie (hs : Step root s t) (h : Slots root s) {i : ι} (hz : s.phase i = .zombie) :
    t.phase i = .zombie ∧ t.pid i = s.pid i ∧ t.status i = s.status i ∨
      ∃ p, s.parent i = some p ∧ t = s.reap p i := by
  have hne {k : ι} (hk : s.phase k ≠ .zombie) : i ≠ k := by
    rintro rfl
    exact hk hz
  cases hs with
  | skip => exact Or.inl ⟨hz, rfl, rfl⟩
  | make p c hp hm hc =>
    have hic : i ≠ c := hne (by simp [hc])
    exact Or.inl ⟨by simpa [State.make, hic] using hz, by simp [State.make, hic], rfl⟩
  | link p c hm => exact Or.inl ⟨hz, rfl, rfl⟩
  | start p c hm =>
    have hic : i ≠ c := hne (by simp [(h.making_live p c true hm).2])
    exact Or.inl ⟨by simpa [State.start, hic] using hz, rfl, rfl⟩
  | exit p status hp hm hr =>
    have hip : i ≠ p := hne (by simp [hp])
    exact Or.inl ⟨by simpa [State.exit, hip] using hz, rfl, by simp [State.exit, hip]⟩
  | reap p c hp hc hzc =>
    by_cases hic : i = c
    · subst hic
      exact Or.inr ⟨p, hc, rfl⟩
    · exact Or.inl
        ⟨by simpa [State.reap, hic] using hz, by simp [State.reap, hic], by simp [State.reap, hic]⟩

omit [DecidableEq ι] in
/-- A live process without children has collected every process that it made. -/
theorem Sound.collected (h : Sound root s) (hp : s.phase p = .live)
    (hnone : ∀ i, s.parent i ≠ some p) {child : ℕ} (hb : (child, s.pid p) ∈ s.births) :
    ∃ r ∈ s.reports, r.child = child := by
  rcases h.reports.kept _ hb with hr | ⟨i, hi, hpid, hpar⟩
  · exact hr
  · obtain ⟨j, hj⟩ := Option.ne_none_iff_exists'.mp hpar
    obtain ⟨creator, hborn, hraise⟩ := h.births.parent i j hj
    -- The child was made once, so its creator is `p`.
    have hcreator : creator = s.pid p := by
      rw [hpid] at hborn
      exact congrArg Prod.snd (List.inj_on_of_nodup_map h.births.nodup hborn hb rfl)
    subst hcreator
    rcases hraise with hjp | ⟨-, hexited⟩
    · have hjlive := h.slots.parent_live i j hj
      exact absurd (h.slots.inj j p (by simp [hjlive]) (by simp [hp]) hjp ▸ hj) (hnone i)
    · exact absurd hexited (h.exits.running p (Or.inr hp))

end Steps

end Family
