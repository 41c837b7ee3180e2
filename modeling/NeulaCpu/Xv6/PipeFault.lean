import NeulaCpu.Xv6.Pipe
import NeulaCpu.Xv6.UserCopies

/-!
# A pipe read that faults

`piperead` together with the user memory that it writes to. It takes a byte out of the ring before
`copyout` can fail, and does not put it back: a fault loses the byte. So the bytes that are gone
from the pipe are the bytes that the return value counts if and only if there is no fault.

* `pipereadTo_eq`: what `Pipe.piperead` leaves open, whether a byte can be copied, is whether its
  address is mapped.
* `readLoop_spec`: the loop with all its faults.
* `stream_advance`, `piperead_all`: what a following read finds.
-/

namespace NeulaCpu.Xv6

open ByteStore (Byte)

/-! ## Copying byte by byte -/

namespace VmState

variable {s : VmState} {pt : ℕ}

/-- `copyout` of the bytes one at a time to the user addresses from `addr + i` on, up to the first
fault; whether all of them were copied. -/
def deliver (pt addr : ℕ) : ℕ → List Byte → VmState → Bool × VmState
  | _, [], s => (true, s)
  | i, ch :: l, s =>
    match s.copyout pt ((addr + i) % 2 ^ 64) [ch] with
    | (true, s) => deliver pt addr (i + 1) l s
    | (false, s) => (false, s)

/-- One byte can be copied to an address that is mapped. -/
theorem copyout_one (s : VmState) (pt va : ℕ) (ch : Byte) :
    (s.copyout pt va [ch]).1 = true ↔ s.Mapped pt va := by
  show (s.copyoutLoop pt 1 va [ch]).1 = true ↔ _
  have hlen : 0 < [ch].length := Nat.one_pos
  by_cases hmapped : s.Mapped pt va
  · have hpa := hmapped.walkaddr_add
    rw [copyoutLoop_succ 0 hlen rfl hpa hmapped]
    exact iff_of_true rfl hmapped
  · rw [copyoutLoop_fail 0 hlen hmapped]
    exact iff_of_false Bool.false_ne_true hmapped

end VmState

/-! ## The bytes in the pipe -/

namespace Pipe

variable {pi : Pipe}

/-- The bytes in the pipe, in order. -/
def stream (pi : Pipe) : List Byte :=
  (List.range (pi.nwrite - pi.nread).toNat).map fun k =>
    pi.data ((pi.nread + BitVec.ofNat 32 k).toNat % pipeSize)

/-- The pipe after `n` bytes have been taken out. -/
def advance (pi : Pipe) (n : ℕ) : Pipe := { pi with nread := pi.nread + BitVec.ofNat 32 n }

theorem stream_of_empty (h : pi.empty = true) : pi.stream = [] := by
  rw [stream, beq_iff_eq.mp h, BitVec.sub_self]
  rfl

theorem stream_of_not_empty (h : ¬ pi.empty = true) : pi.stream = pi.next :: pi.take.stream := by
  have hne : pi.nread ≠ pi.nwrite := fun heq => h (beq_iff_eq.mpr heq)
  have hlen : (pi.nwrite - pi.nread).toNat = (pi.nwrite - (pi.nread + 1)).toNat + 1 := by bv_omega
  have hnext (k : ℕ) : pi.nread + BitVec.ofNat 32 (k + 1) = pi.nread + 1 + BitVec.ofNat 32 k := by
    rw [BitVec.add_assoc, Nat.add_comm, BitVec.ofNat_add]
    rfl
  rw [stream, hlen, List.range_succ_eq_map, List.map_cons, List.map_map]
  simp only [Function.comp_def, Nat.succ_eq_add_one, hnext]
  rw [BitVec.add_zero]
  rfl

theorem advance_zero (pi : Pipe) : pi.advance 0 = pi := by
  rw [advance, BitVec.add_zero]

theorem take_advance (pi : Pipe) (n : ℕ) : pi.take.advance n = pi.advance (n + 1) := by
  rw [advance, advance, take, Nat.add_comm n 1, BitVec.ofNat_add, BitVec.add_assoc]
  rfl

theorem stream_advance {n : ℕ} (hn : n ≤ pi.stream.length) :
    (pi.advance n).stream = pi.stream.drop n := by
  induction n generalizing pi with
  | zero => rw [advance_zero, List.drop_zero]
  | succ n ih =>
    by_cases hempty : pi.empty = true
    · rw [stream_of_empty hempty] at hn
      exact absurd hn (Nat.not_succ_le_zero n)
    · rw [stream_of_not_empty hempty] at hn ⊢
      rw [← take_advance, ih (Nat.le_of_succ_le_succ hn), List.drop_succ_cons]

theorem copyOut_all (left i : ℕ) :
    (copyOut (fun _ => true) left i pi).2.1 = pi.stream.take left := by
  induction left generalizing pi i with
  | zero => rfl
  | succ left ih =>
    rw [copyOut]
    by_cases hempty : pi.empty = true
    · rw [if_pos hempty, stream_of_empty hempty]
      rfl
    · rw [if_neg hempty, if_pos rfl, stream_of_not_empty hempty, List.take_succ_cons, ← ih (i + 1)]

/-- A read to a valid address gets the first bytes of the stream. -/
theorem piperead_all (n : ℤ) :
    (pi.piperead (fun _ => true) false n).2.1 = pi.stream.take n.toNat := by
  unfold piperead
  by_cases hwait : (pi.empty && pi.writeopen) = true
  · rw [if_pos hwait, stream_of_empty (Bool.and_eq_true_iff.mp hwait).1, List.take_nil]
    rfl
  · rw [if_neg hwait]
    exact copyOut_all ..

/-! ## piperead and user memory -/

/-- The copying loop of `piperead` with `left` bytes to go after the first `i`: the return value,
the pipe and memory. -/
def readLoop (pt addr : ℕ) : ℕ → ℕ → Pipe → VmState → ℕ × Pipe × VmState
  | 0, i, pi, vm => (i, pi, vm)
  | left + 1, i, pi, vm =>
    if pi.empty then (i, pi, vm)
    else
      match vm.copyout pt ((addr + i) % 2 ^ 64) [pi.next] with
      | (true, vm) => readLoop pt addr left (i + 1) pi.take vm
      | (false, vm) => (i, pi.take, vm)

/-- A turn of `piperead` of a process with the page table `pt`. -/
def pipereadTo (pi : Pipe) (vm : VmState) (pt addr : ℕ) (killed : Bool) (n : ℤ) :
    Exit × Pipe × VmState :=
  if pi.empty && pi.writeopen then
    if killed then (.returns (-1), pi, vm) else (.sleeps, pi, vm)
  else
    let r := readLoop pt addr n.toNat 0 pi vm
    (.returns r.1, r.2)

section Mapped

variable {vm : VmState} {pt addr : ℕ} {dst : ℕ → Bool}

/-- If no user page is a page of the page table, a byte is copied exactly if its address is
mapped. -/
theorem readLoop_eq (pi : Pipe) (left i : ℕ)
    (hdst : ∀ j, dst j = true ↔ vm.Mapped pt ((addr + j) % 2 ^ 64))
    (hoff : ∀ j, vm.OffTable pt ((addr + j) % 2 ^ 64) 1) :
    (readLoop pt addr left i pi vm).1 = (copyOut dst left i pi).2.2 ∧
      (readLoop pt addr left i pi vm).2.1 = (copyOut dst left i pi).1 := by
  induction left generalizing i pi vm with
  | zero => exact ⟨rfl, rfl⟩
  | succ left ih =>
    rw [readLoop, copyOut]
    by_cases hempty : pi.empty = true
    · rw [if_pos hempty, if_pos hempty]
      exact ⟨rfl, rfl⟩
    rw [if_neg hempty, if_neg hempty]
    obtain ⟨m, hdone⟩ := VmState.copyout_spec ((addr + i) % 2 ^ 64) [pi.next] (hoff i)
    have htable := hdone.copied.table
    have hone := (vm.copyout_one pt ((addr + i) % 2 ^ 64) pi.next).trans (hdst i).symm
    generalize vm.copyout pt ((addr + i) % 2 ^ 64) [pi.next] = r at hone htable
    obtain ⟨ok, vm₁⟩ := r
    cases ok with
    | false =>
      rw [if_neg fun h => Bool.false_ne_true (hone.mpr h)]
      exact ⟨rfl, rfl⟩
    | true =>
      rw [if_pos (hone.mp rfl)]
      refine ih _ (i + 1) (fun j => by rw [hdst, htable.mapped]) fun j k hk e he => ?_
      rw [htable.userPte_eq] at he
      rw [htable.isNode]
      exact hoff j k hk e he

/-- The two models of `piperead` agree. -/
theorem pipereadTo_eq (killed : Bool) (n : ℤ)
    (hdst : ∀ j, dst j = true ↔ vm.Mapped pt ((addr + j) % 2 ^ 64))
    (hoff : ∀ j, vm.OffTable pt ((addr + j) % 2 ^ 64) 1) :
    (pi.pipereadTo vm pt addr killed n).1 = (pi.piperead dst killed n).2.2 ∧
      (pi.pipereadTo vm pt addr killed n).2.1 = (pi.piperead dst killed n).1 := by
  unfold pipereadTo piperead
  split_ifs
  · exact ⟨rfl, rfl⟩
  · exact ⟨rfl, rfl⟩
  · obtain ⟨hret, hpipe⟩ := readLoop_eq pi n.toNat 0 hdst hoff
    exact ⟨congrArg (fun k : ℕ => Exit.returns k) hret, hpipe⟩

end Mapped

/-- The loop copies what it can. Without a fault it takes as many bytes as it returns, with a fault
one more. -/
theorem readLoop_spec (pt addr left i : ℕ) (pi : Pipe) (vm : VmState) :
    ((vm.deliver pt addr i (pi.stream.take left)).1 = true ∧
      ∃ vm', readLoop pt addr left i pi vm =
        (i + (pi.stream.take left).length, pi.advance (pi.stream.take left).length, vm')) ∨
    (vm.deliver pt addr i (pi.stream.take left)).1 = false ∧
      ∃ k < (pi.stream.take left).length, ∃ vm', readLoop pt addr left i pi vm =
        (i + k, pi.advance (k + 1), vm') := by
  induction left generalizing i pi vm with
  | zero => exact .inl ⟨rfl, vm, by rw [List.take_zero, List.length_nil, advance_zero]; rfl⟩
  | succ left ih =>
    rw [readLoop]
    by_cases hempty : pi.empty = true
    · rw [if_pos hempty, stream_of_empty hempty, List.take_nil, List.length_nil, advance_zero]
      exact .inl ⟨rfl, vm, rfl⟩
    · rw [if_neg hempty, stream_of_not_empty hempty, List.take_succ_cons, VmState.deliver,
        List.length_cons]
      rcases vm.copyout pt ((addr + i) % 2 ^ 64) [pi.next] with ⟨ok, vm₁⟩
      cases ok with
      | false =>
        refine .inr ⟨rfl, 0, Nat.succ_pos _, vm₁, ?_⟩
        rw [← take_advance, advance_zero]
        rfl
      | true =>
        rcases ih (i + 1) pi.take vm₁ with ⟨hok, vm', hloop⟩ | ⟨hfault, k, hk, vm', hloop⟩
        · refine .inl ⟨hok, vm', hloop.trans ?_⟩
          rw [take_advance, Nat.add_assoc, Nat.add_comm 1]
        · refine .inr ⟨hfault, k + 1, by omega, vm', hloop.trans ?_⟩
          rw [take_advance, Nat.add_assoc, Nat.add_comm 1]

/-- Exactly `ret` bytes have been taken out, and a following read to a valid address gets the stream
from the next byte on. -/
structure NoLoss (pi pi' : Pipe) (ret : ℕ) : Prop where
  taken : pi' = pi.advance ret
  next : ∀ m, (pi'.piperead (fun _ => true) false m).2.1 = (pi.stream.drop ret).take m.toNat

theorem noLoss_advance {k : ℕ} (hk : k ≤ pi.stream.length) : NoLoss pi (pi.advance k) k :=
  ⟨rfl, fun m => by rw [piperead_all, stream_advance hk]⟩

/-- One byte more has been taken out. -/
theorem not_noLoss_advance_succ (pi : Pipe) (k : ℕ) : ¬ NoLoss pi (pi.advance (k + 1)) k := by
  intro h
  have hnread := congrArg Pipe.nread h.taken
  rw [advance, advance, BitVec.ofNat_add, ← BitVec.add_assoc] at hnread
  generalize pi.nread + BitVec.ofNat 32 k = x at hnread
  bv_omega

/-- A read loses nothing if and only if there is no fault at any of the bytes that it can take; a
fault loses one byte. -/
theorem faulting_read_loses_one (pi : Pipe) (vm : VmState) (pt addr : ℕ) (killed : Bool) (n : ℤ) :
    ((∀ ret : ℕ, (pi.pipereadTo vm pt addr killed n).1 = .returns ret →
          NoLoss pi (pi.pipereadTo vm pt addr killed n).2.1 ret) ↔
        (vm.deliver pt addr 0 (pi.stream.take n.toNat)).1 = true) ∧
      ((vm.deliver pt addr 0 (pi.stream.take n.toNat)).1 = false →
        ∃ ret : ℕ, (pi.pipereadTo vm pt addr killed n).1 = .returns ret ∧
        ret < (pi.stream.take n.toNat).length ∧
        (pi.pipereadTo vm pt addr killed n).2.1 = pi.advance (ret + 1)) := by
  unfold pipereadTo
  by_cases hwait : (pi.empty && pi.writeopen) = true
  · -- nothing to take
    rw [if_pos hwait, stream_of_empty (Bool.and_eq_true_iff.mp hwait).1, List.take_nil]
    refine ⟨iff_of_true (fun ret hret => ?_) rfl, fun h => absurd h.symm Bool.false_ne_true⟩
    cases killed with
    | true =>
      have hneg : (-1 : ℤ) = ret := Exit.returns.inj hret
      omega
    | false => cases hret
  · rw [if_neg hwait]
    rcases readLoop_spec pt addr n.toNat 0 pi vm
      with ⟨hok, vm', hloop⟩ | ⟨hfault, k, hk, vm', hloop⟩
    · rw [hloop, Nat.zero_add]
      refine ⟨iff_of_true (fun ret hret => ?_) hok,
        fun h => absurd (h.symm.trans hok) Bool.false_ne_true⟩
      have hlen : ret = (pi.stream.take n.toNat).length :=
        (Int.ofNat_inj.mp (Exit.returns.inj hret)).symm
      rw [hlen]
      exact noLoss_advance (List.length_take_le' ..)
    · rw [hloop, Nat.zero_add]
      refine ⟨iff_of_false (fun h => not_noLoss_advance_succ pi k (h k rfl)) ?_,
        fun _ => ⟨k, rfl, hk, rfl⟩⟩
      rw [hfault]
      exact Bool.false_ne_true

/-- A pipe with the bytes 7 and 8, just before the counters and the slots wrap around. -/
def twoBytes : Pipe := ⟨fun k => if k = 511 then 7 else 8, -1, 1, true, true⟩

/-- A read of two bytes to the last byte of a page, where the next page is not mapped, returns 1;
the second byte is gone. -/
theorem read_across_page_loses_byte :
    twoBytes.stream = [7, 8] ∧
    (twoBytes.pipereadTo VmState.dataPage 1 4095 false 2).1 = .returns 1 ∧
    ((twoBytes.pipereadTo VmState.dataPage 1 4095 false 2).2.1.piperead (fun _ => true) false
      2).2.1 = [] := by
  decide +kernel

end Pipe

end NeulaCpu.Xv6
