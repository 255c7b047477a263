import Xv6Containers.Container.Process

/-!
# CPU shares

`c_proc_data` of `proc.c`, which lists the processes of a container with the
share that each has in the ticks of all of them.

## Implementation notes

The first loop holds `ptable.lock` and sees one process table. The second does not
hold it, so each of its rounds sees the table and the containers as they are then.
`ticks` is a `uint`, and the `int` total takes part in the division as one. The
texts that are printed along with the percentages are left out.
-/

namespace Xv6Containers

open Lib.Memory Lib.Strings

namespace Container

/-- `struct proc`, as far as `c_proc_data` uses it. -/
structure Usage where
  state : ProcState
  cont : Option Cont
  ticks : UInt32

/-- The process table and the containers at one time. -/
structure Snapshot where
  proc : ProcSlot → Usage
  table : Table

namespace Snapshot

/-- The test of both loops. -/
def Listed (s : Snapshot) (nm : CString) (q : ProcSlot) : Prop :=
  (s.proc q).state ≠ .unused ∧
    match (s.proc q).cont with
    | none => False
    | some c => strcmp (name s.table c).bytes nm.bytes = 0

instance (s : Snapshot) (nm : CString) (q : ProcSlot) : Decidable (s.Listed nm q) := by
  unfold Listed
  cases (s.proc q).cont <;> infer_instance

/-- The ticks that a loop collects when its round for slot `q` sees `s q`. -/
def listedTicks (s : ProcSlot → Snapshot) (nm : CString) : List UInt32 :=
  ((List.finRange nproc).filter fun q => (s q).Listed nm q).map fun q => ((s q).proc q).ticks

end Snapshot

open Snapshot

/-- `x->ticks*100/total` for each row; `none` is a division by zero. -/
def percentages (total : UInt32) : List UInt32 → Option (List UInt32)
  | [] => some []
  | t :: ts => if total = 0 then none else (percentages total ts).map (t * 100 / total :: ·)

/-- The percentages that `c_proc_data` prints. -/
def cProcData (s : Snapshot) (later : ProcSlot → Snapshot) (nm : CString) : Option (List UInt32) :=
  percentages ((listedTicks (fun _ => s) nm).foldl (· + ·) 0) (listedTicks later nm)

/-- The sum of tick counts. -/
def sumTicks (l : List UInt32) : Nat := (l.map UInt32.toNat).sum

/-- There is no division by zero, no percentage is above 100, and they sum to at most 100. -/
def SharesOk (s : Snapshot) (later : ProcSlot → Snapshot) (nm : CString) : Prop :=
  ∃ l, cProcData s later nm = some l ∧ (∀ x ∈ l, x.toNat ≤ 100) ∧ sumTicks l ≤ 100

/-- The second loop lists nothing; or the total neither is zero nor wraps around, and the ticks
of the second loop do not exceed it. -/
def TotalOk (s : Snapshot) (later : ProcSlot → Snapshot) (nm : CString) : Prop :=
  listedTicks later nm = [] ∨
    0 < sumTicks (listedTicks (fun _ => s) nm) ∧ sumTicks (listedTicks (fun _ => s) nm) < 2 ^ 32 ∧
      sumTicks (listedTicks later nm) ≤ sumTicks (listedTicks (fun _ => s) nm)

@[simp] theorem sumTicks_nil : sumTicks [] = 0 := rfl

@[simp] theorem sumTicks_cons (t : UInt32) (l : List UInt32) :
    sumTicks (t :: l) = t.toNat + sumTicks l := List.sum_cons

theorem toNat_foldl (l : List UInt32) (t : UInt32) :
    (l.foldl (· + ·) t).toNat = (t.toNat + sumTicks l) % 2 ^ 32 := by
  induction l generalizing t with
  | nil => exact (Nat.mod_eq_of_lt t.toNat_lt).symm
  | cons x l ih =>
    rw [List.foldl_cons, ih, UInt32.toNat_add, Nat.mod_add_mod, sumTicks_cons, Nat.add_assoc]

theorem percentages_eq {total : UInt32} (htotal : total ≠ 0) (l : List UInt32) :
    percentages total l = some (l.map fun t => t * 100 / total) := by
  induction l with
  | nil => rfl
  | cons t l ih => rw [percentages, if_neg htotal, ih, Option.map_some, List.map_cons]

theorem percentages_zero {l : List UInt32} (hne : l ≠ []) : percentages 0 l = none := by
  cases l with
  | nil => exact absurd rfl hne
  | cons t l => rw [percentages, if_pos rfl]

/-- A product that wraps around only makes a percentage smaller. -/
theorem toNat_percentage_le (t total : UInt32) :
    (t * 100 / total).toNat ≤ t.toNat * 100 / total.toNat := by
  rw [UInt32.toNat_div, UInt32.toNat_mul]
  exact Nat.div_le_div_right (Nat.mod_le _ _)

/-- Rounding down each share does not make the sum larger. -/
theorem sumTicks_percentages_le (total : UInt32) (l : List UInt32) :
    sumTicks (l.map fun t => t * 100 / total) ≤ sumTicks l * 100 / total.toNat := by
  induction l with
  | nil => simp
  | cons t l ih =>
    rw [List.map_cons, sumTicks_cons, sumTicks_cons, Nat.add_mul]
    calc (t * 100 / total).toNat + sumTicks (l.map fun t => t * 100 / total)
        ≤ t.toNat * 100 / total.toNat + sumTicks l * 100 / total.toNat :=
          Nat.add_le_add (toNat_percentage_le t total) ih
      _ ≤ (t.toNat * 100 + sumTicks l * 100) / total.toNat := Nat.div_add_div_le_add_div

theorem le_sumTicks {x : UInt32} {l : List UInt32} (h : x ∈ l) : x.toNat ≤ sumTicks l :=
  List.le_sum_of_mem (List.mem_map_of_mem h)

theorem shares_of_total {s : Snapshot} {later : ProcSlot → Snapshot} {nm : CString}
    (h : TotalOk s later nm) : SharesOk s later nm := by
  rcases h with hnone | ⟨hpos, hlt, hle⟩
  · exact ⟨[], by rw [cProcData, hnone, percentages], by simp, by simp⟩
  · have htotal := toNat_foldl (listedTicks (fun _ => s) nm) 0
    rw [UInt32.toNat_zero, Nat.zero_add, Nat.mod_eq_of_lt hlt] at htotal
    generalize hsum : (listedTicks (fun _ => s) nm).foldl (· + ·) 0 = total at htotal
    have hne : total ≠ 0 := by
      rintro rfl
      rw [UInt32.toNat_zero] at htotal
      omega
    have hbound : sumTicks ((listedTicks later nm).map fun t => t * 100 / total) ≤ 100 := by
      apply (sumTicks_percentages_le total _).trans
      rw [htotal]
      exact Nat.div_le_of_le_mul (Nat.mul_le_mul_right 100 hle)
    refine ⟨_, ?_, fun x hx => (le_sumTicks hx).trans hbound, hbound⟩
    rw [cProcData, hsum, percentages_eq hne]

/-- A total of zero is used as soon as one process is listed. -/
theorem total_of_shares {s : Snapshot} {later : ProcSlot → Snapshot} {nm : CString}
    (h : SharesOk s later nm) :
    listedTicks later nm = [] ∨ sumTicks (listedTicks (fun _ => s) nm) % 2 ^ 32 ≠ 0 := by
  obtain ⟨l, hl, -⟩ := h
  by_contra hcontra
  obtain ⟨hne, hzero⟩ := not_or.mp hcontra
  rw [not_not] at hzero
  have htotal := toNat_foldl (listedTicks (fun _ => s) nm) 0
  rw [UInt32.toNat_zero, Nat.zero_add, hzero] at htotal
  rw [cProcData, UInt32.toNat_inj.mp (htotal.trans UInt32.toNat_zero.symm),
    percentages_zero hne] at hl
  cases hl

/-- A container with one process that was just forked. -/
def freshSnapshot : Snapshot where
  proc := fun q => if q = 0 then ⟨.runnable, some 0, 0⟩ else ⟨.unused, none, 0⟩
  table := blit (fun _ => 0) (address 0 nameOffset) [97]

end Container

end Xv6Containers
