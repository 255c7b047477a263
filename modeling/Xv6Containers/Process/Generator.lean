import Xv6Containers.Lib.Congruential
import Xv6Containers.Process.Choice

/-!
# The generator of the scheduler

`rand` is a linear congruential generator modulo `2 ^ 32`. The variable `next` takes all
its values before one comes back. So `rand` returns zero and other values again and
again, and as long as containers are in use again and again, neither they nor the
processes outside of containers are passed over for good.

## Implementation notes

`get_cticks` does not call `rand` while no container is in use. The containers and their
ticks change between its calls, so a sequence of calls has a table for each of them.
-/

namespace Xv6Containers

open Function Lib.Congruential

namespace Process

open Container

/-- The statement `next = next * 1103515245 + 12345` of `rand`. -/
def advance (next : BitVec 32) : BitVec 32 := next * 1103515245#32 + 12345#32

/-- The `int` that `rand` returns: a signed division, and the remainder of the unsigned word. -/
def randInt (next : BitVec 32) : BitVec 32 := ((advance next).sdiv 65536#32).umod 7#32

/-- The variable `next` before call `k` of `get_cticks`, which finds the table `tables k`. -/
def nextBefore (tables : ℕ → Table) (next : BitVec 32) : ℕ → BitVec 32
  | 0 => next
  | k + 1 => (drawCticks (tables k) (nextBefore tables next k)).2

/-- What call `k` of `get_cticks` returns. -/
def drawnAt (tables : ℕ → Table) (next : BitVec 32) (k : ℕ) : Option Cont :=
  (drawCticks (tables k) (nextBefore tables next k)).1

variable (next : BitVec 32)

/-! ## The period -/

theorem advance_eq : advance = affine (1 + 4 * 275878811#32) (1 + 2 * 6172#32) := by
  funext next
  exact congrArg (· + 12345#32) (mul_comm ..)

instance finite_bitVec (w : ℕ) : Finite (BitVec w) := Finite.of_injective _ BitVec.toFin_injective

theorem card_bitVec (w : ℕ) : Nat.card (BitVec w) = 2 ^ w :=
  (Nat.card_congr BitVec.equivFin.toEquiv).trans (Nat.card_fin _)

theorem minimalPeriod_advance : minimalPeriod advance next = 2 ^ 32 := by
  rw [advance_eq]
  apply minimalPeriod_affine (n := 31)
  · decide +kernel
  · decide +kernel

theorem advance_bijective : Bijective fun k : Fin (2 ^ 32) => advance^[k] next :=
  bijective_iterate (card_bitVec 32) (minimalPeriod_advance next)

/-- Every value of `next` is reached, and again after any number of calls. -/
theorem exists_advance (value : BitVec 32) (i : ℕ) : ∃ k, i ≤ k ∧ advance^[k] next = value := by
  obtain ⟨k, hk⟩ := (advance_bijective (advance^[i] next)).surjective value
  refine ⟨k + i, Nat.le_add_left i k, ?_⟩
  rw [iterate_add_apply]
  exact hk

/-! ## What `rand` returns -/

theorem rand_snd : (rand next).2 = advance next := rfl

theorem randInt_toNat : (randInt next).toNat = (rand next).1 := BitVec.toNat_umod

theorem rand_eq_zero_iff : (rand next).1 = 0 ↔ randInt next = 0 := by
  rw [← BitVec.toNat_inj, randInt_toNat, Fin.ext_iff]
  rfl

theorem randInt_toInt : (randInt next).toInt = (rand next).1.val := by
  have hlt := (rand next).1.isLt
  rw [BitVec.toInt_eq_toNat_of_lt, randInt_toNat]
  rw [randInt_toNat]
  omega

/-- `rand` returns again and again what it computes from any value of `next`. -/
theorem exists_randInt (value : BitVec 32) (i : ℕ) :
    ∃ k, i ≤ k ∧ randInt (advance^[k] next) = (value.sdiv 65536#32).umod 7#32 := by
  obtain ⟨k, hk, hvalue⟩ := exists_advance (advance next) value i
  rw [← iterate_succ_apply, iterate_succ_apply'] at hvalue
  exact ⟨k, hk, by rw [randInt, hvalue]⟩

theorem exists_randInt_eq_zero (i : ℕ) : ∃ k, i ≤ k ∧ randInt (advance^[k] next) = 0 := by
  obtain ⟨k, hk, hzero⟩ := exists_randInt next 0 i
  refine ⟨k, hk, hzero.trans ?_⟩
  decide +kernel

theorem exists_randInt_ne_zero (i : ℕ) : ∃ k, i ≤ k ∧ randInt (advance^[k] next) ≠ 0 := by
  obtain ⟨k, hk, hone⟩ := exists_randInt next 65536 i
  refine ⟨k, hk, ?_⟩
  rw [hone]
  decide +kernel

/-! ## What `get_cticks` returns -/

section Calls

variable (tables : ℕ → Table)

/-- The calls that find a container in use are those that call `rand`. -/
theorem nextBefore_eq (k : ℕ) :
    nextBefore tables next k = advance^[Nat.count (fun i => getUsed (tables i) ≠ 0) k] next := by
  induction k with
  | zero => rfl
  | succ k ih =>
    rw [nextBefore, drawCticks, Nat.count_succ]
    by_cases hused : getUsed (tables k) = 0
    · rw [if_pos hused, if_neg (not_not.mpr hused), Nat.add_zero, ih]
    · rw [if_neg hused, if_pos hused, iterate_succ_apply', ← ih, rand_snd]

/-- What `rand` returns again and again it returns to `get_cticks` while a container is in use. -/
theorem exists_call (hused : ∀ i, ∃ k, i ≤ k ∧ getUsed (tables k) ≠ 0) (P : BitVec 32 → Prop)
    (hrand : ∀ i, ∃ k, i ≤ k ∧ P (randInt (advance^[k] next))) (i : ℕ) :
    ∃ k, i ≤ k ∧ getUsed (tables k) ≠ 0 ∧ P (randInt (nextBefore tables next k)) := by
  have hinf : (Set.ofPred fun i => getUsed (tables i) ≠ 0).Infinite := by
    apply Set.infinite_of_forall_exists_gt
    intro i
    obtain ⟨k, hk, hin⟩ := hused (i + 1)
    exact ⟨k, hin, hk⟩
  obtain ⟨k, hk, hP⟩ := hrand i
  refine ⟨Nat.nth (fun i => getUsed (tables i) ≠ 0) k, ?_, Nat.nth_mem_of_infinite hinf k, ?_⟩
  · exact hk.trans (Nat.nth_strictMono hinf).le_apply
  · rwa [nextBefore_eq, Nat.count_nth_of_infinite hinf]

end Calls

/-- The generator starves neither side. From every value of `next` it takes all `2 ^ 32` values
before it comes back to the first one; `rand` returns an `int` from 0 to 6, zero and other values
again and again; and in every sequence of calls of `get_cticks` that find a container in use again
and again, some of these return -1 and some a container, again and again. -/
theorem generator_starves_neither :
    (Bijective fun k : Fin (2 ^ 32) => advance^[k] next) ∧ advance^[2 ^ 32] next = next ∧
    (0 ≤ (randInt next).toInt ∧ (randInt next).toInt ≤ 6) ∧
    (∀ i, (∃ k, i ≤ k ∧ randInt (advance^[k] next) = 0) ∧
      ∃ k, i ≤ k ∧ randInt (advance^[k] next) ≠ 0) ∧
    ∀ tables : ℕ → Table, (∀ i, ∃ k, i ≤ k ∧ getUsed (tables k) ≠ 0) →
      ∀ i, (∃ k, i ≤ k ∧ getUsed (tables k) ≠ 0 ∧ drawnAt tables next k = none) ∧
        ∃ k, i ≤ k ∧ ∃ c, drawnAt tables next k = some c := by
  refine ⟨advance_bijective next, ?_, ?_, fun i => ⟨?_, ?_⟩, fun tables hused i => ⟨?_, ?_⟩⟩
  · rw [← minimalPeriod_advance next]
    exact iterate_minimalPeriod
  · have hlt := (rand next).1.isLt
    rw [randInt_toInt]
    omega
  · exact exists_randInt_eq_zero next i
  · exact exists_randInt_ne_zero next i
  · obtain ⟨k, hk, hin, hzero⟩ :=
      exists_call next tables hused (· = 0) (exists_randInt_eq_zero next) i
    exact ⟨k, hk, hin, drawCticks_none (.inr ((rand_eq_zero_iff _).mpr hzero))⟩
  · obtain ⟨k, hk, hin, hother⟩ :=
      exists_call next tables hused (· ≠ 0) (exists_randInt_ne_zero next) i
    refine ⟨k, hk, _, drawCticks_eq ?_ ((rand_eq_zero_iff _).not.mpr hother)⟩
    simpa using (getUsed_eq_zero_iff (tables k)).not.mp hin

/-- The calls of a scheduler that finds the same two containers in use each time. -/
theorem raceTable_starves_neither :
    getUsed raceTable ≠ 0 ∧ (∃ k, 1 ≤ k ∧ drawnAt (fun _ => raceTable) 1 k = none) ∧
      ∃ k, 1 ≤ k ∧ ∃ c, drawnAt (fun _ => raceTable) 1 k = some c := by
  have hused : getUsed raceTable ≠ 0 := by decide +kernel
  obtain ⟨-, -, -, -, hcalls⟩ := generator_starves_neither 1
  obtain ⟨⟨k, hk, -, hnone⟩, hsome⟩ := hcalls (fun _ => raceTable) (fun i => ⟨i, le_rfl, hused⟩) 1
  exact ⟨hused, ⟨k, hk, hnone⟩, hsome⟩

end Process

end Xv6Containers
