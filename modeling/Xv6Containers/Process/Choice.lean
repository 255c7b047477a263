import Xv6Containers.Process.Machine

/-!
# The choice of a container

`rand` and `get_cticks` of `container.c`. The loop compares the ticks of each
container in use with those of record 0, whether that record is in use or not,
and keeps the last one that has fewer. So the choice is fair exactly when that
last one has the fewest ticks of all, and record 0 is in use where there is none.
-/

namespace Xv6Containers

open Lib.Memory Lib.Strings Lib.Search

namespace Process

open Container

/-- `rand`, with the new value of `next`. -/
def rand (next : BitVec 32) : Fin 7 × BitVec 32 :=
  let next := next * 1103515245#32 + 12345#32
  (⟨(next.sdiv 65536#32).toNat % 7, Nat.mod_lt _ (by decide)⟩, next)

/-- `get_cticks` on the generator, with the new value of `next`. -/
def drawCticks (m : Table) (next : BitVec 32) : Option Cont × BitVec 32 :=
  if getUsed m = 0 then (none, next)
  else (getCticks m (rand next).1, (rand next).2)

theorem strcmp_empty_iff (m : Table) (i : Cont) : strcmp (name m i).bytes [] ≠ 0 ↔ InUse m i :=
  not_congr (strcmp_eq_zero_iff (name m i) emptyName)

theorem getUsed_eq_zero_iff (m : Table) : getUsed m = 0 ↔ ∀ i, ¬ InUse m i := by
  rw [getUsed, List.length_eq_zero_iff, List.filter_eq_nil_iff]
  simp only [List.mem_finRange, true_imp_iff, decide_eq_true_eq, strcmp_empty_iff]

/-- The container is in use and has fewer ticks than record 0. -/
def Leads (m : Table) (i : Cont) : Prop :=
  intField m i .ticks < intField m 0 .ticks ∧ InUse m i

instance (m : Table) (i : Cont) : Decidable (Leads m i) := by
  unfold Leads
  infer_instance

variable {m : Table}

/-- `get_cticks` returns the last container that leads, or record 0. -/
theorem getCticks_eq {r : Fin 7} (hused : ∃ i, InUse m i) (hr : r ≠ 0) :
    getCticks m r = some ((last fun i => Leads m i).getD 0) := by
  have hzero : getUsed m ≠ 0 := by
    rw [Ne, getUsed_eq_zero_iff]
    obtain ⟨i, hi⟩ := hused
    exact fun h => h i hi
  have hround : (fun c i : Cont => if intField m i .ticks < intField m 0 .ticks ∧
      strcmp (name m i).bytes [] ≠ 0 then i else c) =
      fun c i => if decide (Leads m i) = true then i else c := by
    funext c i
    apply if_congr _ rfl rfl
    rw [decide_eq_true_iff, Leads, strcmp_empty_iff]
  rw [getCticks, if_neg hzero, if_neg hr, ← foldl_eq_last, hround]

/-- A container that was chosen is in use and none in use has fewer ticks; none is chosen only
if none is in use or the generator drew 0; and the name that `scheduler` gets is one in use. -/
structure Fair (m : Table) (next : BitVec 32) : Prop where
  inUse : ∀ i, (drawCticks m next).1 = some i → InUse m i
  least : ∀ i, (drawCticks m next).1 = some i → ∀ j, InUse m j →
    ¬ intField m j .ticks < intField m i .ticks
  none : (drawCticks m next).1 = none → (∀ i, ¬ InUse m i) ∨ (rand next).1 = 0
  holder : ∀ nm, holderName m (drawCticks m next).1 = some (some nm) → ∃ i, InUse m i ∧ name m i = nm

/-- The last container that leads has the fewest ticks, and record 0 is in use if none leads. -/
structure LastIsLeast (m : Table) : Prop where
  least : ∀ i, Leads m i → (∀ j, i < j → ¬ Leads m j) → ∀ j, Leads m j →
    intField m i .ticks ≤ intField m j .ticks
  zero : (∀ i, ¬ Leads m i) → InUse m 0

theorem drawCticks_none {next : BitVec 32} (h : (∀ i, ¬ InUse m i) ∨ (rand next).1 = 0) :
    (drawCticks m next).1 = none := by
  unfold drawCticks
  split
  · rfl
  · next hused =>
    rcases h with h | h
    · exact absurd ((getUsed_eq_zero_iff m).mpr h) hused
    · simp only [getCticks, if_neg hused, if_pos h]

theorem drawCticks_eq {next : BitVec 32} (hused : ∃ i, InUse m i) (hr : (rand next).1 ≠ 0) :
    (drawCticks m next).1 = some ((last fun i => Leads m i).getD 0) := by
  have hzero : getUsed m ≠ 0 := by
    rw [Ne, getUsed_eq_zero_iff]
    obtain ⟨i, hi⟩ := hused
    exact fun h => h i hi
  rw [drawCticks, if_neg hzero]
  exact getCticks_eq hused hr

/-- For every table and every state of the generator: the choice is fair exactly when nothing
is chosen, or the last container with fewer ticks than record 0 has the fewest of all and
record 0 is in use where there is none. -/
theorem fair_iff (m : Table) (next : BitVec 32) :
    Fair m next ↔ (∀ i, ¬ InUse m i) ∨ (rand next).1 = 0 ∨ LastIsLeast m := by
  by_cases hnone : (∀ i, ¬ InUse m i) ∨ (rand next).1 = 0
  · have hdraw := drawCticks_none hnone
    constructor
    · intro _
      exact hnone.imp_right Or.inl
    · intro _
      refine ⟨fun i hi => ?_, fun i hi => ?_, fun _ => hnone, fun nm hnm => ?_⟩
      · rw [hdraw] at hi
        cases hi
      · rw [hdraw] at hi
        cases hi
      · rw [hdraw] at hnm
        cases hnm
  · obtain ⟨hused, hr⟩ := not_or.mp hnone
    have hused : ∃ i, InUse m i := by simpa using hused
    have hdraw := drawCticks_eq hused hr
    constructor
    · intro hfair
      refine Or.inr (Or.inr ⟨fun i hi hafter j hj => ?_, fun hempty => ?_⟩)
      · have hlast : last (fun i => Leads m i) = some i := by
          rw [last_eq_some]
          exact ⟨decide_eq_true hi, fun k hk => decide_eq_false (hafter k hk)⟩
        rw [hlast, Option.getD_some] at hdraw
        exact not_lt.mp (hfair.least i hdraw j hj.2)
      · have hlast : last (fun i => Leads m i) = none := by
          rw [last_eq_none]
          exact fun i => decide_eq_false (hempty i)
        rw [hlast, Option.getD_none] at hdraw
        exact hfair.inUse 0 hdraw
    · rintro (hempty | hzero | hlast)
      · exact absurd (Or.inl hempty) hnone
      · exact absurd (Or.inr hzero) hnone
      · have hchosen : ∀ i, (drawCticks m next).1 = some i →
            InUse m i ∧ ∀ j, InUse m j → ¬ intField m j .ticks < intField m i .ticks := by
          intro i hi
          rw [hdraw, Option.some.injEq] at hi
          cases hfind : last (fun i => Leads m i) with
          | none =>
            rw [hfind, Option.getD_none] at hi
            subst hi
            rw [last_eq_none] at hfind
            have hempty : ∀ i, ¬ Leads m i := fun i => of_decide_eq_false (hfind i)
            exact ⟨hlast.zero hempty, fun j hj hlt => hempty j ⟨hlt, hj⟩⟩
          | some k =>
            rw [hfind, Option.getD_some] at hi
            subst hi
            obtain ⟨hk, hafter⟩ := last_eq_some.mp hfind
            have hk : Leads m k := of_decide_eq_true hk
            refine ⟨hk.2, fun j hj hlt => ?_⟩
            have hle := hlast.least k hk (fun i hi => of_decide_eq_false (hafter i hi)) j
              ⟨hlt.trans hk.1, hj⟩
            exact not_lt.mpr hle hlt
        refine ⟨fun i hi => (hchosen i hi).1, fun i hi => (hchosen i hi).2, fun h => ?_,
          fun nm hnm => ?_⟩
        · rw [hdraw] at h
          cases h
        · rw [hdraw, holderName] at hnm
          split at hnm
          · cases hnm
            exact ⟨_, (hchosen _ hdraw).1, rfl⟩
          · cases hnm

/-- Records 1 and 2 are in use with the ticks 3 and 5; record 0 is free and has 9. -/
def raceTable : Table :=
  writeWord (writeWord (writeWord (blit (blit (fun _ => 0) (address 1 nameOffset) [97])
    (address 2 nameOffset) [98]) (address 0 64) 9) (address 1 64) 3) (address 2 64) 5

/-- The container with 5 ticks is chosen, although another one has 3. -/
theorem raceTable_unfair : (rand 1).1 ≠ 0 ∧ (drawCticks raceTable 1).1 = some 2 ∧
    InUse raceTable 1 ∧ intField raceTable 1 .ticks < intField raceTable 2 .ticks ∧
    ¬ Fair raceTable 1 := by
  have hchosen : (drawCticks raceTable 1).1 = some 2 := by decide +kernel
  have hused : InUse raceTable 1 := by decide +kernel
  have hless : intField raceTable 1 .ticks < intField raceTable 2 .ticks := by decide +kernel
  exact ⟨by decide +kernel, hchosen, hused, hless, fun h => h.least 2 hchosen 1 hused hless⟩

end Process

end Xv6Containers
