import Mathlib

/-!
# First and last hit in a table

A loop over a fixed table that stops at the first entry of a kind finds the
entry with the least index; one that keeps overwriting its result ends with the
entry of the greatest index.
-/

namespace Xv6Containers.Lib.Search

/-- The first index of the table that satisfies `p`. -/
def first {n : Nat} (p : Fin n → Bool) : Option (Fin n) := (List.finRange n).find? p

variable {n : Nat} {p : Fin n → Bool}

theorem first_eq_some {i : Fin n} : first p = some i ↔ p i = true ∧ ∀ j < i, p j = false := by
  unfold first
  rw [List.find?_eq_some_iff_getElem]
  constructor
  · rintro ⟨hp, k, hk, hi, hbefore⟩
    have hik : i.val = k := by simp [← hi]
    refine ⟨hp, fun j hj => ?_⟩
    have hlt : j.val < k := by omega
    simpa using hbefore j.val hlt
  · rintro ⟨hp, hbefore⟩
    refine ⟨hp, i.val, by simp, by simp, fun j hj => ?_⟩
    have hfalse := hbefore ⟨j, by omega⟩ hj
    simpa using hfalse

theorem first_eq_none : first p = none ↔ ∀ i, p i = false := by
  simp [first]

/-- The last index of the table that satisfies `p`. -/
def last {n : Nat} (p : Fin n → Bool) : Option (Fin n) := (List.finRange n).reverse.find? p

theorem last_eq_first (p : Fin n → Bool) : last p = (first fun i => p i.rev).map Fin.rev := by
  rw [last, List.finRange_reverse, List.find?_map]
  rfl

theorem last_eq_some {i : Fin n} : last p = some i ↔ p i = true ∧ ∀ j, i < j → p j = false := by
  rw [last_eq_first, Option.map_eq_some_iff]
  constructor
  · rintro ⟨k, hk, rfl⟩
    obtain ⟨hp, hbefore⟩ := first_eq_some.mp hk
    refine ⟨hp, fun j hj => ?_⟩
    have hrev := hbefore j.rev (Fin.rev_lt_iff.mpr hj)
    rwa [Fin.rev_rev] at hrev
  · rintro ⟨hp, hafter⟩
    refine ⟨i.rev, first_eq_some.mpr ⟨?_, fun j hj => ?_⟩, Fin.rev_rev i⟩
    · rwa [Fin.rev_rev]
    · exact hafter _ (Fin.lt_rev_iff.mpr hj)

theorem last_eq_none : last p = none ↔ ∀ i, p i = false := by
  simp [last]

/-- The loop that keeps the last hit. -/
theorem foldl_eq_last (p : Fin n → Bool) (z : Fin n) :
    (List.finRange n).foldl (fun c i => if p i then i else c) z = (last p).getD z := by
  unfold last
  generalize List.finRange n = l
  induction l generalizing z with
  | nil => rfl
  | cons a l ih =>
    rw [List.foldl_cons, ih, List.reverse_cons, List.find?_append]
    cases l.reverse.find? p with
    | some b => rfl
    | none => by_cases ha : p a = true <;> simp [ha]

end Xv6Containers.Lib.Search
