import Mathlib

/-!
# Linear congruential generators

The map `x ↦ a * x + c` on a commutative ring in which `2 ^ (n + 1)` is zero and `2 ^ n`
is not, such as the words of `n + 1` bits. Where `a` is one more than a multiple of 4 and
`c` is odd, every point has the period `2 ^ (n + 1)`.

## Implementation notes

The iterates have the coefficients `a ^ m` and `1 + a + ... + a ^ (m - 1)`. Both are
followed along the powers of two, where doubling `m` squares the first one and
multiplies the second one by an even number that is not a multiple of 4.
-/

namespace Xv6Containers.Lib.Congruential

open Function Finset

/-- On a finite type the points up to the period are all points if the period is long enough. -/
theorem bijective_iterate {α : Type*} [Finite α] {f : α → α} {x : α} {N : ℕ}
    (hcard : Nat.card α = N) (hperiod : minimalPeriod f x = N) :
    Bijective fun k : Fin N => f^[k] x := by
  rw [Nat.bijective_iff_injective_and_card]
  constructor
  · intro k l hkl
    have hk : (k : ℕ) < minimalPeriod f x := hperiod ▸ k.isLt
    have hl : (l : ℕ) < minimalPeriod f x := hperiod ▸ l.isLt
    exact Fin.ext (iterate_injOn_Iio_minimalPeriod hk hl hkl)
  · rw [Nat.card_fin, hcard]

variable {R : Type*} [CommRing R]

/-- One step of the generator. -/
def affine (a c x : R) : R := a * x + c

theorem iterate_affine (a c x : R) (m : ℕ) :
    (affine a c)^[m] x = a ^ m * x + (∑ i ∈ range m, a ^ i) * c := by
  induction m with
  | zero => simp
  | succ m ih =>
    rw [iterate_succ_apply', ih, geom_sum_succ]
    simp only [affine]
    ring

/-- The sum over twice as many powers. -/
theorem geom_sum_double (a : R) (m : ℕ) :
    ∑ i ∈ range (m + m), a ^ i = (1 + a ^ m) * ∑ i ∈ range m, a ^ i := by
  rw [sum_range_add, add_mul, one_mul, mul_sum]
  congr 1
  apply sum_congr rfl
  intro i _
  exact pow_add a m i

variable (t s : R)

theorem pow_two_pow (k : ℕ) : ∃ u, (1 + 4 * t) ^ 2 ^ k = 1 + 2 ^ (k + 2) * u := by
  induction k with
  | zero => exact ⟨t, by ring⟩
  | succ k ih =>
    obtain ⟨u, hu⟩ := ih
    refine ⟨u + 2 ^ (k + 1) * u ^ 2, ?_⟩
    rw [pow_succ, pow_mul, hu]
    ring

theorem geom_sum_two_pow (k : ℕ) :
    ∃ u, ∑ i ∈ range (2 ^ k), (1 + 4 * t) ^ i = 2 ^ k * (1 + 2 * u) := by
  induction k with
  | zero => exact ⟨0, by simp⟩
  | succ k ih =>
    obtain ⟨u, hu⟩ := ih
    obtain ⟨v, hv⟩ := pow_two_pow t k
    refine ⟨u + 2 ^ k * v * (1 + 2 * u), ?_⟩
    rw [pow_succ, mul_two, geom_sum_double, hu, hv]
    ring

/-- `2 ^ k` steps add `2 ^ k`, up to a multiple of its double. -/
theorem iterate_two_pow (x : R) (k : ℕ) :
    ∃ u, (affine (1 + 4 * t) (1 + 2 * s))^[2 ^ k] x = x + 2 ^ k + 2 ^ (k + 1) * u := by
  obtain ⟨u, hu⟩ := pow_two_pow t k
  obtain ⟨v, hv⟩ := geom_sum_two_pow t k
  refine ⟨2 * u * x + v + s + 2 * v * s, ?_⟩
  rw [iterate_affine, hu, hv]
  ring

/-- No point comes back before the generator has made `2 ^ (n + 1)` steps. -/
theorem minimalPeriod_affine {n : ℕ} (hzero : (2 : R) ^ (n + 1) = 0) (hhalf : (2 : R) ^ n ≠ 0)
    (x : R) : minimalPeriod (affine (1 + 4 * t) (1 + 2 * s)) x = 2 ^ (n + 1) := by
  have : Fact (Nat.Prime 2) := ⟨Nat.prime_two⟩
  apply minimalPeriod_eq_prime_pow
  · intro hback
    obtain ⟨u, hu⟩ := iterate_two_pow t s x n
    apply hhalf
    linear_combination hu.symm.trans hback - u * hzero
  · obtain ⟨u, hu⟩ := iterate_two_pow t s x (n + 1)
    apply hu.trans
    linear_combination (1 + 2 * u) * hzero

end Xv6Containers.Lib.Congruential
