import Mathlib

/-!
# Sums over processes

Counters of a concurrent system are sums over its processes. When one process
moves, only its own term changes.
-/

namespace Xv6Containers.Lib.Counting

variable {P : Type*} [Fintype P] [DecidableEq P]

/-- Two families that differ at one index only have sums that differ by that term. -/
theorem sum_of_eq_off {f g : P → Int} (p : P) (h : ∀ q, q ≠ p → g q = f q) :
    ∑ q, g q = ∑ q, f q - f p + g p := by
  have hf := Finset.sum_erase_add Finset.univ f (Finset.mem_univ p)
  have hg := Finset.sum_erase_add Finset.univ g (Finset.mem_univ p)
  have hoff : ∑ q ∈ Finset.univ.erase p, g q = ∑ q ∈ Finset.univ.erase p, f q :=
    Finset.sum_congr rfl fun q hq => h q (Finset.ne_of_mem_erase hq)
  omega

/-- Moving one process changes a sum of weights by the change of its own weight. -/
theorem sum_update {α : Type*} (w : α → Int) (f : P → α) (p : P) (x : α) :
    ∑ q, w (Function.update f p x q) = ∑ q, w (f q) - w (f p) + w x := by
  have h := sum_of_eq_off (f := fun q => w (f q)) (g := fun q => w (Function.update f p x q)) p
    fun q hq => by rw [Function.update_of_ne hq]
  simpa using h

omit [DecidableEq P] in
theorem le_sum_of_nonneg {f : P → Int} (h : ∀ q, 0 ≤ f q) (p : P) : f p ≤ ∑ q, f q :=
  Finset.single_le_sum (fun q _ => h q) (Finset.mem_univ p)

/-- One term of a sum is exchanged for another. -/
theorem sum_update_add {ι α M : Type*} [DecidableEq ι] [AddCommMonoid M] {s : Finset ι} {i : ι}
    (hi : i ∈ s) (w : ι → α → M) (f : ι → α) (x : α) :
    ∑ j ∈ s, w j (Function.update f i x j) + w i (f i) = ∑ j ∈ s, w j (f j) + w i x := by
  have hoff : ∑ j ∈ s.erase i, w j (Function.update f i x j) = ∑ j ∈ s.erase i, w j (f j) :=
    Finset.sum_congr rfl fun j hj => by rw [Function.update_of_ne (Finset.ne_of_mem_erase hj)]
  rw [← Finset.sum_erase_add s _ hi, ← Finset.sum_erase_add s (fun j => w j (f j)) hi, hoff,
    Function.update_self]
  ac_rfl

end Xv6Containers.Lib.Counting
