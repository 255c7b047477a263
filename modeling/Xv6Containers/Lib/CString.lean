import Xv6Containers.Lib.Memory

/-!
# C strings

A C string is the list of bytes before the terminating zero, so it holds no zero
itself. The comparison functions follow the loops of the C library; on strings
they decide equality, on the whole or on the first `n` bytes.
-/

namespace Xv6Containers.Lib.Strings

open Memory

/-- The bytes of a string, without the terminating zero. -/
@[ext]
structure CString where
  bytes : List Byte
  no_nul : (0 : Byte) ∉ bytes
  deriving DecidableEq

theorem nul_not_mem_nil : (0 : Byte) ∉ ([] : List Byte) := List.not_mem_nil

/-- The string that starts at the head of a stretch of memory. -/
def ofBytes (bs : List Byte) : CString where
  bytes := bs.takeWhile (· ≠ 0)
  no_nul := fun h => by simpa using List.mem_takeWhile_imp h

/-- The bytes that stand in memory for a string. -/
def toBytes (s : CString) : List Byte := s.bytes ++ [0]

def strlen (s : CString) : Nat := s.bytes.length

/-- `strcmp`: the loop runs while both bytes are equal and not zero. -/
def strcmp : List Byte → List Byte → Int
  | [], [] => 0
  | [], q :: _ => -(q.toNat : Int)
  | p :: _, [] => p.toNat
  | p :: ps, q :: qs => if p = q then strcmp ps qs else (p.toNat : Int) - q.toNat

/-- `strncmp`: the same loop, for at most `n` bytes. -/
def strncmp : Nat → List Byte → List Byte → Int
  | 0, _, _ => 0
  | _ + 1, [], [] => 0
  | _ + 1, [], q :: _ => -(q.toNat : Int)
  | _ + 1, p :: _, [] => p.toNat
  | n + 1, p :: ps, q :: qs => if p = q then strncmp n ps qs else (p.toNat : Int) - q.toNat

theorem toNat_ne_zero {b : Byte} (h : b ≠ 0) : b.toNat ≠ 0 :=
  fun hz => h (UInt8.toNat_inj.mp hz)

theorem toNat_sub_ne_zero {p q : Byte} (h : p ≠ q) : (p.toNat : Int) - q.toNat ≠ 0 := by
  intro hz
  exact h (UInt8.toNat_inj.mp (by omega))

/-- On strings `strncmp` compares the first `n` bytes. -/
theorem strncmp_eq_zero_iff {n : Nat} {p q : List Byte} (hp : (0 : Byte) ∉ p)
    (hq : (0 : Byte) ∉ q) : strncmp n p q = 0 ↔ p.take n = q.take n := by
  induction n generalizing p q with
  | zero => simp [strncmp]
  | succ n ih =>
    cases p with
    | nil =>
      cases q with
      | nil => simp [strncmp]
      | cons y ys =>
        have hy := toNat_ne_zero (b := y) fun h => hq (by simp [h])
        simp only [strncmp, List.take_nil, List.take_succ_cons, reduceCtorEq, iff_false]
        omega
    | cons x xs =>
      cases q with
      | nil =>
        have hx := toNat_ne_zero (b := x) fun h => hp (by simp [h])
        simp only [strncmp, List.take_nil, List.take_succ_cons, reduceCtorEq, iff_false]
        omega
      | cons y ys =>
        have hps : (0 : Byte) ∉ xs := fun h => hp (by simp [h])
        have hqs : (0 : Byte) ∉ ys := fun h => hq (by simp [h])
        by_cases hxy : x = y
        · simp [strncmp, hxy, ih hps hqs]
        · simp [strncmp, hxy, toNat_sub_ne_zero hxy]

/-- `strcmp` is `strncmp` without a limit. -/
theorem strcmp_eq_strncmp {p q : List Byte} {n : Nat} (hp : p.length < n) (hq : q.length < n) :
    strcmp p q = strncmp n p q := by
  induction n generalizing p q with
  | zero => simp at hp
  | succ n ih =>
    cases p <;> cases q <;> simp only [strcmp, strncmp]
    rw [ih (by simpa using hp) (by simpa using hq)]

/-- On strings `strcmp` decides equality. -/
theorem strcmp_eq_zero_iff (p q : CString) : strcmp p.bytes q.bytes = 0 ↔ p = q := by
  have hp : p.bytes.length < p.bytes.length + q.bytes.length + 1 := by omega
  have hq : q.bytes.length < p.bytes.length + q.bytes.length + 1 := by omega
  rw [strcmp_eq_strncmp hp hq, strncmp_eq_zero_iff p.no_nul q.no_nul, List.take_of_length_le hp.le,
    List.take_of_length_le hq.le]
  exact CString.ext_iff.symm

/-- Two strings of one length that agree in that many bytes are equal. -/
theorem strlen_strncmp_iff (p q : CString) :
    strlen p = strlen q ∧ strncmp (strlen p) p.bytes q.bytes = 0 ↔ p = q := by
  rw [strncmp_eq_zero_iff p.no_nul q.no_nul]
  constructor
  · rintro ⟨hlen, htake⟩
    rw [strlen, List.take_length, ← strlen, hlen, strlen, List.take_length] at htake
    exact CString.ext htake
  · rintro rfl
    exact ⟨rfl, rfl⟩

/-! ## Strings in memory

Memory from a pointer on is a list of bytes; what lies behind the list counts as
zeros. -/

end Xv6Containers.Lib.Strings
