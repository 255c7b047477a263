import Xv6Containers.Lib.Memory
import Xv6Containers.Vm.PageTable

/-!
# System call arguments

The functions of `syscall.c` that fetch the arguments of a system call from the
memory of the running process: `fetchint`, `fetchstr`, `argint`, `argptr` and
`argstr`.

## Implementation notes

Addresses, sizes and arguments are `uint` values that wrap around; a size of type
`int` is given by its bits. Each function returns what the source stores through
its pointer argument, and the addresses of user memory it reads.
-/

namespace Xv6Containers.Syscall

open Lib.Memory Vm

/-- The running process: its memory, `sz` and the saved `esp`. -/
structure User where
  mem : Mem
  sz : UInt32
  esp : UInt32

/-- A fetched value, `none` for a return value of `-1`, with the addresses that were read. -/
structure Fetch where
  value : Option UInt32
  reads : List Nat

/-- What `fetchstr` does: the pointer in `*pp`, if it is stored, the return value, `none` for
`-1`, and the addresses that were read. -/
structure StringFetch where
  stored : Option UInt32
  length : Option UInt32
  reads : List Nat

variable (u : User)

def fetchint (addr : UInt32) : Fetch :=
  if u.sz ≤ addr ∨ u.sz < addr + 4 then ⟨none, []⟩
  else ⟨some (UInt32.ofNat (readWord u.mem addr.toNat)), (List.range 4).map (addr.toNat + ·)⟩

/-- The loop of `fetchstr` from `s` on, at most `k` rounds of it: the address of the first zero
and the addresses that were read. -/
def scan : Nat → UInt32 → Option UInt32 × List Nat
  | 0, _ => (none, [])
  | k + 1, s =>
    if s < u.sz then
      if u.mem s.toNat = 0 then (some s, [s.toNat])
      else ((scan k (s + 1)).1, s.toNat :: (scan k (s + 1)).2)
    else (none, [])

def fetchstr (addr : UInt32) : StringFetch :=
  if u.sz ≤ addr then ⟨none, none, []⟩
  else
    let r := scan u (u.sz.toNat + 1) addr
    ⟨some addr, r.1.map (· - addr), r.2⟩

/-- `argint`. -/
def argint (n : UInt32) : Fetch := fetchint u (u.esp + 4 + 4 * n)

def argptr (n : UInt32) (size : BitVec 32) : Fetch :=
  match (argint u n).value with
  | none => argint u n
  | some i =>
    if size.toInt < 0 ∨ u.sz ≤ i ∨ u.sz < i + .ofBitVec size then ⟨none, (argint u n).reads⟩
    else ⟨some i, (argint u n).reads⟩

def argstr (n : UInt32) : StringFetch :=
  match (argint u n).value with
  | none => ⟨none, none, (argint u n).reads⟩
  | some addr =>
    let r := fetchstr u addr
    { r with reads := (argint u n).reads ++ r.reads }

/-! ## Integers -/

variable {u}

theorem fetchint_value {addr v : UInt32} (hsz : u.sz.toNat ≤ kernbase)
    (h : (fetchint u addr).value = some v) :
    addr.toNat + 4 ≤ u.sz.toNat ∧ v.toNat = readWord u.mem addr.toNat := by
  unfold fetchint at h
  split at h
  · cases h
  · next hin =>
    have hlt := readWord_lt u.mem addr.toNat
    simp only [UInt32.le_iff_toNat_le, UInt32.lt_iff_toNat_lt, UInt32.toNat_add,
      UInt32.reduceToNat, kernbase] at hin hsz
    cases h
    refine ⟨by omega, ?_⟩
    rw [UInt32.toNat_ofNat', Nat.mod_eq_of_lt hlt]

theorem fetchint_reads {addr : UInt32} (hsz : u.sz.toNat ≤ kernbase) :
    ∀ a ∈ (fetchint u addr).reads, a < u.sz.toNat := by
  unfold fetchint
  split
  · simp
  · next hin =>
    simp only [UInt32.le_iff_toNat_le, UInt32.lt_iff_toNat_lt, UInt32.toNat_add,
      UInt32.reduceToNat, kernbase] at hin hsz
    intro a ha
    obtain ⟨i, hi, rfl⟩ := List.mem_map.mp ha
    have hi := List.mem_range.mp hi
    omega

/-- `argptr` accepts only ranges inside the memory of the process. -/
theorem argptr_value {n p : UInt32} {size : BitVec 32} (hsz : u.sz.toNat ≤ kernbase)
    (h : (argptr u n size).value = some p) :
    0 ≤ size.toInt ∧ p.toNat + size.toInt.toNat ≤ u.sz.toNat ∧
      (argint u n).value = some p := by
  unfold argptr at h
  split at h
  · next hnone =>
    rw [hnone] at h
    cases h
  · next i hi =>
    split at h
    · cases h
    · next hin =>
      cases h
      have hsize := BitVec.toInt_eq_toNat_cond size
      have hlt := size.isLt
      simp only [UInt32.le_iff_toNat_le, UInt32.lt_iff_toNat_lt, UInt32.toNat_add,
        UInt32.toNat_ofBitVec, kernbase] at hin hsz
      refine ⟨by omega, ?_, hi⟩
      split at hsize <;> omega

theorem argptr_reads (n : UInt32) (size : BitVec 32) : (argptr u n size).reads = (argint u n).reads := by
  unfold argptr
  split
  · rfl
  · split <;> rfl

/-! ## Strings -/

/-- The first zero from address `a` on is at distance `len`, below `sz`. -/
def FirstNul (u : User) (a len : Nat) : Prop :=
  a + len < u.sz.toNat ∧ u.mem (a + len) = 0 ∧ ∀ i < len, u.mem (a + i) ≠ 0

theorem firstNul_zero {a : Nat} : FirstNul u a 0 ↔ a < u.sz.toNat ∧ u.mem a = 0 := by
  simp [FirstNul]

/-- Behind a byte that is not zero the search goes on one address further. -/
theorem firstNul_succ {a : Nat} (hbyte : u.mem a ≠ 0) (len : Nat) :
    FirstNul u a (len + 1) ↔ FirstNul u (a + 1) len := by
  have hshift : ∀ i, a + 1 + i = a + (i + 1) := fun i => by omega
  simp only [FirstNul, hshift]
  constructor
  · rintro ⟨hin, hnul, hfirst⟩
    exact ⟨hin, hnul, fun i hi => hfirst (i + 1) (by omega)⟩
  · rintro ⟨hin, hnul, hfirst⟩
    refine ⟨hin, hnul, fun i hi => ?_⟩
    cases i with
    | zero => exact hbyte
    | succ i => exact hfirst i (by omega)

/-- The loop finds the first zero, and reads only below `sz`. -/
theorem scan_spec (hsz : u.sz.toNat ≤ kernbase) {k : Nat} {s : UInt32}
    (hk : u.sz.toNat < s.toNat + k) :
    (∀ p, (scan u k s).1 = some p ↔
      s.toNat ≤ p.toNat ∧ FirstNul u s.toNat (p.toNat - s.toNat)) ∧
    ∀ a ∈ (scan u k s).2, a < u.sz.toNat := by
  induction k generalizing s with
  | zero =>
    constructor
    · intro p
      constructor
      · intro h
        cases h
      · rintro ⟨hle, hin, -⟩
        omega
    · simp [scan]
  | succ k ih =>
    rw [scan]
    by_cases hlt : s < u.sz
    · rw [if_pos hlt]
      rw [UInt32.lt_iff_toNat_lt] at hlt
      by_cases hzero : u.mem s.toNat = 0
      · rw [if_pos hzero]
        constructor
        · intro p
          constructor
          · intro h
            cases h
            exact ⟨le_rfl, by rw [Nat.sub_self]; exact firstNul_zero.mpr ⟨hlt, hzero⟩⟩
          · rintro ⟨hle, -, -, hfirst⟩
            have hp : p.toNat = s.toNat := by
              by_contra hne
              exact hfirst 0 (by omega) (by simpa using hzero)
            rw [UInt32.toNat_inj.mp hp]
        · simpa using hlt
      · rw [if_neg hzero]
        have hstep : (s + 1).toNat = s.toNat + 1 := by
          simp only [UInt32.toNat_add, UInt32.reduceToNat, kernbase] at *
          omega
        obtain ⟨hfound, hreads⟩ := ih (s := s + 1) (by omega)
        constructor
        · intro p
          rw [hfound p, hstep]
          constructor
          · rintro ⟨hle, hfirst⟩
            refine ⟨by omega, ?_⟩
            rw [← firstNul_succ hzero] at hfirst
            rwa [show p.toNat - s.toNat = p.toNat - (s.toNat + 1) + 1 by omega]
          · rintro ⟨hle, hfirst⟩
            have hne : p.toNat ≠ s.toNat := by
              intro heq
              rw [heq, Nat.sub_self, firstNul_zero] at hfirst
              exact hzero hfirst.2
            refine ⟨by omega, ?_⟩
            rw [← firstNul_succ hzero]
            rwa [show p.toNat - (s.toNat + 1) + 1 = p.toNat - s.toNat by omega]
        · intro a ha
          rcases List.mem_cons.mp ha with rfl | ha
          · exact hlt
          · exact hreads a ha
    · rw [if_neg hlt]
      rw [UInt32.lt_iff_toNat_lt] at hlt
      constructor
      · intro p
        constructor
        · intro h
          cases h
        · rintro ⟨hle, hin, -⟩
          omega
      · simp

/-- `fetchstr` returns the distance to the first zero of the memory of the process. -/
theorem fetchstr_length (hsz : u.sz.toNat ≤ kernbase) (addr len : UInt32) :
    (fetchstr u addr).length = some len ↔ addr < u.sz ∧ FirstNul u addr.toNat len.toNat := by
  unfold fetchstr
  by_cases hin : u.sz ≤ addr
  · rw [if_pos hin]
    constructor
    · intro h
      cases h
    · rintro ⟨hlt, -⟩
      exact absurd hlt (UInt32.not_lt.mpr hin)
  · rw [if_neg hin]
    have hlt := UInt32.not_le.mp hin
    obtain ⟨hfound, -⟩ := scan_spec hsz (k := u.sz.toNat + 1) (s := addr) (by omega)
    simp only [Option.map_eq_some_iff, hfound, hlt, true_and]
    constructor
    · rintro ⟨p, ⟨hle, hfirst⟩, rfl⟩
      rwa [UInt32.toNat_sub_of_le _ _ (UInt32.le_iff_toNat_le.mpr hle)]
    · intro hfirst
      have hbound := hfirst.1
      have hsum : (addr + len).toNat = addr.toNat + len.toNat := by
        simp only [UInt32.toNat_add, kernbase] at *
        omega
      refine ⟨addr + len, ⟨by omega, ?_⟩, ?_⟩
      · rwa [hsum, Nat.add_sub_cancel_left]
      · apply UInt32.toNat_inj.mp
        rw [UInt32.toNat_sub_of_le _ _ (UInt32.le_iff_toNat_le.mpr (by omega)), hsum,
          Nat.add_sub_cancel_left]

theorem fetchstr_reads (hsz : u.sz.toNat ≤ kernbase) (addr : UInt32) :
    ∀ a ∈ (fetchstr u addr).reads, a < u.sz.toNat := by
  unfold fetchstr
  by_cases hin : u.sz ≤ addr
  · simp [hin]
  · rw [if_neg hin]
    exact (scan_spec hsz (by omega)).2

theorem argstr_length (hsz : u.sz.toNat ≤ kernbase) (n len : UInt32) :
    (argstr u n).length = some len ↔ ∃ addr, (argint u n).value = some addr ∧
      (argstr u n).stored = some addr ∧ addr < u.sz ∧ FirstNul u addr.toNat len.toNat := by
  unfold argstr
  cases hint : (argint u n).value with
  | none => simp
  | some addr =>
    simp only [fetchstr_length hsz, Option.some.injEq, exists_eq_left']
    constructor
    · rintro ⟨hlt, hfirst⟩
      refine ⟨?_, hlt, hfirst⟩
      unfold fetchstr
      rw [if_neg (UInt32.not_le.mpr hlt)]
    · rintro ⟨-, hlt, hfirst⟩
      exact ⟨hlt, hfirst⟩

theorem argstr_reads (hsz : u.sz.toNat ≤ kernbase) (n : UInt32) :
    ∀ a ∈ (argstr u n).reads, a < u.sz.toNat := by
  unfold argstr
  cases hint : (argint u n).value with
  | none => exact fetchint_reads hsz
  | some addr =>
    intro a ha
    rcases List.mem_append.mp ha with ha | ha
    · exact fetchint_reads hsz a ha
    · exact fetchstr_reads hsz addr a ha

/-! ## All fetchers -/

/-- A fetcher that succeeds has looked at memory of the process only, `argstr` and `fetchstr`
succeed exactly on strings, and no fetcher reads anything else, whether it succeeds or not. -/
structure Exact (u : User) : Prop where
  fetchint : ∀ addr v, (fetchint u addr).value = some v →
    addr.toNat + 4 ≤ u.sz.toNat ∧ v.toNat = readWord u.mem addr.toNat
  argint : ∀ n v, (argint u n).value = some v →
    (u.esp + 4 + 4 * n).toNat + 4 ≤ u.sz.toNat ∧ v.toNat = readWord u.mem (u.esp + 4 + 4 * n).toNat
  argptr : ∀ n size p, (argptr u n size).value = some p →
    0 ≤ size.toInt ∧ p.toNat + size.toInt.toNat ≤ u.sz.toNat ∧ (Syscall.argint u n).value = some p
  fetchstr : ∀ addr len, (fetchstr u addr).length = some len ↔
    addr < u.sz ∧ FirstNul u addr.toNat len.toNat
  argstr : ∀ n len, (argstr u n).length = some len ↔ ∃ addr, (Syscall.argint u n).value = some addr ∧
    (Syscall.argstr u n).stored = some addr ∧ addr < u.sz ∧ FirstNul u addr.toNat len.toNat
  reads : ∀ n addr size a, a ∈ (Syscall.fetchint u addr).reads ∨ a ∈ (Syscall.fetchstr u addr).reads ∨
    a ∈ (Syscall.argint u n).reads ∨ a ∈ (Syscall.argptr u n size).reads ∨
    a ∈ (Syscall.argstr u n).reads → a < u.sz.toNat

/-- For every process of at most `KERNBASE` bytes, every memory and every stack pointer the
fetchers are exact. -/
theorem fetchers_exact (u : User) (hsz : u.sz.toNat ≤ kernbase) : Exact u where
  fetchint := fun _ _ h => fetchint_value hsz h
  argint := fun _ _ h => fetchint_value hsz h
  argptr := fun _ _ _ h => argptr_value hsz h
  fetchstr := fetchstr_length hsz
  argstr := argstr_length hsz
  reads := by
    rintro n addr size a (h | h | h | h | h)
    · exact fetchint_reads hsz a h
    · exact fetchstr_reads hsz addr a h
    · exact fetchint_reads hsz a h
    · rw [argptr_reads] at h
      exact fetchint_reads hsz a h
    · exact argstr_reads hsz n a h

/-- Two pages that hold a string at address 100, with its address as argument 0. -/
def sampleUser : User where
  mem := fun a => if a = 4004 then 100 else if a = 100 then 104 else if a = 101 then 105 else 0
  sz := 8192
  esp := 4000

theorem fetchers_exact_sample : Exact sampleUser ∧ (argstr sampleUser 0).length = some 2 :=
  ⟨fetchers_exact sampleUser (by decide), by decide +kernel⟩

end Xv6Containers.Syscall
