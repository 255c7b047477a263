import Mathlib

/-!
# Ring buffers with wrapping counters

A ring of `cap` cells with a read and a write counter. The counters wrap at `M`,
a multiple of `cap` that is larger than `cap`; a cell is found by the counter
modulo `cap`. The contents are the cells from the read to the write counter.
-/

namespace Xv6Containers.Lib

structure RingBuffer (α : Type*) where
  data : Nat → α
  nread : Nat
  nwrite : Nat

namespace RingBuffer

variable {α : Type*} (cap M : Nat)

/-- The write counter minus the read counter. -/
def size (r : RingBuffer α) : Nat := (r.nwrite + M - r.nread) % M

def Full (r : RingBuffer α) : Prop := r.nwrite = (r.nread + cap) % M

def Empty (r : RingBuffer α) : Prop := r.nread = r.nwrite

instance (r : RingBuffer α) : Decidable (r.Full cap M) := inferInstanceAs (Decidable (_ = _))

instance (r : RingBuffer α) : Decidable r.Empty := inferInstanceAs (Decidable (_ = _))

/-- Store a value at the write counter. -/
def push (r : RingBuffer α) (a : α) : RingBuffer α :=
  { r with data := Function.update r.data (r.nwrite % cap) a, nwrite := (r.nwrite + 1) % M }

/-- The value at the read counter. -/
def front (r : RingBuffer α) : α := r.data (r.nread % cap)

def pop (r : RingBuffer α) : RingBuffer α := { r with nread := (r.nread + 1) % M }

/-- A counter minus one. -/
def counterPred (x : Nat) : Nat := if x = 0 then M - 1 else x - 1

/-- The value stored last. -/
def back (r : RingBuffer α) : α := r.data (counterPred M r.nwrite % cap)

/-- Take the value stored last away again. -/
def unpush (r : RingBuffer α) : RingBuffer α := { r with nwrite := counterPred M r.nwrite }

/-- The stored values, oldest first. -/
def contents (r : RingBuffer α) : List α :=
  (List.range (r.size M)).map fun k => r.data ((r.nread + k) % cap)

/-- The counters are in range and at most `cap` apart. -/
structure Ok (r : RingBuffer α) : Prop where
  nread : r.nread < M
  nwrite : r.nwrite < M
  size : r.size M ≤ cap

variable {cap M} {r : RingBuffer α}

/-- The distance of the counters is the size. -/
theorem size_of_nwrite {k : Nat} (hr : r.nread < M) (hk : k < M)
    (h : r.nwrite = (r.nread + k) % M) : r.size M = k := by
  rw [size, h]
  rcases Nat.lt_or_ge (r.nread + k) M with hlt | hge
  · rw [Nat.mod_eq_of_lt hlt, show r.nread + k + M - r.nread = k + M by omega,
      Nat.add_mod_right, Nat.mod_eq_of_lt hk]
  · have hwrap : (r.nread + k) % M = r.nread + k - M := by
      rw [Nat.mod_eq_sub_mod hge, Nat.mod_eq_of_lt (by omega)]
    rw [hwrap, show r.nread + k - M + M - r.nread = k by omega, Nat.mod_eq_of_lt hk]

theorem nwrite_eq (h : r.Ok cap M) : r.nwrite = (r.nread + r.size M) % M := by
  have hr := h.nread
  have hw := h.nwrite
  rw [size, Nat.add_mod_mod, show r.nread + (r.nwrite + M - r.nread) = r.nwrite + M by omega,
    Nat.add_mod_right, Nat.mod_eq_of_lt hw]

theorem size_eq_zero_iff (h : r.Ok cap M) : r.size M = 0 ↔ r.Empty := by
  have hr := h.nread
  constructor
  · intro hz
    have hw := nwrite_eq h
    rw [hz, Nat.add_zero, Nat.mod_eq_of_lt hr] at hw
    exact hw.symm
  · intro he
    refine size_of_nwrite hr (by omega) ?_
    rw [Nat.add_zero, Nat.mod_eq_of_lt hr]
    exact he.symm

theorem contents_eq_nil_iff (h : r.Ok cap M) : r.contents cap M = [] ↔ r.Empty := by
  rw [← size_eq_zero_iff h]
  simp [contents]

theorem full_of_size (h : r.Ok cap M) (hsize : r.size M = cap) : r.Full cap M := by
  have hw := nwrite_eq h
  rw [hsize] at hw
  exact hw

theorem size_lt (h : r.Ok cap M) (hfull : ¬ r.Full cap M) : r.size M < cap :=
  lt_of_le_of_ne h.size fun hsize => hfull (full_of_size h hsize)

theorem size_push (h : r.Ok cap M) (hcap : cap < M) (hfull : ¬ r.Full cap M) (a : α) :
    (r.push cap M a).size M = r.size M + 1 := by
  have hlt := size_lt h hfull
  refine size_of_nwrite h.nread (by omega) ?_
  change (r.nwrite + 1) % M = (r.nread + (r.size M + 1)) % M
  rw [nwrite_eq h, Nat.mod_add_mod, Nat.add_assoc]

theorem ok_push (h : r.Ok cap M) (hcap : cap < M) (hfull : ¬ r.Full cap M) (a : α) :
    (r.push cap M a).Ok cap M := by
  refine ⟨h.nread, Nat.mod_lt _ (by omega), ?_⟩
  rw [size_push h hcap hfull a]
  exact size_lt h hfull

/-- Two cells fewer than `cap` apart are different. -/
theorem cell_ne (hdvd : cap ∣ M) (h : r.Ok cap M) {k : Nat} (hk : k < r.size M)
    (hlt : r.size M < cap) : (r.nread + k) % cap ≠ r.nwrite % cap := by
  rw [nwrite_eq h, Nat.mod_mod_of_dvd _ hdvd]
  intro heq
  have hmod : k ≡ r.size M [MOD cap] := Nat.ModEq.add_left_cancel' _ heq
  exact absurd (hmod.eq_of_lt_of_lt (by omega) hlt) (by omega)

theorem contents_push (hdvd : cap ∣ M) (hcap : cap < M) (h : r.Ok cap M) (hfull : ¬ r.Full cap M)
    (a : α) : (r.push cap M a).contents cap M = r.contents cap M ++ [a] := by
  have hlt := size_lt h hfull
  have hnew : r.nwrite % cap = (r.nread + r.size M) % cap := by
    rw [nwrite_eq h, Nat.mod_mod_of_dvd _ hdvd]
  rw [contents, size_push h hcap hfull a, List.range_succ, List.map_append, contents]
  congr 1
  · refine List.map_congr_left fun k hk => ?_
    exact Function.update_of_ne (cell_ne hdvd h (List.mem_range.mp hk) hlt) ..
  · simp [push, hnew]

theorem size_pop (h : r.Ok cap M) (hcap : cap < M) (hempty : ¬ r.Empty) :
    (r.pop M).size M + 1 = r.size M := by
  have hpos : 0 < r.size M := Nat.pos_of_ne_zero fun hz => hempty ((size_eq_zero_iff h).mp hz)
  have hle := h.size
  have hsize : (r.pop M).size M = r.size M - 1 := by
    refine size_of_nwrite (Nat.mod_lt _ (by omega)) (by omega) ?_
    change r.nwrite = ((r.nread + 1) % M + (r.size M - 1)) % M
    rw [Nat.mod_add_mod, show r.nread + 1 + (r.size M - 1) = r.nread + r.size M by omega]
    exact nwrite_eq h
  omega

theorem ok_pop (h : r.Ok cap M) (hcap : cap < M) (hempty : ¬ r.Empty) : (r.pop M).Ok cap M := by
  have hsize := size_pop h hcap hempty
  have hle := h.size
  exact ⟨Nat.mod_lt _ (by omega), h.nwrite, by omega⟩

theorem contents_pop (hdvd : cap ∣ M) (hcap : cap < M) (h : r.Ok cap M) (hempty : ¬ r.Empty) :
    r.contents cap M = r.front cap :: (r.pop M).contents cap M := by
  rw [contents, ← size_pop h hcap hempty, List.range_succ_eq_map, List.map_cons, List.map_map,
    contents]
  congr 1
  refine List.map_congr_left fun k _ => ?_
  have hcell : ((r.nread + 1) % M + k) % cap = (r.nread + (k + 1)) % cap := by
    rw [← Nat.mod_mod_of_dvd ((r.nread + 1) % M + k) hdvd, Nat.mod_add_mod,
      Nat.mod_mod_of_dvd _ hdvd, Nat.add_assoc, Nat.add_comm 1 k]
  simp only [Function.comp, pop, Nat.succ_eq_add_one, hcell]

theorem length_contents (cap : Nat) : (r.contents cap M).length = r.size M := by simp [contents]

theorem counterPred_eq {x : Nat} (hx : x < M) : counterPred M x = (x + (M - 1)) % M := by
  rw [counterPred]
  split
  · next hzero => rw [hzero, Nat.zero_add, Nat.mod_eq_of_lt (by omega)]
  · rw [show x + (M - 1) = x - 1 + M by omega, Nat.add_mod_right, Nat.mod_eq_of_lt (by omega)]

theorem nwrite_unpush (h : r.Ok cap M) (hcap : cap < M) (hempty : ¬ r.Empty) :
    (r.unpush M).nwrite = (r.nread + (r.size M - 1)) % M := by
  have hpos : 0 < r.size M := Nat.pos_of_ne_zero fun hz => hempty ((size_eq_zero_iff h).mp hz)
  change counterPred M r.nwrite = _
  rw [counterPred_eq h.nwrite, nwrite_eq h, Nat.mod_add_mod,
    show r.nread + r.size M + (M - 1) = r.nread + (r.size M - 1) + M by omega, Nat.add_mod_right]

theorem size_unpush (h : r.Ok cap M) (hcap : cap < M) (hempty : ¬ r.Empty) :
    (r.unpush M).size M = r.size M - 1 := by
  have hle := h.size
  exact size_of_nwrite h.nread (by omega) (nwrite_unpush h hcap hempty)

theorem ok_unpush (h : r.Ok cap M) (hcap : cap < M) (hempty : ¬ r.Empty) :
    (r.unpush M).Ok cap M := by
  have hle := h.size
  refine ⟨h.nread, ?_, ?_⟩
  · rw [nwrite_unpush h hcap hempty]
    exact Nat.mod_lt _ (by omega)
  · rw [size_unpush h hcap hempty]
    omega

theorem contents_unpush (hdvd : cap ∣ M) (hcap : cap < M) (h : r.Ok cap M) (hempty : ¬ r.Empty) :
    r.contents cap M = (r.unpush M).contents cap M ++ [r.back cap M] := by
  have hpos : 0 < r.size M := Nat.pos_of_ne_zero fun hz => hempty ((size_eq_zero_iff h).mp hz)
  have hback : r.back cap M = r.data ((r.nread + (r.size M - 1)) % cap) := by
    change r.data ((r.unpush M).nwrite % cap) = _
    rw [nwrite_unpush h hcap hempty, Nat.mod_mod_of_dvd _ hdvd]
  rw [contents, contents, size_unpush h hcap hempty, hback]
  nth_rewrite 1 [show r.size M = r.size M - 1 + 1 by omega]
  rw [List.range_succ, List.map_append]
  rfl

end RingBuffer

end Xv6Containers.Lib
