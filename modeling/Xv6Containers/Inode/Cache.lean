import Xv6Containers.Param

/-!
# The inode cache

`struct inode`, the table `icache` and the two functions that only touch
reference counts, `iget` and `idup`. The copy of the on-disk inode that an entry
carries is a parameter, since the layers above differ in what they keep of it.
-/

namespace Xv6Containers

/-- The values of `dip->type`. -/
inductive FileType
  | free
  | dir
  | file
  | dev
  deriving DecidableEq

/-- `struct dinode`. Of `addrs` the first `NDIRECT + 1` words exist. -/
structure Dinode where
  type : FileType
  major : Int
  minor : Int
  nlink : Int
  size : Nat
  addrs : Nat → Nat

/-- `struct inode`: identity, reference count, sleep lock and the cached copy. -/
structure Inode (D : Type) where
  dev : Nat
  inum : Nat
  ref : Int
  locked : Bool
  valid : Bool
  d : D
  deriving DecidableEq

instance : NeZero ninode := ⟨by decide⟩

/-- An index into `icache.inode`, which is what a `struct inode *` is here. -/
abbrev Slot := Fin ninode

/-- `icache.inode`. -/
abbrev Icache (D : Type) := Slot → Inode D

namespace Icache

variable {D : Type}

/-- The entry is in use for the inode `(dev, inum)`. -/
def Caches (c : Icache D) (i : Slot) (dev inum : Nat) : Prop :=
  0 < (c i).ref ∧ (c i).dev = dev ∧ (c i).inum = inum

instance (c : Icache D) (i : Slot) (dev inum : Nat) : Decidable (c.Caches i dev inum) := by
  unfold Caches
  infer_instance

/-- What the loop of `iget` finds. -/
inductive Scan
  | cached (i : Slot)
  | recycle (i : Slot)
  | full
  deriving DecidableEq

/-- The loop of `iget`, with the empty slot it remembers. -/
def scan (c : Icache D) (dev inum : Nat) : List Slot → Option Slot → Scan
  | [], none => .full
  | [], some e => .recycle e
  | i :: is, empty =>
    if c.Caches i dev inum then .cached i
    else scan c dev inum is (if empty = none ∧ (c i).ref = 0 then some i else empty)

/-- The entry that `iget` recycles keeps its lock and its stale copy. -/
def recycled (x : Inode D) (dev inum : Nat) : Inode D :=
  { x with dev := dev, inum := inum, ref := 1, valid := false }

def addRef (c : Icache D) (i : Slot) : Icache D :=
  Function.update c i { c i with ref := (c i).ref + 1 }

def dropRef (c : Icache D) (i : Slot) : Icache D :=
  Function.update c i { c i with ref := (c i).ref - 1 }

/-- `iget`. The result is `none` for the panic `iget: no inodes`. -/
def iget (c : Icache D) (dev inum : Nat) : Option (Slot × Icache D) :=
  match scan c dev inum (List.finRange ninode) none with
  | .cached i => some (i, c.addRef i)
  | .recycle e => some (e, Function.update c e (recycled (c e) dev inum))
  | .full => none

/-- `idup`. -/
def idup (c : Icache D) (i : Slot) : Icache D := c.addRef i

/-- What the loop has seen decides its answer. -/
theorem scan_spec (c : Icache D) (dev inum : Nat) (is : List Slot) (empty : Option Slot)
    (hempty : ∀ e, empty = some e → (c e).ref = 0) :
    (∃ i ∈ is, c.Caches i dev inum ∧ scan c dev inum is empty = .cached i) ∨
    ((∀ i ∈ is, ¬ c.Caches i dev inum) ∧
      ((∃ e, (c e).ref = 0 ∧ scan c dev inum is empty = .recycle e) ∨
        (empty = none ∧ (∀ i ∈ is, (c i).ref ≠ 0) ∧ scan c dev inum is empty = .full))) := by
  induction is generalizing empty with
  | nil =>
    right
    refine ⟨by simp, ?_⟩
    cases empty with
    | none => exact Or.inr ⟨rfl, by simp, rfl⟩
    | some e => exact Or.inl ⟨e, hempty e rfl, rfl⟩
  | cons i is ih =>
    by_cases hi : c.Caches i dev inum
    · exact Or.inl ⟨i, by simp, hi, by simp [scan, hi]⟩
    have hstep : scan c dev inum (i :: is) empty =
        scan c dev inum is (if empty = none ∧ (c i).ref = 0 then some i else empty) := by
      simp [scan, hi]
    rw [hstep]
    have hnext (e : Slot)
        (he : (if empty = none ∧ (c i).ref = 0 then some i else empty) = some e) :
        (c e).ref = 0 := by
      split at he
      · next h =>
        cases he
        exact h.2
      · exact hempty e he
    rcases ih _ hnext with ⟨j, hj, hc, hs⟩ | ⟨hnone, hrest⟩
    · exact Or.inl ⟨j, by simp [hj], hc, hs⟩
    refine Or.inr ⟨?_, ?_⟩
    · intro j hj
      rcases List.mem_cons.mp hj with rfl | hj
      · exact hi
      · exact hnone j hj
    rcases hrest with ⟨e, he, hs⟩ | ⟨he, href, hs⟩
    · exact Or.inl ⟨e, he, hs⟩
    · right
      have hkeep : ¬ (empty = none ∧ (c i).ref = 0) := by
        intro hboth
        simp [hboth] at he
      rw [if_neg hkeep] at he
      refine ⟨he, ?_, hs⟩
      intro j hj
      rcases List.mem_cons.mp hj with rfl | hj
      · exact fun hzero => hkeep ⟨he, hzero⟩
      · exact href j hj

variable {c : Icache D} {i : Slot}

/-- `iget` returns the entry in use for the inode, and otherwise recycles an entry without
references. -/
theorem iget_cases {c' : Icache D} {dev inum : Nat} (h : c.iget dev inum = some (i, c')) :
    (c.Caches i dev inum ∧ c' = c.addRef i) ∨
    ((∀ j, ¬ c.Caches j dev inum) ∧ (c i).ref = 0 ∧
      c' = Function.update c i (recycled (c i) dev inum)) := by
  unfold iget at h
  rcases scan_spec c dev inum (List.finRange ninode) none (by simp) with
    ⟨j, _, hc, hs⟩ | ⟨hnone, ⟨e, he, hs⟩ | ⟨_, _, hs⟩⟩
  · rw [hs] at h
    cases h
    exact Or.inl ⟨hc, rfl⟩
  · rw [hs] at h
    cases h
    exact Or.inr ⟨fun j => hnone j (List.mem_finRange j), he, rfl⟩
  · rw [hs] at h
    cases h

/-- The entry in use is found whatever else the table holds. -/
theorem iget_of_caches {dev inum : Nat} (hunique : ∀ j, c.Caches j dev inum → j = i)
    (hi : c.Caches i dev inum) : c.iget dev inum = some (i, c.addRef i) := by
  unfold iget
  rcases scan_spec c dev inum (List.finRange ninode) none (by simp) with
    ⟨j, _, hc, hs⟩ | ⟨hnone, _⟩
  · rw [hs, hunique j hc]
  · exact absurd hi (hnone i (List.mem_finRange i))

/-- Only the returned entry changes. -/
theorem iget_frame {c' : Icache D} {dev inum : Nat} {j : Slot}
    (h : c.iget dev inum = some (i, c')) (hj : j ≠ i) : c' j = c j := by
  rcases iget_cases h with ⟨_, rfl⟩ | ⟨_, _, rfl⟩
  · simp [addRef, Function.update_of_ne hj]
  · simp [Function.update_of_ne hj]

/-- The returned entry is in use for the requested inode, with one reference more. -/
theorem iget_self {c' : Icache D} {dev inum : Nat} (h : c.iget dev inum = some (i, c')) :
    (c' i).ref = (c i).ref + 1 ∧ (c' i).dev = dev ∧ (c' i).inum = inum ∧ 0 < (c' i).ref ∧
      (c' i).locked = (c i).locked := by
  rcases iget_cases h with ⟨hc, rfl⟩ | ⟨_, hzero, rfl⟩
  · obtain ⟨hpos, hdev, hinum⟩ := hc
    simp [addRef, hdev, hinum]
    omega
  · simp [recycled, hzero]

end Icache

end Xv6Containers
