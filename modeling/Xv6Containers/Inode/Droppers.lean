import Xv6Containers.Inode.Cache
import Xv6Containers.Lib.Runs

/-!
# Concurrent use of the inode cache

`iget`, `idup`, `ilock`, `iunlock`, `iput` and the link-count change of
`sys_unlink` as steps of any set of processes. A step is one critical section of
the code, or a stretch that runs under the inode's sleep lock. So `iput` takes
five: it takes the lock, tests the entry, frees the inode, releases the lock and
decrements the count.

## Implementation notes

`owned` counts the references that were taken by `iget` or `idup` and not yet
given to an `iput`; a reference may be dropped by another process than the one
that took it. The blocks that `itrunc` gives back are those of `addrs`; the free
map itself belongs to the block layer. `freed` records the inodes in the order
in which `iput` frees them.
-/

namespace Xv6Containers

open Lib.Runs Function

namespace Droppers

inductive Fault
  | igetNoInodes
  | ilockNoType
  | unlinkNlink
  deriving DecidableEq

/-- Where a process stands inside `iput`. -/
inductive Pc
  | idle
  | testing (i : Slot)
  | freeing (i : Slot)
  | releasing (i : Slot)
  | dropping (i : Slot)
  deriving DecidableEq

/-- The entry whose reference the process is dropping. -/
def Pc.target : Pc → Option Slot
  | .idle => none
  | .testing i => some i
  | .freeing i => some i
  | .releasing i => some i
  | .dropping i => some i

/-- The entry whose sleep lock the process holds inside `iput`. -/
def Pc.lock : Pc → Option Slot
  | .testing i => some i
  | .freeing i => some i
  | .releasing i => some i
  | _ => none

structure State (P : Type) where
  cache : Icache Dinode
  disk : Nat → Nat → Dinode
  holder : Slot → Option P
  pc : P → Pc
  owned : Slot → Nat
  freed : List (Nat × Nat)
  fault : Option Fault

variable {P : Type} [DecidableEq P]

/-- After `iinit`: no entry is in use. -/
def boot (disk : Nat → Nat → Dinode) (stale : Dinode) : State P where
  cache := fun _ => ⟨0, 0, 0, false, false, stale⟩
  disk := disk
  holder := fun _ => none
  pc := fun _ => .idle
  owned := fun _ => 0
  freed := []
  fault := none

namespace State

def setInode (s : State P) (i : Slot) (x : Inode Dinode) : State P :=
  { s with cache := update s.cache i x }

def setDisk (s : State P) (dev inum : Nat) (d : Dinode) : State P :=
  { s with disk := update s.disk dev (update (s.disk dev) inum d) }

def moveTo (s : State P) (p : P) (x : Pc) : State P := { s with pc := update s.pc p x }

def own (s : State P) (i : Slot) (n : Nat) : State P :=
  { s with owned := update s.owned i n }

def panic (s : State P) (f : Fault) : State P := { s with fault := some f }

/-- `iupdate`: the cache is written through. -/
def iupdate (s : State P) (i : Slot) : State P :=
  s.setDisk (s.cache i).dev (s.cache i).inum (s.cache i).d

omit [DecidableEq P] in
theorem setDisk_disk (s : State P) (dev inum : Nat) (d : Dinode) (dev' inum' : Nat) :
    (s.setDisk dev inum d).disk dev' inum' =
      if dev' = dev ∧ inum' = inum then d else s.disk dev' inum' := by
  by_cases hdev : dev' = dev
  · subst hdev
    simp [setDisk, update_apply]
  · simp [setDisk, hdev]

end State

def iget (s : State P) (dev inum : Nat) : State P :=
  match s.cache.iget dev inum with
  | some (i, c) => { s with cache := c, owned := update s.owned i (s.owned i + 1) }
  | none => s.panic .igetNoInodes

def idup (s : State P) (i : Slot) : State P :=
  { s with cache := s.cache.idup i, owned := update s.owned i (s.owned i + 1) }

/-- `ilock` from `acquiresleep` on. -/
def ilock (s : State P) (p : P) (i : Slot) : State P :=
  let x := s.cache i
  let taken := { s with holder := update s.holder i (some p) }
  if x.valid then taken.setInode i { x with locked := true }
  else
    let d := s.disk x.dev x.inum
    if d.type = .free then s.panic .ilockNoType
    else taken.setInode i { x with locked := true, valid := true, d := d }

def iunlock (s : State P) (i : Slot) : State P :=
  { s.setInode i { s.cache i with locked := false } with holder := update s.holder i none }

/-- The part of `sys_unlink` that changes the link count of the locked inode. -/
def unlink (s : State P) (i : Slot) : State P :=
  let x := s.cache i
  if x.d.nlink < 1 then s.panic .unlinkNlink
  else (s.setInode i { x with d := { x.d with nlink := x.d.nlink - 1 } }).iupdate i

/-- The beginning of `iput`, up to `acquiresleep`. -/
def iputLock (s : State P) (p : P) (i : Slot) : State P :=
  ((s.setInode i { s.cache i with locked := true }).own i (s.owned i - 1)).moveTo p (.testing i)

/-- The tests of `iput`: the inode has no links and no other references. -/
def iputTest (s : State P) (p : P) (i : Slot) : State P :=
  let x := s.cache i
  if x.valid = true ∧ x.d.nlink = 0 ∧ x.ref = 1 then s.moveTo p (.freeing i)
  else s.moveTo p (.releasing i)

/-- What `itrunc` leaves of the inode. -/
def itrunc (d : Dinode) : Dinode := { d with size := 0, addrs := fun _ => 0 }

/-- The freeing branch of `iput`. -/
def iputFree (s : State P) (p : P) (i : Slot) : State P :=
  let x := s.cache i
  let d := { itrunc x.d with type := .free }
  let s := (s.setInode i { x with d := d }).iupdate i
  { (s.setInode i { x with d := d, valid := false }).moveTo p (.releasing i) with
    freed := s.freed ++ [(x.dev, x.inum)] }

/-- `releasesleep` of `iput`. -/
def iputRelease (s : State P) (p : P) (i : Slot) : State P :=
  (s.setInode i { s.cache i with locked := false }).moveTo p (.dropping i)

/-- The last critical section of `iput`. -/
def iputDrop (s : State P) (p : P) (i : Slot) : State P :=
  { s.moveTo p .idle with cache := s.cache.dropRef i }

inductive Event (P : Type)
  | iget (p : P) (dev inum : Nat)
  | idup (p : P) (i : Slot)
  | ilock (p : P) (i : Slot)
  | iunlock (p : P) (i : Slot)
  | unlink (p : P) (i : Slot)
  | iput (p : P) (i : Slot)
  | proceed (p : P)
  deriving DecidableEq

/-- One step of one process. A process acts on entries it has a reference to; a sleep lock
that is taken blocks; nothing runs after a panic. -/
def step (s : State P) (e : Event P) : Option (State P) :=
  if s.fault.isSome then none
  else
    match e with
    | .iget p dev inum => if s.pc p = .idle then some (iget s dev inum) else none
    | .idup p i => if s.pc p = .idle ∧ 0 < s.owned i then some (idup s i) else none
    | .ilock p i =>
      if s.pc p = .idle ∧ 0 < s.owned i ∧ (s.cache i).locked = false then some (ilock s p i)
      else none
    | .iunlock p i =>
      if s.pc p = .idle ∧ s.holder i = some p then some (iunlock s i) else none
    | .unlink p i =>
      if s.pc p = .idle ∧ s.holder i = some p then some (unlink s i) else none
    | .iput p i =>
      if s.pc p = .idle ∧ 0 < s.owned i ∧ (s.cache i).locked = false then some (iputLock s p i)
      else none
    | .proceed p =>
      match s.pc p with
      | .idle => none
      | .testing i => some (iputTest s p i)
      | .freeing i => some (iputFree s p i)
      | .releasing i => some (iputRelease s p i)
      | .dropping i => some (iputDrop s p i)

/-- Everything a step can do, with its guard. -/
inductive Step (s : State P) : Event P → State P → Prop
  | iget (p : P) (dev inum : Nat) (i : Slot) (c : Icache Dinode)
      (hget : s.cache.iget dev inum = some (i, c)) :
      Step s (.iget p dev inum)
        { s with cache := c, owned := update s.owned i (s.owned i + 1) }
  | panic (e : Event P) (f : Fault) : Step s e (s.panic f)
  | idup (p : P) (i : Slot) (hown : 0 < s.owned i) : Step s (.idup p i) (idup s i)
  | ilockValid (p : P) (i : Slot) (hown : 0 < s.owned i) (hfree : (s.cache i).locked = false)
      (hvalid : (s.cache i).valid = true) :
      Step s (.ilock p i)
        { s.setInode i { s.cache i with locked := true } with
          holder := update s.holder i (some p) }
  | ilockLoad (p : P) (i : Slot) (hown : 0 < s.owned i) (hfree : (s.cache i).locked = false)
      (hvalid : (s.cache i).valid = false)
      (htype : (s.disk (s.cache i).dev (s.cache i).inum).type ≠ .free) :
      Step s (.ilock p i)
        { s.setInode i { s.cache i with
            locked := true, valid := true, d := s.disk (s.cache i).dev (s.cache i).inum } with
          holder := update s.holder i (some p) }
  | iunlock (p : P) (i : Slot) (hhold : s.holder i = some p) : Step s (.iunlock p i) (iunlock s i)
  | unlink (p : P) (i : Slot) (hhold : s.holder i = some p) (hlink : 1 ≤ (s.cache i).d.nlink) :
      Step s (.unlink p i)
        ((s.setInode i { s.cache i with
          d := { (s.cache i).d with nlink := (s.cache i).d.nlink - 1 } }).iupdate i)
  | iputLock (p : P) (i : Slot) (hp : s.pc p = .idle) (hown : 0 < s.owned i)
      (hfree : (s.cache i).locked = false) : Step s (.iput p i) (iputLock s p i)
  | iputLast (p : P) (i : Slot) (hp : s.pc p = .testing i) (hvalid : (s.cache i).valid = true)
      (hlink : (s.cache i).d.nlink = 0) (href : (s.cache i).ref = 1) :
      Step s (.proceed p) (s.moveTo p (.freeing i))
  | iputKeep (p : P) (i : Slot) (hp : s.pc p = .testing i)
      (hkeep : ¬ ((s.cache i).valid = true ∧ (s.cache i).d.nlink = 0 ∧ (s.cache i).ref = 1)) :
      Step s (.proceed p) (s.moveTo p (.releasing i))
  | iputFree (p : P) (i : Slot) (hp : s.pc p = .freeing i) : Step s (.proceed p) (iputFree s p i)
  | iputRelease (p : P) (i : Slot) (hp : s.pc p = .releasing i) :
      Step s (.proceed p) (iputRelease s p i)
  | iputDrop (p : P) (i : Slot) (hp : s.pc p = .dropping i) : Step s (.proceed p) (iputDrop s p i)

theorem ilock_step {s : State P} {p : P} {i : Slot} (hown : 0 < s.owned i)
    (hfree : (s.cache i).locked = false) : Step s (.ilock p i) (ilock s p i) := by
  unfold ilock
  dsimp only
  split
  · next hvalid => exact Step.ilockValid p i hown hfree hvalid
  · next hvalid =>
    split
    · exact Step.panic _ _
    · next htype => exact Step.ilockLoad p i hown hfree (by simpa using hvalid) htype

/-- The step function takes no other steps, and none after a panic. -/
theorem step_cases {s t : State P} {e : Event P} (h : step s e = some t) :
    s.fault = none ∧ Step s e t := by
  unfold step at h
  by_cases hf : s.fault.isSome = true
  · simp [hf] at h
  refine ⟨by simpa using hf, ?_⟩
  rw [if_neg hf] at h
  cases e with
  | iget p dev inum =>
    obtain ⟨_, ⟨⟩⟩ := Option.ite_none_right_eq_some.mp h
    unfold iget
    split
    · next i c hget => exact Step.iget p dev inum i c hget
    · exact Step.panic _ _
  | idup p i =>
    obtain ⟨hguard, ⟨⟩⟩ := Option.ite_none_right_eq_some.mp h
    exact Step.idup p i hguard.2
  | ilock p i =>
    obtain ⟨hguard, ⟨⟩⟩ := Option.ite_none_right_eq_some.mp h
    exact ilock_step hguard.2.1 hguard.2.2
  | iunlock p i =>
    obtain ⟨hguard, ⟨⟩⟩ := Option.ite_none_right_eq_some.mp h
    exact Step.iunlock p i hguard.2
  | unlink p i =>
    obtain ⟨hguard, ⟨⟩⟩ := Option.ite_none_right_eq_some.mp h
    unfold unlink
    dsimp only
    split
    · exact Step.panic _ _
    · next hlink => exact Step.unlink p i hguard.2 (by omega)
  | iput p i =>
    obtain ⟨hguard, ⟨⟩⟩ := Option.ite_none_right_eq_some.mp h
    exact Step.iputLock p i hguard.1 hguard.2.1 hguard.2.2
  | proceed p =>
    cases hp : s.pc p with
    | idle => simp [hp] at h
    | testing i =>
      simp only [hp, Option.some.injEq] at h
      subst h
      unfold iputTest
      dsimp only
      split
      · next hlast => exact Step.iputLast p i hp hlast.1 hlast.2.1 hlast.2.2
      · next hkeep => exact Step.iputKeep p i hp hkeep
    | freeing i =>
      simp only [hp, Option.some.injEq] at h
      exact h ▸ Step.iputFree p i hp
    | releasing i =>
      simp only [hp, Option.some.injEq] at h
      exact h ▸ Step.iputRelease p i hp
    | dropping i =>
      simp only [hp, Option.some.injEq] at h
      exact h ▸ Step.iputDrop p i hp

end Droppers

end Xv6Containers
