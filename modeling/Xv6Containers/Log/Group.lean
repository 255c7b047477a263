import Xv6Containers.Param
import Xv6Containers.Lib.Runs
import Xv6Containers.Lib.Counting

/-!
# Group commit

`begin_op`, `log_write`, `end_op` and the part of `commit` that the counters of
`struct log` see, as atomic steps of any finite set of processes. A step is one
critical section of the code, or one access outside a critical section.

## Implementation notes

`log_write` tests the capacity before it takes `log.lock`, so the test and the
append are two steps. A process that sleeps in `begin_op` may retry at any
time, which covers every wake-up. `op` numbers, `group` and `commits` are
recorded for the statements only; no branch reads them.
-/

namespace Xv6Containers

open Lib.Runs Lib.Counting

namespace Group

/-- The panics of the three functions. -/
inductive Fault
  | tooBig
  | outsideTrans
  | logCommitting
  deriving DecidableEq

/-- Where a process stands between two of its steps. -/
inductive Pc
  | idle
  | waiting
  | inOp (op : Nat)
  | logging (op b : Nat)
  | commitStart
  | commitTail (written : List Nat)
  | commitDone
  deriving DecidableEq

/-- The operation a process has in progress. -/
def Pc.op : Pc → Option Nat
  | .inOp o => some o
  | .logging o _ => some o
  | _ => none

/-- The process is inside `commit`, or about to clear `log.committing` after it. -/
def Pc.InCommit : Pc → Prop
  | .commitStart => True
  | .commitTail _ => True
  | .commitDone => True
  | _ => False

/-- One for an operation in progress. -/
def Pc.active (x : Pc) : Int := if x.op.isSome then 1 else 0

/-- What one `commit` covered: the writes of the operations, and the blocks it wrote. -/
structure Commit where
  writes : List (Nat × Nat)
  blocks : List Nat

/-- The counters of `struct log`, the processes, and the recorded history. -/
structure State (P : Type) where
  lh : List Nat
  outstanding : Int
  committing : Bool
  fault : Option Fault
  pc : P → Pc
  nextOp : Nat
  group : List (Nat × Nat)
  commits : List Commit

variable {P : Type} [DecidableEq P]

def init : State P where
  lh := []
  outstanding := 0
  committing := false
  fault := none
  pc := fun _ => .idle
  nextOp := 0
  group := []
  commits := []

namespace State

def moveTo (s : State P) (p : P) (x : Pc) : State P := { s with pc := Function.update s.pc p x }

def panic (s : State P) (f : Fault) : State P := { s with fault := some f }

end State

/-- One turn of the loop of `begin_op`. -/
def beginOp (s : State P) (p : P) : State P :=
  if s.committing then s.moveTo p .waiting
  else if (s.lh.length : Int) + (s.outstanding + 1) * maxOpBlocks > logSize then s.moveTo p .waiting
  else { s.moveTo p (.inOp s.nextOp) with
    outstanding := s.outstanding + 1
    nextOp := s.nextOp + 1 }

/-- The tests of `log_write`, made without `log.lock`. -/
def logWriteTest (size : Nat) (s : State P) (p : P) (o b : Nat) : State P :=
  if (s.lh.length : Int) ≥ logSize ∨ (s.lh.length : Int) ≥ size - 1 then s.panic .tooBig
  else if s.outstanding < 1 then s.panic .outsideTrans
  else s.moveTo p (.logging o b)

/-- The loop of `log_write`: the first entry equal to `b` is stored again, otherwise `b`
is stored after the last one. -/
def absorb (b : Nat) : List Nat → List Nat
  | [] => [b]
  | c :: cs => if c = b then b :: cs else c :: absorb b cs

/-- The critical section of `log_write`. -/
def logWriteAppend (s : State P) (p : P) (o b : Nat) : State P :=
  { s.moveTo p (.inOp o) with
    lh := absorb b s.lh
    group := s.group ++ [(o, b)] }

/-- The first critical section of `end_op`. -/
def endOp (s : State P) (p : P) : State P :=
  let s := { s with outstanding := s.outstanding - 1 }
  if s.committing then s.panic .logCommitting
  else if s.outstanding = 0 then { s.moveTo p .commitStart with committing := true }
  else s.moveTo p .idle

/-- `commit` up to its `lh.n = 0`: the blocks it writes are those it finds in `lh`. -/
def commitWrite (s : State P) (p : P) : State P := s.moveTo p (.commitTail s.lh)

/-- `commit` from its `lh.n = 0` on. -/
def commitClear (s : State P) (p : P) (written : List Nat) : State P :=
  { s.moveTo p .commitDone with
    lh := []
    group := []
    commits := s.commits ++ [⟨s.group, written⟩] }

/-- The last critical section of `end_op`. -/
def commitFinish (s : State P) (p : P) : State P := { s.moveTo p .idle with committing := false }

inductive Event (P : Type)
  | beginOp (p : P)
  | logWrite (p : P) (b : Nat)
  | append (p : P)
  | endOp (p : P)
  | commit (p : P)
  deriving DecidableEq

/-- One step of one process. Nothing runs after a panic. -/
def step (size : Nat) (s : State P) (e : Event P) : Option (State P) :=
  if s.fault.isSome then none
  else
    match e with
    | .beginOp p =>
      match s.pc p with
      | .idle => some (beginOp s p)
      | .waiting => some (beginOp s p)
      | _ => none
    | .logWrite p b =>
      match s.pc p with
      | .inOp o => some (logWriteTest size s p o b)
      | _ => none
    | .append p =>
      match s.pc p with
      | .logging o b => some (logWriteAppend s p o b)
      | _ => none
    | .endOp p =>
      match s.pc p with
      | .inOp _ => some (endOp s p)
      | _ => none
    | .commit p =>
      match s.pc p with
      | .commitStart => some (commitWrite s p)
      | .commitTail written => some (commitClear s p written)
      | .commitDone => some (commitFinish s p)
      | _ => none

/-- Everything a step can do, with its guard. -/
inductive Step (size : Nat) (s : State P) : Event P → State P → Prop
  | sleep (p : P) (hp : s.pc p = .idle ∨ s.pc p = .waiting)
      (hwait : s.committing = true ∨
        (s.lh.length : Int) + (s.outstanding + 1) * maxOpBlocks > logSize) :
      Step size s (.beginOp p) (s.moveTo p .waiting)
  | enter (p : P) (hp : s.pc p = .idle ∨ s.pc p = .waiting) (hc : s.committing = false)
      (hroom : (s.lh.length : Int) + (s.outstanding + 1) * maxOpBlocks ≤ logSize) :
      Step size s (.beginOp p) { s.moveTo p (.inOp s.nextOp) with
        outstanding := s.outstanding + 1, nextOp := s.nextOp + 1 }
  | tooBig (p : P) (b : Nat) (o : Nat) (hp : s.pc p = .inOp o)
      (hfull : (s.lh.length : Int) ≥ logSize ∨ (s.lh.length : Int) ≥ size - 1) :
      Step size s (.logWrite p b) (s.panic .tooBig)
  | outside (p : P) (b : Nat) (o : Nat) (hp : s.pc p = .inOp o)
      (hfree : ¬ ((s.lh.length : Int) ≥ logSize ∨ (s.lh.length : Int) ≥ size - 1))
      (hout : s.outstanding < 1) : Step size s (.logWrite p b) (s.panic .outsideTrans)
  | test (p : P) (b : Nat) (o : Nat) (hp : s.pc p = .inOp o)
      (hfree : ¬ ((s.lh.length : Int) ≥ logSize ∨ (s.lh.length : Int) ≥ size - 1))
      (hin : 1 ≤ s.outstanding) : Step size s (.logWrite p b) (s.moveTo p (.logging o b))
  | append (p : P) (o b : Nat) (hp : s.pc p = .logging o b) :
      Step size s (.append p) (logWriteAppend s p o b)
  | endPanic (p : P) (o : Nat) (hp : s.pc p = .inOp o) (hc : s.committing = true) :
      Step size s (.endOp p)
        (State.panic { s with outstanding := s.outstanding - 1 } .logCommitting)
  | endLast (p : P) (o : Nat) (hp : s.pc p = .inOp o) (hc : s.committing = false)
      (hlast : s.outstanding - 1 = 0) :
      Step size s (.endOp p) { s.moveTo p .commitStart with
        outstanding := s.outstanding - 1, committing := true }
  | endOther (p : P) (o : Nat) (hp : s.pc p = .inOp o) (hc : s.committing = false)
      (hmore : s.outstanding - 1 ≠ 0) :
      Step size s (.endOp p) { s.moveTo p .idle with outstanding := s.outstanding - 1 }
  | write (p : P) (hp : s.pc p = .commitStart) : Step size s (.commit p) (commitWrite s p)
  | clear (p : P) (written : List Nat) (hp : s.pc p = .commitTail written) :
      Step size s (.commit p) (commitClear s p written)
  | finish (p : P) (hp : s.pc p = .commitDone) : Step size s (.commit p) (commitFinish s p)

variable {size b : Nat} {s : State P} {lh : List Nat}

theorem beginOp_step {p : P} (hp : s.pc p = .idle ∨ s.pc p = .waiting) :
    Step size s (.beginOp p) (beginOp s p) := by
  unfold beginOp
  split
  · next hc => exact Step.sleep p hp (Or.inl hc)
  · next hc =>
    split
    · next hfull => exact Step.sleep p hp (Or.inr hfull)
    · next hroom => exact Step.enter p hp (by simpa using hc) (not_lt.mp hroom)

theorem logWriteTest_step {p : P} {o : Nat} (hp : s.pc p = .inOp o) :
    Step size s (.logWrite p b) (logWriteTest size s p o b) := by
  unfold logWriteTest
  split
  · next hfull => exact Step.tooBig p b o hp hfull
  · next hfree =>
    split
    · next hout => exact Step.outside p b o hp hfree hout
    · next hin => exact Step.test p b o hp hfree (by omega)

theorem endOp_step {p : P} {o : Nat} (hp : s.pc p = .inOp o) :
    Step size s (.endOp p) (endOp s p) := by
  unfold endOp
  dsimp only
  split
  · next hc => exact Step.endPanic p o hp hc
  · next hc =>
    have hfalse : s.committing = false := by simpa using hc
    split
    · next hlast => exact Step.endLast p o hp hfalse hlast
    · next hmore => exact Step.endOther p o hp hfalse hmore

/-- The step function takes no other steps, and none after a panic. -/
theorem step_cases {t : State P} {e : Event P} (h : step size s e = some t) :
    s.fault = none ∧ Step size s e t := by
  unfold step at h
  by_cases hf : s.fault.isSome = true
  · simp [hf] at h
  refine ⟨by simpa using hf, ?_⟩
  rw [if_neg hf] at h
  cases e with
  | beginOp p =>
    cases hp : s.pc p <;> simp only [hp, Option.some.injEq, reduceCtorEq] at h
    · exact h ▸ beginOp_step (Or.inl hp)
    · exact h ▸ beginOp_step (Or.inr hp)
  | logWrite p b =>
    cases hp : s.pc p <;> simp only [hp, Option.some.injEq, reduceCtorEq] at h
    exact h ▸ logWriteTest_step hp
  | append p =>
    cases hp : s.pc p <;> simp only [hp, Option.some.injEq, reduceCtorEq] at h
    exact h ▸ Step.append p _ _ hp
  | endOp p =>
    cases hp : s.pc p <;> simp only [hp, Option.some.injEq, reduceCtorEq] at h
    exact h ▸ endOp_step hp
  | commit p =>
    cases hp : s.pc p <;> simp only [hp, Option.some.injEq, reduceCtorEq] at h
    · exact h ▸ Step.write p hp
    · exact h ▸ Step.clear p _ hp
    · exact h ▸ Step.finish p hp

/-! ## Absorption -/

theorem absorb_of_mem (h : b ∈ lh) : absorb b lh = lh := by
  induction lh with
  | nil => simp at h
  | cons c cs ih =>
    by_cases hc : c = b
    · simp [absorb, hc]
    · have hmem : b ∈ cs := by
        rcases List.mem_cons.mp h with heq | hmem
        · exact absurd heq.symm hc
        · exact hmem
      simp [absorb, hc, ih hmem]

theorem absorb_of_not_mem (h : b ∉ lh) : absorb b lh = lh ++ [b] := by
  induction lh with
  | nil => rfl
  | cons c cs ih =>
    have hc : c ≠ b := fun heq => h (by simp [heq])
    have hmem : b ∉ cs := fun hmem => h (by simp [hmem])
    simp [absorb, hc, ih hmem]

theorem mem_absorb {c : Nat} : c ∈ absorb b lh ↔ c ∈ lh ∨ c = b := by
  by_cases h : b ∈ lh
  · rw [absorb_of_mem h]
    constructor
    · exact Or.inl
    · rintro (hc | rfl)
      · exact hc
      · exact h
  · simp [absorb_of_not_mem h]

theorem absorb_nodup (h : lh.Nodup) : (absorb b lh).Nodup := by
  by_cases hb : b ∈ lh
  · rwa [absorb_of_mem hb]
  · rw [absorb_of_not_mem hb, List.nodup_append]
    exact ⟨h, by simp, fun c hc d hd heq => hb (by simp at hd; exact hd ▸ heq ▸ hc)⟩

end Group

end Xv6Containers
