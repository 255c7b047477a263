import Xv6Containers.Process.Machine

/-!
# Clocks and the timer interrupt

What the timer interrupt counts: `ticks`, the ticks of the process that runs and,
through `p->cont`, those of its container. The pointer is not tested. For a
process without a container it is 0, and `p->cont->ticks` is a word in the first
page of that process.

## Implementation notes

The clocks and the memories of the processes stand beside the machine of
processes, which has the ticks of the containers and does the rest of the
interrupt: `wakeup(&ticks)` and the decision to yield.
-/

namespace Xv6Containers

open Lib.Memory

namespace Process

open Container

/-- The machine with `ticks`, the ticks of each process and the user memory of each process. -/
structure Clocked (n : Nat) where
  machine : Machine n
  ticks : UInt32
  procTicks : ProcSlot → UInt32
  memory : ProcSlot → Mem

namespace Clocked

variable {n : Nat}

/-- `p->cont->ticks++` on the memory of process `p`, which `p->cont` denotes if it is `NULL`. -/
def countInMemory (s : Clocked n) (p : ProcSlot) : Mem :=
  match (s.machine.cs.proc p).cont with
  | some _ => s.memory p
  | none => writeWord (s.memory p) Field.ticks.offset (readWord (s.memory p) Field.ticks.offset + 1)

/-- The timer interrupt on CPU `c`. -/
def timer (s : Clocked n) (c : Fin n) : Option (Clocked n) :=
  (s.machine.timer c).map fun t =>
    let ticks := if c.val = 0 then s.ticks + 1 else s.ticks
    match s.machine.cpu c with
    | none => ⟨t, ticks, s.procTicks, s.memory⟩
    | some run =>
      ⟨t, ticks, Function.update s.procTicks run.p (s.procTicks run.p + 1),
        Function.update s.memory run.p (s.countInMemory run.p)⟩

/-- The ticks of a container. -/
def contTicks (s : Clocked n) (a : Cont) : Nat := field s.machine.cs.table a .ticks

/-- The interrupt on CPU `c` counted one tick for the system, for the process `p` and for its
container, and changed no other ticks and no user memory. -/
structure CountsOnly (s t : Clocked n) (c : Fin n) (p : ProcSlot) : Prop where
  global : t.ticks = if c.val = 0 then s.ticks + 1 else s.ticks
  proc : t.procTicks p = s.procTicks p + 1
  otherProcs : ∀ q, q ≠ p → t.procTicks q = s.procTicks q
  cont : ∀ a, (s.machine.cs.proc p).cont = some a →
    t.contTicks a = (s.contTicks a + 1) % 2 ^ 32
  otherConts : ∀ a, (s.machine.cs.proc p).cont ≠ some a → t.contTicks a = s.contTicks a
  memory : ∀ q x, t.memory q x = s.memory q x

end Clocked

open Clocked

variable {n : Nat} {s t : Clocked n} {c : Fin n} {run : Running}

/-- The interrupt counts for the container of the process and changes nothing else of the
containers. -/
theorem machineTimer_table {m m' : Machine n} (hrun : m.cpu c = some run)
    (hm : m.timer c = some m') :
    m'.cs.table = match (m.cs.proc run.p).cont with
      | none => m.cs.table
      | some a => addField m.cs.table a .ticks 1 := by
  have hcont : (m.woken .ticks run.p).cont = (m.cs.proc run.p).cont := by
    unfold Machine.woken
    split <;> rfl
  unfold Machine.timer at hm
  by_cases hzero : c.val = 0
  · simp only [if_pos hzero, Machine.wakeup1, hrun, hcont] at hm
    split at hm
    · cases hm
    · cases hm
      rfl
  · simp only [if_neg hzero, hrun] at hm
    split at hm
    · cases hm
    · cases hm
      rfl

/-- What the interrupt does to the clocks, the memories and the containers. -/
theorem timer_eq (hrun : s.machine.cpu c = some run) (ht : s.timer c = some t) :
    t.ticks = (if c.val = 0 then s.ticks + 1 else s.ticks) ∧
      t.procTicks = Function.update s.procTicks run.p (s.procTicks run.p + 1) ∧
      t.memory = Function.update s.memory run.p (s.countInMemory run.p) ∧
      t.machine.cs.table = match (s.machine.cs.proc run.p).cont with
        | none => s.machine.cs.table
        | some a => addField s.machine.cs.table a .ticks 1 := by
  obtain ⟨m, hm, rfl⟩ := Option.map_eq_some_iff.mp ht
  rw [hrun]
  exact ⟨rfl, rfl, rfl, machineTimer_table hrun hm⟩

theorem contTicks_addField (m : Table) (a : Cont) :
    field (addField m a .ticks 1) a .ticks = (field m a .ticks + 1) % 2 ^ 32 := by
  rw [addField, field_writeWord_self, word, intField, toSigned]
  have hlt : field m a .ticks < 2 ^ 32 := readWord_lt m _
  split <;> omega

/-- A word of memory that was counted up has changed. -/
theorem countInMemory_ne {p : ProcSlot} (hcont : (s.machine.cs.proc p).cont = none) :
    s.countInMemory p ≠ s.memory p := by
  intro h
  have hword := congrArg (fun m => readWord m Field.ticks.offset) h
  have hlt := readWord_lt (s.memory p) Field.ticks.offset
  simp only [countInMemory, hcont, readWord_writeWord] at hword
  omega

/-- Process 0 runs on the only CPU, in container 0 or in none; its memory is all zero. -/
def clockedSample (cont : Option Cont) : Clocked 1 where
  machine :=
    { cs :=
        { proc := Function.update (fun _ => ⟨.unused, 0, false, none⟩) 0 ⟨.running, 1, false, cont⟩
          table := blit (fun _ => 0) (address 0 nameOffset) [97]
          low := fun _ => emptyName }
      nextpid := 2
      parent := fun _ => none
      chan := fun _ => none
      pc := fun _ => .free
      cpu := fun _ => some ⟨0, none, false⟩ }
  ticks := 0
  procTicks := fun _ => 0
  memory := fun _ _ => 0

end Process

end Xv6Containers
