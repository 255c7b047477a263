import Xv6Containers.Container.Counters

/-!
# Processes on several CPUs

The life of processes in `proc.c` and `trap.c`: the scheduler of each CPU, timer
ticks, `sleep`, `wakeup`, `fork`, `exit` and `wait`, with the system calls of the
containers between them. What happens while `ptable.lock` is held is one step.
The loops of `pause`, `resume` and `cstop`, which do not hold it, and `fork`,
which holds it at two points only, go step by step: the test of a process and
the store to it are separate steps.

## Implementation notes

A CPU that runs a process keeps the state of the scheduler's loop, which goes on
behind that process when it gives up the CPU. A process that runs may make any
call at any time; what it does between calls is not modelled, and a process that
wakes up in `wait` looks for children again by calling it again. The accounting
of `sys_fork` is left out. A step is `none` where the source writes outside an
array: the scheduler copies a container name into sixteen bytes.
-/

namespace Xv6Containers

open Lib.Memory Lib.Strings Lib.Search Function

namespace Process

open Container

/-- What a process sleeps on: the clock, a process in `wait`, or something else. -/
inductive Chan
  | ticks
  | proc (q : ProcSlot)
  | other (n : Nat)
  deriving DecidableEq

/-- The argument of `cstop_helper` or of `cstop_container_helper`. -/
inductive Target
  | named (nm : CString)
  | own (c : Cont)
  deriving DecidableEq

/-- Where the loop that stops a container stands with a process. -/
inductive StopStage
  | test
  | matched
  | killing (pid : Int)
  deriving DecidableEq

/-- Where a process stands in a kernel function that is not one critical section. The number
is the index of a loop over the process table, `hit` that the test of that process succeeded. -/
inductive Pc
  | free
  | forkEntered
  | forkAllocated (q : ProcSlot)
  | forkCleared (q : ProcSlot)
  | pausing (nm : CString) (k : Nat) (hit : Bool)
  | resuming (nm : CString) (k : Nat) (hit : Bool)
  | stopping (target : Target) (k : Nat) (stage : StopStage)
  | exited
  deriving DecidableEq

/-- A CPU that runs process `p`: the name the scheduler's loop looks for, if it looks for
processes of a container, and whether the timer has decided to yield. -/
structure Running where
  p : ProcSlot
  holder : Option CString
  resched : Bool
  deriving DecidableEq

structure Machine (n : Nat) where
  cs : State
  nextpid : Int
  parent : ProcSlot → Option ProcSlot
  chan : ProcSlot → Option Chan
  pc : ProcSlot → Pc
  cpu : Fin n → Option Running

/-- The first process. -/
def initproc : ProcSlot := 0

/-- The process that a loop over the table is at. -/
def slotAt (k : Nat) : Option ProcSlot := if h : k < nproc then some ⟨k, h⟩ else none

/-- `get_used`. -/
def getUsed (m : Table) : Nat :=
  ((List.finRange maxContainers).filter fun c => strcmp (name m c).bytes [] ≠ 0).length

/-- `get_cticks`, when `rand` returns `r`; `none` stands for `-1`. -/
def getCticks (m : Table) (r : Fin 7) : Option Cont :=
  if getUsed m = 0 then none
  else if r = 0 then none
  else some ((List.finRange maxContainers).foldl (fun c i =>
    if intField m i .ticks < intField m 0 .ticks ∧ strcmp (name m i).bytes [] ≠ 0 then i else c) 0)

/-- The length of the array `name` in `scheduler`. -/
def schedulerName : Nat := 16

/-- The name that `scheduler` looks for. -/
def holderName (m : Table) : Option Cont → Option (Option CString)
  | none => some none
  | some c => if strlen (name m c) < schedulerName then some (some (name m c)) else none

namespace Machine

variable {n : Nat}

def state (s : Machine n) (q : ProcSlot) : ProcState := (s.cs.proc q).state

def setState (s : Machine n) (q : ProcSlot) (x : ProcState) : Machine n :=
  { s with cs := s.cs.setProc q { s.cs.proc q with state := x } }

def setPc (s : Machine n) (p : ProcSlot) (x : Pc) : Machine n :=
  { s with pc := update s.pc p x }

def setCpu (s : Machine n) (c : Fin n) (r : Option Running) : Machine n :=
  { s with cpu := update s.cpu c r }

def setTable (s : Machine n) (m : Table) : Machine n := { s with cs := { s.cs with table := m } }

theorem state_setState (s : Machine n) (q : ProcSlot) (x : ProcState) (r : ProcSlot) :
    (s.setState q x).state r = if r = q then x else s.state r := by
  by_cases h : r = q
  · subst h
    simp [state, setState, State.setProc]
  · simp [state, setState, State.setProc, h]

@[simp] theorem setState_cpu (s : Machine n) (q : ProcSlot) (x : ProcState) :
    (s.setState q x).cpu = s.cpu := rfl

@[simp] theorem setPc_state (s : Machine n) (p : ProcSlot) (x : Pc) (q : ProcSlot) :
    (s.setPc p x).state q = s.state q := rfl

@[simp] theorem setPc_cpu (s : Machine n) (p : ProcSlot) (x : Pc) : (s.setPc p x).cpu = s.cpu := rfl

theorem pc_setPc (s : Machine n) (p : ProcSlot) (x : Pc) (q : ProcSlot) :
    (s.setPc p x).pc q = if q = p then x else s.pc q := by
  simp [setPc, update_apply]

@[simp] theorem setCpu_cs (s : Machine n) (c : Fin n) (r : Option Running) :
    (s.setCpu c r).cs = s.cs := rfl

theorem cpu_setCpu (s : Machine n) (c : Fin n) (r : Option Running) (d : Fin n) :
    (s.setCpu c r).cpu d = if d = c then r else s.cpu d := by
  simp [setCpu, update_apply]

@[simp] theorem setTable_cpu (s : Machine n) (m : Table) : (s.setTable m).cpu = s.cpu := rfl

/-! ## The scheduler -/

/-- The test of `scheduler` that comes before the state. -/
def Eligible (s : Machine n) (holder : Option CString) (q : ProcSlot) : Prop :=
  match holder, (s.cs.proc q).cont with
  | none, none => True
  | none, some _ => False
  | some _, none => False
  | some nm, some c => strcmp (name s.cs.table c).bytes nm.bytes = 0

instance (s : Machine n) (holder : Option CString) (q : ProcSlot) :
    Decidable (s.Eligible holder q) := by
  unfold Eligible
  split <;> infer_instance

/-- The next process that the loop of `scheduler` runs. -/
def candidate (s : Machine n) (holder : Option CString) (k : Nat) : Option ProcSlot :=
  first fun q => k ≤ q.val ∧ s.Eligible holder q ∧ s.state q = .runnable

/-- Switch to process `q`, which leaves `sleep` if it was in it. -/
def dispatch (s : Machine n) (c : Fin n) (holder : Option CString) (q : ProcSlot) : Machine n :=
  { s.setState q .running with
    chan := update s.chan q none
    cpu := update s.cpu c (some ⟨q, holder, false⟩) }

/-- The loop of `scheduler` from process `k` on. -/
def scan (s : Machine n) (c : Fin n) (holder : Option CString) (k : Nat) : Machine n :=
  match s.candidate holder k with
  | none => s
  | some q => s.dispatch c holder q

/-- A pass of `scheduler` on a CPU that runs no process. -/
def pass (s : Machine n) (c : Fin n) (r : Fin 7) : Option (Machine n) :=
  match s.cpu c with
  | some _ => none
  | none => (holderName s.cs.table (getCticks s.cs.table r)).map fun holder => s.scan c holder 0

/-- The process on the CPU enters state `x` and calls `sched`. -/
def offCpu (s : Machine n) (c : Fin n) (run : Running) (x : ProcState) : Machine n :=
  (s.setState run.p x).setCpu c none

/-- `sched`, once the state has changed: the scheduler's loop goes on. -/
def leave (s : Machine n) (c : Fin n) (run : Running) (x : ProcState) : Machine n :=
  (s.offCpu c run x).scan c run.holder (run.p + 1)

/-! ## Sleeping, leaving and waiting -/

/-- What `wakeup1` makes of a process. -/
def woken (s : Machine n) (ch : Chan) (q : ProcSlot) : Proc :=
  if s.state q = .sleeping ∧ s.chan q = some ch then { s.cs.proc q with state := .runnable }
  else s.cs.proc q

/-- `wakeup1`. -/
def wakeup1 (s : Machine n) (ch : Chan) : Machine n :=
  { s with cs := { s.cs with proc := s.woken ch } }

def setChan (s : Machine n) (p : ProcSlot) (ch : Option Chan) : Machine n :=
  { s with chan := update s.chan p ch }

/-- `sleep`. -/
def sleep (s : Machine n) (c : Fin n) (run : Running) (ch : Chan) : Machine n :=
  (s.setChan run.p (some ch)).leave c run .sleeping

/-- The timer interrupt. -/
def timer (s : Machine n) (c : Fin n) : Option (Machine n) :=
  let s := if c.val = 0 then s.wakeup1 .ticks else s
  match s.cpu c with
  | none => some s
  | some run =>
    if run.resched then none
    else
      let m := match (s.cs.proc run.p).cont with
        | none => s.cs.table
        | some a => addField s.cs.table a .ticks 1
      some ((s.setTable m).setCpu c (some { run with resched := s.state run.p = .running }))

/-- `wakeup1(curproc->parent)` of `exit`. -/
def wakeParent (s : Machine n) (p : ProcSlot) : Machine n :=
  match s.parent p with
  | none => s
  | some r => s.wakeup1 (.proc r)

/-- The loop of `exit` that passes abandoned children to `init`. -/
def abandonChildren (s : Machine n) (p : ProcSlot) : Machine n :=
  let t := if ∃ q, s.parent q = some p ∧ s.state q = .zombie then s.wakeup1 (.proc initproc) else s
  { t with parent := fun q => if s.parent q = some p then some initproc else s.parent q }

/-- `exit`, from the point where `ptable.lock` is held. -/
def exit (s : Machine n) (c : Fin n) (run : Running) : Machine n :=
  (((s.wakeParent run.p).abandonChildren run.p).setPc run.p .exited).leave c run .zombie

/-- What `wait` does to the zombie it found. -/
def reap (s : Machine n) (q : ProcSlot) : Machine n :=
  { s with
    cs := s.cs.setProc q { s.cs.proc q with state := .unused, pid := 0, killed := false }
    parent := update s.parent q none }

/-- `wait`. -/
def wait (s : Machine n) (c : Fin n) (run : Running) : Machine n :=
  match first fun q => s.parent q = some run.p ∧ s.state q = .zombie with
  | some q => s.reap q
  | none =>
    if (∃ q, s.parent q = some run.p) ∧ (s.cs.proc run.p).killed = false then
      s.sleep c run (.proc run.p)
    else s

/-! ## Creating a process -/

/-- The critical section of `allocproc`. -/
def alloc (s : Machine n) (p : ProcSlot) : Machine n :=
  match first fun q => s.state q = .unused with
  | none => s.setPc p .free
  | some q =>
    { s with
      cs := s.cs.setProc q { s.cs.proc q with state := .embryo, pid := s.nextpid }
      nextpid := s.nextpid + 1
      pc := update s.pc p (.forkAllocated q) }

/-- The end of `allocproc`, which makes a new context and forgets the container. -/
def clear (s : Machine n) (p q : ProcSlot) : Machine n :=
  { s with
    cs := s.cs.setProc q { s.cs.proc q with cont := none }
    pc := update (update s.pc q .free) p (.forkCleared q) }

/-- `fork` gives up the slot it took. -/
def giveUp (s : Machine n) (p q : ProcSlot) : Machine n := (s.setState q .unused).setPc p .free

/-- The critical section of `fork`. -/
def hatch (s : Machine n) (p q : ProcSlot) : Machine n :=
  { s with
    cs := s.cs.setProc q { s.cs.proc q with state := .runnable, cont := (s.cs.proc p).cont }
    parent := update s.parent q (some p)
    pc := update s.pc p .free }

/-- The next step of `fork` by `p`; `ok` says that there was memory for it. -/
def fork (s : Machine n) (p : ProcSlot) (ok : Bool) : Option (Machine n) :=
  match s.pc p with
  | .free => if (s.cs.proc p).killed then none else some (s.setPc p .forkEntered)
  | .forkEntered => some (s.alloc p)
  | .forkAllocated q => some (if ok then s.clear p q else s.giveUp p q)
  | .forkCleared q => some (if ok then s.hatch p q else s.giveUp p q)
  | _ => none

/-! ## The loops without a lock -/

/-- The test of `pause`. -/
def PauseTest (s : Machine n) (nm : CString) (q : ProcSlot) : Prop :=
  s.state q ≠ .unused ∧
    match (s.cs.proc q).cont with
    | none => False
    | some c => strcmp (name s.cs.table c).bytes nm.bytes = 0

instance (s : Machine n) (nm : CString) (q : ProcSlot) : Decidable (s.PauseTest nm q) := by
  unfold PauseTest
  cases (s.cs.proc q).cont <;> infer_instance

/-- The test of `resume`, called by `p`. -/
def ResumeTest (s : Machine n) (p : ProcSlot) (nm : CString) (q : ProcSlot) : Prop :=
  s.state q = .pause ∧ strcmp (s.cs.contName p q).bytes nm.bytes = 0

instance (s : Machine n) (p : ProcSlot) (nm : CString) (q : ProcSlot) :
    Decidable (s.ResumeTest p nm q) := by
  unfold ResumeTest
  infer_instance

/-- The name that the loop of `cstop` compares with. -/
def targetName (s : Machine n) : Target → CString
  | .named nm => nm
  | .own c => name s.cs.table c

/-- The test of the loop of `cstop`, called by `p`. -/
def StopTest (s : Machine n) (p : ProcSlot) (target : Target) (q : ProcSlot) : Prop :=
  (∀ nm, target = .named nm → (s.cs.proc q).cont ≠ none) ∧
    strcmp (s.cs.contName p q).bytes (s.targetName target).bytes = 0

instance (s : Machine n) (p : ProcSlot) (target : Target) (q : ProcSlot) :
    Decidable (s.StopTest p target q) := by
  unfold StopTest
  cases target with
  | named nm =>
    exact decidable_of_iff ((s.cs.proc q).cont ≠ none ∧
      strcmp (s.cs.contName p q).bytes (s.targetName (.named nm)).bytes = 0) (by simp)
  | own c =>
    exact decidable_of_iff
      (strcmp (s.cs.contName p q).bytes (s.targetName (.own c)).bytes = 0) (by simp)

def pauseStep (s : Machine n) (p : ProcSlot) (nm : CString) (k : Nat) (hit : Bool) : Machine n :=
  match slotAt k with
  | none => s.setPc p .free
  | some q =>
    if hit then (s.setState q .pause).setPc p (.pausing nm (k + 1) false)
    else if s.PauseTest nm q then s.setPc p (.pausing nm k true)
    else s.setPc p (.pausing nm (k + 1) false)

def resumeStep (s : Machine n) (p : ProcSlot) (nm : CString) (k : Nat) (hit : Bool) : Machine n :=
  match slotAt k with
  | none => s.setPc p .free
  | some q =>
    if hit then (s.setState q .runnable).setPc p (.resuming nm (k + 1) false)
    else if s.ResumeTest p nm q then s.setPc p (.resuming nm k true)
    else s.setPc p (.resuming nm (k + 1) false)

/-- The loop of `cstop` tests a process, reads its number and kills that number; behind the last
process it resets the record. -/
def stopStep (s : Machine n) (p : ProcSlot) (target : Target) (k : Nat) (stage : StopStage) :
    Option (Machine n) :=
  match slotAt k with
  | none => (resetFound s.cs (s.targetName target)).map fun cs => { s with cs := cs }.setPc p .free
  | some q =>
    some (match stage with
      | .test =>
        if s.StopTest p target q then s.setPc p (.stopping target k .matched)
        else s.setPc p (.stopping target (k + 1) .test)
      | .matched => s.setPc p (.stopping target k (.killing (s.cs.proc q).pid))
      | .killing pid =>
        { s with cs := kill s.cs p pid }.setPc p (.stopping target (k + 1) .test))

/-- The next step of the loop that `p` is in. -/
def loop (s : Machine n) (p : ProcSlot) : Option (Machine n) :=
  match s.pc p with
  | .pausing nm k hit => some (s.pauseStep p nm k hit)
  | .resuming nm k hit => some (s.resumeStep p nm k hit)
  | .stopping target k stage => s.stopStep p target k stage
  | _ => none

/-! ## System calls -/

/-- `sys_cstop`: the loop that `p` enters, if it is allowed to. -/
def cstopTarget (s : Machine n) (p : ProcSlot) (nm : CString) : Option Target :=
  match (s.cs.proc p).cont with
  | none => some (.named nm)
  | some c =>
    if strlen nm = strlen (name s.cs.table c) ∧
        strncmp (strlen nm) nm.bytes (name s.cs.table c).bytes = 0 then some (.own c)
    else none

/-- `tick_reset2`. -/
def tickReset2 (m : Table) : Table :=
  (List.finRange maxContainers).foldl (fun m c => storeFields c m [(.ticks, 0)]) m

/-- A system call of `p`. -/
def call (s : Machine n) (p : ProcSlot) : Call → Option (Machine n)
  | .cstop nm =>
    match s.cstopTarget p nm with
    | none => some s
    | some target => some (s.setPc p (.stopping target 0 .test))
  | .pause nm => some (s.setPc p (.pausing nm 0 false))
  | .resume nm => some (s.setPc p (.resuming nm 0 false))
  | other => (exec s.cs p other).map fun cs => { s with cs := cs }

end Machine

/-- What can happen: passes of the schedulers, interrupts, and steps of the process on a CPU. -/
inductive Event (n : Nat)
  | pass (c : Fin n) (r : Fin 7)
  | timer (c : Fin n)
  | yield (c : Fin n)
  | wakeup (ch : Chan)
  | sleep (c : Fin n) (ch : Chan)
  | exit (c : Fin n)
  | wait (c : Fin n)
  | fork (c : Fin n) (ok : Bool)
  | loop (c : Fin n)
  | call (c : Fin n) (call : Call)
  | containerInit (c : Fin n)
  | tickReset2 (c : Fin n)
  | store (c : Fin n) (low : CString)

variable {n : Nat}

/-- A step of the process on CPU `c`, unless the timer is about to take the CPU from it. -/
def Machine.current (s : Machine n) (c : Fin n) (f : Running → Option (Machine n)) :
    Option (Machine n) :=
  match s.cpu c with
  | none => none
  | some run => if run.resched then none else f run

/-- The process on the CPU is in no kernel function that has steps of its own. -/
def Machine.idle (s : Machine n) (c : Fin n) (f : Running → Option (Machine n)) :
    Option (Machine n) :=
  s.current c fun run => if s.pc run.p = .free then f run else none

/-- The process makes a system call, which `trap` lets it do unless it was killed. -/
def Machine.enter (s : Machine n) (c : Fin n) (f : Running → Option (Machine n)) :
    Option (Machine n) :=
  s.idle c fun run => if (s.cs.proc run.p).killed then none else f run

def step (s : Machine n) : Event n → Option (Machine n)
  | .pass c r => s.pass c r
  | .timer c => s.timer c
  | .yield c =>
    match s.cpu c with
    | none => none
    | some run => if run.resched then some (s.leave c run .runnable) else none
  | .wakeup ch => some (s.wakeup1 ch)
  | .sleep c ch => s.idle c fun run => some (s.sleep c run ch)
  | .exit c => s.idle c fun run => if run.p = initproc then none else some (s.exit c run)
  | .wait c => s.idle c fun run => some (s.wait c run)
  | .fork c ok => s.current c fun run => s.fork run.p ok
  | .loop c => s.current c fun run => s.loop run.p
  | .call c call => s.enter c fun run => s.call run.p call
  | .containerInit c => s.enter c fun _ => some (s.setTable (Container.containerInit s.cs.table))
  | .tickReset2 c => s.enter c fun _ => some (s.setTable (Machine.tickReset2 s.cs.table))
  | .store c low => s.idle c fun run =>
    some { s with cs := { s.cs with low := update s.cs.low run.p low } }

/-- After `main`: no CPU runs a process, and every process is runnable or an unused slot. -/
def Boot (s : Machine n) : Prop :=
  (∀ c, s.cpu c = none) ∧ ∀ q, s.pc q = .free ∧ (s.state q = .unused ∨ s.state q = .runnable)

end Process

end Xv6Containers
