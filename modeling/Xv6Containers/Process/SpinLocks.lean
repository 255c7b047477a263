import Xv6Containers.Lib.LockOrder
import Xv6Containers.Param

/-!
# The spin locks of the kernel

Kernel paths as the sequences of acquisitions and releases that they make, with
the calls they make inside their critical sections. Any number of CPUs execute
them.

## Implementation notes

What a path does between its lock operations is not represented; where a branch
or a loop changes the sequence, the path has a parameter for it. `sched` passes
`ptable.lock` to the scheduler and gets it back later, so for the path it is a
release and an acquisition. Interrupts come only while the CPU holds no spin lock,
so a handler is a path of its own.
-/

namespace Xv6Containers.Process

open Lib.LockOrder Lib.Runs

/-- The spin locks; `ι` are the pipes. -/
inductive Lock (ι : Type)
  | ptable
  | kmem
  | cons
  | pipe (i : ι)
  | log
  | ticks
  deriving DecidableEq

abbrev Acts (ι : Type) := List (Act (Lock ι))

namespace Paths

variable {ι : Type} [DecidableEq ι]

/-- A critical section. -/
def locked (l : Lock ι) (inner : Acts ι) : Acts ι := .acquire l :: inner ++ [.release l]

/-- The body of a loop, `n` times. -/
def times (n : Nat) (body : Acts ι) : Acts ι := (List.range n).flatMap fun _ => body

def cprintf : Acts ι := locked .cons []

def wakeup : Acts ι := locked .ptable []

def sched : Acts ι := [.release .ptable, .acquire .ptable]

def sleep (lk : Lock ι) : Acts ι :=
  if lk = .ptable then sched
  else [.acquire .ptable, .release lk] ++ sched ++ [.release .ptable, .acquire lk]

/-- `kill`; a refusal is printed with the process table locked. -/
def kill (refused : Bool) : Acts ι := locked .ptable (if refused then cprintf else [])

def kfree : Acts ι := locked .kmem []

/-- `cstop_container_helper`, for the processes it kills. -/
def cstopContainerHelper (kills : List Bool) : Acts ι := kills.flatMap kill

/-- `kalloc`; over the limit `set_curr_mem` prints, and the container is stopped. -/
def kalloc (stop : Option (List Bool)) : Acts ι :=
  locked .kmem
    (match stop with
    | none => []
    | some kills => cprintf ++ cstopContainerHelper kills)

/-- `wait`: rounds that sleep, then the pages of the child that are freed. -/
def wait (rounds freed : Nat) : Acts ι :=
  locked .ptable (times rounds (sleep .ptable) ++ times freed kfree)

def yield : Acts ι := locked .ptable sched

/-- The part of `exit`, of `allocproc`, of `fork` and of `scheduler` that is under the lock. -/
def tableScan : Acts ι := locked .ptable []

/-- `consoleintr`, and what it prints afterwards. -/
def consoleintr (wakes prints : Nat) : Acts ι :=
  locked .cons (times wakes wakeup) ++ times prints cprintf

def consoleread (sleeps : Nat) : Acts ι := locked .cons (times sleeps (sleep .cons))

def consolewrite : Acts ι := locked .cons []

/-- `pipewrite`, which skips its last `wakeup` if it fails. -/
def pipewrite (i : ι) (rounds : Nat) (done : Bool) : Acts ι :=
  locked (.pipe i) (times rounds (wakeup ++ sleep (.pipe i)) ++ if done then wakeup else [])

def piperead (i : ι) (sleeps : Nat) (done : Bool) : Acts ι :=
  locked (.pipe i) (times sleeps (sleep (.pipe i)) ++ if done then wakeup else [])

/-- `pipeclose`, which frees the pipe when the other end is closed too. -/
def pipeclose (i : ι) (last : Bool) : Acts ι :=
  locked (.pipe i) wakeup ++ if last then kfree else []

def beginOp (sleeps : Nat) : Acts ι := locked .log (times sleeps (sleep .log))

def endOp (commit : Bool) : Acts ι :=
  locked .log (if commit then [] else wakeup) ++ if commit then locked .log wakeup else []

def logWrite : Acts ι := locked .log []

def sysSleep (sleeps : Nat) : Acts ι := locked .ticks (times sleeps (sleep .ticks))

/-- The timer interrupt on the first CPU. -/
def tick : Acts ι := locked .ticks wakeup

def sysUptime : Acts ι := locked .ticks []

end Paths

/-- The kernel paths with the choices that their branches and loops make. -/
inductive Path (ι : Type)
  | cprintf
  | wakeup
  | kill (refused : Bool)
  | kfree
  | kalloc (stop : Option (List Bool))
  | wait (rounds freed : Nat)
  | yield
  | tableScan
  | consoleintr (wakes prints : Nat)
  | consoleread (sleeps : Nat)
  | consolewrite
  | pipewrite (i : ι) (rounds : Nat) (done : Bool)
  | piperead (i : ι) (sleeps : Nat) (done : Bool)
  | pipeclose (i : ι) (last : Bool)
  | beginOp (sleeps : Nat)
  | endOp (commit : Bool)
  | logWrite
  | sysSleep (sleeps : Nat)
  | tick
  | sysUptime

variable {ι : Type} [DecidableEq ι]

def Path.acts : Path ι → Acts ι
  | .cprintf => Paths.cprintf
  | .wakeup => Paths.wakeup
  | .kill refused => Paths.kill refused
  | .kfree => Paths.kfree
  | .kalloc stop => Paths.kalloc stop
  | .wait rounds freed => Paths.wait rounds freed
  | .yield => Paths.yield
  | .tableScan => Paths.tableScan
  | .consoleintr wakes prints => Paths.consoleintr wakes prints
  | .consoleread sleeps => Paths.consoleread sleeps
  | .consolewrite => Paths.consolewrite
  | .pipewrite i rounds done => Paths.pipewrite i rounds done
  | .piperead i sleeps done => Paths.piperead i sleeps done
  | .pipeclose i last => Paths.pipeclose i last
  | .beginOp sleeps => Paths.beginOp sleeps
  | .endOp commit => Paths.endOp commit
  | .logWrite => Paths.logWrite
  | .sysSleep sleeps => Paths.sysSleep sleeps
  | .tick => Paths.tick
  | .sysUptime => Paths.sysUptime

/-- `kalloc` stays within the limit and `kill` is not refused. -/
def Path.Plain : Path ι → Prop
  | .kill refused => refused = false
  | .kalloc stop => stop = none
  | _ => True

instance (x : Path ι) : Decidable x.Plain := by
  unfold Path.Plain
  split <;> infer_instance

/-! ## The order -/

/-- The other locks come before `ptable.lock`, and `kmem.lock` after it. -/
def rank : Lock ι → Nat
  | .ptable => 1
  | .kmem => 2
  | _ => 0

namespace Paths

variable {l : Lock ι}

theorem climbs_locked {inner : Acts ι} (h : Climbs rank [l] inner [l]) :
    Climbs rank [] (locked l inner) [] := h.under

theorem climbs_nil {held : List (Lock ι)} : Climbs rank held [] held := rfl

theorem climbs_times {held : List (Lock ι)} {body : Acts ι} (h : Climbs rank held body held)
    (n : Nat) : Climbs rank held (times n body) held := Climbs.flatMap fun _ _ => h

/-- A critical section nested in another one. -/
theorem climbs_nested {m : Lock ι} (h : rank l < rank m) : Climbs rank [l] (locked m []) [l] := by
  refine ⟨by simpa using h, ?_⟩
  simp [Climbs]

omit [DecidableEq ι] in
theorem lt_ptable (h : rank l = 0) : rank l < rank (.ptable : Lock ι) := by
  rw [h]
  exact Nat.zero_lt_one

theorem climbs_wakeup (h : rank l = 0) : Climbs rank [l] wakeup [l] := climbs_nested (lt_ptable h)

theorem climbs_sched : Climbs rank [.ptable] (sched : Acts ι) [.ptable] := by
  simp [sched, Climbs]

theorem climbs_sleep (h : rank l = 0) : Climbs rank [l] (sleep l) [l] := by
  have hne : l ≠ .ptable := by
    rintro rfl
    cases h
  simp [sleep, sched, hne, Climbs, lt_ptable h, hne.symm]

theorem climbs_sleep_ptable : Climbs rank [.ptable] (sleep .ptable : Acts ι) [.ptable] := by
  simpa [sleep] using climbs_sched

/-- A loop that sleeps under a lock of the lowest rank. -/
theorem climbs_sleeps (h : rank l = 0) (n : Nat) :
    Climbs rank [] (locked l (times n (sleep l))) [] :=
  climbs_locked (climbs_times (climbs_sleep h) n)

end Paths

open Paths in
/-- Every path but the two climbs. -/
theorem Path.climbs {x : Path ι} (h : x.Plain) : Climbs rank [] x.acts [] := by
  have hpipe (i : ι) : rank (Lock.pipe i) = 0 := rfl
  have hwake {l : Lock ι} (hl : rank l = 0) (b : Bool) :
      Climbs rank [l] (if b then Paths.wakeup else []) [l] := by
    cases b with
    | false => exact climbs_nil
    | true => exact climbs_wakeup hl
  cases x with
  | kill refused =>
    obtain rfl : refused = false := h
    exact climbs_locked climbs_nil
  | kalloc stop =>
    obtain rfl : stop = none := h
    exact climbs_locked climbs_nil
  | wait rounds freed =>
    exact climbs_locked ((climbs_times climbs_sleep_ptable rounds).append
      (climbs_times (climbs_nested (by simp [rank])) freed))
  | yield => exact climbs_locked climbs_sched
  | consoleintr wakes prints =>
    exact (climbs_locked (climbs_times (climbs_wakeup rfl) wakes)).append
      (climbs_times (climbs_locked climbs_nil) prints)
  | consoleread sleeps => exact climbs_sleeps rfl sleeps
  | pipewrite i rounds done =>
    exact climbs_locked ((climbs_times ((climbs_wakeup (hpipe i)).append
      (climbs_sleep (hpipe i))) rounds).append (hwake (hpipe i) done))
  | piperead i sleeps done =>
    exact climbs_locked ((climbs_times (climbs_sleep (hpipe i)) sleeps).append
      (hwake (hpipe i) done))
  | pipeclose i last =>
    refine (climbs_locked (climbs_wakeup (hpipe i))).append ?_
    cases last with
    | false => exact climbs_nil
    | true => exact climbs_locked climbs_nil
  | beginOp sleeps => exact climbs_sleeps rfl sleeps
  | endOp commit =>
    cases commit with
    | false => exact (climbs_locked (climbs_wakeup rfl)).append climbs_nil
    | true => exact (climbs_locked climbs_nil).append (climbs_locked (climbs_wakeup rfl))
  | sysSleep sleeps => exact climbs_sleeps rfl sleeps
  | tick => exact climbs_locked (climbs_wakeup rfl)
  | _ => exact climbs_locked climbs_nil

/-- The condition on the path that a CPU enters. -/
def EntersPlain {P : Type} (_ : State P (Lock ι)) : Lib.LockOrder.Event P (Path ι) → Prop
  | .start _ x => x.Plain
  | .go _ => True

instance {P : Type} (s : State P (Lock ι)) (e : Lib.LockOrder.Event P (Path ι)) :
    Decidable (EntersPlain s e) := by
  unfold EntersPlain
  split <;> infer_instance

/-- Any number of CPUs that execute kernel paths never wait for each other in a cycle, if no
`kalloc` goes over its limit and no `kill` is refused. -/
theorem no_lock_cycle {P ι : Type} [DecidableEq P] [DecidableEq ι]
    {es : List (Lib.LockOrder.Event P (Path ι))} {s : State P (Lock ι)}
    (hplain : Always (Lib.LockOrder.step Path.acts) EntersPlain idle es)
    (hrun : run (Lib.LockOrder.step Path.acts) idle es = some s) : ¬ Deadlocked s :=
  run_not_deadlocked (fun _ _ _ hx => Path.climbs hx) hplain hrun

/-- One CPU reaps a child while another one allocates and a third one reads the console. -/
theorem no_lock_cycle_three :
    ∃ s, run (Lib.LockOrder.step (Path.acts : Path Unit → _)) (idle : State (Fin 3) (Lock Unit))
        [.start 0 (.wait 0 1), .start 1 (.kalloc none), .start 2 (.consoleread 1), .go 0, .go 1,
          .go 2] = some s ∧ Waits s 0 1 ∧ Waits s 2 0 ∧ ¬ Deadlocked s := by
  have hplain : Always (Lib.LockOrder.step (Path.acts : Path Unit → _)) EntersPlain
      (idle : State (Fin 3) (Lock Unit)) [.start 0 (.wait 0 1), .start 1 (.kalloc none),
        .start 2 (.consoleread 1), .go 0, .go 1, .go 2] := by decide
  exact ⟨_, rfl, ⟨_, _, rfl, rfl⟩, ⟨_, _, rfl, rfl⟩, no_lock_cycle hplain rfl⟩

/-- `wait` holds `ptable.lock` and wants `kmem.lock` for `kfree`, while `kalloc` over its limit
holds `kmem.lock` and wants `ptable.lock` for `kill`. A refused `kill` holds `ptable.lock` and
wants `cons.lock` for its message, while `consoleintr` holds `cons.lock` and wants
`ptable.lock` for `wakeup`. -/
theorem kalloc_and_kill_deadlock :
    (∃ s, run (Lib.LockOrder.step (Path.acts : Path Unit → _)) (idle : State (Fin 2) (Lock Unit))
        [.start 0 (.wait 0 1), .start 1 (.kalloc (some [false])), .go 0, .go 1, .go 1, .go 1] =
          some s ∧ Deadlocked s) ∧
    ∃ s, run (Lib.LockOrder.step (Path.acts : Path Unit → _)) (idle : State (Fin 2) (Lock Unit))
        [.start 0 (.kill true), .start 1 (.consoleintr 1 0), .go 0, .go 1] = some s ∧
      Deadlocked s := by
  have hcycle {s : State (Fin 2) (Lock Unit)} (h₀ : Waits s 0 1) (h₁ : Waits s 1 0) :
      Deadlocked s := ⟨0, .tail (.single h₀) h₁⟩
  exact ⟨⟨_, rfl, hcycle ⟨_, _, rfl, rfl⟩ ⟨_, _, rfl, rfl⟩⟩,
    ⟨_, rfl, hcycle ⟨_, _, rfl, rfl⟩ ⟨_, _, rfl, rfl⟩⟩⟩

end Xv6Containers.Process
