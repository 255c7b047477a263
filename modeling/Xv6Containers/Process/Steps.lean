import Xv6Containers.Process.Machine

/-!
# The moves of the process machine

`Did` says what one step can do and what is known when it does it; `LoopTurn` and
`CallTurn` say the same of a step of a loop and of a system call. Every step is
made of a few moves: a process is put on a CPU, leaves it, is woken, created or
reaped, or goes one step on in a loop. `Keeps` lists the moves; a property that
every move keeps is kept by every step.

## Implementation notes

The condition `C` on a step is a hypothesis of the moves that are a whole step.
-/

namespace Xv6Containers

open Lib.Memory Lib.Strings Lib.Search Function

namespace Process

open Container

variable {n : Nat} {s t : Machine n} {e : Event n} {c : Fin n} {run : Running} {p q : ProcSlot}

/-- Process `run.p` is on CPU `c` and the timer is not about to take it off. -/
structure Runs (s : Machine n) (c : Fin n) (run : Running) : Prop where
  cpu : s.cpu c = some run
  resched : run.resched = false

variable {f : Running → Option (Machine n)}

theorem current_eq_some (h : s.current c f = some t) : ∃ run, Runs s c run ∧ f run = some t := by
  unfold Machine.current at h
  split at h
  · cases h
  · next run hcpu =>
    split at h
    · cases h
    · next hresched => exact ⟨run, ⟨hcpu, by simpa using hresched⟩, h⟩

theorem idle_eq_some (h : s.idle c f = some t) :
    ∃ run, Runs s c run ∧ s.pc run.p = .free ∧ f run = some t := by
  obtain ⟨run, hrun, h⟩ := current_eq_some h
  split at h
  · next hpc => exact ⟨run, hrun, hpc, h⟩
  · cases h

theorem enter_eq_some (h : s.enter c f = some t) :
    ∃ run, Runs s c run ∧ s.pc run.p = .free ∧ (s.cs.proc run.p).killed = false ∧
      f run = some t := by
  obtain ⟨run, hrun, hpc, h⟩ := idle_eq_some h
  split at h
  · cases h
  · next hkilled => exact ⟨run, hrun, hpc, by simpa using hkilled, h⟩

theorem candidate_eq_some {holder : Option CString} {k : Nat} (h : s.candidate holder k = some q) :
    k ≤ q.val ∧ s.Eligible holder q ∧ s.state q = .runnable := by
  simpa using (first_eq_some.mp h).1

theorem slotAt_eq_some {k : Nat} : slotAt k = some q ↔ k = q.val := by
  unfold slotAt
  constructor
  · intro h
    split at h
    · cases h
      rfl
    · cases h
  · rintro rfl
    simp

theorem slotAt_eq_none {k : Nat} : slotAt k = none ↔ nproc ≤ k := by
  unfold slotAt
  split <;> simp <;> omega

/-- `kill` leaves the state of a process or wakes it up. -/
theorem kill_state (s : State) (me : ProcSlot) (pid : Int) (q : ProcSlot) :
    ((kill s me pid).proc q).state = (s.proc q).state ∨
      (s.proc q).state = .sleeping ∧ ((kill s me pid).proc q).state = .runnable := by
  unfold kill
  split
  · exact Or.inl rfl
  · next r _ =>
    split
    · exact Or.inl rfl
    · by_cases hq : q = r
      · subst hq
        simp only [State.setProc, update_self, markKilled]
        split
        · next h => exact Or.inr ⟨h, rfl⟩
        · exact Or.inl rfl
      · exact Or.inl (by simp [State.setProc, hq])

/-! ## The parts of a step -/

namespace Machine

/-- The table after the timer interrupt charged a tick to the container of `p`. -/
def ticked (s : Machine n) (p : ProcSlot) : Table :=
  match (s.cs.proc p).cont with
  | none => s.cs.table
  | some a => addField s.cs.table a .ticks 1

/-- What the timer interrupt of CPU `c` wakes up. -/
def ticks (s : Machine n) (c : Fin n) : Machine n := if c.val = 0 then s.wakeup1 .ticks else s

/-- The timer interrupt of CPU `c`, which runs a process. -/
def tick (s : Machine n) (c : Fin n) (run : Running) : Machine n :=
  (s.setTable (s.ticked run.p)).setCpu c (some { run with resched := s.state run.p = .running })

/-- The zombie that the loop of `wait` finds. -/
def zombieChild (s : Machine n) (p : ProcSlot) : Option ProcSlot :=
  first fun q => s.parent q = some p ∧ s.state q = .zombie

/-- `allocproc` takes slot `q`. -/
def take (s : Machine n) (p q : ProcSlot) : Machine n :=
  { s with
    cs := s.cs.setProc q { s.cs.proc q with state := .embryo, pid := s.nextpid }
    nextpid := s.nextpid + 1
    pc := update s.pc p (.forkAllocated q) }

/-- `kill` by process `p`. -/
def kills (s : Machine n) (p : ProcSlot) (pid : Int) : Machine n := { s with cs := kill s.cs p pid }

/-- Process `p` enters container `a`. -/
def joins (s : Machine n) (p : ProcSlot) (a : Cont) : Machine n :=
  { s with cs := s.cs.setProc p { s.cs.proc p with cont := some a } }

end Machine

theorem ticks_cases {P : Machine n → Prop} (h : P s) (hwakes : P (s.wakeup1 .ticks)) (c : Fin n) :
    P (s.ticks c) := by
  unfold Machine.ticks
  split
  · exact hwakes
  · exact h

theorem zombieChild_eq_some (h : s.zombieChild p = some q) :
    s.parent q = some p ∧ s.state q = .zombie := by
  simpa using (first_eq_some.mp h).1

theorem zombieChild_eq_none (h : s.zombieChild p = none) (q : ProcSlot) (hq : s.parent q = some p) :
    s.state q ≠ .zombie := by
  have hnot := first_eq_none.mp h q
  simpa [hq] using hnot

/-- No process is being created at this point, and none has exited. -/
def Pc.Plain : Pc → Prop
  | .exited | .forkAllocated _ | .forkCleared _ => False
  | _ => True

/-- Where a loop goes on without a store. -/
def Pc.Next : Pc → Pc → Prop
  | .pausing nm k _, x => x = .free ∨ ∃ j b, x = .pausing nm j b ∧ j ≤ k + 1
  | .resuming nm k _, x => x = .free ∨ ∃ j b, x = .resuming nm j b ∧ j ≤ k + 1
  | .stopping target k _, x => ∃ j stage, x = .stopping target j stage ∧ j ≤ k + 1
  | _, _ => False

theorem Pc.Next.plain {x y : Pc} (h : Pc.Next x y) : y.Plain := by
  cases x with
  | pausing nm k hit => rcases h with rfl | ⟨_, _, rfl, _⟩ <;> trivial
  | resuming nm k hit => rcases h with rfl | ⟨_, _, rfl, _⟩ <;> trivial
  | stopping target k stage =>
    obtain ⟨_, _, rfl, _⟩ := h
    trivial
  | _ => exact h.elim

/-- A step of the loop that `p` is in. -/
inductive LoopTurn (s : Machine n) (p : ProcSlot) : Machine n → Prop
  | goes (x : Pc) (h : Pc.Next (s.pc p) x) : LoopTurn s p (s.setPc p x)
  | pauses (nm : CString) (q : ProcSlot) (h : s.pc p = .pausing nm q true) :
      LoopTurn s p ((s.setState q .pause).setPc p (.pausing nm (q + 1) false))
  | resumes (nm : CString) (q : ProcSlot) (h : s.pc p = .resuming nm q true) :
      LoopTurn s p ((s.setState q .runnable).setPc p (.resuming nm (q + 1) false))
  | kills (target : Target) (k : Nat) (pid : Int) (hk : k < nproc)
      (h : s.pc p = .stopping target k (.killing pid)) :
      LoopTurn s p ((s.kills p pid).setPc p (.stopping target (k + 1) .test))
  | resets (target : Target) (k : Nat) (stage : StopStage) (a : Cont) (hk : nproc ≤ k)
      (h : s.pc p = .stopping target k stage)
      (ha : find s.cs.table (s.targetName target) = some a) :
      LoopTurn s p ((s.setTable (reset s.cs.table a)).setPc p .free)

theorem loopTurn_pauseStep {nm : CString} {k : Nat} {hit : Bool} (hpc : s.pc p = .pausing nm k hit) :
    LoopTurn s p (s.pauseStep p nm k hit) := by
  have hnext {j : Nat} (b : Bool) (hj : j ≤ k + 1) : Pc.Next (s.pc p) (.pausing nm j b) := by
    rw [hpc]
    exact Or.inr ⟨j, b, rfl, hj⟩
  unfold Machine.pauseStep
  split
  · exact .goes .free (by rw [hpc]; exact Or.inl rfl)
  · next q hq =>
    obtain rfl := slotAt_eq_some.mp hq
    split
    · next hhit => exact .pauses nm q (by rw [hpc, hhit])
    · split
      · exact .goes _ (hnext true (Nat.le_succ _))
      · exact .goes _ (hnext false (le_refl _))

theorem loopTurn_resumeStep {nm : CString} {k : Nat} {hit : Bool}
    (hpc : s.pc p = .resuming nm k hit) : LoopTurn s p (s.resumeStep p nm k hit) := by
  have hnext {j : Nat} (b : Bool) (hj : j ≤ k + 1) : Pc.Next (s.pc p) (.resuming nm j b) := by
    rw [hpc]
    exact Or.inr ⟨j, b, rfl, hj⟩
  unfold Machine.resumeStep
  split
  · exact .goes .free (by rw [hpc]; exact Or.inl rfl)
  · next q hq =>
    obtain rfl := slotAt_eq_some.mp hq
    split
    · next hhit => exact .resumes nm q (by rw [hpc, hhit])
    · split
      · exact .goes _ (hnext true (Nat.le_succ _))
      · exact .goes _ (hnext false (le_refl _))

theorem loopTurn_stopStep {target : Target} {k : Nat} {stage : StopStage}
    (hpc : s.pc p = .stopping target k stage) (h : s.stopStep p target k stage = some t) :
    LoopTurn s p t := by
  have hnext {j : Nat} (st : StopStage) (hj : j ≤ k + 1) : Pc.Next (s.pc p) (.stopping target j st) := by
    rw [hpc]
    exact ⟨j, st, rfl, hj⟩
  unfold Machine.stopStep at h
  split at h
  · next hk =>
    obtain ⟨cs, hcs, rfl⟩ := Option.map_eq_some_iff.mp h
    obtain ⟨a, ha, rfl⟩ := Option.map_eq_some_iff.mp hcs
    exact .resets target k stage a (slotAt_eq_none.mp hk) hpc ha
  · next q hq =>
    cases h
    cases stage with
    | test =>
      dsimp only
      split
      · exact .goes _ (hnext .matched (Nat.le_succ k))
      · exact .goes _ (hnext .test (le_refl _))
    | matched => exact .goes _ (hnext _ (Nat.le_succ k))
    | killing pid =>
      have hk : k < nproc := by
        rw [slotAt_eq_some.mp hq]
        exact q.isLt
      exact .kills target k pid hk hpc

theorem loop_turn (h : s.loop p = some t) : LoopTurn s p t := by
  unfold Machine.loop at h
  split at h
  · next hpc =>
    cases h
    exact loopTurn_pauseStep hpc
  · next hpc =>
    cases h
    exact loopTurn_resumeStep hpc
  · next hpc => exact loopTurn_stopStep hpc h
  · cases h

/-- The calls that enter a loop. -/
def Enters (call : Call) (x : Pc) : Prop :=
  (∃ nm target, call = .cstop nm ∧ x = .stopping target 0 .test) ∨
    (∃ nm, call = .pause nm ∧ x = .pausing nm 0 false) ∨
    ∃ nm, call = .resume nm ∧ x = .resuming nm 0 false

theorem Enters.plain {call : Call} {x : Pc} (h : Enters call x) : x.Plain := by
  rcases h with ⟨_, _, _, rfl⟩ | ⟨_, _, rfl⟩ | ⟨_, _, rfl⟩ <;> trivial

/-- A system call of `p`. -/
inductive CallTurn (s : Machine n) (p : ProcSlot) : Call → Machine n → Prop
  | enters (call : Call) (x : Pc) (h : Enters call x) : CallTurn s p call (s.setPc p x)
  | refused (nm : CString) : CallTurn s p (.cstop nm) s
  | kills (pid : Int) : CallTurn s p (.kill pid) (s.kills p pid)
  | joins (vc : Int) (a : Cont) (ha : index vc = some a) :
      CallTurn s p (.contProcSet vc) (s.joins p a)
  | resets (vc next : Int) (a : Cont) (ha : index next = some a) :
      CallTurn s p (.containerReset vc next) (s.setTable (reset s.cs.table a))
  | names (nm : CString) (vc : Int) (m : Table) (hm : setName nm vc s.cs.table = some m) :
      CallTurn s p (.setName nm vc) (s.setTable m)
  | limits (call : Call) (f : Field) (v vc : Int) (m : Table)
      (hm : setField f v vc s.cs.table = some m) : CallTurn s p call (s.setTable m)

theorem call_turn {call : Call} (h : s.call p call = some t) : CallTurn s p call t := by
  have htable {f : Table → Option Table} {call : Call}
      (hcall : ∀ m, f s.cs.table = some m → CallTurn s p call (s.setTable m))
      (h : (onTable s.cs f).map (fun cs => { s with cs := cs }) = some t) : CallTurn s p call t := by
    obtain ⟨cs, hcs, rfl⟩ := Option.map_eq_some_iff.mp h
    obtain ⟨m, hm, rfl⟩ := Option.map_eq_some_iff.mp hcs
    exact hcall m hm
  cases call with
  | cstop nm =>
    simp only [Machine.call] at h
    split at h
    · cases h
      exact .refused nm
    · next target _ =>
      cases h
      exact .enters _ _ (Or.inl ⟨nm, target, rfl, rfl⟩)
  | pause nm =>
    cases h
    exact .enters _ _ (Or.inr (Or.inl ⟨nm, rfl, rfl⟩))
  | resume nm =>
    cases h
    exact .enters _ _ (Or.inr (Or.inr ⟨nm, rfl, rfl⟩))
  | kill pid =>
    cases h
    exact .kills pid
  | contProcSet vc =>
    obtain ⟨cs, hcs, rfl⟩ := Option.map_eq_some_iff.mp h
    obtain ⟨a, ha, rfl⟩ := Option.map_eq_some_iff.mp hcs
    exact .joins vc a ha
  | containerReset vc next =>
    refine htable (fun m hm => ?_) h
    obtain ⟨a, ha, rfl⟩ := Option.map_eq_some_iff.mp hm
    exact .resets vc next a ha
  | setName nm vc => exact htable (.names nm vc) h
  | setMaxMem mem vc => exact htable (.limits _ _ mem vc) h
  | setMaxDisk disk vc => exact htable (.limits _ _ disk vc) h
  | setMaxProc procs vc => exact htable (.limits _ _ procs vc) h

/-! ## A whole step -/

/-- What a step does to the machine. -/
inductive Did (s : Machine n) : Event n → Machine n → Prop
  | pass (c : Fin n) (r : Fin 7) (holder : Option CString) (h : s.cpu c = none) :
      Did s (.pass c r) (s.scan c holder 0)
  | timer (c : Fin n) : Did s (.timer c) (s.ticks c)
  | tick (c : Fin n) (run : Running) (h : Runs s c run) : Did s (.timer c) ((s.ticks c).tick c run)
  | yield (c : Fin n) (run : Running) (h : s.cpu c = some run) (hre : run.resched = true) :
      Did s (.yield c) (s.leave c run .runnable)
  | wakeup (ch : Chan) : Did s (.wakeup ch) (s.wakeup1 ch)
  | sleep (c : Fin n) (run : Running) (ch : Chan) (h : Runs s c run) (hpc : s.pc run.p = .free) :
      Did s (.sleep c ch) (s.sleep c run ch)
  | exit (c : Fin n) (run : Running) (h : Runs s c run) (hpc : s.pc run.p = .free)
      (hinit : run.p ≠ initproc) : Did s (.exit c) (s.exit c run)
  | reaps (c : Fin n) (run : Running) (q : ProcSlot) (h : Runs s c run)
      (hq : s.zombieChild run.p = some q) : Did s (.wait c) (s.reap q)
  | waits (c : Fin n) (run : Running) (h : Runs s c run) (hpc : s.pc run.p = .free)
      (hnone : s.zombieChild run.p = none) : Did s (.wait c) (s.sleep c run (.proc run.p))
  | returns (c : Fin n) (run : Running) (h : Runs s c run) (hnone : s.zombieChild run.p = none) :
      Did s (.wait c) s
  | forks (c : Fin n) (ok : Bool) (run : Running) (h : Runs s c run) (hpc : s.pc run.p = .free) :
      Did s (.fork c ok) (s.setPc run.p .forkEntered)
  | full (c : Fin n) (ok : Bool) (run : Running) (h : Runs s c run)
      (hpc : s.pc run.p = .forkEntered) : Did s (.fork c ok) (s.setPc run.p .free)
  | takes (c : Fin n) (ok : Bool) (run : Running) (q : ProcSlot) (h : Runs s c run)
      (hpc : s.pc run.p = .forkEntered) (hq : s.state q = .unused) :
      Did s (.fork c ok) (s.take run.p q)
  | clears (c : Fin n) (run : Running) (q : ProcSlot) (h : Runs s c run)
      (hpc : s.pc run.p = .forkAllocated q) : Did s (.fork c true) (s.clear run.p q)
  | givesUp (c : Fin n) (run : Running) (q : ProcSlot) (h : Runs s c run)
      (hpc : s.pc run.p = .forkAllocated q ∨ s.pc run.p = .forkCleared q) :
      Did s (.fork c false) (s.giveUp run.p q)
  | hatches (c : Fin n) (run : Running) (q : ProcSlot) (h : Runs s c run)
      (hpc : s.pc run.p = .forkCleared q) : Did s (.fork c true) (s.hatch run.p q)
  | loops (c : Fin n) (run : Running) (t : Machine n) (h : Runs s c run)
      (hloop : s.loop run.p = some t) : Did s (.loop c) t
  | calls (c : Fin n) (run : Running) (call : Call) (t : Machine n) (h : Runs s c run)
      (hpc : s.pc run.p = .free) (hcall : CallTurn s run.p call t) : Did s (.call c call) t
  | containerInit (c : Fin n) :
      Did s (.containerInit c) (s.setTable (Container.containerInit s.cs.table))
  | tickReset2 (c : Fin n) : Did s (.tickReset2 c) (s.setTable (Machine.tickReset2 s.cs.table))
  | store (c : Fin n) (low : CString) (p : ProcSlot) :
      Did s (.store c low) { s with cs := { s.cs with low := update s.cs.low p low } }

theorem did_timer (h : s.timer c = some t) : Did s (.timer c) t := by
  have hcpu : (s.ticks c).cpu = s.cpu := ticks_cases (P := fun u => u.cpu = s.cpu) rfl rfl c
  unfold Machine.timer at h
  dsimp only at h
  rw [← Machine.ticks] at h
  split at h
  · cases h
    exact .timer c
  · next run hrun =>
    split at h
    · cases h
    · next hresched =>
      cases h
      rw [hcpu] at hrun
      exact .tick c run ⟨hrun, by simpa using hresched⟩

theorem did_wait (hrun : Runs s c run) (hpc : s.pc run.p = .free) :
    Did s (.wait c) (s.wait c run) := by
  unfold Machine.wait
  rw [← Machine.zombieChild]
  split
  · next q hq => exact .reaps c run q hrun hq
  · next hnone =>
    split
    · exact .waits c run hrun hpc hnone
    · exact .returns c run hrun hnone

theorem did_fork {ok : Bool} (hrun : Runs s c run) (h : s.fork run.p ok = some t) :
    Did s (.fork c ok) t := by
  unfold Machine.fork at h
  split at h
  · next hpc =>
    split at h
    · cases h
    · cases h
      exact .forks c ok run hrun hpc
  · next hpc =>
    cases h
    unfold Machine.alloc
    split
    · exact .full c ok run hrun hpc
    · next q hq => exact .takes c ok run q hrun hpc (by simpa using (first_eq_some.mp hq).1)
  · next q hpc =>
    cases ok
    · cases h
      exact .givesUp c run q hrun (Or.inl hpc)
    · cases h
      exact .clears c run q hrun hpc
  · next q hpc =>
    cases ok
    · cases h
      exact .givesUp c run q hrun (Or.inr hpc)
    · cases h
      exact .hatches c run q hrun hpc
  · cases h

/-- Every step does one of these things. -/
theorem did (h : step s e = some t) : Did s e t := by
  cases e with
  | pass c r =>
    simp only [step, Machine.pass] at h
    split at h
    · cases h
    · next hcpu =>
      obtain ⟨holder, _, rfl⟩ := Option.map_eq_some_iff.mp h
      exact .pass c r holder hcpu
  | timer c => exact did_timer h
  | yield c =>
    simp only [step] at h
    split at h
    · cases h
    · next run hcpu =>
      split at h
      · next hresched =>
        cases h
        exact .yield c run hcpu hresched
      · cases h
  | wakeup ch =>
    cases h
    exact .wakeup ch
  | sleep c ch =>
    obtain ⟨run, hrun, hpc, h⟩ := idle_eq_some h
    cases h
    exact .sleep c run ch hrun hpc
  | exit c =>
    obtain ⟨run, hrun, hpc, h⟩ := idle_eq_some h
    split at h
    · cases h
    · next hinit =>
      cases h
      exact .exit c run hrun hpc hinit
  | wait c =>
    obtain ⟨run, hrun, hpc, h⟩ := idle_eq_some h
    cases h
    exact did_wait hrun hpc
  | fork c ok =>
    obtain ⟨run, hrun, h⟩ := current_eq_some h
    exact did_fork hrun h
  | loop c =>
    obtain ⟨run, hrun, h⟩ := current_eq_some h
    exact .loops c run t hrun h
  | call c call =>
    obtain ⟨run, hrun, hpc, _, h⟩ := enter_eq_some h
    exact .calls c run call t hrun hpc (call_turn h)
  | containerInit c =>
    obtain ⟨run, _, _, _, h⟩ := enter_eq_some h
    cases h
    exact .containerInit c
  | tickReset2 c =>
    obtain ⟨run, _, _, _, h⟩ := enter_eq_some h
    cases h
    exact .tickReset2 c
  | store c low =>
    obtain ⟨run, _, _, h⟩ := idle_eq_some h
    cases h
    exact .store c low run.p

/-! ## Moves -/

/-- `I` is kept by every move, if the step it is part of satisfies `C`. -/
structure Keeps (C : Machine n → Event n → Prop) (I : Machine n → Prop) : Prop where
  wakeup : ∀ s ch, I s → I (s.wakeup1 ch)
  dispatch : ∀ s c holder q, I s → s.cpu c = none → s.state q = .runnable →
    I (s.dispatch c holder q)
  tick : ∀ s c run, I s → Runs s c run → I (s.tick c run)
  yield : ∀ s c run, I s → s.cpu c = some run → I (s.offCpu c run .runnable)
  sleep : ∀ s c run ch, I s → Runs s c run → I ((s.setChan run.p (some ch)).offCpu c run .sleeping)
  parents : ∀ s f, I s → I { s with parent := f }
  exit : ∀ s c run, I s → Runs s c run → s.pc run.p = .free →
    I ((s.setPc run.p .exited).offCpu c run .zombie)
  reap : ∀ s q, I s → s.state q = .zombie → I (s.reap q)
  goes : ∀ s c run x, I s → Runs s c run → x.Plain → I (s.setPc run.p x)
  take : ∀ s c run ok q, I s → C s (.fork c ok) → Runs s c run → s.pc run.p = .forkEntered →
    s.state q = .unused → I (s.take run.p q)
  clear : ∀ s c run q, I s → Runs s c run → s.pc run.p = .forkAllocated q → I (s.clear run.p q)
  giveUp : ∀ s c run q, I s → Runs s c run →
    (s.pc run.p = .forkAllocated q ∨ s.pc run.p = .forkCleared q) → I (s.giveUp run.p q)
  hatch : ∀ s c run q, I s → Runs s c run → s.pc run.p = .forkCleared q → I (s.hatch run.p q)
  pauses : ∀ s q, I s → I (s.setState q .pause)
  resumes : ∀ s c run nm (q : ProcSlot), I s → C s (.loop c) → Runs s c run →
    s.pc run.p = .resuming nm q true → I (s.setState q .runnable)
  kills : ∀ s p pid, I s → I (s.kills p pid)
  joins : ∀ s p a, I s → I (s.joins p a)
  table : ∀ s m, I s → I (s.setTable m)
  store : ∀ s low, I s → I { s with cs := { s.cs with low := low } }

namespace Keeps

variable {C : Machine n → Event n → Prop} {I : Machine n → Prop}

/-- The scheduler's loop on a CPU that runs nothing. -/
theorem scan (hI : Keeps C I) (hs : I s) (hcpu : s.cpu c = none) (holder : Option CString)
    (k : Nat) : I (s.scan c holder k) := by
  unfold Machine.scan
  split
  · exact hs
  · next q hq => exact hI.dispatch s c holder q hs hcpu (candidate_eq_some hq).2.2

theorem scan_offCpu (hI : Keeps C I) {x : ProcState} (hs : I (s.offCpu c run x)) :
    I (s.leave c run x) :=
  hI.scan hs (by simp [Machine.offCpu, Machine.setCpu]) _ _

theorem wakeParent (hI : Keeps C I) (hs : I s) (p : ProcSlot) : I (s.wakeParent p) := by
  unfold Machine.wakeParent
  split
  · exact hs
  · exact hI.wakeup _ _ hs

theorem abandonChildren (hI : Keeps C I) (hs : I s) (p : ProcSlot) : I (s.abandonChildren p) := by
  unfold Machine.abandonChildren
  dsimp only
  split
  · exact hI.parents _ _ (hI.wakeup _ _ hs)
  · exact hI.parents _ _ hs

end Keeps

theorem wakeParent_frame (s : Machine n) (p : ProcSlot) :
    (s.wakeParent p).pc = s.pc ∧ (s.wakeParent p).cpu = s.cpu := by
  unfold Machine.wakeParent
  split
  · exact ⟨rfl, rfl⟩
  · exact ⟨rfl, rfl⟩

theorem abandonChildren_frame (s : Machine n) (p : ProcSlot) :
    (s.abandonChildren p).pc = s.pc ∧ (s.abandonChildren p).cpu = s.cpu := by
  unfold Machine.abandonChildren
  dsimp only
  split
  · exact ⟨rfl, rfl⟩
  · exact ⟨rfl, rfl⟩

namespace Keeps

variable {C : Machine n → Event n → Prop} {I : Machine n → Prop}

theorem exitStep (hI : Keeps C I) (hs : I s) (hrun : Runs s c run) (hpc : s.pc run.p = .free) :
    I (s.exit c run) := by
  refine hI.scan_offCpu ?_
  have hwake := wakeParent_frame s run.p
  have habandon := abandonChildren_frame (s.wakeParent run.p) run.p
  refine hI.exit _ c run (hI.abandonChildren (hI.wakeParent hs _) _) ⟨?_, hrun.resched⟩ ?_
  · rw [habandon.2, hwake.2]
    exact hrun.cpu
  · rw [habandon.1, hwake.1]
    exact hpc

theorem loopStep (hI : Keeps C I) (hs : I s) (hC : C s (.loop c)) (hrun : Runs s c run)
    (h : LoopTurn s run.p t) : I t := by
  cases h with
  | goes x hx => exact hI.goes s c run x hs hrun hx.plain
  | pauses nm q _ => exact hI.goes _ c run _ (hI.pauses s q hs) ⟨hrun.cpu, hrun.resched⟩ trivial
  | resumes nm q hpc =>
    exact hI.goes _ c run _ (hI.resumes s c run nm q hs hC hrun hpc) ⟨hrun.cpu, hrun.resched⟩ trivial
  | kills target k pid _ _ =>
    exact hI.goes _ c run _ (hI.kills s run.p pid hs) ⟨hrun.cpu, hrun.resched⟩ trivial
  | resets target k stage a _ _ _ =>
    exact hI.goes _ c run _ (hI.table s _ hs) ⟨hrun.cpu, hrun.resched⟩ trivial

theorem callStep (hI : Keeps C I) (hs : I s) (hrun : Runs s c run) {call : Call}
    (h : CallTurn s run.p call t) : I t := by
  cases h with
  | enters call x hx => exact hI.goes s c run x hs hrun hx.plain
  | refused nm => exact hs
  | kills pid => exact hI.kills s run.p pid hs
  | joins vc a _ => exact hI.joins s run.p a hs
  | resets _ _ a _ => exact hI.table s _ hs
  | names _ _ m _ => exact hI.table s m hs
  | limits _ _ _ _ m _ => exact hI.table s m hs

/-- A property that every move keeps is kept by every step. -/
theorem step (hI : Keeps C I) (hs : I s) (hC : C s e) (h : step s e = some t) : I t := by
  have hticks (c : Fin n) : I (s.ticks c) := ticks_cases hs (hI.wakeup s .ticks hs) c
  cases did h with
  | pass c r holder hcpu => exact hI.scan hs hcpu holder 0
  | timer c => exact hticks c
  | tick c run hrun =>
    have hcpu : (s.ticks c).cpu = s.cpu := ticks_cases (P := fun u => u.cpu = s.cpu) rfl rfl c
    exact hI.tick _ c run (hticks c) ⟨by rw [hcpu]; exact hrun.cpu, hrun.resched⟩
  | yield c run hcpu _ => exact hI.scan_offCpu (hI.yield s c run hs hcpu)
  | wakeup ch => exact hI.wakeup s ch hs
  | sleep c run ch hrun _ => exact hI.scan_offCpu (hI.sleep s c run ch hs hrun)
  | exit c run hrun hpc _ => exact hI.exitStep hs hrun hpc
  | reaps c run q _ hq => exact hI.reap s q hs (zombieChild_eq_some hq).2
  | waits c run hrun _ _ => exact hI.scan_offCpu (hI.sleep s c run _ hs hrun)
  | returns _ _ _ _ => exact hs
  | forks c ok run hrun _ => exact hI.goes s c run _ hs hrun trivial
  | full c ok run hrun _ => exact hI.goes s c run _ hs hrun trivial
  | takes c ok run q hrun hpc hq => exact hI.take s c run ok q hs hC hrun hpc hq
  | clears c run q hrun hpc => exact hI.clear s c run q hs hrun hpc
  | givesUp c run q hrun hpc => exact hI.giveUp s c run q hs hrun hpc
  | hatches c run q hrun hpc => exact hI.hatch s c run q hs hrun hpc
  | loops c run _ hrun hloop => exact hI.loopStep hs hC hrun (loop_turn hloop)
  | calls c run call _ hrun _ hcall => exact hI.callStep hs hrun hcall
  | containerInit c => exact hI.table s _ hs
  | tickReset2 c => exact hI.table s _ hs
  | store c low p => exact hI.store s _ hs

end Keeps

end Process

end Xv6Containers
