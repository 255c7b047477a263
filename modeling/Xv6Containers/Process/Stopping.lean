import Xv6Containers.Process.Scheduling

/-!
# Stopping a container

`cstop` goes through the process table without the lock, kills what belongs to
the container and resets its record. It is complete if nobody creates a process
of the container behind the loop, if the loop finds no stale or half created
slot, and if the record is not used again before the last process of the
container is gone.

## Implementation notes

`Hunt` follows one call of `cstop`: who executes it, and which slots hold a
process of the container or a descendant of one (`flock`). A slot leaves the
flock when its process has been reaped.
-/

namespace Xv6Containers

open Lib.Memory Lib.Strings Lib.Search Lib.Runs

namespace Process

open Container

variable {n : Nat}

/-! ## What holds of every machine -/

/-- A process in state `RUNNING` is on a CPU. -/
def RunningOk (s : Machine n) : Prop := ∀ q, s.state q = .running → OnCpu s q

variable {s t : Machine n} {q : ProcSlot} {e : Event n}

theorem RunningOk.congr (h : RunningOk s) (hcpu : t.cpu = s.cpu)
    (hstate : ∀ q, t.state q = .running → s.state q = .running) : RunningOk t := by
  intro q hq
  rw [OnCpu, hcpu]
  exact h q (hstate q hq)

theorem running_setProc {cs : State} {x : Proc} (hcs : cs = s.cs.setProc q x)
    (hx : x.state = .running → s.state q = .running) (r : ProcSlot)
    (hr : (cs.proc r).state = .running) : s.state r = .running := by
  subst hcs
  by_cases hrq : r = q
  · subst hrq
    simp only [State.setProc, Function.update_self] at hr
    exact hx hr
  · simpa [State.setProc, hrq, Machine.state] using hr

/-- The process leaves its CPU, and no other process does. -/
theorem runningOk_offCpu {u : Machine n} (h : RunningOk s) {c : Fin n} {run : Running}
    (hcpu : s.cpu c = some run) {x : ProcState} (hx : x ≠ .running) (hucpu : u.cpu = s.cpu)
    (hucs : u.cs = s.cs) : RunningOk (u.offCpu c run x) := by
  intro q hq
  have hstate : (u.setState run.p x).state q = .running := hq
  rw [Machine.state_setState] at hstate
  split at hstate
  · exact absurd hstate hx
  · next hne =>
    have hrunning : s.state q = .running := by rwa [Machine.state, hucs] at hstate
    obtain ⟨d, hd⟩ := h q hrunning
    have hdc : d ≠ c := by
      rintro rfl
      rw [hcpu] at hd
      exact hne (Option.some.inj hd).symm
    refine ⟨d, ?_⟩
    simp only [Machine.offCpu, Machine.setCpu, Function.update_of_ne hdc, Machine.setState_cpu, hucpu]
    exact hd

theorem keeps_running : Keeps (n := n) (fun _ _ => True) RunningOk where
  wakeup s ch h := by
    refine h.congr rfl fun q hq => ?_
    rcases wakeup1_proc s ch q with hsame | ⟨_, hwoken⟩
    · rwa [Machine.state, hsame] at hq
    · rw [Machine.state, hwoken] at hq
      cases hq
  dispatch s c holder q h hcpu _ := by
    intro r hr
    have hstate : (s.setState q .running).state r = .running := hr
    rw [Machine.state_setState] at hstate
    refine (onCpu_dispatch hcpu r).mpr ?_
    split at hstate
    · next heq => exact Or.inl heq
    · exact Or.inr (h r hstate)
  tick s c run h hrun := by
    intro q hq
    obtain ⟨d, hd⟩ := h q hq
    refine ⟨d, ?_⟩
    by_cases hdc : d = c
    · subst hdc
      rw [hrun.cpu] at hd
      simpa [Machine.tick, Machine.setCpu] using hd
    · simpa [Machine.tick, Machine.setCpu, Function.update_of_ne hdc] using hd
  yield s c run h hcpu := runningOk_offCpu h hcpu (by decide) rfl rfl
  sleep s c run ch h hrun := runningOk_offCpu h hrun.cpu (by decide) rfl rfl
  parents _ _ h := h
  exit s c run h hrun _ := runningOk_offCpu h hrun.cpu (by decide) rfl rfl
  reap s q h _ := h.congr rfl (running_setProc rfl fun hx => by cases hx)
  goes _ _ _ _ h _ _ := h
  take s c run ok q h _ _ _ _ := h.congr rfl (running_setProc rfl fun hx => by cases hx)
  clear s c run q h _ _ := h.congr rfl (running_setProc rfl id)
  giveUp s c run q h _ _ := h.congr rfl (running_setProc rfl fun hx => by cases hx)
  hatch s c run q h _ _ := h.congr rfl (running_setProc rfl fun hx => by cases hx)
  pauses s q h := h.congr rfl (running_setProc rfl fun hx => by cases hx)
  resumes s c run nm q h _ _ _ := h.congr rfl (running_setProc rfl fun hx => by cases hx)
  kills s p pid h := by
    refine h.congr rfl fun q hq => ?_
    rcases kill_state s.cs p pid q with hsame | ⟨_, hwoken⟩
    · exact hsame.symm.trans hq
    · exact absurd (hwoken.symm.trans hq) (by decide)
  joins s p a h := h.congr rfl (running_setProc rfl id)
  table _ _ h := h
  store _ _ h := h

/-- The invariants of a machine in which `resume` hits only what it may and names fit. -/
structure Sound (s : Machine n) : Prop where
  inv : Inv s ∧ ChanOk s
  pids : PidsOk s
  fits : ∀ a, NameFits s.cs.table a
  running : RunningOk s
  forked : ∀ q, Forked s q → (s.cs.proc q).pid ≠ 0

theorem sound_boot (hboot : Boot s) (hpids : PidsOk s) (hfits : ∀ a, NameFits s.cs.table a) :
    Sound s where
  inv := ⟨inv_boot hboot, chanOk_boot hboot⟩
  pids := hpids
  fits := hfits
  running := by
    intro q hq
    rcases (hboot.2 q).2 with h | h <;> rw [h] at hq <;> cases hq
  forked := by
    rintro q ⟨p, hp⟩
    rw [Forking, (hboot.2 p).1] at hp
    rcases hp with hp | hp <;> cases hp

/-- The number of a process changes only when the slot is taken or its process reaped. -/
theorem pid_step (h : step s e = some t) (q : ProcSlot) :
    (t.cs.proc q).pid = (s.cs.proc q).pid ∨
      (t.cs.proc q).pid = s.nextpid ∧ s.state q = .unused ∨
      (t.cs.proc q).pid = 0 ∧ s.state q = .zombie ∧ t.state q = .unused := by
  have hturn := turn_step h q
  rw [Machine.state.eq_def t]
  generalize t.cs.proc q = x at hturn
  cases hturn with
  | allocated _ _ _ hq => exact Or.inr (Or.inl ⟨rfl, hq⟩)
  | reaped _ _ hq => exact Or.inr (Or.inr ⟨rfl, hq, rfl⟩)
  | _ => exact Or.inl rfl

theorem sound_step (hs : Sound s) (hres : ResumeOk s e) (hok : NameOk e) (h : step s e = some t) :
    Sound t where
  inv := keeps_chan.step hs.inv hres h
  pids := (pids_step hs.pids h).1
  fits := (names_step hs.fits hok h).1
  running := keeps_running.step hs.running trivial h
  forked := by
    intro q hq
    have hnext := hs.pids.next
    rcases forked_step h hq with hforked | ⟨_, hpid⟩
    · rcases pid_step h q with hpid | ⟨hpid, _⟩ | ⟨_, hzombie, _⟩
      · rw [hpid]
        exact hs.forked q hforked
      · omega
      · rcases (hs.inv.1.slot q).forked hforked with h | h <;> rw [hzombie] at h <;> cases h
    · omega

/-! ## Following a call of `cstop` -/

structure Hunt (n : Nat) where
  m : Machine n
  hunter : Option ProcSlot
  flock : ProcSlot → Bool
  stray : Bool

/-- Slot `q` holds a complete process. -/
def Formed (s : Machine n) (q : ProcSlot) : Prop :=
  (s.cs.proc q).pid ≠ 0 ∧ s.state q ≠ .unused ∧ s.state q ≠ .embryo ∧ ¬ Forked s q

instance (s : Machine n) (q : ProcSlot) : Decidable (Formed s q) := by
  unfold Formed
  infer_instance

/-- Process `p` has entered the loop of `cstop` for container `a` in state `s`. -/
def hunt (s t : Machine n) (p : ProcSlot) (a : Cont) : Hunt n where
  m := t
  hunter := some p
  flock := fun q => Formed s q ∧ (s.cs.proc q).cont = some a
  stray := false

def Pc.stops : Pc → Bool
  | .stopping _ _ _ => true
  | _ => false

/-- The parent and the child of the process that the step completes. -/
def hatching (s : Machine n) : Event n → Option (ProcSlot × ProcSlot)
  | .fork c true =>
    match s.cpu c with
    | none => none
    | some run =>
      match s.pc run.p with
      | .forkCleared q => some (run.p, q)
      | _ => none
  | _ => none

/-- The process that the step of the hunter's loop kills. -/
def struck (s : Machine n) (h : ProcSlot) : Event n → Option ProcSlot
  | .loop c =>
    if (s.cpu c).map Running.p = some h then
      match s.pc h with
      | .stopping _ k (.killing pid) =>
        if k < nproc then (s.cs.byPid pid).filter fun q => ¬ s.cs.Refused h q else none
      | _ => none
    else none
  | _ => none

/-- The process whose number the step of the hunter's loop reads. -/
def sighted (s : Machine n) (h : ProcSlot) : Event n → Option ProcSlot
  | .loop c =>
    if (s.cpu c).map Running.p = some h then
      match s.pc h with
      | .stopping _ k .matched => slotAt k
      | _ => none
    else none
  | _ => none

/-- What is known after a step to `t`. -/
def Hunt.after (w : Hunt n) (e : Event n) (t : Machine n) : Hunt n where
  m := t
  hunter := w.hunter.filter fun h => (t.pc h).stops
  flock := fun q => w.flock q = true ∧ t.state q ≠ .unused ∨
    (hatching w.m e).any (fun x => x.2 = q ∧ w.flock x.1 = true) = true
  stray := w.stray || w.hunter.any fun h => (struck w.m h e).any fun q => w.flock q = false

def chase (w : Hunt n) (e : Event n) : Option (Hunt n) := (step w.m e).map (w.after e)

/-! ## The condition on a step -/

/-- The loop of `cstop` has not yet tested process `q`. -/
def Pc.ahead (q : ProcSlot) : Pc → Prop
  | .stopping _ k stage => k < q.val ∨ k = q.val ∧ stage = .test
  | _ => False

instance (q : ProcSlot) (x : Pc) : Decidable (x.ahead q) := by
  unfold Pc.ahead
  split <;> infer_instance

/-- A process of the flock has children only while the loop is still to come to their slot. -/
def BirthOk (w : Hunt n) : Option (ProcSlot × ProcSlot) → Prop
  | some (p, q) => w.flock p = true → ∃ h ∈ w.hunter, (w.m.pc h).ahead q
  | none => True

instance (w : Hunt n) (x : Option (ProcSlot × ProcSlot)) : Decidable (BirthOk w x) := by
  unfold BirthOk
  split <;> infer_instance

/-- While the hunt goes on, no process of the flock changes its container, no other process enters
it, and no other container gets its name. Afterwards the record gets a name only when the flock is
gone. -/
def CallOk (nm : CString) (a : Cont) (w : Hunt n) (p : ProcSlot) : Call → Prop
  | .contProcSet vc => ∀ b, index vc = some b → w.hunter ≠ none → (w.flock p = true ↔ b = a)
  | .setName nm' vc => ∀ b, index vc = some b →
      if w.hunter = none then b = a → ∀ q, w.flock q = false else nm' = nm ↔ b = a
  | _ => True

instance (nm : CString) (a : Cont) (w : Hunt n) (p : ProcSlot) (call : Call) :
    Decidable (CallOk nm a w p call) := by
  rcases call with _ | _ <;> dsimp only [CallOk] <;> infer_instance

/-- The event is a step of process `h` in its loop. -/
def Steps (s : Machine n) (h : ProcSlot) : Event n → Prop
  | .loop c => (s.cpu c).map Running.p = some h
  | _ => False

instance (s : Machine n) (h : ProcSlot) (e : Event n) : Decidable (Steps s h e) := by
  rcases e with _ | _ <;> dsimp only [Steps] <;> infer_instance

/-- The condition on a system call. -/
def EntryOk (nm : CString) (a : Cont) (w : Hunt n) : Event n → Prop
  | .call c call => ∀ p, (w.m.cpu c).map Running.p = some p → CallOk nm a w p call
  | _ => True

instance (nm : CString) (a : Cont) (w : Hunt n) (e : Event n) : Decidable (EntryOk nm a w e) := by
  rcases e with _ | _ <;> dsimp only [EntryOk] <;> infer_instance

/-- The condition on a step: besides the above, the loop reads the number of processes of the flock
only, and nobody else resets the record while it runs. -/
structure HuntOk (nm : CString) (a : Cont) (w : Hunt n) (e : Event n) : Prop where
  resume : ResumeOk w.m e
  name : NameOk e
  birth : BirthOk w (hatching w.m e)
  sight : ∀ h ∈ w.hunter, ∀ q ∈ sighted w.m h e, w.flock q = true
  alone : ∀ h ∈ w.hunter, Clears w.m e a → Steps w.m h e
  entry : EntryOk nm a w e

instance (nm : CString) (a : Cont) (w : Hunt n) (e : Event n) : Decidable (HuntOk nm a w e) :=
  decidable_of_iff
    (ResumeOk w.m e ∧ NameOk e ∧ BirthOk w (hatching w.m e) ∧
      (∀ h ∈ w.hunter, ∀ q ∈ sighted w.m h e, w.flock q = true) ∧
      (∀ h ∈ w.hunter, Clears w.m e a → Steps w.m h e) ∧ EntryOk nm a w e)
    ⟨fun ⟨h1, h2, h3, h4, h5, h6⟩ => ⟨h1, h2, h3, h4, h5, h6⟩,
      fun h => ⟨h.resume, h.name, h.birth, h.sight, h.alone, h.entry⟩⟩

/-! ## The invariant -/

/-- What holds while process `h` is in the loop of `cstop`, at process `k`. -/
structure Hunting (nm : CString) (a : Cont) (w : Hunt n) (h : ProcSlot) (target : Target) (k : Nat)
    (stage : StopStage) : Prop where
  pc : w.m.pc h = .stopping target k stage
  aims : target = .named nm ∧ (w.m.cs.proc h).cont = none ∨
    target = .own a ∧ (w.m.cs.proc h).cont = some a
  name : Container.name w.m.cs.table a = nm
  unique : ∀ d, Container.name w.m.cs.table d = nm → d = a
  behind : ∀ q, w.flock q = true → q.val < k → (w.m.cs.proc q).killed = true
  known : ∀ pid, stage = .killing pid → pid ≠ 0 ∧ pid < w.m.nextpid ∧
    ∀ r, (w.m.cs.proc r).pid = pid → w.flock r = true
  quarry : ∀ pid, stage = .killing pid → ∀ q, q.val = k → w.flock q = true →
    (w.m.cs.proc q).pid = pid

structure Chased (nm : CString) (a : Cont) (w : Hunt n) : Prop where
  sound : Sound w.m
  formed : ∀ q, w.flock q = true → Formed w.m q ∧ (w.m.cs.proc q).cont = some a
  hunting : ∀ h, w.hunter = some h → ∃ target k stage, Hunting nm a w h target k stage
  returned : w.hunter = none → (∀ q, w.flock q = true → (w.m.cs.proc q).killed = true) ∧
    (InUse w.m.cs.table a → ∀ q, w.flock q = false)
  stray : w.stray = false

/-! ## What a step does to the flock -/

theorem hatching_step (h : step s e = some t) {p : ProcSlot} (hx : hatching s e = some (p, q)) :
    s.pc p = .forkCleared q ∧ t = s.hatch p q := by
  unfold hatching at hx
  split at hx
  · next c =>
    obtain ⟨run, hrun, _⟩ := current_eq_some h
    rw [hrun.cpu] at hx
    simp only at hx
    split at hx
    · next r hpc =>
      cases hx
      exact ⟨hpc, fork_hatch hrun hpc h⟩
    · cases hx
  · cases hx

theorem embryo_step (h : step s e = some t) (hq : t.state q = .embryo) :
    s.state q = .embryo ∨ s.state q = .unused := by
  have hturn := turn_step h q
  simp only [Machine.state] at hq ⊢
  generalize t.cs.proc q = x at hq hturn
  cases hturn with
  | same | cleared _ _ _ _ _ | moved _ _ _ _ _ _ _ _ => exact Or.inl hq
  | killed _ =>
    simp only [markKilled] at hq
    split at hq
    · cases hq
    · exact Or.inl hq
  | left _ y hy => rcases hy with rfl | rfl | rfl <;> cases hq
  | allocated _ _ _ hunused => exact Or.inr hunused
  | _ => cases hq

/-- A mark stays until the process is reaped. -/
theorem killed_step (h : step s e = some t) (hq : (s.cs.proc q).killed = true)
    (ht : t.state q ≠ .unused) : (t.cs.proc q).killed = true := by
  have hturn := turn_step h q
  simp only [Machine.state] at ht
  generalize t.cs.proc q = x at ht hturn
  cases hturn with
  | killed _ => rfl
  | reaped _ _ _ => exact absurd rfl ht
  | _ => exact hq

/-- `hatch` ends the only fork that uses the slot. -/
theorem hatch_not_forked (hs : Inv s) {p : ProcSlot} (hp : s.pc p = .forkCleared q) :
    ¬ Forked (s.hatch p q) q := by
  rintro ⟨r, hr⟩
  have hpc : (s.hatch p q).pc = Function.update s.pc p .free := rfl
  rw [Forking, hpc] at hr
  by_cases hrp : r = p
  · rw [hrp, Function.update_self] at hr
    rcases hr with hr | hr <;> cases hr
  · rw [Function.update_of_ne hrp] at hr
    exact hrp (hs.forks r p q hr (Or.inr hp))

section Step

variable {nm : CString} {a : Cont} {w : Hunt n} {e : Event n} {t : Machine n}

variable {q h : ProcSlot} {target : Target} {k : Nat} {stage : StopStage} {c : Fin n}

theorem flock_step (ht : step w.m e = some t) (hq : (w.after e t).flock q = true) :
    w.flock q = true ∧ t.state q ≠ .unused ∨
      ∃ p, w.flock p = true ∧ hatching w.m e = some (p, q) ∧ w.m.pc p = .forkCleared q ∧
        t = w.m.hatch p q := by
  refine (of_decide_eq_true hq).imp id fun hborn => ?_
  cases hx : hatching w.m e with
  | none =>
    rw [hx] at hborn
    cases hborn
  | some x =>
    obtain ⟨p, r⟩ := x
    rw [hx, Option.any_some, decide_eq_true_eq] at hborn
    obtain ⟨rfl, hp⟩ := hborn
    exact ⟨p, hp, rfl, hatching_step ht hx⟩

/-- The processes of the flock stay complete and in their container. -/
theorem chased_formed (hw : Chased nm a w) (hC : HuntOk nm a w e) (ht : step w.m e = some t)
    (q : ProcSlot) (hq : (w.after e t).flock q = true) :
    Formed t q ∧ (t.cs.proc q).cont = some a := by
  rcases flock_step ht hq with ⟨hflock, hused⟩ | ⟨p, hp, _, hpc, rfl⟩
  · obtain ⟨⟨hpid, hunused, hembryo, hforked⟩, hcont⟩ := hw.formed q hflock
    refine ⟨⟨?_, hused, fun h => (embryo_step ht h).elim hembryo hunused,
      fun h => (forked_step ht h).elim hforked fun h => hunused h.1⟩, ?_⟩
    · rcases pid_step ht q with h | ⟨_, h⟩ | ⟨_, _, h⟩
      · rw [h]
        exact hpid
      · exact absurd h hunused
      · exact absurd h hused
    · rcases cont_step ht q with h | ⟨_, _, h⟩ | ⟨_, run, _, _, h, _⟩ |
        ⟨c, run, vc, b, rfl, hrun, rfl, hb, h⟩
      · exact h.trans hcont
      · exact absurd h hforked
      · exact absurd ⟨run.p, Or.inr h⟩ hforked
      · -- a call of a process that is not killed, so the hunt is still on
        obtain ⟨run', hrun', _, hkilled, _⟩ := enter_eq_some ht
        obtain rfl : run' = run := Option.some.inj (hrun'.cpu.symm.trans hrun.cpu)
        have hhunter : w.hunter ≠ none := by
          intro hnone
          rw [(hw.returned hnone).1 run'.p hflock] at hkilled
          cases hkilled
        rw [h, ((hC.entry run'.p hrun.map b hb hhunter).mp hflock)]
  · have hforked : Forked w.m q := ⟨p, Or.inr hpc⟩
    refine ⟨⟨?_, ?_, ?_, hatch_not_forked hw.sound.inv.1 hpc⟩, ?_⟩
    · have := hw.sound.forked q hforked
      simpa [Machine.hatch, State.setProc] using this
    · simp [Machine.state, Machine.hatch, State.setProc]
    · simp [Machine.state, Machine.hatch, State.setProc]
    · simpa [Machine.hatch, State.setProc] using (hw.formed p hp).2

/-- The hunter stays where it is unless it makes a step of its loop. -/
theorem hunter_step (hs : Sound w.m) (ht : step w.m e = some t)
    (hpc : w.m.pc h = .stopping target k stage) :
    t.pc h = w.m.pc h ∧ ¬ Steps w.m h e ∨
      ∃ c run, e = .loop c ∧ Runs w.m c run ∧ run.p = h ∧
        w.m.stopStep h target k stage = some t := by
  have hloop (hloop : w.m.loop h = some t) : w.m.stopStep h target k stage = some t := by
    rwa [Machine.loop, hpc] at hloop
  by_cases hsteps : Steps w.m h e
  · unfold Steps at hsteps
    split at hsteps
    · next c =>
      obtain ⟨run, hrun, hl⟩ := current_eq_some ht
      obtain rfl : run.p = h := Option.some.inj (hrun.map.symm.trans hsteps)
      exact Or.inr ⟨c, run, rfl, hrun, rfl, hloop hl⟩
    · exact absurd hsteps id
  · have hne {x : Pc} (hx : w.m.pc h = x) (hno : x.stops = false) : False := by
      rw [← hx, hpc] at hno
      cases hno
    cases pcTurn_step ht h with
    | same heq => exact Or.inl ⟨heq, hsteps⟩
    | forkOver _ hp =>
      rcases hp with hp | ⟨q, hp | hp⟩ <;> exact absurd (hne hp rfl) id
    | renewed _ r hr =>
      rcases (hs.inv.1.slot h).dormant (Or.inr ⟨r, Or.inl hr⟩) with hp | hp <;>
        exact absurd (hne hp rfl) id
    | exits _ hp | forkEnters _ hp | allocates _ _ hp _ _ | clears _ _ hp
    | enters _ _ _ _ _ _ hp _ => exact absurd (hne hp rfl) id
    | loops c run he hrun hp _ =>
      subst he
      exact absurd (by rw [Steps, hrun.map, hp]) hsteps

/-! ### The hunt goes on -/

/-- A process of the flock that is still there keeps its number. -/
theorem flock_pid (hw : Chased nm a w) (ht : step w.m e = some t) (hq : w.flock q = true)
    (hused : t.state q ≠ .unused) : (t.cs.proc q).pid = (w.m.cs.proc q).pid := by
  rcases pid_step ht q with h | ⟨_, h⟩ | ⟨_, _, h⟩
  · exact h
  · exact absurd h (hw.formed q hq).1.2.1
  · exact absurd h hused

/-- Who has a number that a process of the flock had is in the flock. -/
theorem flock_known (hw : Chased nm a w) (ht : step w.m e = some t) {pid : Int} (hne : pid ≠ 0)
    (hlt : pid < w.m.nextpid)
    (hknown : ∀ r, (w.m.cs.proc r).pid = pid → w.flock r = true) (r : ProcSlot)
    (hr : (t.cs.proc r).pid = pid) : (w.after e t).flock r = true := by
  rcases pid_step ht r with h | ⟨h, _⟩ | ⟨h, _⟩
  · have hflock := hknown r (h.symm.trans hr)
    obtain ⟨⟨hpid, hunused, _, hforked⟩, _⟩ := hw.formed r hflock
    refine decide_eq_true (Or.inl ⟨hflock, fun hq => ?_⟩)
    -- a slot becomes unused when it is reaped or given up by a fork
    have hturn := turn_step ht r
    simp only [Machine.state] at hq hunused
    generalize t.cs.proc r = x at hq hr hturn
    cases hturn with
    | same | cleared _ _ _ _ _ | moved _ _ _ _ _ _ _ _ => exact hunused hq
    | killed _ =>
      simp only [markKilled] at hq
      split at hq
      · cases hq
      · exact hunused hq
    | left _ y hy => rcases hy with rfl | rfl | rfl <;> cases hq
    | givenUp _ run _ _ hf => exact hforked ⟨run.p, hf⟩
    | reaped _ _ _ => exact hne hr.symm
    | _ => cases hq
  · omega
  · omega

/-- The container keeps its name, and no other gets it, unless the hunter resets the record. -/
theorem names_kept (hw : Chased nm a w) (hC : HuntOk nm a w e) (hnm : nm ≠ emptyName)
    (ht : step w.m e = some t) (hh : w.hunter = some h) (hsteps : ¬ Steps w.m h e)
    (hname : name w.m.cs.table a = nm) (hunique : ∀ d, name w.m.cs.table d = nm → d = a) :
    name t.cs.table a = nm ∧ ∀ d, name t.cs.table d = nm → d = a := by
  have hset (c : Fin n) (nm' : CString) (vc : Int) (d : Cont) (he : e = .call c (.setName nm' vc))
      (hd : index vc = some d) : nm' = nm ↔ d = a := by
    subst he
    obtain ⟨run, hrun, _⟩ := enter_eq_some ht
    have hcall := hC.entry run.p hrun.map d hd
    rwa [if_neg (by rw [hh]; simp)] at hcall
  have hnames := (names_step hw.sound.fits hC.name ht).2
  constructor
  · rcases hnames a with hkept | ⟨_, hclear⟩ | ⟨c, nm', vc, he, hvc, hnew⟩
    · exact hkept.trans hname
    · exact absurd (hC.alone h hh hclear) hsteps
    · exact hnew.trans ((hset c nm' vc a he hvc).mpr rfl)
  · intro d hd
    rcases hnames d with hkept | ⟨hempty, _⟩ | ⟨c, nm', vc, he, hvc, hnew⟩
    · exact hunique d (hkept.symm.trans hd)
    · exact absurd (hd.symm.trans hempty) hnm
    · exact (hset c nm' vc d he hvc).mp (hnew.symm.trans hd)

theorem hunter_cont (hw : Chased nm a w) (ht : step w.m e = some t)
    (hpc : w.m.pc h = .stopping target k stage) : (t.cs.proc h).cont = (w.m.cs.proc h).cont := by
  have hno {x : Pc} (hx : w.m.pc h = x) (hstop : x.stops = false) : False := by
    rw [← hx, hpc] at hstop
    cases hstop
  have hforked : ¬ Forked w.m h := fun hf => by
    rcases (hw.sound.inv.1.slot h).dormant (Or.inr hf) with hp | hp <;> exact hno hp rfl
  rcases cont_step ht h with hsame | ⟨_, _, hf⟩ | ⟨_, run, _, _, hf, _⟩ |
    ⟨c, run, vc, b, rfl, hrun, rfl, _⟩
  · exact hsame
  · exact absurd hf hforked
  · exact absurd ⟨run.p, Or.inr hf⟩ hforked
  · obtain ⟨run', hrun', hfree, _⟩ := enter_eq_some ht
    obtain rfl : run' = run := Option.some.inj (hrun'.cpu.symm.trans hrun.cpu)
    exact absurd (hno hfree rfl) id

/-- A step of somebody else. -/
theorem hunting_other (hw : Chased nm a w) (hC : HuntOk nm a w e) (hnm : nm ≠ emptyName)
    (ht : step w.m e = some t) (hh : w.hunter = some h) (hhunt : Hunting nm a w h target k stage)
    (hpc : t.pc h = w.m.pc h) (hsteps : ¬ Steps w.m h e) :
    Hunting nm a (w.after e t) h target k stage := by
  obtain ⟨hname, hunique⟩ := names_kept hw hC hnm ht hh hsteps hhunt.name hhunt.unique
  -- a child is born only where the loop is still to come
  have hborn {p q : ProcSlot} (hp : w.flock p = true) (hx : hatching w.m e = some (p, q)) :
      k < q.val ∨ k = q.val ∧ stage = .test := by
    have hbirth := hC.birth
    rw [hx] at hbirth
    obtain ⟨h', hh', hahead⟩ := hbirth hp
    obtain rfl : h = h' := Option.some.inj (hh.symm.trans hh')
    rwa [hhunt.pc] at hahead
  refine ⟨hpc.trans hhunt.pc, ?_, hname, hunique, fun q hq hk => ?_, fun pid hpid => ?_,
    fun pid hpid q hqk hq => ?_⟩
  · rw [show (w.after e t).m = t from rfl, hunter_cont hw ht hhunt.pc]
    exact hhunt.aims
  · rcases flock_step ht hq with ⟨hflock, hused⟩ | ⟨p, hp, hx, _⟩
    · exact killed_step ht (hhunt.behind q hflock hk) hused
    · have := hborn hp hx
      omega
  · obtain ⟨hne, hlt, hknown⟩ := hhunt.known pid hpid
    exact ⟨hne, lt_of_lt_of_le hlt (pids_step hw.sound.pids ht).2, flock_known hw ht hne hlt hknown⟩
  · rcases flock_step ht hq with ⟨hflock, hused⟩ | ⟨p, hp, hx, _⟩
    · exact (flock_pid hw ht hflock hused).trans (hhunt.quarry pid hpid q hqk hflock)
    · rcases hborn hp hx with hlt | ⟨_, htest⟩
      · omega
      · rw [hpid] at htest
        cases htest

/-! ### A step of the hunter -/

/-- The loop finds every process of the flock. -/
theorem stopTest_flock (hw : Chased nm a w) (hhunt : Hunting nm a w h target k stage)
    (hq : w.flock q = true) : w.m.StopTest h target q := by
  have hcont := (hw.formed q hq).2
  refine ⟨fun nm' _ => by simp [hcont], ?_⟩
  rw [State.contName, hcont, strcmp_eq_zero_iff]
  rcases hhunt.aims with ⟨rfl, _⟩ | ⟨rfl, _⟩
  · exact hhunt.name
  · rfl

/-- `kill` marks the process of the flock that the loop is at. -/
theorem kill_flock (hw : Chased nm a w) (hhunt : Hunting nm a w h target k stage)
    (hq : w.flock q = true) : ((kill w.m.cs h (w.m.cs.proc q).pid).proc q).killed = true := by
  obtain ⟨⟨hpid, _⟩, hcont⟩ := hw.formed q hq
  have hfirst : w.m.cs.byPid (w.m.cs.proc q).pid = some q := by
    refine byPid_eq_some.mpr ⟨rfl, fun r hr heq => ?_⟩
    exact hr.ne (hw.sound.pids.distinct q r heq.symm hpid).symm
  have hallowed : ¬ w.m.cs.Refused h q := by
    unfold State.Refused
    rcases hhunt.aims with ⟨_, hroot⟩ | ⟨_, hown⟩
    · rw [hroot]
      exact id
    · rw [hown, hcont]
      simp [(strcmp_eq_zero_iff _ _).mpr rfl]
  rw [kill, hfirst]
  simp only [if_neg hallowed, State.setProc, Function.update_self]
  rfl

theorem flock_loop (hq : (w.after (.loop c) t).flock q = true) :
    w.flock q = true ∧ t.state q ≠ .unused := by
  refine (of_decide_eq_true hq).resolve_right fun hborn => ?_
  cases hborn

/-- The hunter's loop goes on. -/
theorem hunting_own (hw : Chased nm a w) {run : Running} (hC : HuntOk nm a w (.loop c))
    (ht : step w.m (.loop c) = some t) (hh : w.hunter = some run.p) (hrun : Runs w.m c run)
    (hhunt : Hunting nm a w run.p target k stage) {q₀ : ProcSlot} (hk : k = q₀.val)
    (hstop : w.m.stopStep run.p target k stage = some t) :
    ∃ k' stage', Hunting nm a (w.after (.loop c) t) run.p target k' stage' := by
  have hslot : slotAt k = some q₀ := slotAt_eq_some.mpr hk
  have hcont := hunter_cont hw ht hhunt.pc
  have hset (u : Machine n) (x : Pc) : (u.setPc run.p x).pc run.p = x := by
    rw [Machine.pc_setPc, if_pos rfl]
  have haims : target = .named nm ∧ (t.cs.proc run.p).cont = none ∨
      target = .own a ∧ (t.cs.proc run.p).cont = some a := by
    rw [hcont]
    exact hhunt.aims
  have hold {q : ProcSlot} (hq : (w.after (.loop c) t).flock q = true) (hlt : q.val < k) :
      (t.cs.proc q).killed = true :=
    killed_step ht (hhunt.behind q (flock_loop hq).1 hlt) (flock_loop hq).2
  simp only [Machine.stopStep, hslot, Option.some.injEq] at hstop
  cases stage with
  | test =>
    simp only at hstop
    split at hstop
    · subst hstop
      exact ⟨k, .matched, hset _ _, haims, hhunt.name, hhunt.unique, fun q hq hlt => hold hq hlt,
        (fun _ h => nomatch h), (fun _ h => nomatch h)⟩
    · next htest =>
      subst hstop
      refine ⟨k + 1, .test, hset _ _, haims, hhunt.name, hhunt.unique, fun q hq hlt => ?_,
        (fun _ h => nomatch h), (fun _ h => nomatch h)⟩
      rcases Nat.lt_succ_iff_lt_or_eq.mp hlt with hlt | heq
      · exact hold hq hlt
      · obtain rfl : q = q₀ := Fin.ext (heq.trans hk)
        exact absurd (stopTest_flock hw hhunt (flock_loop hq).1) htest
  | matched =>
    subst hstop
    have hsight : w.flock q₀ = true := by
      refine hC.sight run.p hh q₀ ?_
      simp [sighted, hrun.map, hhunt.pc, hslot]
    obtain ⟨⟨hpid, hunused, _⟩, _⟩ := hw.formed q₀ hsight
    refine ⟨k, .killing (w.m.cs.proc q₀).pid, hset _ _, haims, hhunt.name, hhunt.unique,
      fun q hq hlt => hold hq hlt, ?_, ?_⟩
    · rintro pid hstage
      cases hstage
      refine ⟨hpid, (hw.sound.pids.range q₀).2, fun r hr => ?_⟩
      obtain rfl : q₀ = r := hw.sound.pids.distinct q₀ r hr.symm hpid
      exact decide_eq_true (Or.inl ⟨hsight, hunused⟩)
    · rintro pid hstage q hqk _
      cases hstage
      obtain rfl : q = q₀ := Fin.ext (hqk.trans hk)
      rfl
  | killing pid =>
    subst hstop
    have htable : (kill w.m.cs run.p pid).table = w.m.cs.table := kill_table _ _ _
    refine ⟨k + 1, .test, hset _ _, haims, ?_, ?_, fun q hq hlt => ?_, (fun _ h => nomatch h),
      (fun _ h => nomatch h)⟩
    · change name (kill w.m.cs run.p pid).table a = nm
      rw [htable]
      exact hhunt.name
    · change ∀ d, name (kill w.m.cs run.p pid).table d = nm → d = a
      rw [htable]
      exact hhunt.unique
    · rcases Nat.lt_succ_iff_lt_or_eq.mp hlt with hlt | heq
      · exact hold hq hlt
      · have hflock := (flock_loop hq).1
        rw [← hhunt.quarry pid rfl q heq hflock]
        exact kill_flock hw hhunt hflock

/-- The loop is over: everybody is marked, and the record is reset. -/
theorem hunt_over (hw : Chased nm a w) (ht : step w.m (.loop c) = some t)
    (hhunt : Hunting nm a w h target k stage) (hk : nproc ≤ k)
    (hstop : w.m.stopStep h target k stage = some t) :
    (∀ q, (w.after (.loop c) t).flock q = true → (t.cs.proc q).killed = true) ∧
      ¬ InUse t.cs.table a := by
  constructor
  · intro q hq
    exact killed_step ht (hhunt.behind q (flock_loop hq).1 (lt_of_lt_of_le q.isLt hk)) (flock_loop hq).2
  · rw [Machine.stopStep, slotAt_eq_none.mpr hk] at hstop
    obtain ⟨cs, hcs, rfl⟩ := Option.map_eq_some_iff.mp hstop
    obtain ⟨b, hb, rfl⟩ := Option.map_eq_some_iff.mp hcs
    have htarget : w.m.targetName target = nm := by
      rcases hhunt.aims with ⟨rfl, _⟩ | ⟨rfl, _⟩
      · rfl
      · exact hhunt.name
    rw [htarget] at hb
    obtain rfl : b = a := hhunt.unique b (inUse_of_find hb).2
    exact not_not.mpr (name_reset _ _)

theorem struck_flock (hw : Chased nm a w) (hh : w.hunter = some h) (hq : struck w.m h e = some q) :
    w.flock q = true := by
  obtain ⟨target, k, stage, hhunt⟩ := hw.hunting h hh
  unfold struck at hq
  split at hq
  · split at hq
    · rw [hhunt.pc] at hq
      split at hq
      · next pid heq =>
        obtain ⟨rfl, rfl, rfl⟩ := Pc.stopping.inj heq
        split at hq
        · have hpid := (byPid_eq_some.mp (Option.filter_eq_some_iff.mp hq).1).1
          exact (hhunt.known pid rfl).2.2 q hpid
        · cases hq
      · cases hq
    · cases hq
  · cases hq

theorem chased_step (hw : Chased nm a w) (hC : HuntOk nm a w e) (hnm : nm ≠ emptyName)
    (ht : step w.m e = some t) : Chased nm a (w.after e t) where
  sound := sound_step hw.sound hC.resume hC.name ht
  formed := chased_formed hw hC ht
  hunting := by
    intro h hh
    obtain ⟨hold, hstops⟩ := Option.filter_eq_some_iff.mp hh
    obtain ⟨target, k, stage, hhunt⟩ := hw.hunting h hold
    rcases hunter_step hw.sound ht hhunt.pc with ⟨hpc, hsteps⟩ | ⟨c, run, rfl, hrun, rfl, hstop⟩
    · exact ⟨target, k, stage, hunting_other hw hC hnm ht hold hhunt hpc hsteps⟩
    · cases hslot : slotAt k with
      | none =>
        rw [Machine.stopStep, hslot] at hstop
        obtain ⟨cs, _, rfl⟩ := Option.map_eq_some_iff.mp hstop
        rw [Machine.pc_setPc, if_pos rfl] at hstops
        cases hstops
      | some q₀ =>
        obtain ⟨k', stage', hnext⟩ :=
          hunting_own hw hC ht hold hrun hhunt (slotAt_eq_some.mp hslot) hstop
        exact ⟨target, k', stage', hnext⟩
  returned := by
    intro hnone
    cases hold : w.hunter with
    | none =>
      obtain ⟨hkilled, hgone⟩ := hw.returned hold
      have hborn {p q : ProcSlot} (hp : w.flock p = true) (hx : hatching w.m e = some (p, q)) : False := by
        have hbirth := hC.birth
        rw [hx] at hbirth
        obtain ⟨h, hh, _⟩ := hbirth hp
        rw [hold] at hh
        cases hh
      refine ⟨fun q hq => ?_, fun hused q => ?_⟩
      · rcases flock_step ht hq with ⟨hflock, hstate⟩ | ⟨p, hp, hx, _⟩
        · exact killed_step ht (hkilled q hflock) hstate
        · exact absurd (hborn hp hx) id
      · by_contra hq
        rw [Bool.not_eq_false] at hq
        have hempty : ∃ r, w.flock r = true := by
          rcases flock_step ht hq with ⟨hflock, _⟩ | ⟨p, hp, _⟩
          · exact ⟨q, hflock⟩
          · exact ⟨p, hp⟩
        obtain ⟨r, hr⟩ := hempty
        have hflock : ∀ q, w.flock q = false := by
          rcases (names_step hw.sound.fits hC.name ht).2 a with hkept | ⟨hcleared, _⟩ |
            ⟨c, nm', vc, rfl, hvc, _⟩
          · exact hgone (by rwa [InUse, ← hkept])
          · exact absurd hcleared hused
          · obtain ⟨run, hrun, _⟩ := enter_eq_some ht
            have hcall := hC.entry run.p hrun.map a hvc
            rw [if_pos hold] at hcall
            exact hcall rfl
        rw [hflock r] at hr
        cases hr
    | some h =>
      obtain ⟨target, k, stage, hhunt⟩ := hw.hunting h hold
      have hgone : (t.pc h).stops = false := by
        have hfilter : w.hunter.filter (fun h => (t.pc h).stops) = none := hnone
        rw [hold] at hfilter
        simpa [Option.filter] using hfilter
      rcases hunter_step hw.sound ht hhunt.pc with ⟨hpc, _⟩ | ⟨c, run, rfl, hrun, rfl, hstop⟩
      · rw [hpc, hhunt.pc] at hgone
        cases hgone
      · have hk : nproc ≤ k := by
          rw [← slotAt_eq_none]
          cases hslot : slotAt k with
          | none => rfl
          | some q₀ =>
            obtain ⟨k', stage', hnext⟩ :=
              hunting_own hw hC ht hold hrun hhunt (slotAt_eq_some.mp hslot) hstop
            have hpc : t.pc run.p = .stopping target k' stage' := hnext.pc
            rw [hpc] at hgone
            cases hgone
        obtain ⟨hkilled, hunused⟩ := hunt_over hw ht hhunt hk hstop
        exact ⟨hkilled, fun hused => absurd hused hunused⟩
  stray := by
    change (w.stray || w.hunter.any fun h => (struck w.m h e).any fun q => w.flock q = false) = false
    rw [hw.stray, Bool.false_or]
    cases hold : w.hunter with
    | none => rfl
    | some h =>
      cases hq : struck w.m h e with
      | none => simp [hq]
      | some q => simp [hq, struck_flock hw hold hq]

end Step

/-! ## Runs -/

/-- The loop of `cstop` begins. -/
theorem chased_start {s t : Machine n} (hs : Sound s) {c : Fin n} {p : ProcSlot} {nm : CString}
    {a : Cont} {target : Target} (hp : (s.cpu c).map Running.p = some p)
    (htarget : s.cstopTarget p nm = some target) (hfind : find s.cs.table nm = some a)
    (hunique : ∀ d, name s.cs.table d = nm → d = a) (ht : step s (.call c (.cstop nm)) = some t) :
    Chased nm a (hunt s t p a) := by
  have hsound := sound_step (e := .call c (.cstop nm)) hs trivial trivial ht
  obtain ⟨run, hrun, _, _, hcall⟩ := enter_eq_some ht
  obtain rfl : run.p = p := Option.some.inj (hrun.map.symm.trans hp)
  simp only [Machine.call, htarget, Option.some.injEq] at hcall
  subst hcall
  refine ⟨hsound, fun q hq => ?_, fun h hh => ?_, by simp [hunt], rfl⟩
  · obtain ⟨⟨hpid, hunused, hembryo, hforked⟩, hcont⟩ := of_decide_eq_true hq
    refine ⟨⟨hpid, hunused, hembryo, fun hf => ?_⟩, hcont⟩
    exact (forked_step ht hf).elim hforked fun h => hunused h.1
  · cases hh
    refine ⟨target, 0, .test, by simp [hunt, Machine.pc_setPc], ?_, (inUse_of_find hfind).2, hunique,
      fun _ _ h => absurd h (Nat.not_lt_zero _), by simp, by simp⟩
    change target = .named nm ∧ (s.cs.proc run.p).cont = none ∨
      target = .own a ∧ (s.cs.proc run.p).cont = some a
    unfold Machine.cstopTarget at htarget
    split at htarget
    · next hroot => exact Or.inl ⟨(Option.some.inj htarget).symm, hroot⟩
    · next d hd =>
      split at htarget
      · next hname =>
        obtain rfl : d = a := hunique d ((strlen_strncmp_iff _ _).mp hname).symm
        exact Or.inr ⟨(Option.some.inj htarget).symm, hd⟩
      · cases htarget

/-- The scheduler, a wakeup or `resume` can move process `q`, or it runs. -/
def Movable (s : Machine n) (q : ProcSlot) : Prop :=
  match s.state q with
  | .runnable => Served s q
  | .sleeping => ∃ ch, (s.wakeup1 ch).state q = .runnable
  | .pause => ∃ nm, ∀ p, s.ResumeTest p nm q
  | .running => OnCpu s q
  | _ => False

theorem movable_flock {w : Hunt n} {nm : CString} {a : Cont} (hw : Chased nm a w) (c : Fin n)
    (htame : Tame w.m) (hturns : TurnsTaken w.m a) {q : ProcSlot} (hq : w.flock q = true)
    (hexited : w.m.pc q ≠ .exited) : Movable w.m q := by
  obtain ⟨⟨_, hunused, hembryo, _⟩, hcont⟩ := hw.formed q hq
  unfold Movable
  cases hstate : w.m.state q with
  | unused => exact absurd hstate hunused
  | embryo => exact absurd hstate hembryo
  | zombie => exact absurd ((hw.sound.inv.1.slot q).zombie hstate) hexited
  | runnable => exact served_member c htame (Or.inl hstate) hcont hturns
  | running => exact hw.sound.running q hstate
  | sleeping =>
    obtain ⟨ch, hch⟩ := Option.ne_none_iff_exists'.mp (hw.sound.inv.2.sleeping q hstate)
    refine ⟨ch, ?_⟩
    change (w.m.woken ch q).state = .runnable
    rw [Machine.woken, if_pos ⟨hstate, hch⟩]
  | pause =>
    refine ⟨name w.m.cs.table a, fun p => ⟨hstate, ?_⟩⟩
    rw [State.contName, hcont]
    exact (strcmp_eq_zero_iff _ _).mpr rfl

/-- A call of `cstop` for container `a`, made in a state that a run from boot reaches: the call
kills nobody outside the container, and once it has returned, the processes of the container and
their descendants are marked as killed, can be moved, and belong to no container in use. -/
theorem stop_complete {b s t : Machine n} (hboot : Boot b) (hpids : PidsOk b)
    (hfits : ∀ i, NameFits b.cs.table i) {pre : List (Event n)}
    (hpre : Always step (fun s e => ResumeOk s e ∧ NameOk e) b pre) (hs : run step b pre = some s)
    {c : Fin n} {p : ProcSlot} {nm : CString} {a : Cont} {target : Target}
    (hp : (s.cpu c).map Running.p = some p) (htarget : s.cstopTarget p nm = some target)
    (hfind : find s.cs.table nm = some a) (hunique : ∀ d, name s.cs.table d = nm → d = a)
    (ht : step s (.call c (.cstop nm)) = some t) {es : List (Event n)}
    (hall : Always chase (HuntOk nm a) (hunt s t p a) es) {w : Hunt n}
    (hw : run chase (hunt s t p a) es = some w) :
    w.stray = false ∧ (w.hunter = none →
      (∀ q, w.flock q = true → (w.m.cs.proc q).killed = true) ∧
      (Tame w.m → TurnsTaken w.m a → ∀ q, w.flock q = true → w.m.pc q ≠ .exited → Movable w.m q) ∧
      ∀ q i, w.flock q = true → (w.m.cs.proc q).cont = some i → ¬ InUse w.m.cs.table i) := by
  have hsound : Sound s := run_invariant (fun _ _ _ hu hC hstep => sound_step hu hC.1 hC.2 hstep)
    (sound_boot hboot hpids hfits) hpre hs
  have hnm : nm ≠ emptyName := by
    rintro rfl
    rw [find_emptyName] at hfind
    cases hfind
  have hchased : Chased nm a w := by
    refine run_invariant ?_ (chased_start hsound hp htarget hfind hunique ht) hall hw
    intro w e w' hw hC hstep
    obtain ⟨t, ht, rfl⟩ := Option.map_eq_some_iff.mp hstep
    exact chased_step hw hC hnm ht
  refine ⟨hchased.stray, fun hnone => ⟨(hchased.returned hnone).1, fun htame hturns q hq hexited =>
    movable_flock hchased c htame hturns hq hexited, fun q i hq hi hused => ?_⟩⟩
  obtain rfl : a = i := Option.some.inj ((hchased.formed q hq).2.symm.trans hi)
  rw [(hchased.returned hnone).2 hused q] at hq
  cases hq

/-- The first process runs while its child waits in a container. -/
def beforeStop : List (Event 1) := childPreempted ++ [.pass 0 0]

/-- The steps of the loop of `cstop` for a container with one process. -/
def stopLoop : List (Event 1) := List.replicate 67 (.loop 0)

/-- The first process calls `cstop` for the container of its child, and `es` follow. -/
def childHunt (es : List (Event 1)) : Option (Machine 1 × Machine 1 × Hunt 1) :=
  (run step bootMachine beforeStop).bind fun s =>
    (step s (.call 0 (.cstop contName))).bind fun t =>
      (run chase (hunt s t 0 0) es).map fun w => (s, t, w)

theorem childHunt_eq_some {es : List (Event 1)} {s t : Machine 1} {w : Hunt 1}
    (h : childHunt es = some (s, t, w)) :
    run step bootMachine beforeStop = some s ∧ step s (.call 0 (.cstop contName)) = some t ∧
      run chase (hunt s t 0 0) es = some w := by
  obtain ⟨s', hs, h⟩ := Option.bind_eq_some_iff.mp h
  obtain ⟨t', ht, h⟩ := Option.bind_eq_some_iff.mp h
  obtain ⟨w', hw, h⟩ := Option.map_eq_some_iff.mp h
  cases h
  exact ⟨hs, ht, hw⟩

theorem stop_complete_child :
    ∃ s t w, childHunt stopLoop = some (s, t, w) ∧
      w.hunter = none ∧ w.flock 1 = true ∧ (w.m.cs.proc 1).killed = true ∧ w.stray = false := by
  obtain ⟨⟨s, t, w⟩, hx, hstate⟩ := Option.map_eq_some_iff.mp
    (by decide +kernel : (childHunt stopLoop).map (fun (s, t, w) => decide
      ((s.cpu 0).map Running.p = some 0 ∧ s.cstopTarget 0 contName = some (.named contName) ∧
        find s.cs.table contName = some 0 ∧ (∀ d, name s.cs.table d = contName → d = 0) ∧
        Always chase (HuntOk contName 0) (hunt s t 0 0) stopLoop ∧ w.hunter = none ∧
        w.flock 1 = true)) = some true)
  obtain ⟨hp, htarget, hfind, hunique, hall, hnone, hflock⟩ := of_decide_eq_true hstate
  obtain ⟨hs, ht, hw⟩ := childHunt_eq_some hx
  have hstop := stop_complete (b := bootMachine) (by unfold Boot; decide +kernel)
    pidsOk_bootMachine (by decide +kernel) (by decide +kernel) hs hp htarget hfind hunique ht hall hw
  exact ⟨s, t, w, hx, hnone, hflock, (hstop.2 hnone).1 1 hflock, hstop.1⟩

/-- The name of another container. -/
def nextName : CString := ⟨[100], by decide⟩

/-- The record is used again while the killed child is still there: the child is now a process of
the new container. -/
theorem stopped_child_joins_next :
    ∃ s t w, childHunt (stopLoop ++ [.call 0 (.setName nextName 0)]) = some (s, t, w) ∧
      w.hunter = none ∧ w.flock 1 = true ∧ (w.m.cs.proc 1).cont = some 0 ∧
      name w.m.cs.table 0 = nextName ∧ InUse w.m.cs.table 0 := by
  obtain ⟨⟨s, t, w⟩, hx, hstate⟩ := Option.map_eq_some_iff.mp
    (by decide +kernel :
      (childHunt (stopLoop ++ [.call 0 (.setName nextName 0)])).map (fun (_, _, w) => decide
        (w.hunter = none ∧ w.flock 1 = true ∧ (w.m.cs.proc 1).cont = some 0 ∧
          name w.m.cs.table 0 = nextName ∧ InUse w.m.cs.table 0)) = some true)
  exact ⟨s, t, w, hx, of_decide_eq_true hstate⟩

end Process

end Xv6Containers
