import Xv6Containers.Process.Steps

/-!
# What a step does to a process

One step changes a slot of the process table in one of thirteen ways. The
theorems here say which, and what a step can do to the CPUs, the loops and the
names of the containers. They hold in every state.
-/

namespace Xv6Containers

open Lib.Memory Lib.Strings Lib.Search Function

namespace Process

open Container

variable {n : Nat} {s t : Machine n} {e : Event n} {c : Fin n} {run : Running} {p q : ProcSlot}

/-- Some CPU runs process `q`. -/
def OnCpu (s : Machine n) (q : ProcSlot) : Prop := ∃ c, (s.cpu c).map Running.p = some q

instance (s : Machine n) (q : ProcSlot) : Decidable (OnCpu s q) := by
  unfold OnCpu
  infer_instance

/-- Process `p` is creating a process in slot `q`. -/
def Forking (s : Machine n) (p q : ProcSlot) : Prop :=
  s.pc p = .forkAllocated q ∨ s.pc p = .forkCleared q

instance (s : Machine n) (p q : ProcSlot) : Decidable (Forking s p q) := by
  unfold Forking
  infer_instance

/-- Slot `q` holds a process that is being created. -/
def Forked (s : Machine n) (q : ProcSlot) : Prop := ∃ p, Forking s p q

instance (s : Machine n) (q : ProcSlot) : Decidable (Forked s q) := by
  unfold Forked
  infer_instance

theorem onCpu_of_cpu (h : s.cpu c = some run) : OnCpu s run.p := ⟨c, by rw [h]; rfl⟩

theorem Runs.onCpu (h : Runs s c run) : OnCpu s run.p := onCpu_of_cpu h.cpu

/-- The step marks process `q` as killed: a call of `kill` or the loop of `cstop` does. -/
def Kills (s : Machine n) (e : Event n) (q : ProcSlot) : Prop :=
  ∃ c run pid, Runs s c run ∧ s.cs.byPid pid = some q ∧ ¬ s.cs.Refused run.p q ∧
    (e = .call c (.kill pid) ∨
      e = .loop c ∧ ∃ target k, k < nproc ∧ s.pc run.p = .stopping target k (.killing pid))

/-- What a step can make of process `q`. -/
inductive Turn (s : Machine n) (e : Event n) (q : ProcSlot) : Proc → Prop
  | same : Turn s e q (s.cs.proc q)
  | woken (h : s.state q = .sleeping) : Turn s e q { s.cs.proc q with state := .runnable }
  | killed (h : Kills s e q) : Turn s e q (markKilled (s.cs.proc q))
  | dispatched (h : s.state q = .runnable ∨ s.state q = .sleeping) :
      Turn s e q { s.cs.proc q with state := .running }
  | left (h : OnCpu s q) (x : ProcState) (hx : x = .runnable ∨ x = .sleeping ∨ x = .zombie) :
      Turn s e q { s.cs.proc q with state := x }
  | allocated (c : Fin n) (ok : Bool) (he : e = .fork c ok) (h : s.state q = .unused) :
      Turn s e q { s.cs.proc q with state := .embryo, pid := s.nextpid }
  | cleared (c : Fin n) (run : Running) (he : e = .fork c true) (hrun : Runs s c run)
      (h : s.pc run.p = .forkAllocated q) : Turn s e q { s.cs.proc q with cont := none }
  | givenUp (c : Fin n) (run : Running) (he : e = .fork c false) (hrun : Runs s c run)
      (h : Forking s run.p q) : Turn s e q { s.cs.proc q with state := .unused }
  | hatched (c : Fin n) (run : Running) (he : e = .fork c true) (hrun : Runs s c run)
      (h : s.pc run.p = .forkCleared q) :
      Turn s e q { s.cs.proc q with state := .runnable, cont := (s.cs.proc run.p).cont }
  | paused (c : Fin n) (run : Running) (nm : CString) (he : e = .loop c) (hrun : Runs s c run)
      (h : s.pc run.p = .pausing nm q true) : Turn s e q { s.cs.proc q with state := .pause }
  | resumed (c : Fin n) (run : Running) (nm : CString) (he : e = .loop c) (hrun : Runs s c run)
      (h : s.pc run.p = .resuming nm q true) : Turn s e q { s.cs.proc q with state := .runnable }
  | reaped (c : Fin n) (he : e = .wait c) (h : s.state q = .zombie) :
      Turn s e q { s.cs.proc q with state := .unused, pid := 0, killed := false }
  | moved (c : Fin n) (run : Running) (vc : Int) (a : Cont) (he : e = .call c (.contProcSet vc))
      (hrun : Runs s c run) (hq : run.p = q) (ha : index vc = some a) :
      Turn s e q { s.cs.proc q with cont := some a }

/-! ## The parts of a step -/

theorem scan_proc (s : Machine n) (c : Fin n) (holder : Option CString) (k : Nat) (q : ProcSlot) :
    (s.scan c holder k).cs.proc q = s.cs.proc q ∨
      s.state q = .runnable ∧ k ≤ q.val ∧
        (s.scan c holder k).cs.proc q = { s.cs.proc q with state := .running } := by
  unfold Machine.scan
  split
  · exact Or.inl rfl
  · next r hr =>
    by_cases hq : q = r
    · subst hq
      obtain ⟨hk, _, hstate⟩ := candidate_eq_some hr
      exact Or.inr ⟨hstate, hk, by simp [Machine.dispatch, Machine.setState, State.setProc]⟩
    · exact Or.inl (by simp [Machine.dispatch, Machine.setState, State.setProc, hq])

theorem leave_proc_self (s : Machine n) (c : Fin n) (run : Running) (x : ProcState) :
    (s.leave c run x).cs.proc run.p = { s.cs.proc run.p with state := x } := by
  have hoff : (s.offCpu c run x).cs.proc run.p = { s.cs.proc run.p with state := x } := by
    simp [Machine.offCpu, Machine.setState, State.setProc]
  rcases scan_proc (s.offCpu c run x) c run.holder (run.p + 1) run.p with h | ⟨_, hk, _⟩
  · exact h.trans hoff
  · omega

variable {m : Table}

theorem leave_proc_of_ne (s : Machine n) (c : Fin n) (run : Running) (x : ProcState)
    (hq : q ≠ run.p) : (s.leave c run x).cs.proc q = s.cs.proc q ∨
      s.state q = .runnable ∧
        (s.leave c run x).cs.proc q = { s.cs.proc q with state := .running } := by
  have hoff : (s.offCpu c run x).cs.proc q = s.cs.proc q := by
    simp [Machine.offCpu, Machine.setState, State.setProc, hq]
  rcases scan_proc (s.offCpu c run x) c run.holder (run.p + 1) q with h | ⟨hstate, _, h⟩
  · exact Or.inl (h.trans hoff)
  · rw [hoff] at h
    rw [Machine.state, hoff] at hstate
    exact Or.inr ⟨hstate, h⟩

theorem wakeup1_proc (s : Machine n) (ch : Chan) (q : ProcSlot) :
    (s.wakeup1 ch).cs.proc q = s.cs.proc q ∨
      s.state q = .sleeping ∧ (s.wakeup1 ch).cs.proc q = { s.cs.proc q with state := .runnable } := by
  change s.woken ch q = _ ∨ _ ∧ s.woken ch q = _
  unfold Machine.woken
  split
  · next h => exact Or.inr ⟨h.1, rfl⟩
  · exact Or.inl rfl

/-- The processes that `exit` wakes up before it leaves. -/
theorem exit_wakes (s : Machine n) (p q : ProcSlot) :
    ((s.wakeParent p).abandonChildren p).cs.proc q = s.cs.proc q ∨
      s.state q = .sleeping ∧ ((s.wakeParent p).abandonChildren p).cs.proc q =
        { s.cs.proc q with state := .runnable } := by
  have hparent : (s.wakeParent p).cs.proc q = s.cs.proc q ∨
      s.state q = .sleeping ∧ (s.wakeParent p).cs.proc q = { s.cs.proc q with state := .runnable } := by
    unfold Machine.wakeParent
    split
    · exact Or.inl rfl
    · exact wakeup1_proc s _ q
  have hchildren (u : Machine n) : (u.abandonChildren p).cs.proc q = u.cs.proc q ∨
      u.state q = .sleeping ∧
        (u.abandonChildren p).cs.proc q = { u.cs.proc q with state := .runnable } := by
    unfold Machine.abandonChildren
    dsimp only
    split
    · exact wakeup1_proc u _ q
    · exact Or.inl rfl
  rcases hchildren (s.wakeParent p) with hc | ⟨hsleep, hc⟩
  · rw [hc]
    exact hparent
  · rcases hparent with hp | ⟨_, hp⟩
    · rw [hp] at hc
      rw [Machine.state, hp] at hsleep
      exact Or.inr ⟨hsleep, hc⟩
    · rw [Machine.state, hp] at hsleep
      cases hsleep

/-- The process on a CPU leaves it, after others may have been woken up. -/
theorem turn_leave {u : Machine n} {x : ProcState}
    (hcpu : s.cpu c = some run) (hx : x = .runnable ∨ x = .sleeping ∨ x = .zombie)
    (hu : ∀ q, u.cs.proc q = s.cs.proc q ∨
      s.state q = .sleeping ∧ u.cs.proc q = { s.cs.proc q with state := .runnable })
    (q : ProcSlot) : Turn s e q ((u.leave c run x).cs.proc q) := by
  by_cases hq : q = run.p
  · subst hq
    have hself : (u.leave c run x).cs.proc run.p = { s.cs.proc run.p with state := x } := by
      rw [leave_proc_self]
      rcases hu run.p with h | ⟨_, h⟩ <;> rw [h]
    rw [hself]
    exact .left (onCpu_of_cpu hcpu) x hx
  · rcases leave_proc_of_ne u c run x hq with h | ⟨hstate, h⟩
    · rw [h]
      rcases hu q with h | ⟨hsleep, h⟩
      · rw [h]
        exact .same
      · rw [h]
        exact .woken hsleep
    · have hrun : (u.leave c run x).cs.proc q = { s.cs.proc q with state := .running } := by
        rw [h]
        rcases hu q with h | ⟨_, h⟩ <;> rw [h]
      rw [hrun]
      rcases hu q with h | ⟨hsleep, _⟩
      · rw [Machine.state, h] at hstate
        exact .dispatched (Or.inl hstate)
      · exact .dispatched (Or.inr hsleep)

theorem turn_wakeup (ch : Chan) (q : ProcSlot) :
    Turn s e q ((s.wakeup1 ch).cs.proc q) := by
  rcases wakeup1_proc s ch q with h | ⟨hsleep, h⟩
  · rw [h]
    exact .same
  · rw [h]
    exact .woken hsleep

/-- `setProc` at another slot, or at this one. -/
theorem turn_setProc {r : ProcSlot} {x : Proc} (h : Turn s e r x) (q : ProcSlot) :
    Turn s e q ((s.cs.setProc r x).proc q) := by
  by_cases hq : q = r
  · subst hq
    simpa [State.setProc] using h
  · have hother : (s.cs.setProc r x).proc q = s.cs.proc q := by simp [State.setProc, hq]
    rw [hother]
    exact .same

theorem turn_kill {pid : Int} (hrun : Runs s c run) (he : e = .call c (.kill pid) ∨
      e = .loop c ∧ ∃ target k, k < nproc ∧ s.pc run.p = .stopping target k (.killing pid))
    (q : ProcSlot) : Turn s e q ((kill s.cs run.p pid).proc q) := by
  unfold kill
  split
  · exact .same
  · next r hr =>
    split
    · exact .same
    · next hrefused => exact turn_setProc (.killed ⟨c, run, pid, hrun, hr, hrefused, he⟩) q

theorem turn_loop (hrun : Runs s c run) (h : LoopTurn s run.p t) (q : ProcSlot) :
    Turn s (.loop c) q (t.cs.proc q) := by
  cases h with
  | goes x _ => exact .same
  | pauses nm r hpc => exact turn_setProc (.paused c run nm rfl hrun hpc) q
  | resumes nm r hpc => exact turn_setProc (.resumed c run nm rfl hrun hpc) q
  | kills target k pid hk hpc => exact turn_kill hrun (Or.inr ⟨rfl, target, k, hk, hpc⟩) q
  | resets target k stage a _ _ _ => exact .same

theorem turn_call {call : Call} (hrun : Runs s c run) (h : CallTurn s run.p call t) (q : ProcSlot) :
    Turn s (.call c call) q (t.cs.proc q) := by
  cases h with
  | kills pid => exact turn_kill hrun (Or.inl rfl) q
  | joins vc a ha => exact turn_setProc (.moved c run vc a rfl hrun rfl ha) q
  | _ => exact .same

/-- Every step makes one of these turns with every process. -/
theorem turn_step (h : step s e = some t) (q : ProcSlot) : Turn s e q (t.cs.proc q) := by
  have hticks (c : Fin n) : Turn s e q ((s.ticks c).cs.proc q) :=
    ticks_cases (P := fun u => Turn s e q (u.cs.proc q)) .same (turn_wakeup .ticks q) c
  cases did h with
  | pass c r holder _ =>
    rcases scan_proc s c holder 0 q with h | ⟨hstate, _, h⟩
    · rw [h]
      exact .same
    · rw [h]
      exact .dispatched (Or.inl hstate)
  | timer c => exact hticks c
  | tick c run _ => exact hticks c
  | yield c run hcpu _ => exact turn_leave hcpu (Or.inl rfl) (fun _ => Or.inl rfl) q
  | wakeup ch => exact turn_wakeup ch q
  | sleep c run ch hrun _ =>
    exact turn_leave (u := s.setChan run.p (some ch)) hrun.cpu (Or.inr (Or.inl rfl))
      (fun _ => Or.inl rfl) q
  | exit c run hrun _ _ =>
    exact turn_leave (u := ((s.wakeParent run.p).abandonChildren run.p).setPc run.p .exited)
      hrun.cpu (Or.inr (Or.inr rfl)) (exit_wakes s run.p) q
  | reaps c run r _ hr => exact turn_setProc (.reaped c rfl (zombieChild_eq_some hr).2) q
  | waits c run hrun _ _ =>
    exact turn_leave (u := s.setChan run.p _) hrun.cpu (Or.inr (Or.inl rfl)) (fun _ => Or.inl rfl) q
  | takes c ok run r _ _ hr => exact turn_setProc (.allocated c ok rfl hr) q
  | clears c run r hrun hpc => exact turn_setProc (.cleared c run rfl hrun hpc) q
  | givesUp c run r hrun hpc => exact turn_setProc (.givenUp c run rfl hrun hpc) q
  | hatches c run r hrun hpc => exact turn_setProc (.hatched c run rfl hrun hpc) q
  | loops c run _ hrun hloop => exact turn_loop hrun (loop_turn hloop) q
  | calls c run call _ hrun _ hcall => exact turn_call hrun hcall q
  | _ => exact .same

theorem cont_step (h : step s e = some t) (q : ProcSlot) :
    (t.cs.proc q).cont = (s.cs.proc q).cont ∨
    (t.cs.proc q).cont = none ∧ (∃ c, e = .fork c true) ∧ Forked s q ∨
    (∃ c run, e = .fork c true ∧ Runs s c run ∧ s.pc run.p = .forkCleared q ∧
      (t.cs.proc q).cont = (s.cs.proc run.p).cont) ∨
    ∃ c run vc a, e = .call c (.contProcSet vc) ∧ Runs s c run ∧ run.p = q ∧ index vc = some a ∧
      (t.cs.proc q).cont = some a := by
  have hturn := turn_step h q
  generalize t.cs.proc q = x at hturn
  cases hturn with
  | cleared c run he _ hp => exact Or.inr (Or.inl ⟨rfl, ⟨c, he⟩, run.p, Or.inl hp⟩)
  | hatched c run he hrun hp => exact Or.inr (Or.inr (Or.inl ⟨c, run, he, hrun, hp, rfl⟩))
  | moved c run vc a he hrun hq ha => exact Or.inr (Or.inr (Or.inr ⟨c, run, vc, a, he, hrun, hq, ha, rfl⟩))
  | _ => exact Or.inl rfl

/-! ## The loops -/

/-- What a step can do to where process `p` stands. -/
inductive PcTurn (s t : Machine n) (e : Event n) (p : ProcSlot) : Prop
  | same (h : t.pc p = s.pc p)
  | forkOver (h : t.pc p = .free) (hp : s.pc p = .forkEntered ∨ ∃ q, Forking s p q)
  | renewed (h : t.pc p = .free) (r : ProcSlot) (hr : s.pc r = .forkAllocated p)
  | exits (h : t.pc p = .exited) (hp : s.pc p = .free)
  | forkEnters (h : t.pc p = .forkEntered) (hp : s.pc p = .free)
  | allocates (q : ProcSlot) (h : t.pc p = .forkAllocated q) (hp : s.pc p = .forkEntered)
      (hq : s.state q = .unused) (hpid : (t.cs.proc q).pid = s.nextpid)
  | clears (q : ProcSlot) (h : t.pc p = .forkCleared q) (hp : s.pc p = .forkAllocated q)
  | enters (c : Fin n) (run : Running) (call : Call) (he : e = .call c call) (hrun : Runs s c run)
      (hp : run.p = p) (hfree : s.pc p = .free) (h : Enters call (t.pc p))
  | loops (c : Fin n) (run : Running) (he : e = .loop c) (hrun : Runs s c run) (hp : run.p = p)
      (h : s.loop p = some t)

theorem loop_pc (h : s.loop p = some t) (hq : q ≠ p) : t.pc q = s.pc q := by
  cases loop_turn h <;> exact (Machine.pc_setPc _ _ _ _).trans (if_neg hq)

theorem scan_pc (s : Machine n) (c : Fin n) (holder : Option CString) (k : Nat) :
    (s.scan c holder k).pc = s.pc := by
  unfold Machine.scan
  split <;> rfl

theorem leave_pc (s : Machine n) (c : Fin n) (run : Running) (x : ProcState) :
    (s.leave c run x).pc = s.pc := scan_pc _ _ _ _

theorem exit_pc (s : Machine n) (c : Fin n) (run : Running) :
    (s.exit c run).pc = update s.pc run.p .exited := by
  rw [Machine.exit, leave_pc, Machine.setPc, (abandonChildren_frame _ _).1, (wakeParent_frame _ _).1]

/-- Every step makes one of these turns with where a process stands. -/
theorem pcTurn_step (h : step s e = some t) (p : ProcSlot) : PcTurn s t e p := by
  have hset {u : Machine n} {r : ProcSlot} {x : Pc} (hu : u.pc = update s.pc r x)
      (hr : u.pc r = x → PcTurn s u e r) : PcTurn s u e p := by
    by_cases hp : p = r
    · subst hp
      exact hr (by rw [hu, update_self])
    · exact .same (by rw [hu, update_of_ne hp])
  have hticks (c : Fin n) : (s.ticks c).pc = s.pc := ticks_cases (P := fun u => u.pc = s.pc) rfl rfl c
  cases did h with
  | pass c r holder _ => exact .same (congrFun (scan_pc s c holder 0) p)
  | timer c => exact .same (congrFun (hticks c) p)
  | tick c run _ => exact .same (congrFun (hticks c) p)
  | yield c run _ _ => exact .same (congrFun (leave_pc s c run .runnable) p)
  | sleep c run ch _ _ => exact .same (congrFun (leave_pc _ c run .sleeping) p)
  | waits c run _ _ _ => exact .same (congrFun (leave_pc _ c run .sleeping) p)
  | exit c run _ hfree _ => exact hset (exit_pc s c run) fun h => .exits h hfree
  | forks c ok run _ hpc => exact hset rfl fun h => .forkEnters h hpc
  | full c ok run _ hpc => exact hset rfl fun h => .forkOver h (Or.inl hpc)
  | takes c ok run r _ hpc hr =>
    exact hset rfl fun h => .allocates r h hpc hr (by simp [Machine.take, State.setProc])
  | clears c run r _ hpc =>
    by_cases hp : p = run.p
    · subst hp
      exact .clears r (by simp [Machine.clear]) hpc
    · by_cases hr : p = r
      · subst hr
        exact .renewed (by simp [Machine.clear, update_of_ne hp]) run.p hpc
      · exact .same (by simp [Machine.clear, update_of_ne hp, update_of_ne hr])
  | givesUp c run r _ hpc => exact hset rfl fun h => .forkOver h (Or.inr ⟨r, hpc⟩)
  | hatches c run r _ hpc => exact hset rfl fun h => .forkOver h (Or.inr ⟨r, Or.inr hpc⟩)
  | loops c run _ hrun hloop =>
    by_cases hp : p = run.p
    · subst hp
      exact .loops c run rfl hrun rfl hloop
    · exact .same (loop_pc hloop hp)
  | calls c run call _ hrun hfree hcall =>
    cases hcall with
    | enters _ x hx =>
      refine hset rfl fun h => .enters c run call rfl hrun rfl hfree ?_
      rw [h]
      exact hx
    | _ => exact .same rfl
  | _ => exact .same rfl

/-- The loops of `pause`, `resume` and `cstop` stay in their own loop. -/
theorem loop_stays (h : s.loop p = some t) :
    (∃ nm k hit, s.pc p = .pausing nm k hit ∧ t = s.pauseStep p nm k hit) ∨
    (∃ nm k hit, s.pc p = .resuming nm k hit ∧ t = s.resumeStep p nm k hit) ∨
    ∃ target k stage, s.pc p = .stopping target k stage ∧
      s.stopStep p target k stage = some t := by
  unfold Machine.loop at h
  split at h
  · next nm k hit hpc => exact Or.inl ⟨nm, k, hit, hpc, (Option.some.inj h).symm⟩
  · next nm k hit hpc => exact Or.inr (Or.inl ⟨nm, k, hit, hpc, (Option.some.inj h).symm⟩)
  · next target k stage hpc => exact Or.inr (Or.inr ⟨target, k, stage, hpc, h⟩)
  · cases h

/-- A loop stays in itself. -/
theorem loop_next (h : s.loop p = some t) : t.pc p = .free ∨ Pc.Next (s.pc p) (t.pc p) := by
  have hself (u : Machine n) (x : Pc) : (u.setPc p x).pc p = x := by
    rw [Machine.pc_setPc, if_pos rfl]
  cases loop_turn h with
  | goes x hx =>
    rw [hself]
    exact Or.inr hx
  | pauses nm q hpc =>
    rw [hself, hpc]
    exact Or.inr (Or.inr ⟨_, _, rfl, le_refl _⟩)
  | resumes nm q hpc =>
    rw [hself, hpc]
    exact Or.inr (Or.inr ⟨_, _, rfl, le_refl _⟩)
  | kills target k pid _ hpc =>
    rw [hself, hpc]
    exact Or.inr ⟨_, _, rfl, le_refl _⟩
  | resets target k stage a _ _ _ => exact Or.inl (hself _ _)

theorem loop_plain (h : s.loop p = some t) : (t.pc p).Plain := by
  rcases loop_next h with hfree | hnext
  · rw [hfree]
    trivial
  · exact hnext.plain

theorem forked_step (h : step s e = some t) (hq : Forked t q) :
    Forked s q ∨ s.state q = .unused ∧ (t.cs.proc q).pid = s.nextpid := by
  obtain ⟨p, hp⟩ := hq
  have hno {x : Pc} (heq : t.pc p = x) (hx : x.Plain ∨ x = .exited) : False := by
    rw [Forking, heq] at hp
    rcases hp with rfl | rfl <;> simp [Pc.Plain] at hx
  cases pcTurn_step h p with
  | same heq =>
    rw [Forking, heq] at hp
    exact Or.inl ⟨p, hp⟩
  | forkOver heq _ | renewed heq _ _ | forkEnters heq _ => exact (hno heq (Or.inl trivial)).elim
  | exits heq _ => exact (hno heq (Or.inr rfl)).elim
  | allocates r heq _ hr hpid =>
    rw [Forking, heq] at hp
    rcases hp with hp | hp <;> cases hp
    exact Or.inr ⟨hr, hpid⟩
  | clears r heq hr =>
    rw [Forking, heq] at hp
    rcases hp with hp | hp <;> cases hp
    exact Or.inl ⟨p, Or.inl hr⟩
  | enters c run call _ _ _ _ henter => exact (hno rfl (Or.inl henter.plain)).elim
  | loops c run _ _ _ hloop => exact (hno rfl (Or.inl (loop_plain hloop))).elim

theorem fork_hatch (hrun : Runs s c run) (hpc : s.pc run.p = .forkCleared q) (h : step s (.fork c true) = some t) :
    t = s.hatch run.p q := by
  simp only [step, Machine.current, hrun.cpu, hrun.resched, Machine.fork, hpc] at h
  exact (Option.some.inj h).symm

/-! ## The CPUs -/

theorem scan_onCpu (s : Machine n) (c : Fin n) (holder : Option CString) (k : Nat)
    (h : OnCpu (s.scan c holder k) q) : OnCpu s q ∨ (s.scan c holder k).state q = .running := by
  unfold Machine.scan at h ⊢
  split
  · next hnone =>
    rw [hnone] at h
    exact Or.inl h
  · next r hr =>
    rw [hr] at h
    obtain ⟨d, hd⟩ := h
    by_cases hdc : d = c
    · subst hdc
      simp only [Machine.dispatch, update_self, Option.map_some, Option.some.injEq] at hd
      subst hd
      right
      simp [Machine.state, Machine.dispatch, Machine.setState, State.setProc]
    · left
      simp only [Machine.dispatch, update_of_ne hdc] at hd
      exact ⟨d, hd⟩

theorem leave_onCpu (s : Machine n) (c : Fin n) (run : Running) (x : ProcState)
    (h : OnCpu (s.leave c run x) q) : OnCpu s q ∨ (s.leave c run x).state q = .running := by
  refine (scan_onCpu _ c _ _ h).imp ?_ id
  rintro ⟨d, hd⟩
  by_cases hdc : d = c
  · subst hdc
    simp [Machine.offCpu, Machine.setCpu] at hd
  · simp only [Machine.offCpu, Machine.setCpu, update_of_ne hdc] at hd
    exact ⟨d, hd⟩

theorem tick_onCpu (hcpu : s.cpu c = some run) {b : Bool}
    (h : OnCpu ((s.setTable m).setCpu c (some { run with resched := b })) q) : OnCpu s q := by
  obtain ⟨d, hd⟩ := h
  by_cases hdc : d = c
  · subst hdc
    refine ⟨d, ?_⟩
    rw [hcpu]
    simpa [Machine.setCpu] using hd
  · exact ⟨d, by simpa [Machine.setCpu, update_of_ne hdc] using hd⟩

/-- A process comes on a CPU in state `RUNNING`. -/
theorem onCpu_step (h : step s e = some t) (hq : OnCpu t q) : OnCpu s q ∨ t.state q = .running := by
  have hsame {u : Machine n} (hcpu : u.cpu = s.cpu) (hu : OnCpu u q) : OnCpu s q := by
    rwa [OnCpu, hcpu] at hu
  have hticks (c : Fin n) : (s.ticks c).cpu = s.cpu :=
    ticks_cases (P := fun u => u.cpu = s.cpu) rfl rfl c
  cases did h with
  | pass c r holder _ => exact scan_onCpu s c holder 0 hq
  | timer c => exact Or.inl (hsame (hticks c) hq)
  | tick c run hrun =>
    have hcpu : (s.ticks c).cpu c = some run := by
      rw [hticks]
      exact hrun.cpu
    exact Or.inl (hsame (hticks c) (tick_onCpu hcpu hq))
  | yield c run _ _ => exact leave_onCpu _ _ _ _ hq
  | sleep c run ch _ _ => exact leave_onCpu (s.setChan run.p (some ch)) _ _ _ hq
  | waits c run _ _ _ => exact leave_onCpu (s.setChan run.p _) _ _ _ hq
  | exit c run _ _ _ =>
    refine (leave_onCpu _ _ _ _ hq).imp (hsame ?_) id
    rw [Machine.setPc_cpu, (abandonChildren_frame _ _).2, (wakeParent_frame _ _).2]
  | loops c run _ _ hloop =>
    left
    cases loop_turn hloop <;> exact hq
  | calls c run call _ _ _ hcall =>
    left
    cases hcall <;> exact hq
  | _ => exact Or.inl hq

/-- The process is on no CPU and would need `resume` or a new context to run. -/
def Still (s : Machine n) (q : ProcSlot) : Prop :=
  ¬ OnCpu s q ∧ s.state q ≠ .runnable ∧ s.state q ≠ .running ∧ s.state q ≠ .sleeping

instance (s : Machine n) (q : ProcSlot) : Decidable (Still s q) := by
  unfold Still
  infer_instance

theorem markKilled_state {x : Proc} (h : x.state ≠ .sleeping) : (markKilled x).state = x.state := by
  simp [markKilled, h]

/-- A process that is still stays so unless it becomes runnable. -/
theorem still_step (hs : Still s q) (h : step s e = some t) (ht : t.state q ≠ .runnable) : Still t q := by
  obtain ⟨hoff, hrunnable, hrunning, hsleep⟩ := hs
  have hstate : t.state q ≠ .running ∧ t.state q ≠ .sleeping := by
    have hturn := turn_step h q
    simp only [Machine.state] at *
    generalize t.cs.proc q = x at *
    cases hturn with
    | same => exact ⟨hrunning, hsleep⟩
    | killed _ => rw [markKilled_state hsleep]; exact ⟨hrunning, hsleep⟩
    | dispatched h => exact absurd h (by simp [Machine.state, hrunnable, hsleep])
    | left h => exact absurd h hoff
    | cleared _ _ _ _ _ => exact ⟨hrunning, hsleep⟩
    | moved _ _ _ _ _ _ _ _ => exact ⟨hrunning, hsleep⟩
    | woken _ => exact absurd rfl ht
    | hatched _ _ _ _ _ => exact absurd rfl ht
    | resumed _ _ _ _ _ _ => exact absurd rfl ht
    | _ => exact ⟨by simp, by simp⟩
  refine ⟨fun hon => ?_, ht, hstate⟩
  exact (onCpu_step h hon).elim hoff hstate.1

/-- How a process that is still becomes runnable. -/
theorem runnable_step (hs : Still s q) (h : step s e = some t) (ht : t.state q = .runnable) :
    (∃ c run, e = .fork c true ∧ Runs s c run ∧ s.pc run.p = .forkCleared q) ∨
    ∃ c run nm, e = .loop c ∧ Runs s c run ∧ s.pc run.p = .resuming nm q true := by
  obtain ⟨hoff, hrunnable, _, hsleep⟩ := hs
  have hturn := turn_step h q
  simp only [Machine.state] at ht hrunnable hsleep
  generalize t.cs.proc q = x at ht hturn
  cases hturn with
  | same => exact absurd ht hrunnable
  | woken hq => exact absurd hq hsleep
  | killed _ =>
    rw [markKilled_state hsleep] at ht
    exact absurd ht hrunnable
  | left hq => exact absurd hq hoff
  | cleared _ _ _ _ _ => exact absurd ht hrunnable
  | moved _ _ _ _ _ _ _ _ => exact absurd ht hrunnable
  | hatched c run he hrun hp => exact Or.inl ⟨c, run, he, hrun, hp⟩
  | resumed c run nm he hrun hp => exact Or.inr ⟨c, run, nm, he, hrun, hp⟩
  | _ => cases ht

/-! ## The names of the containers -/

/-- Where the process on CPU `c` stands. -/
def Machine.at (s : Machine n) (c : Fin n) : Option Pc := (s.cpu c).map fun run => s.pc run.p

theorem Runs.at (h : Runs s c run) : s.at c = some (s.pc run.p) := by
  rw [Machine.at, h.cpu]
  rfl

theorem Runs.map (h : Runs s c run) : (s.cpu c).map Running.p = some run.p := by
  rw [h.cpu]
  rfl

/-- The step resets the record of container `a`. -/
def Clears (s : Machine n) (e : Event n) (a : Cont) : Prop :=
  match e with
  | .containerInit _ => True
  | .call _ (.containerReset _ next) => index next = some a
  | .loop c =>
    match s.at c with
    | some (.stopping target k _) => nproc ≤ k ∧ find s.cs.table (s.targetName target) = some a
    | _ => False
  | _ => False

instance (s : Machine n) (e : Event n) (a : Cont) : Decidable (Clears s e a) := by
  unfold Clears
  split
  · infer_instance
  · infer_instance
  · split <;> infer_instance
  · infer_instance

/-- Every name that the step stores fits its array. -/
def NameOk : Event n → Prop
  | .call _ (.setName nm _) => strlen nm < nameSize
  | _ => True

instance (e : Event n) : Decidable (NameOk e) := by
  unfold NameOk
  split <;> infer_instance

theorem scan_table (s : Machine n) (c : Fin n) (holder : Option CString) (k : Nat) :
    (s.scan c holder k).cs.table = s.cs.table := by
  unfold Machine.scan
  split <;> rfl

theorem leave_table (s : Machine n) (c : Fin n) (run : Running) (x : ProcState) :
    (s.leave c run x).cs.table = s.cs.table :=
  scan_table _ _ _ _

theorem exit_table (s : Machine n) (p : ProcSlot) :
    ((s.wakeParent p).abandonChildren p).cs.table = s.cs.table := by
  have hchildren (u : Machine n) : (u.abandonChildren p).cs.table = u.cs.table := by
    unfold Machine.abandonChildren
    dsimp only
    split <;> rfl
  rw [hchildren]
  unfold Machine.wakeParent
  split <;> rfl

theorem sameNames_tickReset2 (hm : ∀ c, NameFits m c) : SameNames m (Machine.tickReset2 m) := by
  have hloop (cs : List Cont) (m : Table) (hm : ∀ c, NameFits m c) :
      SameNames m (cs.foldl (fun m c => storeFields c m [(.ticks, 0)]) m) := by
    induction cs generalizing m with
    | nil => exact ⟨fun _ => rfl, hm⟩
    | cons c cs ih =>
      have hstep := sameNames_writeWord_of_fits hm c .ticks (word 0)
      have hrest := ih _ hstep.fits
      exact ⟨fun d => (hrest.name d).trans (hstep.name d), hrest.fits⟩
  exact hloop _ m hm

/-- What a step makes of a table whose names are `m`: it keeps a name, clears it or stores one. -/
def NamesTurn (s : Machine n) (e : Event n) (m : Table) : Prop :=
  (∀ a, NameFits m a) ∧ ∀ a, name m a = name s.cs.table a ∨
    name m a = emptyName ∧ Clears s e a ∨
    ∃ c nm vc, e = .call c (.setName nm vc) ∧ index vc = some a ∧ name m a = nm

theorem SameNames.turn (h : SameNames s.cs.table m) :
    NamesTurn s e m := ⟨h.fits, fun a => Or.inl (h.name a)⟩

theorem namesTurn_reset (hfits : ∀ a, NameFits s.cs.table a) {a : Cont}
    (ha : Clears s e a) : NamesTurn s e (reset s.cs.table a) := by
  have hkept := othersKept_reset_self s.cs.table a
  refine ⟨fun d => ?_, fun d => ?_⟩
  · by_cases hd : d = a
    · subst hd
      exact ⟨0, by decide, reset_name _ _⟩
    · exact (hkept.name hd (hfits d)).2
  · by_cases hd : d = a
    · subst hd
      exact Or.inr (Or.inl ⟨name_reset _ _, ha⟩)
    · exact Or.inl (hkept.name hd (hfits d)).1

theorem namesTurn_setName (hfits : ∀ a, NameFits s.cs.table a) {nm : CString}
    (hnm : strlen nm < nameSize) {vc : Int} (hm : setName nm vc s.cs.table = some m) :
    NamesTurn s (.call c (.setName nm vc)) m := by
  obtain ⟨a, rfl, rfl⟩ := setName_eq_some hm
  have hkept := othersKept_setName (m := s.cs.table) (c := a) hnm
  have hself := name_blit (m := s.cs.table) (c := a) hnm
  refine ⟨fun d => ?_, fun d => ?_⟩
  · by_cases hd : d = a
    · subst hd
      exact hself.2
    · exact (hkept.name hd (hfits d)).2
  · by_cases hd : d = a
    · subst hd
      exact Or.inr (Or.inr ⟨c, nm, _, rfl, index_eq_some.mpr rfl, hself.1⟩)
    · exact Or.inl (hkept.name hd (hfits d)).1

/-- As long as names fit their arrays, a step keeps, clears or stores names, and nothing else. -/
theorem names_step (hfits : ∀ a, NameFits s.cs.table a) (hok : NameOk e) (h : step s e = some t) :
    NamesTurn s e t.cs.table := by
  have hsame {m : Table} (hm : m = s.cs.table) : NamesTurn s e m := by
    subst hm
    exact SameNames.turn ⟨fun _ => rfl, hfits⟩
  have hfield (a : Cont) (f : Field) (v : Nat) :
      NamesTurn s e (writeWord s.cs.table (address a f.offset) v) :=
    SameNames.turn (sameNames_writeWord_of_fits hfits a f v)
  have hticks (c : Fin n) : (s.ticks c).cs.table = s.cs.table :=
    ticks_cases (P := fun u => u.cs.table = s.cs.table) rfl rfl c
  cases did h with
  | pass c r holder _ => exact hsame (scan_table _ _ _ _)
  | timer c => exact hsame (hticks c)
  | tick c run _ =>
    simp only [Machine.tick, Machine.setCpu, Machine.setTable, Machine.ticked, hticks]
    split
    · exact hsame rfl
    · next a _ => exact hfield a .ticks _
  | yield c run _ _ => exact hsame (leave_table _ _ _ _)
  | sleep c run ch _ _ => exact hsame (leave_table (s.setChan run.p (some ch)) _ _ _)
  | waits c run _ _ _ => exact hsame (leave_table (s.setChan run.p _) _ _ _)
  | exit c run _ _ _ => exact hsame ((leave_table _ _ _ _).trans (exit_table s run.p))
  | loops c run _ hrun hloop =>
    cases loop_turn hloop with
    | kills target k pid _ _ => exact hsame (kill_table _ _ _)
    | resets target k stage a hk hpc ha =>
      refine namesTurn_reset hfits ?_
      simp only [Clears, hrun.at, hpc]
      exact ⟨hk, ha⟩
    | _ => exact hsame rfl
  | calls c run call _ _ _ hcall =>
    cases hcall with
    | kills pid => exact hsame (kill_table _ _ _)
    | resets vc next a ha => exact namesTurn_reset hfits ha
    | names nm vc m hm => exact namesTurn_setName hfits hok hm
    | limits call f v vc m hm =>
      obtain ⟨a, _, rfl⟩ := Option.map_eq_some_iff.mp hm
      exact hfield a f _
    | _ => exact hsame rfl
  | containerInit c =>
    have hzero := containerInit_name s.cs.table
    exact ⟨fun a => ⟨0, by decide, hzero a⟩,
      fun a => Or.inr (Or.inl ⟨name_eq_empty_iff.mpr (hzero a), trivial⟩)⟩
  | tickReset2 c => exact SameNames.turn (sameNames_tickReset2 hfits)
  | _ => exact hsame rfl

end Process

end Xv6Containers
