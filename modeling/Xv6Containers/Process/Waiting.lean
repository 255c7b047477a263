import Xv6Containers.Process.Stopping

/-!
# `fork`, `exit` and `wait`

Every process but the first has a parent that is alive, a process that sleeps in
`wait` has no zombie child, and a zombie goes only to the parent that waits for
it. This holds as long as nobody pauses processes.

## Implementation notes

`History` keeps the numbers that `wait` has returned and the number of calls of
`allocproc`. The model counts process numbers without a bound; `int` numbers are
compared after `toSigned` and `word`. Nothing but `wait` sleeps on a process.
-/

namespace Xv6Containers

open Lib.Memory Lib.Strings Lib.Search Lib.Runs

namespace Process

open Container

variable {n : Nat}

/-! ## What `wait` returns -/

/-- What `wait` returns, unless it goes to sleep. -/
def Machine.waitResult (s : Machine n) (p : ProcSlot) : Option Int :=
  match s.zombieChild p with
  | some q => some (s.cs.proc q).pid
  | none => if (∃ q, s.parent q = some p) ∧ (s.cs.proc p).killed = false then none else some (-1)

/-! ## Parents -/

/-- What a step can make of the parent of process `q`. -/
inductive ParentTurn (s : Machine n) (e : Event n) (q : ProcSlot) : Option ProcSlot → Prop
  | same : ParentTurn s e q (s.parent q)
  | hatched (c : Fin n) (run : Running) (he : e = .fork c true) (hrun : Runs s c run)
      (h : s.pc run.p = .forkCleared q) : ParentTurn s e q (some run.p)
  | abandoned (c : Fin n) (run : Running) (he : e = .exit c) (hrun : Runs s c run)
      (h : s.parent q = some run.p) : ParentTurn s e q (some initproc)
  | reaped (c : Fin n) (run : Running) (he : e = .wait c) (hrun : Runs s c run)
      (h : s.zombieChild run.p = some q) : ParentTurn s e q none

/-- How process `p` comes to sleep. -/
inductive SleepTurn (s t : Machine n) (e : Event n) (p : ProcSlot) : Prop
  | stays (h : s.state p = .sleeping) (hchan : t.chan p = s.chan p)
  | sleeps (c : Fin n) (ch : Chan) (he : e = .sleep c ch) (hchan : t.chan p = some ch)
  | waits (c : Fin n) (run : Running) (he : e = .wait c) (hrun : Runs s c run) (hp : run.p = p)
      (h : s.zombieChild p = none)

/-- What a step does to parents, sleepers and zombies. -/
structure KinTurn (s t : Machine n) (e : Event n) : Prop where
  parent : ∀ q, ParentTurn s e q (t.parent q)
  sleep : ∀ p, t.state p = .sleeping → SleepTurn s t e p
  zombie : ∀ q, t.state q = .zombie →
    s.state q = .zombie ∨ ∃ c run, e = .exit c ∧ Runs s c run ∧ run.p = q

/-- No process goes to sleep or exits. -/
def Rises (s t : Machine n) : Prop :=
  ∀ p, t.state p = s.state p ∨ t.state p ≠ .sleeping ∧ t.state p ≠ .zombie

variable {s t : Machine n} {p q : ProcSlot} {x : ProcState} {e : Event n} {c : Fin n}

theorem Rises.eq (h : Rises s t) (hx : x = .sleeping ∨ x = .zombie) (hp : t.state p = x) :
    s.state p = x := by
  rcases h p with hsame | ⟨hsleep, hzombie⟩
  · rw [← hsame, hp]
  · rcases hx with rfl | rfl
    · exact absurd hp hsleep
    · exact absurd hp hzombie

theorem rises_woken
    (h : ∀ q, t.state q = s.state q ∨ s.state q = .sleeping ∧ t.state q = .runnable) :
    Rises s t := by
  intro p
  rcases h p with hsame | ⟨-, hrun⟩
  · exact .inl hsame
  · exact .inr (by simp [hrun])

theorem rises_setProc {x : Proc} (ht : t.cs = s.cs.setProc q x)
    (hx : x.state = s.state q ∨ x.state ≠ .sleeping ∧ x.state ≠ .zombie) : Rises s t := by
  intro p
  rw [Machine.state, ht]
  by_cases hp : p = q
  · subst hp
    simpa [State.setProc] using hx
  · exact .inl (by simp [Machine.state, State.setProc, hp])

theorem kinTurn_same (hparent : t.parent = s.parent) (hchan : t.chan = s.chan)
    (hrises : Rises s t) : KinTurn s t e where
  parent q := by
    rw [hparent]
    exact .same
  sleep p hp := .stays (hrises.eq (.inl rfl) hp) (by rw [hchan])
  zombie q hq := .inl (hrises.eq (.inr rfl) hq)

theorem scan_parent (s : Machine n) (c : Fin n) (holder : Option CString) (k : Nat) :
    (s.scan c holder k).parent = s.parent := by
  unfold Machine.scan
  split <;> rfl

theorem scan_sleeping {holder : Option CString} {k : Nat}
    (h : (s.scan c holder k).state p = .sleeping) :
    s.state p = .sleeping ∧ (s.scan c holder k).chan p = s.chan p := by
  unfold Machine.scan at h ⊢
  split
  · next hnone =>
    rw [hnone] at h
    exact ⟨h, rfl⟩
  · next r hr =>
    rw [hr] at h
    have hstate : (s.setState r .running).state p = .sleeping := h
    rw [Machine.state_setState] at hstate
    split at hstate
    · cases hstate
    · next hne => exact ⟨hstate, Function.update_of_ne hne ..⟩

theorem leave_sleeping {run : Running} (h : (s.leave c run x).state p = .sleeping) :
    (p = run.p ∧ x = .sleeping ∨ s.state p = .sleeping) ∧ (s.leave c run x).chan p = s.chan p := by
  obtain ⟨hstate, hchan⟩ := scan_sleeping h
  refine ⟨?_, hchan⟩
  rw [state_offCpu] at hstate
  split at hstate
  · next hp => exact .inl ⟨hp, hstate⟩
  · exact .inr hstate

theorem leave_zombie {run : Running} (h : (s.leave c run x).state q = .zombie) :
    q = run.p ∧ x = .zombie ∨ s.state q = .zombie := by
  by_cases hq : q = run.p
  · subst hq
    rw [Machine.state, leave_proc_self] at h
    exact .inl ⟨rfl, h⟩
  · rcases leave_proc_of_ne s c run x hq with hsame | ⟨-, hrun⟩
    · rw [Machine.state, hsame] at h
      exact .inr h
    · rw [Machine.state, hrun] at h
      cases h

theorem leave_parent (s : Machine n) (c : Fin n) (run : Running) (x : ProcState) :
    (s.leave c run x).parent = s.parent := scan_parent ..

theorem wakeup1_sleeping {ch : Chan} (h : (s.wakeup1 ch).state p = .sleeping) :
    s.state p = .sleeping ∧ s.chan p ≠ some ch := by
  have hstate : (s.woken ch p).state = .sleeping := h
  unfold Machine.woken at hstate
  split at hstate
  · cases hstate
  · next hnot => exact ⟨hstate, fun hchan => hnot ⟨hstate, hchan⟩⟩

theorem wakeParent_sleeping (h : (s.wakeParent p).state q = .sleeping) :
    s.state q = .sleeping ∧ ∀ r, s.parent p = some r → s.chan q ≠ some (.proc r) := by
  unfold Machine.wakeParent at h
  split at h
  · next hnone =>
    refine ⟨h, fun r hr => ?_⟩
    rw [hnone] at hr
    cases hr
  · next r hr =>
    obtain ⟨hstate, hchan⟩ := wakeup1_sleeping h
    refine ⟨hstate, fun r' hr' => ?_⟩
    rw [hr] at hr'
    cases hr'
    exact hchan

theorem abandonChildren_sleeping (h : (s.abandonChildren p).state q = .sleeping) :
    s.state q = .sleeping ∧
      ((∃ r, s.parent r = some p ∧ s.state r = .zombie) → s.chan q ≠ some (.proc initproc)) := by
  unfold Machine.abandonChildren at h
  dsimp only at h
  split at h
  · have hstill : (s.wakeup1 (.proc initproc)).state q = .sleeping := h
    obtain ⟨hstate, hchan⟩ := wakeup1_sleeping hstill
    exact ⟨hstate, fun _ => hchan⟩
  · next hnone => exact ⟨h, fun hsome => absurd hsome hnone⟩

theorem wakeParent_kin (s : Machine n) (p : ProcSlot) :
    (s.wakeParent p).parent = s.parent ∧ (s.wakeParent p).chan = s.chan ∧
      ∀ q, s.state q = .zombie → (s.wakeParent p).state q = .zombie := by
  unfold Machine.wakeParent
  split
  · exact ⟨rfl, rfl, fun _ hq => hq⟩
  · refine ⟨rfl, rfl, fun q hq => ?_⟩
    rcases state_wakeup1 s _ q with hsame | ⟨hsleep, -⟩
    · rw [hsame, hq]
    · rw [hq] at hsleep
      cases hsleep

theorem abandonChildren_kin (s : Machine n) (p : ProcSlot) :
    (s.abandonChildren p).chan = s.chan ∧ ∀ q, (s.abandonChildren p).parent q =
      if s.parent q = some p then some initproc else s.parent q := by
  unfold Machine.abandonChildren
  dsimp only
  split <;> exact ⟨rfl, fun _ => rfl⟩

/-- `exit` passes its children on, and wakes up the parent and, for a zombie child, the first
process. -/
theorem exit_kin (s : Machine n) (c : Fin n) (run : Running) :
    (∀ q, (s.exit c run).parent q = if s.parent q = some run.p then some initproc else s.parent q) ∧
    ∀ p, (s.exit c run).state p = .sleeping →
      s.state p = .sleeping ∧ (s.exit c run).chan p = s.chan p ∧
      (∀ r, s.parent run.p = some r → s.chan p ≠ some (.proc r)) ∧
      ((∃ q, s.parent q = some run.p ∧ s.state q = .zombie) → s.chan p ≠ some (.proc initproc)) := by
  obtain ⟨hparent, hchan, hzombie⟩ := wakeParent_kin s run.p
  obtain ⟨hchan', hparent'⟩ := abandonChildren_kin (s.wakeParent run.p) run.p
  refine ⟨fun q => ?_, fun p hp => ?_⟩
  · rw [Machine.exit, leave_parent]
    exact (hparent' q).trans (by rw [hparent])
  · obtain ⟨⟨-, hx⟩ | hstate, hsame⟩ := leave_sleeping hp
    · cases hx
    · obtain ⟨hawake, hinit⟩ := abandonChildren_sleeping hstate
      obtain ⟨hsleep, hpar⟩ := wakeParent_sleeping hawake
      refine ⟨hsleep, hsame.trans ?_, hpar, ?_⟩
      · exact (congrFun hchan' p).trans (congrFun hchan p)
      · rintro ⟨q, hq, hz⟩
        rw [← hchan]
        exact hinit ⟨q, by rw [hparent]; exact hq, hzombie q hz⟩

theorem kinTurn_leave {u : Machine n} {run : Running} (hparent : u.parent = s.parent)
    (hstate : ∀ p, u.state p = s.state p) (hchan : ∀ p, p ≠ run.p → u.chan p = s.chan p)
    (hx : x ≠ .zombie) (hself : x = .sleeping → (u.leave c run x).chan run.p = u.chan run.p →
      SleepTurn s (u.leave c run x) e run.p) : KinTurn s (u.leave c run x) e where
  parent q := by
    rw [leave_parent, hparent]
    exact .same
  sleep p hp := by
    obtain ⟨hcases, hsame⟩ := leave_sleeping hp
    by_cases hrun : p = run.p
    · subst hrun
      have hsleep : (u.leave c run x).state run.p = x := by rw [Machine.state, leave_proc_self]
      exact hself (hsleep.symm.trans hp) hsame
    · refine .stays ?_ (hsame.trans (hchan p hrun))
      rw [← hstate]
      exact hcases.resolve_left fun h => hrun h.1
  zombie q hq := by
    rcases leave_zombie hq with ⟨-, hzombie⟩ | hzombie
    · exact absurd hzombie hx
    · exact .inl (by rw [← hstate]; exact hzombie)

/-- Every step makes such a turn. -/
theorem kinTurn_step (h : step s e = some t) : KinTurn s t e := by
  cases did h with
  | pass c r holder _ =>
    refine ⟨fun q => ?_, fun p hp => ?_, fun q hq => .inl ?_⟩
    · rw [scan_parent]
      exact .same
    · obtain ⟨hstate, hchan⟩ := scan_sleeping hp
      exact .stays hstate hchan
    · rcases scan_proc s c holder 0 q with hsame | ⟨-, -, hrun⟩
      · rw [Machine.state, hsame] at hq
        exact hq
      · rw [Machine.state, hrun] at hq
        cases hq
  | timer c =>
    exact ticks_cases (P := fun u => KinTurn s u _) (kinTurn_same rfl rfl fun _ => .inl rfl)
      (kinTurn_same rfl rfl (rises_woken (state_wakeup1 s .ticks))) c
  | tick c run _ =>
    exact ticks_cases (P := fun u => KinTurn s (u.tick c run) _)
      (kinTurn_same rfl rfl fun _ => .inl rfl)
      (kinTurn_same rfl rfl (rises_woken (state_wakeup1 s .ticks))) c
  | yield c run _ _ => exact kinTurn_leave rfl (fun _ => rfl) (fun _ _ => rfl) (by simp) (by simp)
  | wakeup ch => exact kinTurn_same rfl rfl (rises_woken (state_wakeup1 s ch))
  | sleep c run ch _ _ =>
    refine kinTurn_leave rfl (fun _ => rfl) (fun p hp => Function.update_of_ne hp ..) (by simp)
      fun _ hchan => .sleeps c ch rfl ?_
    exact hchan.trans (Function.update_self ..)
  | exit c run hrun _ _ =>
    obtain ⟨hparent, hsleep⟩ := exit_kin s c run
    refine ⟨fun q => ?_, fun p hp => ?_, fun q hq => ?_⟩
    · rw [hparent]
      split
      · next hq => exact .abandoned c run rfl hrun hq
      · exact .same
    · obtain ⟨hstate, hchan, -⟩ := hsleep p hp
      exact .stays hstate hchan
    · rcases leave_zombie hq with ⟨hself, -⟩ | hzombie
      · exact .inr ⟨c, run, rfl, hrun, hself.symm⟩
      · rcases exit_wakes s run.p q with hold | ⟨-, hrunnable⟩
        · rw [Machine.setPc_state, Machine.state, hold] at hzombie
          exact .inl hzombie
        · rw [Machine.setPc_state, Machine.state, hrunnable] at hzombie
          cases hzombie
  | reaps c run q hrun hq =>
    have hrises : Rises s (s.reap q) := rises_setProc rfl (.inr (by simp))
    refine ⟨fun r => ?_, fun p hp => .stays (hrises.eq (.inl rfl) hp) rfl,
      fun r hr => .inl (hrises.eq (.inr rfl) hr)⟩
    by_cases hr : r = q
    · subst hr
      have hparent : (s.reap r).parent r = none := Function.update_self ..
      rw [hparent]
      exact .reaped c run rfl hrun hq
    · have hparent : (s.reap q).parent r = s.parent r := Function.update_of_ne hr ..
      rw [hparent]
      exact .same
  | waits c run hrun _ hnone =>
    exact kinTurn_leave rfl (fun _ => rfl) (fun p hp => Function.update_of_ne hp ..) (by simp)
      fun _ _ => .waits c run rfl hrun rfl hnone
  | takes _ _ _ _ _ _ _ => exact kinTurn_same rfl rfl (rises_setProc rfl (.inr (by simp)))
  | clears _ _ _ _ _ => exact kinTurn_same rfl rfl (rises_setProc rfl (.inl rfl))
  | givesUp _ _ _ _ _ => exact kinTurn_same rfl rfl (rises_setProc rfl (.inr (by simp)))
  | hatches c run q hrun hpc =>
    have hrises : Rises s (s.hatch run.p q) := rises_setProc rfl (.inr (by simp))
    refine ⟨fun r => ?_, fun p hp => .stays (hrises.eq (.inl rfl) hp) rfl,
      fun r hr => .inl (hrises.eq (.inr rfl) hr)⟩
    simp only [Machine.hatch]
    by_cases hr : r = q
    · subst hr
      rw [Function.update_self]
      exact .hatched c run rfl hrun hpc
    · rw [Function.update_of_ne hr]
      exact .same
  | loops c run _ _ hloop =>
    cases loop_turn hloop with
    | goes _ _ | resets _ _ _ _ _ _ _ => exact kinTurn_same rfl rfl fun _ => .inl rfl
    | pauses _ _ _ | resumes _ _ _ =>
      exact kinTurn_same rfl rfl (rises_setProc rfl (.inr (by simp)))
    | kills _ _ pid _ _ => exact kinTurn_same rfl rfl (rises_woken (kill_state s.cs run.p pid))
  | calls c run call _ _ _ hcall =>
    cases hcall with
    | kills pid => exact kinTurn_same rfl rfl (rises_woken (kill_state s.cs run.p pid))
    | joins _ _ _ => exact kinTurn_same rfl rfl (rises_setProc rfl (.inl rfl))
    | _ => exact kinTurn_same rfl rfl fun _ => .inl rfl
  | _ => exact kinTurn_same rfl rfl fun _ => .inl rfl

/-- A step that makes a zombie leave that state is the `wait` that found it. -/
theorem zombie_reaped (hs : Inv s)
    (hquiet : ∀ p nm k hit, s.pc p ≠ .pausing nm k hit ∧ s.pc p ≠ .resuming nm k hit)
    (h : step s e = some t) (hq : s.state q = .zombie) (ht : t.state q ≠ .zombie) :
    ∃ c run, e = .wait c ∧ Runs s c run ∧ s.zombieChild run.p = some q ∧ t = s.reap q := by
  have hforked := (hs.slot q).not_forked (by simp [hq]) (by simp [hq])
  have hturn := turn_step h q
  have hreaped (c : Fin n) (he : e = .wait c) :
      ∃ c run, e = .wait c ∧ Runs s c run ∧ s.zombieChild run.p = some q ∧ t = s.reap q := by
    subst he
    cases did h with
    | reaps _ run r hrun hr =>
      have hrq : r = q := by
        by_contra hne
        refine ht ?_
        simpa [Machine.state, Machine.reap, State.setProc, Ne.symm hne] using hq
      subst hrq
      exact ⟨c, run, rfl, hrun, hr, rfl⟩
    | waits _ run hrun _ _ =>
      have hne : q ≠ run.p := by
        rintro rfl
        exact (hs.slot run.p).not_onCpu (by simp [hq]) (by simp [hq]) hrun.onCpu
      refine absurd ?_ ht
      rw [Machine.state]
      rcases leave_proc_of_ne (s.setChan run.p (some (.proc run.p))) c run .sleeping hne with hsame | ⟨hrunnable, -⟩
      · exact (congrArg Proc.state hsame).trans hq
      · exact absurd (hrunnable.symm.trans hq) (by simp)
    | returns _ _ _ _ => exact absurd hq ht
  rw [Machine.state] at ht
  generalize t.cs.proc q = x at hturn ht
  cases hturn with
  | same => exact absurd hq ht
  | woken hsleep =>
    rw [hq] at hsleep
    cases hsleep
  | killed _ =>
    rw [markKilled_state (fun hsleep => by rw [Machine.state] at hq; rw [hq] at hsleep; cases hsleep)] at ht
    exact absurd hq ht
  | dispatched hd => rcases hd with hd | hd <;> rw [hq] at hd <;> cases hd
  | left hon =>
    rcases ((hs.slot q).onCpu hon).1 with h | h <;> rw [hq] at h <;> cases h
  | allocated c ok he hun =>
    rw [hq] at hun
    cases hun
  | cleared c run he hrun hpc => exact absurd hq ht
  | givenUp c run he hrun hf => exact absurd ⟨run.p, hf⟩ hforked
  | hatched c run he hrun hpc => exact absurd ⟨run.p, .inr hpc⟩ hforked
  | paused c run nm he hrun hpc => exact absurd hpc (hquiet run.p nm q true).1
  | resumed c run nm he hrun hpc => exact absurd hpc (hquiet run.p nm q true).2
  | reaped c he hz => exact hreaped c he
  | moved c run vc a he hrun hp ha => exact absurd hq ht

/-! ## The family of processes -/

/-- An event of a machine on which nobody pauses processes and only `wait` sleeps on a process. -/
def Regular : Event n → Prop
  | .sleep _ (.proc _) | .call _ (.pause _) | .call _ (.resume _) => False
  | _ => True

instance (e : Event n) : Decidable (Regular e) := by
  rcases e with _ | _ | _ | _ | ⟨_, _ | _⟩ | _ | _ | _ | _ | ⟨_, _ | _⟩ <;>
    dsimp only [Regular] <;> infer_instance

/-- The process is complete and has not exited. -/
def Alive (s : Machine n) (q : ProcSlot) : Prop :=
  s.state q ≠ .unused ∧ s.state q ≠ .embryo ∧ s.state q ≠ .zombie

/-- Parents are alive, children have parents, and nobody waits for a zombie. -/
structure Kin (s : Machine n) : Prop where
  loops : ∀ p nm k hit, s.pc p ≠ .pausing nm k hit ∧ s.pc p ≠ .resuming nm k hit
  unpaused : ∀ q, s.state q ≠ .pause
  first : Alive s initproc
  root : s.parent initproc = none
  alive : ∀ q p, s.parent q = some p → p ≠ q ∧ Alive s p
  orphan : ∀ q, s.state q = .unused ∨ s.state q = .embryo → s.parent q = none
  child : ∀ q, q ≠ initproc → s.state q ≠ .unused → s.state q ≠ .embryo → s.parent q ≠ none
  waiting : ∀ p q, s.state p = .sleeping → s.chan p = some (.proc p) → s.parent q = some p →
    s.state q ≠ .zombie

theorem Kin.embryo (hk : Kin s) (hs : Inv s) (h : Forked s q) : s.state q = .embryo :=
  ((hs.slot q).forked h).resolve_right (hk.unpaused q)

theorem Kin.running (hk : Kin s) (hs : Inv s) {run : Running} (h : Runs s c run) :
    s.state run.p = .running :=
  ((hs.slot run.p).onCpu h.onCpu).1.resolve_right (hk.unpaused run.p)

theorem exit_eq {run : Running} (hrun : Runs s c run) (h : step s (.exit c) = some t) :
    run.p ≠ initproc ∧ t = s.exit c run := by
  cases did h with
  | exit _ run' hrun' _ hinit =>
    obtain rfl : run' = run := Option.some.inj (hrun'.cpu.symm.trans hrun.cpu)
    exact ⟨hinit, rfl⟩

section Step

variable {s t : Machine n} {e : Event n} (hs : Inv s) (hk : Kin s) (h : step s e = some t)
include h

theorem loops_step (hk : Kin s) (he : Regular e) (p : ProcSlot) (nm : CString) (k : Nat) (hit : Bool) :
    t.pc p ≠ .pausing nm k hit ∧ t.pc p ≠ .resuming nm k hit := by
  have hno {x : Pc} (heq : t.pc p = x) (h1 : x ≠ .pausing nm k hit) (h2 : x ≠ .resuming nm k hit) :
      t.pc p ≠ .pausing nm k hit ∧ t.pc p ≠ .resuming nm k hit := by
    rw [heq]
    exact ⟨h1, h2⟩
  cases pcTurn_step h p with
  | same heq =>
    rw [heq]
    exact hk.loops p nm k hit
  | forkOver heq _ | renewed heq _ _ | exits heq _ | forkEnters heq _ | allocates _ heq _ _ _
  | clears _ heq _ => exact hno heq (by simp) (by simp)
  | enters c run call hcall _ _ _ henter =>
    rcases henter with ⟨_, _, _, heq⟩ | ⟨_, rfl, heq⟩ | ⟨_, rfl, heq⟩
    · exact hno heq (by simp) (by simp)
    · rw [hcall] at he
      exact he.elim
    · rw [hcall] at he
      exact he.elim
  | loops c run _ _ _ hloop =>
    have hnext := loop_next hloop
    rcases loop_stays hloop with ⟨nm', j, hit', hpc, -⟩ | ⟨nm', j, hit', hpc, -⟩ |
      ⟨target, j, stage, hpc, -⟩
    · exact absurd hpc (hk.loops p nm' j hit').1
    · exact absurd hpc (hk.loops p nm' j hit').2
    · rw [hpc] at hnext
      rcases hnext with heq | ⟨_, _, heq, _⟩ <;> exact hno heq (by simp) (by simp)

include hs hk

variable {q p : ProcSlot}

/-- A slot is free or half created if it was so before, or was just reaped. -/
theorem dormant_step (hq : t.state q = .unused ∨ t.state q = .embryo) :
    (s.state q = .unused ∨ s.state q = .embryo) ∨ s.state q = .zombie ∧ t = s.reap q := by
  by_cases hzombie : s.state q = .zombie
  · have hne : t.state q ≠ .zombie := by rcases hq with hq | hq <;> rw [hq] <;> simp
    obtain ⟨c, run, -, -, -, ht⟩ := zombie_reaped hs hk.loops h hzombie hne
    exact .inr ⟨hzombie, ht⟩
  · refine .inl ?_
    have hturn := turn_step h q
    simp only [Machine.state] at hq hzombie ⊢
    generalize t.cs.proc q = x at hturn hq
    cases hturn with
    | same | cleared _ _ _ _ _ | moved _ _ _ _ _ _ _ _ => exact hq
    | killed _ =>
      simp only [markKilled] at hq
      split at hq
      · simp at hq
      · exact hq
    | allocated _ _ _ hun => exact .inl hun
    | givenUp _ run _ _ hf => exact .inr (hk.embryo hs ⟨run.p, hf⟩)
    | left _ x hx => rcases hx with rfl | rfl | rfl <;> simp at hq
    | reaped _ _ hz => exact absurd hz hzombie
    | _ => simp at hq

/-- A slot that is neither was neither before, or holds a process that was just completed. -/
theorem awake_step (hq : t.state q ≠ .unused ∧ t.state q ≠ .embryo) :
    (s.state q ≠ .unused ∧ s.state q ≠ .embryo) ∨
      ∃ c run, e = .fork c true ∧ Runs s c run ∧ s.pc run.p = .forkCleared q := by
  have hturn := turn_step h q
  simp only [Machine.state] at hq ⊢
  generalize t.cs.proc q = x at hturn hq
  cases hturn with
  | same | cleared _ _ _ _ _ | moved _ _ _ _ _ _ _ _ => exact .inl hq
  | woken hsleep =>
    rw [Machine.state] at hsleep
    exact .inl (by simp [hsleep])
  | killed _ =>
    simp only [markKilled] at hq
    split at hq
    · next hsleep => exact .inl (by simp [hsleep])
    · exact .inl hq
  | dispatched hd =>
    rw [Machine.state] at hd
    rcases hd with hd | hd <;> exact .inl (by simp [hd])
  | left hon =>
    have hrun := ((hs.slot q).onCpu hon).1.resolve_right (hk.unpaused q)
    rw [Machine.state] at hrun
    exact .inl (by simp [hrun])
  | hatched c run he hrun hpc => exact .inr ⟨c, run, he, hrun, hpc⟩
  | paused _ run nm _ _ hpc => exact absurd hpc (hk.loops run.p nm q true).1
  | resumed _ run nm _ _ hpc => exact absurd hpc (hk.loops run.p nm q true).2
  | allocated _ _ _ _ => simp at hq
  | givenUp _ _ _ _ _ => simp at hq
  | reaped _ _ _ => simp at hq

omit hs in
theorem unpaused_step (q : ProcSlot) : t.state q ≠ .pause := by
  have hold := hk.unpaused q
  have hturn := turn_step h q
  simp only [Machine.state] at hold ⊢
  generalize t.cs.proc q = x at hturn
  cases hturn with
  | same | cleared _ _ _ _ _ | moved _ _ _ _ _ _ _ _ => exact hold
  | killed _ =>
    simp only [markKilled]
    split
    · simp
    · exact hold
  | left _ x hx => rcases hx with rfl | rfl | rfl <;> simp
  | paused _ run nm _ _ hpc => exact absurd hpc (hk.loops run.p nm q true).1
  | _ => simp

/-- A process that is alive stays so until it calls `exit`. -/
theorem alive_step (hp : Alive s p) :
    Alive t p ∨ ∃ c run, e = .exit c ∧ Runs s c run ∧ run.p = p := by
  by_cases hzombie : t.state p = .zombie
  · exact .inr (((kinTurn_step h).zombie p hzombie).resolve_left hp.2.2)
  · left
    by_cases hdormant : t.state p = .unused ∨ t.state p = .embryo
    · rcases dormant_step hs hk h hdormant with (hun | hem) | ⟨hz, -⟩
      · exact absurd hun hp.1
      · exact absurd hem hp.2.1
      · exact absurd hz hp.2.2
    · exact ⟨fun hun => hdormant (.inl hun), fun hem => hdormant (.inr hem), hzombie⟩

theorem first_step : Alive t initproc := by
  rcases alive_step hs hk h hk.first with halive | ⟨c, run, rfl, hrun, hp⟩
  · exact halive
  · exact absurd hp (exit_eq hrun h).1

theorem root_step : t.parent initproc = none := by
  have hturn := (kinTurn_step h).parent initproc
  generalize t.parent initproc = x at hturn
  cases hturn with
  | same => exact hk.root
  | hatched c run _ _ hpc => exact absurd (hk.embryo hs ⟨run.p, .inr hpc⟩) hk.first.2.1
  | abandoned c run _ _ hpar =>
    rw [hk.root] at hpar
    cases hpar
  | reaped _ _ _ _ _ => rfl

theorem parent_step (hq : t.parent q = some p) : p ≠ q ∧ Alive t p := by
  have hturn := (kinTurn_step h).parent q
  rw [hq] at hturn
  generalize hx : some p = x at hturn
  cases hturn with
  | same =>
    obtain ⟨hne, halive⟩ := hk.alive q p hx.symm
    rcases alive_step hs hk h halive with halive | ⟨c, run, rfl, hrun, rfl⟩
    · exact ⟨hne, halive⟩
    · -- The children of a process that exits go to the first process.
      obtain ⟨hinit, rfl⟩ := exit_eq hrun h
      rw [(exit_kin s c run).1, if_pos hx.symm] at hq
      exact absurd (Option.some.inj hq).symm hinit
  | hatched c run he hrun hpc =>
    cases hx
    have hrunning := hk.running hs hrun
    refine ⟨fun heq => ?_, ?_⟩
    · have hembryo := hk.embryo hs ⟨run.p, .inr hpc⟩
      rw [← heq, hrunning] at hembryo
      cases hembryo
    · rcases alive_step hs hk h (p := run.p) (by simp [Alive, hrunning]) with halive | ⟨d, _, hd, _⟩
      · exact halive
      · rw [he] at hd
        cases hd
  | abandoned c run _ _ hpar =>
    cases hx
    refine ⟨fun heq => ?_, first_step hs hk h⟩
    rw [← heq, hk.root] at hpar
    cases hpar
  | reaped _ _ _ _ _ => cases hx

theorem orphan_step (hq : t.state q = .unused ∨ t.state q = .embryo) : t.parent q = none := by
  rcases dormant_step hs hk h hq with hold | ⟨-, rfl⟩
  · have hnone := hk.orphan q hold
    have hturn := (kinTurn_step h).parent q
    generalize hx : t.parent q = x at hturn
    cases hturn with
    | same => exact hnone
    | hatched c run he hrun hpc =>
      subst he
      rw [fork_hatch hrun hpc h] at hq
      simp [Machine.hatch, Machine.state, State.setProc] at hq
    | abandoned c run _ _ hpar =>
      rw [hnone] at hpar
      cases hpar
    | reaped _ _ _ _ _ => rfl
  · exact Function.update_self ..

theorem child_step (hne : q ≠ initproc) (hq : t.state q ≠ .unused ∧ t.state q ≠ .embryo) :
    t.parent q ≠ none := by
  have hturn := (kinTurn_step h).parent q
  rcases awake_step hs hk h hq with ⟨hun, hem⟩ | ⟨c, run, rfl, hrun, hpc⟩
  · generalize hx : t.parent q = x at hturn
    cases hturn with
    | same => exact hk.child q hne hun hem
    | hatched _ _ _ _ _ => simp
    | abandoned _ _ _ _ _ => simp
    | reaped c run he hrun hz =>
      subst he
      have hsame {run' : Running} (h : Runs s c run') : run' = run :=
        Option.some.inj (h.cpu.symm.trans hrun.cpu)
      cases did h with
      | reaps _ run' r hrun' hr =>
        obtain rfl := hsame hrun'
        obtain rfl : r = q := Option.some.inj (hr.symm.trans hz)
        simp [Machine.reap, Machine.state, State.setProc] at hq
      | waits _ run' hrun' _ hnone =>
        obtain rfl := hsame hrun'
        cases hz.symm.trans hnone
      | returns _ run' hrun' hnone =>
        obtain rfl := hsame hrun'
        cases hz.symm.trans hnone
  · rw [fork_hatch hrun hpc h]
    simp [Machine.hatch]

/-- Nobody goes to sleep in `wait` with a zombie child, and a new zombie wakes its parent up. -/
theorem waiting_step (he : Regular e) (hp : t.state p = .sleeping)
    (hchan : t.chan p = some (.proc p)) (hpar : t.parent q = some p) : t.state q ≠ .zombie := by
  intro hzombie
  have hkin := kinTurn_step h
  have hold := hkin.zombie q hzombie
  have hturn := hkin.parent q
  rw [hpar] at hturn
  generalize hx : some p = x at hturn
  cases hkin.sleep p hp with
  | sleeps c ch hsleep hch =>
    rw [hch] at hchan
    cases hchan
    rw [hsleep] at he
    exact he.elim
  | waits c run hwait _ _ hnone =>
    subst hwait
    have hz : s.state q = .zombie := hold.resolve_right fun ⟨_, _, hexit, _⟩ => by cases hexit
    cases hturn with
    | same => exact zombieChild_eq_none hnone q hx.symm hz
    | hatched _ _ hfork _ _ => cases hfork
    | abandoned _ _ hexit _ _ => cases hexit
    | reaped _ _ _ _ _ => cases hx
  | stays hsleep hsame =>
    rw [hsame] at hchan
    rcases hold with hz | ⟨c, run, rfl, hrun, rfl⟩
    · cases hturn with
      | same => exact hk.waiting p q hsleep hchan hx.symm hz
      | hatched c run _ _ hpc =>
        have hembryo := hk.embryo hs ⟨run.p, .inr hpc⟩
        rw [hz] at hembryo
        cases hembryo
      | abandoned c run hexit hrun hchild =>
        subst hexit
        obtain ⟨-, rfl⟩ := exit_eq hrun h
        cases hx
        exact ((exit_kin s c run).2 initproc hp).2.2.2 ⟨q, hchild, hz⟩ hchan
      | reaped _ _ _ _ _ => cases hx
    · obtain ⟨-, rfl⟩ := exit_eq hrun h
      rw [(exit_kin s c run).1] at hpar
      split at hpar
      · next hself => exact (hk.alive run.p run.p hself).1 rfl
      · exact ((exit_kin s c run).2 p hp).2.2.1 p hpar hchan

theorem kin_step (he : Regular e) : Kin t where
  loops := loops_step h hk he
  unpaused := unpaused_step hk h
  first := first_step hs hk h
  root := root_step hs hk h
  alive _ _ := parent_step hs hk h
  orphan _ := orphan_step hs hk h
  child _ hne hun hem := child_step hs hk h hne ⟨hun, hem⟩
  waiting _ _ := waiting_step hs hk h he

/-- A parent changes only by an `exit` of the parent or when the process is reaped. -/
theorem parent_changes (hq : s.parent q = some p) :
    t.parent q = some p ∨
      (∃ c run, e = .exit c ∧ Runs s c run ∧ run.p = p ∧ t.parent q = some initproc) ∨
      ∃ c run, e = .wait c ∧ Runs s c run ∧ run.p = p ∧ s.state q = .zombie := by
  have hturn := (kinTurn_step h).parent q
  generalize t.parent q = x at hturn
  cases hturn with
  | same => exact .inl hq
  | hatched c run _ _ hpc =>
    rw [hk.orphan q (.inr (hk.embryo hs ⟨run.p, .inr hpc⟩))] at hq
    cases hq
  | abandoned c run he hrun hpar =>
    exact .inr (.inl ⟨c, run, he, hrun, Option.some.inj (hpar.symm.trans hq), rfl⟩)
  | reaped c run he hrun hz =>
    obtain ⟨hpar, hzombie⟩ := zombieChild_eq_some hz
    exact .inr (.inr ⟨c, run, he, hrun, Option.some.inj (hpar.symm.trans hq), hzombie⟩)

end Step

/-! ## Runs -/

/-- A machine, the number of forks so far and the process numbers that `wait` has returned. -/
structure History (n : Nat) where
  m : Machine n
  forks : Nat
  returned : List Int

/-- The step calls `allocproc`. -/
def Allocates (s : Machine n) : Event n → Prop
  | .fork c _ => s.at c = some .forkEntered
  | _ => False

instance (s : Machine n) (e : Event n) : Decidable (Allocates s e) := by
  rcases e with _ | _ <;> dsimp only [Allocates] <;> infer_instance

/-- The process number that a `wait` of this step returns. -/
def collected (s : Machine n) : Event n → Option Int
  | .wait c => ((s.cpu c).bind fun run => s.waitResult run.p).filter fun r => r ≠ -1
  | _ => none

def History.after (w : History n) (e : Event n) (t : Machine n) : History n where
  m := t
  forks := if Allocates w.m e then w.forks + 1 else w.forks
  returned := (collected w.m e).toList ++ w.returned

def record (w : History n) (e : Event n) : Option (History n) := (step w.m e).map (w.after e)

/-- What `userinit` leaves. -/
structure Booted (s : Machine n) : Prop where
  boot : Boot s
  first : s.state initproc = .runnable
  others : ∀ q, q ≠ initproc → s.state q = .unused
  parent : ∀ q, s.parent q = none
  firstPid : (s.cs.proc initproc).pid = 1
  pids : ∀ q, q ≠ initproc → (s.cs.proc q).pid = 0
  nextpid : s.nextpid = 2

/-- What holds along every run. -/
structure Recorded (w : History n) : Prop where
  inv : Inv w.m
  kin : Kin w.m
  pids : PidsOk w.m
  numbered : ∀ q, w.m.state q ≠ .unused → (w.m.cs.proc q).pid ≠ 0
  bound : w.m.nextpid ≤ w.forks + 2
  returned : ∀ r ∈ w.returned, 0 < r ∧ r < w.m.nextpid ∧ ∀ q, (w.m.cs.proc q).pid ≠ r
  once : w.returned.Nodup

theorem nextpid_kept (k : Int) :
    Keeps (n := n) (fun s e => ¬ Allocates s e) fun s => s.nextpid = k where
  wakeup _ _ h := h
  dispatch _ _ _ _ h _ _ := h
  tick _ _ _ h _ := h
  yield _ _ _ h _ := h
  sleep _ _ _ _ h _ := h
  parents _ _ h := h
  exit _ _ _ h _ _ := h
  reap _ _ h _ := h
  goes _ _ _ _ h _ _ := h
  take s c run ok q h hno hrun hpc _ := absurd (by rw [Allocates, hrun.at, hpc]) hno
  clear _ _ _ _ h _ _ := h
  giveUp _ _ _ _ h _ _ := h
  hatch _ _ _ _ h _ _ := h
  pauses _ _ h := h
  resumes _ _ _ _ _ h _ _ _ := h
  kills _ _ _ h := h
  joins _ _ _ h := h
  table _ _ h := h
  store _ _ h := h

variable {s : Machine n} {e : Event n}

theorem nextpid_le {t : Machine n} (h : step s e = some t) :
    t.nextpid ≤ s.nextpid + if Allocates s e then 1 else 0 := by
  split
  · next halloc =>
    cases e with
    | fork c ok =>
      obtain ⟨run, hrun, h⟩ := current_eq_some h
      rw [Allocates, hrun.at] at halloc
      rw [Machine.fork, Option.some.inj halloc] at h
      cases h
      unfold Machine.alloc
      split
      · simp [Machine.setPc]
      · exact le_refl _
    | _ => exact halloc.elim
  · next hno => exact ((nextpid_kept s.nextpid).step rfl hno h).le.trans (by simp)

theorem collected_eq_some {t : Machine n} {r : Int} (h : step s e = some t)
    (hr : collected s e = some r) :
    ∃ q, s.state q = .zombie ∧ r = (s.cs.proc q).pid ∧ t = s.reap q := by
  cases e with
  | wait c =>
    obtain ⟨hres, hne⟩ := Option.filter_eq_some_iff.mp hr
    have hnone {run : Running} (hrun : Runs s c run) (hnone : s.zombieChild run.p = none) : False := by
      rw [hrun.cpu, Option.bind_some, Machine.waitResult, hnone] at hres
      dsimp only at hres
      split at hres
      · cases hres
      · cases hres
        simp at hne
    cases did h with
    | reaps _ run q hrun hq =>
      rw [hrun.cpu, Option.bind_some, Machine.waitResult, hq] at hres
      exact ⟨q, (zombieChild_eq_some hq).2, (Option.some.inj hres).symm, rfl⟩
    | waits _ run hrun _ hn => exact (hnone hrun hn).elim
    | returns _ run hrun hn => exact (hnone hrun hn).elim
  | _ => cases hr

theorem recorded_boot (h : Booted s) : Recorded ⟨s, 0, []⟩ where
  inv := inv_boot h.boot
  kin := by
    have hother {q : ProcSlot} (hq : s.state q ≠ .unused) : q = initproc := by
      by_contra hne
      exact hq (h.others q hne)
    refine ⟨fun p nm k hit => ?_, fun q hq => ?_, ?_, h.parent initproc, fun q p hp => ?_,
      fun q _ => h.parent q, fun q hne hun => ?_, fun p q _ _ hp => ?_⟩
    · simp [(h.boot.2 p).1]
    · rcases (h.boot.2 q).2 with hstate | hstate <;> rw [hstate] at hq <;> cases hq
    · simp [Alive, h.first]
    · rw [h.parent q] at hp
      cases hp
    · exact absurd (hother hun) hne
    · rw [h.parent q] at hp
      cases hp
  pids := by
    refine ⟨by rw [h.nextpid]; decide, fun q => ?_, fun q r heq hne => ?_⟩
    · rw [h.nextpid]
      by_cases hq : q = initproc
      · rw [hq, h.firstPid]
        decide
      · rw [h.pids q hq]
        decide
    · have hfirst (q : ProcSlot) (hq : (s.cs.proc q).pid ≠ 0) : q = initproc := by
        by_contra hne
        exact hq (h.pids q hne)
      rw [hfirst q hne, hfirst r (heq ▸ hne)]
  numbered q hq := by
    have hfirst : q = initproc := by
      by_contra hne
      exact hq (h.others q hne)
    rw [hfirst, h.firstPid]
    decide
  bound := by
    rw [h.nextpid]
    rfl
  returned := nofun
  once := List.nodup_nil

theorem numbered_step {t : Machine n} (hs : Inv s) (hk : Kin s) (hpids : PidsOk s)
    (hnum : ∀ q, s.state q ≠ .unused → (s.cs.proc q).pid ≠ 0) (h : step s e = some t)
    (q : ProcSlot) (hq : t.state q ≠ .unused) : (t.cs.proc q).pid ≠ 0 := by
  have hold := hnum q
  have hturn := turn_step h q
  simp only [Machine.state] at hq hold
  generalize t.cs.proc q = x at hturn hq
  cases hturn with
  | same | cleared _ _ _ _ _ | moved _ _ _ _ _ _ _ _ => exact hold hq
  | woken hsleep | dispatched hsleep =>
    simp only [Machine.state] at hsleep
    refine hold fun hun => ?_
    simp [hun] at hsleep
  | killed _ =>
    refine hold fun hun => hq ?_
    rw [markKilled_state (by simp [hun]), hun]
  | left hon =>
    have hrun := ((hs.slot q).onCpu hon).1.resolve_right (hk.unpaused q)
    rw [Machine.state] at hrun
    exact hold (by simp [hrun])
  | allocated _ _ _ _ => exact hpids.next.ne'
  | hatched _ run _ _ hpc =>
    have hembryo := hk.embryo hs ⟨run.p, .inr hpc⟩
    rw [Machine.state] at hembryo
    exact hold (by simp [hembryo])
  | paused _ run nm _ _ hpc => exact absurd hpc (hk.loops run.p nm q true).1
  | resumed _ run nm _ _ hpc => exact absurd hpc (hk.loops run.p nm q true).2
  | givenUp _ _ _ _ _ | reaped _ _ _ => simp at hq

theorem recorded_step (w : History n) (e : Event n) (w' : History n) (hw : Recorded w) (he : Regular e)
    (h : record w e = some w') : Recorded w' := by
  obtain ⟨t, ht, rfl⟩ := Option.map_eq_some_iff.mp h
  have hres : ResumeOk w.m e := by
    unfold ResumeOk resumes
    split
    · intro q hq
      split at hq
      · cases hq
      · split at hq
        · next run _ _ nm k hpc => exact absurd hpc (hw.kin.loops run.p nm k true).2
        · cases hq
    · trivial
  obtain ⟨hpids, hmono⟩ := pids_step hw.pids ht
  have hold {r : Int} (hr : 0 < r ∧ r < w.m.nextpid ∧ ∀ q, (w.m.cs.proc q).pid ≠ r) :
      0 < r ∧ r < t.nextpid ∧ ∀ q, (t.cs.proc q).pid ≠ r := by
    obtain ⟨hpos, hlt, hfree⟩ := hr
    refine ⟨hpos, hlt.trans_le hmono, fun q hq => ?_⟩
    rcases pid_step ht q with hsame | ⟨hnew, -⟩ | ⟨hzero, -⟩
    · exact hfree q (hsame.symm.trans hq)
    · omega
    · omega
  refine ⟨keeps_inv.step hw.inv hres ht, kin_step hw.inv hw.kin ht he, hpids,
    numbered_step hw.inv hw.kin hw.pids hw.numbered ht, ?_, fun r hr => ?_, ?_⟩
  · have hnext := nextpid_le ht
    have hbound := hw.bound
    dsimp only [History.after]
    split <;> simp_all <;> omega
  · rcases List.mem_append.mp hr with hr | hr
    · obtain ⟨q, hz, rfl, rfl⟩ := collected_eq_some ht (Option.mem_toList.mp hr)
      have hnum := hw.numbered q (by rw [hz]; simp)
      obtain ⟨hlo, hhi⟩ := hw.pids.range q
      refine ⟨by omega, hhi, fun r hr => ?_⟩
      by_cases hrq : r = q
      · subst hrq
        simp [History.after, Machine.reap, State.setProc] at hr
        omega
      · simp only [History.after, Machine.reap, State.setProc, Function.update_of_ne hrq] at hr
        exact hrq (hw.pids.distinct r q hr (by omega))
    · exact hold (hw.returned r hr)
  · cases hc : collected w.m e with
    | none => simpa [History.after, hc] using hw.once
    | some r =>
      obtain ⟨q, -, hr, -⟩ := collected_eq_some ht hc
      have hnew : r ∉ w.returned := fun hmem => (hw.returned r hmem).2.2 q hr.symm
      simpa [History.after, hc] using ⟨hnew, hw.once⟩

/-- The number of a process as an `int`. -/
def intPid (x : Int) : Int := toSigned (word x)

theorem intPid_inj {x y : Int} (hx : 0 < x ∧ x ≤ 2147483648) (hy : 0 < y ∧ y ≤ 2147483648)
    (h : intPid x = intPid y) : x = y := by
  unfold intPid toSigned word at h
  split at h <;> split at h <;> omega

/-- In every run without `pause` and `resume` and with fewer than `2^31` forks: process numbers
are distinct, parents are alive, nobody sleeps in `wait` with a zombie child; a zombie is taken
only by a `wait` of its parent, which returns its number; a parent changes only to the first
process and when the parent exits; each number is returned once; and `wait` returns `-1` only
without children or when killed. -/
theorem wait_protocol {s : Machine n} {es : List (Event n)} {w : History n} (hboot : Booted s)
    (hregular : ∀ e ∈ es, Regular e) (hrun : run record ⟨s, 0, []⟩ es = some w)
    (hforks : w.forks < 2147483648) :
    (∀ q r, w.m.state q ≠ .unused → w.m.state r ≠ .unused →
      intPid (w.m.cs.proc q).pid = intPid (w.m.cs.proc r).pid → q = r) ∧
    (∀ q, q ≠ initproc → w.m.state q ≠ .unused → w.m.state q ≠ .embryo →
      ∃ p, w.m.parent q = some p ∧ w.m.state p ≠ .unused ∧ w.m.state p ≠ .zombie) ∧
    (∀ p q, w.m.state p = .sleeping → w.m.chan p = some (.proc p) → w.m.parent q = some p →
      w.m.state q ≠ .zombie) ∧
    (∀ e t q, step w.m e = some t → w.m.state q = .zombie → t.state q ≠ .zombie →
      ∃ c run, e = .wait c ∧ Runs w.m c run ∧ w.m.parent q = some run.p ∧
        w.m.waitResult run.p = some (w.m.cs.proc q).pid) ∧
    (∀ e t q p, step w.m e = some t → w.m.parent q = some p → t.parent q = some p ∨
      (∃ c run, e = .exit c ∧ Runs w.m c run ∧ run.p = p ∧ t.parent q = some initproc) ∨
      ∃ c run, e = .wait c ∧ Runs w.m c run ∧ run.p = p ∧ w.m.state q = .zombie) ∧
    (w.returned.map intPid).Nodup ∧
    ∀ p, w.m.waitResult p = some (-1) →
      (∀ q, w.m.parent q ≠ some p) ∨ (w.m.cs.proc p).killed = true := by
  have hw := run_invariant (C := fun _ e => Regular e) (fun w e w' => recorded_step w e w')
    (recorded_boot hboot) (always_of_mem hregular) hrun
  have hbound := hw.bound
  have hrange (q : ProcSlot) (hq : w.m.state q ≠ .unused) :
      0 < (w.m.cs.proc q).pid ∧ (w.m.cs.proc q).pid ≤ 2147483648 := by
    have hnum := hw.numbered q hq
    have hle := hw.pids.range q
    omega
  refine ⟨fun q r hq hr heq => ?_, fun q hne hun hem => ?_, hw.kin.waiting,
    fun e t q ht hq htq => ?_, fun e t q p ht hq => parent_changes hw.inv hw.kin ht hq, ?_,
    fun p hp => ?_⟩
  · exact hw.pids.distinct q r (intPid_inj (hrange q hq) (hrange r hr) heq) (hw.numbered q hq)
  · obtain ⟨p, hp⟩ := Option.ne_none_iff_exists'.mp (hw.kin.child q hne hun hem)
    have halive := (hw.kin.alive q p hp).2
    exact ⟨p, hp, halive.1, halive.2.2⟩
  · obtain ⟨c, run, he, hruns, hz, -⟩ := zombie_reaped hw.inv hw.kin.loops ht hq htq
    refine ⟨c, run, he, hruns, (zombieChild_eq_some hz).1, ?_⟩
    rw [Machine.waitResult, hz]
  · refine hw.once.map_on fun x hx y hy => intPid_inj ?_ ?_
    · have hle := hw.returned x hx
      omega
    · have hle := hw.returned y hy
      omega
  · unfold Machine.waitResult at hp
    split at hp
    · next q hz =>
      obtain ⟨-, hzombie⟩ := zombieChild_eq_some hz
      have hpos := hrange q (by rw [hzombie]; simp)
      have hval := Option.some.inj hp
      omega
    · split at hp
      · cases hp
      · next hnot =>
        by_cases hkids : ∃ q, w.m.parent q = some p
        · exact .inr (by simpa using fun hkilled => hnot ⟨hkids, hkilled⟩)
        · exact .inl fun q hq => hkids ⟨q, hq⟩

theorem bootMachine_booted : Booted bootMachine where
  boot := by
    unfold Boot
    decide +kernel
  first := by decide
  others := by decide +kernel
  parent _ := rfl
  firstPid := by decide
  pids := by decide +kernel
  nextpid := rfl

/-- The first process forks and waits for a child, which exits. -/
def forkAndWait : List (Event 1) :=
  [.pass 0 1, .fork 0 true, .fork 0 true, .fork 0 true, .fork 0 true, .wait 0, .exit 0, .pass 0 1, .wait 0]

theorem wait_protocol_forkAndWait :
    ∃ w, run record ⟨bootMachine, 0, []⟩ forkAndWait = some w ∧ w.forks = 1 ∧ w.returned = [2] ∧
      (w.returned.map intPid).Nodup := by
  obtain ⟨w, hw, hlook⟩ := Option.map_eq_some_iff.mp (by decide +kernel :
    (run record ⟨bootMachine, 0, []⟩ forkAndWait).map (fun w => (w.forks, w.returned)) =
      some (1, [2]))
  simp only [Prod.mk.injEq] at hlook
  have hall := wait_protocol bootMachine_booted (by decide) hw (by rw [hlook.1]; decide)
  exact ⟨w, hw, hlook.1, hlook.2, hall.2.2.2.2.2.1⟩

end Process

end Xv6Containers
