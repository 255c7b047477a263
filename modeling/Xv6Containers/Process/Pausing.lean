import Xv6Containers.Process.Numbers

/-!
# Pausing and resuming a container

Between the return of `pause(name)` and the next `resume(name)` no process of
that container runs, and `resume` gives back every process that `pause` found,
as long as `pause` does not hit a process on a CPU and nobody moves processes or
names across the loops of `pause` and `resume`.

## Implementation notes

`Watch` is a machine with what has to be remembered about one name: whether it
is paused, the processes that were there when `pause` was called, and the wakeups
that passed over a paused process.
-/

namespace Xv6Containers

open Lib.Memory Lib.Strings Lib.Search Lib.Runs

namespace Process

open Container

variable {n : Nat}

/-- The container of process `q` has the name `nm`. -/
def Member (s : Machine n) (nm : CString) (q : ProcSlot) : Prop :=
  ∃ a, (s.cs.proc q).cont = some a ∧ name s.cs.table a = nm

instance (s : Machine n) (nm : CString) (q : ProcSlot) : Decidable (Member s nm q) := by
  unfold Member
  infer_instance

/-- Slot `q` holds a complete process that has not exited. -/
def Present (s : Machine n) (q : ProcSlot) : Prop :=
  (s.cs.proc q).pid ≠ 0 ∧ s.state q ∉ [.unused, .embryo, .zombie] ∧ s.pc q ≠ .exited ∧ ¬ Forked s q

instance (s : Machine n) (q : ProcSlot) : Decidable (Present s q) := by
  unfold Present
  infer_instance

/-- In the loop of `pause(nm)`, at process `k` or behind. -/
def Pc.pauses (nm : CString) (k : Nat) : Pc → Prop
  | .pausing nm' j _ => nm' = nm ∧ k ≤ j
  | _ => False

instance (nm : CString) (k : Nat) (x : Pc) : Decidable (x.pauses nm k) := by
  unfold Pc.pauses
  split <;> infer_instance

/-- In the loop of `resume(nm)`, at process `k` or behind. -/
def Pc.resumes (nm : CString) (k : Nat) : Pc → Prop
  | .resuming nm' j _ => nm' = nm ∧ k ≤ j
  | _ => False

instance (nm : CString) (k : Nat) (x : Pc) : Decidable (x.resumes nm k) := by
  unfold Pc.resumes
  split <;> infer_instance

/-! ## What is remembered -/

structure Watch (n : Nat) where
  m : Machine n
  frozen : Bool
  victim : ProcSlot → Option Int
  missed : ProcSlot → Bool

/-- `pause(nm)` is called. -/
def pauseCalled (nm : CString) : Event n → Prop
  | .call _ (.pause nm') => nm' = nm
  | _ => False

instance (nm : CString) (e : Event n) : Decidable (pauseCalled nm e) := by
  rcases e with _ | _ | _ | _ | _ | _ | _ | _ | _ | ⟨_, _ | _⟩ <;> dsimp only [pauseCalled] <;> infer_instance

/-- `resume(nm)` is called. -/
def resumeCalled (nm : CString) : Event n → Prop
  | .call _ (.resume nm') => nm' = nm
  | _ => False

instance (nm : CString) (e : Event n) : Decidable (resumeCalled nm e) := by
  rcases e with _ | _ | _ | _ | _ | _ | _ | _ | _ | ⟨_, _ | _⟩ <;> dsimp only [resumeCalled] <;> infer_instance

/-- A property of the value, if there is one. -/
def decidableExistsSome {α : Type} {p : α → Prop} [DecidablePred p] :
    (o : Option α) → Decidable (∃ x, o = some x ∧ p x)
  | none => isFalse (by simp)
  | some x => decidable_of_iff (p x) (by simp)

/-- `pause(nm)` returns. -/
def pauseReturns (nm : CString) (s : Machine n) : Event n → Prop
  | .loop c => ∃ x, s.at c = some x ∧ x.pauses nm nproc
  | _ => False

instance (nm : CString) (s : Machine n) (e : Event n) : Decidable (pauseReturns nm s e) := by
  rcases e with _ | _ <;> first | exact instDecidableFalse | exact decidableExistsSome _

/-- `resume(nm)` returns. -/
def resumeReturns (nm : CString) (s : Machine n) : Event n → Prop
  | .loop c => ∃ x, s.at c = some x ∧ x.resumes nm nproc
  | _ => False

instance (nm : CString) (s : Machine n) (e : Event n) : Decidable (resumeReturns nm s e) := by
  rcases e with _ | _ <;> first | exact instDecidableFalse | exact decidableExistsSome _

/-- The step wakes up those that sleep on `ch`. -/
def Wakes (s : Machine n) (ch : Chan) : Event n → Prop
  | .wakeup ch' => ch' = ch
  | .timer c => c.val = 0 ∧ ch = .ticks
  | .exit c =>
    ∃ p, (s.cpu c).map Running.p = some p ∧
      ((∃ r, s.parent p = some r ∧ ch = .proc r) ∨
        ch = .proc initproc ∧ ∃ q, s.parent q = some p ∧ s.state q = .zombie)
  | _ => False

instance (s : Machine n) (ch : Chan) (e : Event n) : Decidable (Wakes s ch e) := by
  rcases e with _ | _ <;> dsimp only [Wakes] <;> infer_instance

/-- A wakeup passes over process `q`, because it is paused. -/
def Misses (s : Machine n) (e : Event n) (q : ProcSlot) : Prop :=
  s.state q = .pause ∧ ∃ ch ∈ s.chan q, Wakes s ch e

instance (s : Machine n) (e : Event n) (q : ProcSlot) : Decidable (Misses s e q) := by
  unfold Misses
  infer_instance

/-- What is remembered after a step to `t`. A victim is known by its process number; a missed
wakeup is made up for when the process becomes runnable. -/
def Watch.after (nm : CString) (w : Watch n) (e : Event n) (t : Machine n) : Watch n where
  m := t
  frozen := if pauseReturns nm w.m e then true else if resumeCalled nm e then false else w.frozen
  victim := fun q =>
    if pauseCalled nm e ∧ Present w.m q ∧ Member w.m nm q then some (w.m.cs.proc q).pid
    else if resumeReturns nm w.m e then none
    else w.victim q
  missed := fun q => t.state q ≠ .runnable ∧ (w.missed q = true ∨ Misses w.m e q)

def watch (nm : CString) (w : Watch n) (e : Event n) : Option (Watch n) :=
  (step w.m e).map (w.after nm e)

/-- Nothing is remembered yet. -/
def unwatched (s : Machine n) : Watch n := ⟨s, false, fun _ => none, fun _ => false⟩

/-- The process that `pause(nm)` found in slot `q` is still there. -/
def Victim (w : Watch n) (q : ProcSlot) : Prop := w.victim q = some (w.m.cs.proc q).pid

instance (w : Watch n) (q : ProcSlot) : Decidable (Victim w q) := by
  unfold Victim
  infer_instance

/-- `pause(nm)` has returned, or its loop is behind process `q`. -/
def Settled (nm : CString) (w : Watch n) (q : ProcSlot) : Prop :=
  w.frozen = true ∨ ∃ p, (w.m.pc p).pauses nm (q + 1)

instance (nm : CString) (w : Watch n) (q : ProcSlot) : Decidable (Settled nm w q) := by
  unfold Settled
  infer_instance

/-- The container is paused or a loop of `pause(nm)` runs. -/
def Holding (nm : CString) (w : Watch n) : Prop :=
  w.frozen = true ∨ ∃ p, (w.m.pc p).pauses nm 0

/-! ## The condition on a step -/

/-- No paused victim relies on the name of container `a`. -/
def Unneeded (nm : CString) (w : Watch n) (a : Cont) : Prop :=
  name w.m.cs.table a = nm →
    ∀ q, Victim w q → w.m.state q = .pause → (w.m.cs.proc q).cont ≠ some a

instance (nm : CString) (w : Watch n) (a : Cont) : Decidable (Unneeded nm w a) := by
  unfold Unneeded
  infer_instance

/-- The store of `pause` hits no process on a CPU and only victims that `resume` will find; the
store of another `resume` hits no process that `pause(nm)` is done with. -/
def CalmLoop (nm : CString) (w : Watch n) : Option Pc → Prop
  | some (.pausing nm' k true) => ∀ q, slotAt k = some q →
      (nm' = nm → Member w.m nm q → ¬ OnCpu w.m q) ∧
        (Victim w q → Member w.m nm q ∧ ∀ p, ¬ (w.m.pc p).resumes nm (q + 1))
  | some (.resuming nm' k true) => ∀ q, slotAt k = some q →
      nm' ≠ nm → Settled nm w q → ¬ Member w.m nm q
  | _ => True

instance (nm : CString) (w : Watch n) (x : Option Pc) : Decidable (CalmLoop nm w x) := by
  unfold CalmLoop
  split <;> infer_instance

/-- A process of the container is not created behind the loop of `pause(nm)`. -/
def CalmFork (nm : CString) (w : Watch n) (p : ProcSlot) : Pc → Prop
  | .forkCleared q => Member w.m nm p → ¬ Settled nm w q
  | _ => True

instance (nm : CString) (w : Watch n) (p : ProcSlot) (x : Pc) : Decidable (CalmFork nm w p x) := by
  unfold CalmFork
  split <;> infer_instance

/-- `pause(nm)` and `resume(nm)` do not run at the same time; no process enters the container, and
no container gets the name, behind the loop of `pause(nm)`; paused victims keep the name. -/
def CalmCall (nm : CString) (w : Watch n) (p : ProcSlot) : Call → Prop
  | .pause nm' => nm' = nm → ∀ r, ¬ (w.m.pc r).resumes nm 0
  | .resume nm' => nm' = nm → ∀ r, ¬ (w.m.pc r).pauses nm 0
  | .contProcSet vc => ∀ a, index vc = some a →
      (name w.m.cs.table a = nm → ¬ Settled nm w p) ∧
        (Victim w p → w.m.state p = .pause → name w.m.cs.table a = nm)
  | .setName nm' vc => ∀ a, index vc = some a →
      if nm' = nm then ∀ q, (w.m.cs.proc q).cont = some a → Settled nm w q → Still w.m q
      else Unneeded nm w a
  | _ => True

instance (nm : CString) (w : Watch n) (p : ProcSlot) (call : Call) :
    Decidable (CalmCall nm w p call) := by
  rcases call with _ | _ <;> dsimp only [CalmCall] <;> infer_instance

/-- The condition on a step. -/
def Calm (nm : CString) (w : Watch n) (e : Event n) : Prop :=
  ResumeOk w.m e ∧ NameOk e ∧ (∀ a, Clears w.m e a → Unneeded nm w a) ∧
    match e with
    | .loop c => CalmLoop nm w (w.m.at c)
    | .fork c true => ∀ p, (w.m.cpu c).map Running.p = some p → CalmFork nm w p (w.m.pc p)
    | .call c call => ∀ p, (w.m.cpu c).map Running.p = some p → CalmCall nm w p call
    | _ => True

instance (nm : CString) (w : Watch n) (e : Event n) : Decidable (Calm nm w e) := by
  unfold Calm
  have hevent : Decidable (match e with
      | .loop c => CalmLoop nm w (w.m.at c)
      | .fork c true => ∀ p, (w.m.cpu c).map Running.p = some p → CalmFork nm w p (w.m.pc p)
      | .call c call => ∀ p, (w.m.cpu c).map Running.p = some p → CalmCall nm w p call
      | _ => True) := by
    rcases e with _ | _ | _ | _ | _ | _ | _ | ⟨_, _ | _⟩ <;> dsimp only <;> infer_instance
  infer_instance

/-! ## The invariant -/

/-- What holds of one name: processes that `pause` is done with are still, victims can be found by
`resume`, and what has missed a wakeup is still. -/
structure Held (nm : CString) (w : Watch n) : Prop where
  inv : Inv w.m ∧ ChanOk w.m
  pids : PidsOk w.m
  fits : ∀ a, NameFits w.m.cs.table a
  apart : Holding nm w → ∀ p, ¬ (w.m.pc p).resumes nm 0
  still : ∀ q, Settled nm w q → Member w.m nm q → Still w.m q
  numbered : ∀ q pid, w.victim q = some pid → pid ≠ 0 ∧ pid < w.m.nextpid
  whole : ∀ q, Victim w q →
    ¬ Forked w.m q ∧ w.m.state q ≠ .unused ∧ w.m.state q ≠ .embryo
  found : ∀ q, Victim w q → w.m.state q = .pause → Member w.m nm q
  resumed : ∀ q, Victim w q → (∃ p, (w.m.pc p).resumes nm (q + 1)) → w.m.state q ≠ .pause
  missed : ∀ q, w.missed q = true → Still w.m q

/-! ## Where the loops stand -/

variable {e : Event n} {nm : CString}

/-- A process comes to stand in the loop of `pause(nm)` by calling it or by a step of the loop. -/
theorem pauses_step {s t : Machine n} (h : step s e = some t) {k : Nat} {p : ProcSlot}
    (hp : (t.pc p).pauses nm k) :
    (s.pc p).pauses nm k ∨ k = 0 ∧ pauseCalled nm e ∨
      ∃ c run j hit, e = .loop c ∧ Runs s c run ∧ run.p = p ∧ k = j + 1 ∧
        s.pc p = .pausing nm j hit ∧ t = s.pauseStep p nm j hit := by
  cases pcTurn_step h p with
  | same heq =>
    rw [heq] at hp
    exact Or.inl hp
  | forkOver heq _ | renewed heq _ _ | exits heq _ | forkEnters heq _ | allocates _ heq _ _ _
  | clears _ heq _ =>
    rw [heq] at hp
    exact hp.elim
  | enters c run call he _ _ _ henter =>
    rcases henter with ⟨_, _, _, heq⟩ | ⟨nm', hcall, heq⟩ | ⟨_, _, heq⟩ <;> rw [heq] at hp
    · exact hp.elim
    · obtain ⟨rfl, hk⟩ := hp
      refine Or.inr (Or.inl ⟨Nat.le_zero.mp hk, ?_⟩)
      rw [he, hcall]
      rfl
    · exact hp.elim
  | loops c run he hrun hrp hloop =>
    have hnext := loop_next hloop
    rcases loop_stays hloop with ⟨nm', j, hit, hpc, rfl⟩ | ⟨nm', j, hit, hpc, rfl⟩ |
      ⟨target, j, stage, hpc, hstop⟩ <;> rw [hpc] at hnext
    · rcases hnext with heq | heq | ⟨i, b, heq, hi⟩ <;> rw [heq] at hp
      · exact hp.elim
      · exact hp.elim
      · obtain ⟨rfl, hk⟩ := hp
        rcases Nat.lt_or_ge j k with hjk | hjk
        · exact Or.inr (Or.inr ⟨c, run, j, hit, he, hrun, hrp, by omega, hpc, rfl⟩)
        · left
          rw [hpc]
          exact ⟨rfl, hjk⟩
    · rcases hnext with heq | heq | ⟨_, _, heq, _⟩ <;> rw [heq] at hp <;> exact hp.elim
    · rcases hnext with heq | ⟨_, _, heq, _⟩ <;> rw [heq] at hp <;> exact hp.elim

/-- The same for the loop of `resume(nm)`. -/
theorem resumes_step {s t : Machine n} (h : step s e = some t) {k : Nat} {p : ProcSlot}
    (hp : (t.pc p).resumes nm k) :
    (s.pc p).resumes nm k ∨ k = 0 ∧ resumeCalled nm e ∨
      ∃ c run j hit, e = .loop c ∧ Runs s c run ∧ run.p = p ∧ k = j + 1 ∧
        s.pc p = .resuming nm j hit ∧ t = s.resumeStep p nm j hit := by
  cases pcTurn_step h p with
  | same heq =>
    rw [heq] at hp
    exact Or.inl hp
  | forkOver heq _ | renewed heq _ _ | exits heq _ | forkEnters heq _ | allocates _ heq _ _ _
  | clears _ heq _ =>
    rw [heq] at hp
    exact hp.elim
  | enters c run call he _ _ _ henter =>
    rcases henter with ⟨_, _, _, heq⟩ | ⟨_, _, heq⟩ | ⟨nm', hcall, heq⟩ <;> rw [heq] at hp
    · exact hp.elim
    · exact hp.elim
    · obtain ⟨rfl, hk⟩ := hp
      refine Or.inr (Or.inl ⟨Nat.le_zero.mp hk, ?_⟩)
      rw [he, hcall]
      rfl
  | loops c run he hrun hrp hloop =>
    have hnext := loop_next hloop
    rcases loop_stays hloop with ⟨nm', j, hit, hpc, rfl⟩ | ⟨nm', j, hit, hpc, rfl⟩ |
      ⟨target, j, stage, hpc, hstop⟩ <;> rw [hpc] at hnext
    · rcases hnext with heq | heq | ⟨_, _, heq, _⟩ <;> rw [heq] at hp <;> exact hp.elim
    · rcases hnext with heq | heq | ⟨i, b, heq, hi⟩ <;> rw [heq] at hp
      · exact hp.elim
      · exact hp.elim
      · obtain ⟨rfl, hk⟩ := hp
        rcases Nat.lt_or_ge j k with hjk | hjk
        · exact Or.inr (Or.inr ⟨c, run, j, hit, he, hrun, hrp, by omega, hpc, rfl⟩)
        · left
          rw [hpc]
          exact ⟨rfl, hjk⟩
    · rcases hnext with heq | ⟨_, _, heq, _⟩ <;> rw [heq] at hp <;> exact hp.elim

theorem Pc.pauses.mono {j k : Nat} {x : Pc} (h : x.pauses nm k) (hjk : j ≤ k) : x.pauses nm j := by
  cases x with
  | pausing nm' i hit => exact ⟨h.1, hjk.trans h.2⟩
  | _ => exact absurd h id

theorem Pc.resumes.mono {j k : Nat} {x : Pc} (h : x.resumes nm k) (hjk : j ≤ k) :
    x.resumes nm j := by
  cases x with
  | resuming nm' i hit => exact ⟨h.1, hjk.trans h.2⟩
  | _ => exact absurd h id

/-! ## Who belongs to the container -/

/-- How a process comes to belong to a container of that name. -/
def Joins (s : Machine n) (e : Event n) (nm : CString) (q : ProcSlot) : Prop :=
  (∃ c run, e = .fork c true ∧ Runs s c run ∧ s.pc run.p = .forkCleared q ∧ Member s nm run.p) ∨
  (∃ c run vc a, e = .call c (.contProcSet vc) ∧ Runs s c run ∧ run.p = q ∧ index vc = some a ∧
    name s.cs.table a = nm) ∨
  ∃ c run vc a, e = .call c (.setName nm vc) ∧ Runs s c run ∧ index vc = some a ∧
    (s.cs.proc q).cont = some a

theorem member_step {s t : Machine n} (hfits : ∀ a, NameFits s.cs.table a) (hok : NameOk e)
    (h : step s e = some t) (hnm : nm ≠ emptyName) {q : ProcSlot} (hq : Member t nm q) :
    Member s nm q ∨ Joins s e nm q := by
  obtain ⟨a, hcont, hname⟩ := hq
  have hnames := (names_step hfits hok h).2 a
  have hempty (h : name t.cs.table a = emptyName) : False := hnm (hname.symm.trans h)
  rcases cont_step h q with hsame | ⟨hnone, _⟩ | ⟨c, run, rfl, hrun, hpc, hparent⟩ |
    ⟨c, run, vc, b, rfl, hrun, hrp, hb, hmoved⟩
  · rw [hsame] at hcont
    rcases hnames with hkept | ⟨hcleared, _⟩ | ⟨c, nm', vc, rfl, ha, hnm'⟩
    · exact Or.inl ⟨a, hcont, hkept.symm.trans hname⟩
    · exact absurd hcleared hempty
    · obtain rfl := hnm'.symm.trans hname
      obtain ⟨run, hrun, _⟩ := enter_eq_some h
      exact Or.inr (Or.inr (Or.inr ⟨c, run, vc, a, rfl, hrun, ha, hcont⟩))
  · rw [hnone] at hcont
    cases hcont
  · rw [hparent] at hcont
    rcases hnames with hkept | ⟨hcleared, _⟩ | ⟨_, _, _, he, _⟩
    · exact Or.inr (Or.inl ⟨c, run, rfl, hrun, hpc, a, hcont, hkept.symm.trans hname⟩)
    · exact absurd hcleared hempty
    · cases he
  · rw [hmoved] at hcont
    cases hcont
    rcases hnames with hkept | ⟨hcleared, _⟩ | ⟨_, _, _, he, _⟩
    · exact Or.inr (Or.inr (Or.inl ⟨c, run, vc, a, rfl, hrun, hrp, hb, hkept.symm.trans hname⟩))
    · exact absurd hcleared hempty
    · cases he

/-! ## The step -/

section Step

variable {nm : CString} {w : Watch n} {e : Event n} {t : Machine n}

theorem calm_pauseCalled (hC : Calm nm w e) (ht : step w.m e = some t) (he : pauseCalled nm e)
    (r : ProcSlot) : ¬ (w.m.pc r).resumes nm 0 := by
  unfold pauseCalled at he
  split at he
  · next c nm' =>
    obtain ⟨run, hrun, _⟩ := enter_eq_some ht
    exact hC.2.2.2 run.p hrun.map he r
  · exact absurd he id

theorem calm_resumeCalled (hC : Calm nm w e) (ht : step w.m e = some t) (he : resumeCalled nm e)
    (r : ProcSlot) : ¬ (w.m.pc r).pauses nm 0 := by
  unfold resumeCalled at he
  split at he
  · next c nm' =>
    obtain ⟨run, hrun, _⟩ := enter_eq_some ht
    exact hC.2.2.2 run.p hrun.map he r
  · exact absurd he id

theorem pauseReturns_pauses (h : pauseReturns nm w.m e) :
    ∃ p, (w.m.pc p).pauses nm nproc := by
  unfold pauseReturns at h
  split at h
  · obtain ⟨x, hx, hp⟩ := h
    obtain ⟨run, _, rfl⟩ := Option.map_eq_some_iff.mp hx
    exact ⟨run.p, hp⟩
  · exact absurd h id

/-- `pause(nm)` held the container before, or is called. -/
theorem holding_step (ht : step w.m e = some t) (h : Holding nm (w.after nm e t)) :
    Holding nm w ∧ ¬ resumeCalled nm e ∨ (∃ p, (w.m.pc p).pauses nm 0) ∨ pauseCalled nm e := by
  rcases h with hfrozen | ⟨p, hp⟩
  · simp only [Watch.after] at hfrozen
    split at hfrozen
    · next hret =>
      obtain ⟨p, hp⟩ := pauseReturns_pauses hret
      exact Or.inr (Or.inl ⟨p, hp.mono (Nat.zero_le _)⟩)
    · split at hfrozen
      · cases hfrozen
      · next hcall => exact Or.inl ⟨Or.inl hfrozen, hcall⟩
  · rcases pauses_step ht hp with hp | ⟨_, hcall⟩ | ⟨_, _, _, _, _, _, _, hzero, _⟩
    · exact Or.inr (Or.inl ⟨p, hp⟩)
    · exact Or.inr (Or.inr hcall)
    · cases hzero

theorem held_apart (hw : Held nm w) (hC : Calm nm w e) (ht : step w.m e = some t)
    (h : Holding nm (w.after nm e t)) (p : ProcSlot) : ¬ (t.pc p).resumes nm 0 := by
  intro hp
  have hresume : (w.m.pc p).resumes nm 0 ∨ resumeCalled nm e := by
    rcases resumes_step ht hp with hp | ⟨_, hcall⟩ | ⟨_, _, _, _, _, _, _, hzero, _⟩
    · exact Or.inl hp
    · exact Or.inr hcall
    · cases hzero
  rcases holding_step ht h with ⟨hhold, hcall⟩ | ⟨r, hr⟩ | hcall
  · exact hresume.elim (hw.apart hhold p) hcall
  · exact hresume.elim (hw.apart (Or.inr ⟨r, hr⟩) p) fun hcall => calm_resumeCalled hC ht hcall r hr
  · rcases hresume with hp | hres
    · exact calm_pauseCalled hC ht hcall p hp
    · unfold pauseCalled at hcall
      split at hcall
      · exact hres
      · exact hcall

variable {q : ProcSlot}

/-- The loop of `pause(nm)` was behind process `q` before, or goes past it now. -/
theorem settled_step (ht : step w.m e = some t) (h : Settled nm (w.after nm e t) q) :
    Settled nm w q ∨ ∃ c run hit, e = .loop c ∧ Runs w.m c run ∧
      w.m.pc run.p = .pausing nm q hit ∧ (t.pc run.p).pauses nm (q + 1) ∧
      t = w.m.pauseStep run.p nm q hit := by
  rcases h with hfrozen | ⟨p, hp⟩
  · left
    simp only [Watch.after] at hfrozen
    split at hfrozen
    · next hret =>
      obtain ⟨p, hp⟩ := pauseReturns_pauses hret
      exact Or.inr ⟨p, hp.mono q.isLt⟩
    · split at hfrozen
      · cases hfrozen
      · exact Or.inl hfrozen
  · rcases pauses_step ht hp with hp | ⟨hzero, _⟩ | ⟨c, run, j, hit, he, hrun, rfl, hj, hpc, heq⟩
    · exact Or.inl (Or.inr ⟨p, hp⟩)
    · omega
    · obtain rfl : j = q.val := by omega
      exact Or.inr ⟨c, run, hit, he, hrun, hpc, hp, heq⟩

theorem Settled.holding (h : Settled nm w q) : Holding nm w :=
  h.imp id fun ⟨p, hp⟩ => ⟨p, hp.mono (Nat.zero_le _)⟩

/-- A process that `pause(nm)` is done with does not become runnable. -/
theorem settled_not_runnable (hw : Held nm w) (hC : Calm nm w e) (ht : step w.m e = some t)
    (hset : Settled nm w q) (hmem : Member w.m nm q) (hstill : Still w.m q)
    (hnew : ∀ c run, e = .fork c true → Runs w.m c run → w.m.pc run.p = .forkCleared q → False) :
    t.state q ≠ .runnable := by
  intro hrun
  rcases runnable_step hstill ht hrun with ⟨c, run, he, hr, hpc⟩ | ⟨c, run, nm', rfl, hr, hpc⟩
  · exact hnew c run he hr hpc
  · by_cases hnm : nm' = nm
    · subst hnm
      refine hw.apart hset.holding run.p ?_
      rw [hpc]
      exact ⟨rfl, Nat.zero_le _⟩
    · have hcalm := hC.2.2.2
      simp only [hr.at, hpc] at hcalm
      exact hcalm q (slotAt_eq_some.mpr rfl) hnm hset hmem

/-- The loop of `pause(nm)` goes past process `q`. -/
theorem still_passed (hw : Held nm w) {c : Fin n} (hC : Calm nm w (.loop c)) {run : Running}
    {hit : Bool} (hrun : Runs w.m c run) (hpc : w.m.pc run.p = .pausing nm q hit)
    (hmem : Member w.m nm q) (hpast : ((w.m.pauseStep run.p nm q hit).pc run.p).pauses nm (q + 1)) :
    Still (w.m.pauseStep run.p nm q hit) q := by
  have hslot : slotAt q.val = some q := slotAt_eq_some.mpr rfl
  simp only [Machine.pauseStep, hslot] at hpast ⊢
  cases hit with
  | true =>
    have hcalm := hC.2.2.2
    simp only [hrun.at, hpc] at hcalm
    have hoff := (hcalm q hslot).1 rfl hmem
    have hstate : (w.m.setState q .pause).state q = .pause := by
      rw [Machine.state_setState, if_pos rfl]
    refine ⟨hoff, ?_⟩
    simp [hstate]
  | false =>
    simp only [Bool.false_eq_true, if_false] at hpast ⊢
    split at hpast
    · rw [Machine.pc_setPc, if_pos rfl] at hpast
      exact absurd hpast.2 (by omega)
    · next htest =>
      rw [if_neg htest]
      obtain ⟨a, hcont, hname⟩ := hmem
      -- a process of the container that fails the test is an unused slot
      have hunused : w.m.state q = .unused := by
        by_contra hused
        refine htest ⟨hused, ?_⟩
        rw [hcont]
        exact (strcmp_eq_zero_iff _ _).mpr hname
      have hoff : ¬ OnCpu w.m q := fun hon => by
        rcases ((hw.inv.1.slot q).onCpu hon).1 with h | h <;> rw [hunused] at h <;> cases h
      refine ⟨hoff, ?_⟩
      simp [hunused]

/-- A process of the container that `pause(nm)` is done with is not a new one. -/
theorem settled_not_new (hC : Calm nm w e) (ht : step w.m e = some t) (hold : Settled nm w q)
    (hmem : Member t nm q) {c : Fin n} {run : Running} (he : e = .fork c true)
    (hrun : Runs w.m c run) (hpc : w.m.pc run.p = .forkCleared q) : False := by
  subst he
  obtain rfl := fork_hatch hrun hpc ht
  obtain ⟨a, hcont, hname⟩ := hmem
  have hcalm := hC.2.2.2 run.p hrun.map
  rw [hpc] at hcalm
  refine hcalm ⟨a, ?_, hname⟩ hold
  simpa [Machine.hatch, State.setProc] using hcont

/-- The processes that `pause(nm)` was done with stay still. -/
theorem still_settled (hw : Held nm w) (hC : Calm nm w e) (hnm : nm ≠ emptyName)
    (ht : step w.m e = some t) (hold : Settled nm w q) (hmem : Member t nm q) : Still t q := by
  have hnew (c : Fin n) (run : Running) (he : e = .fork c true) (hrun : Runs w.m c run)
      (hpc : w.m.pc run.p = .forkCleared q) : False := settled_not_new hC ht hold hmem he hrun hpc
  rcases member_step hw.fits hC.2.1 ht hnm hmem with hmem | ⟨c, run, he, hrun, hpc, _⟩ |
    ⟨c, run, vc, a, rfl, hrun, rfl, ha, hname⟩ | ⟨c, run, vc, a, rfl, hrun, ha, hcont⟩
  · have hstill := hw.still q hold hmem
    exact still_step hstill ht (settled_not_runnable hw hC ht hold hmem hstill hnew)
  · exact absurd (hnew c run he hrun hpc) id
  · exact absurd hold ((hC.2.2.2 run.p hrun.map a ha).1 hname)
  · have hcalm := hC.2.2.2 run.p hrun.map a ha
    rw [if_pos rfl] at hcalm
    have hstill := hcalm q hcont hold
    refine still_step hstill ht fun hrunnable => ?_
    rcases runnable_step hstill ht hrunnable with ⟨_, _, he, _⟩ | ⟨_, _, _, he, _⟩ <;> cases he

theorem held_still (hw : Held nm w) (hC : Calm nm w e) (hnm : nm ≠ emptyName)
    (ht : step w.m e = some t) (q : ProcSlot) (hset : Settled nm (w.after nm e t) q)
    (hmem : Member t nm q) : Still t q := by
  rcases settled_step ht hset with hold | ⟨c, run, hit, rfl, hrun, hpc, hpast, rfl⟩
  · exact still_settled hw hC hnm ht hold hmem
  · have hmem : Member w.m nm q := by
      refine (member_step hw.fits hC.2.1 ht hnm hmem).resolve_right ?_
      rintro (⟨_, _, he, _⟩ | ⟨_, _, _, _, he, _⟩ | ⟨_, _, _, _, he, _⟩) <;> cases he
    exact still_passed hw hC hrun hpc hmem hpast

/-! ### The victims -/

/-- A victim was one before, or `pause(nm)` is called and finds it. -/
theorem victim_step (hw : Held nm w) (ht : step w.m e = some t) (h : Victim (w.after nm e t) q) :
    (t.cs.proc q).pid = (w.m.cs.proc q).pid ∧
      (Victim w q ∨ pauseCalled nm e ∧ Present w.m q ∧ Member w.m nm q) := by
  have hpid (pid : Int) (hpid : pid = (t.cs.proc q).pid) (hne : pid ≠ 0) (hlt : pid < w.m.nextpid) :
      (t.cs.proc q).pid = (w.m.cs.proc q).pid := by
    have hturn := turn_step ht q
    generalize t.cs.proc q = x at hpid hturn
    cases hturn with
    | allocated _ _ _ _ =>
      rw [hpid] at hlt
      exact absurd hlt (lt_irrefl _)
    | reaped _ _ _ => exact absurd hpid hne
    | _ => rfl
  simp only [Victim, Watch.after] at h
  split at h
  · next hnew =>
    have hrange := hw.pids.range q
    exact ⟨hpid _ (Option.some.inj h) hnew.2.1.1 hrange.2, Or.inr hnew⟩
  · split at h
    · cases h
    · obtain ⟨hne, hlt⟩ := hw.numbered q _ h
      have hsame := hpid _ rfl hne hlt
      refine ⟨hsame, Or.inl ?_⟩
      rw [hsame] at h
      exact h

theorem held_numbered (hw : Held nm w) (ht : step w.m e = some t) (q : ProcSlot) (pid : Int)
    (h : (w.after nm e t).victim q = some pid) : pid ≠ 0 ∧ pid < t.nextpid := by
  have hnext := (pids_step hw.pids ht).2
  simp only [Watch.after] at h
  split at h
  · next hnew =>
    cases h
    exact ⟨hnew.2.1.1, lt_of_lt_of_le (hw.pids.range q).2 hnext⟩
  · split at h
    · cases h
    · obtain ⟨hne, hlt⟩ := hw.numbered q pid h
      exact ⟨hne, lt_of_lt_of_le hlt hnext⟩

/-- A victim is a complete process. -/
theorem victim_whole (hw : Held nm w)
    (h : Victim w q ∨ pauseCalled nm e ∧ Present w.m q ∧ Member w.m nm q) :
    ¬ Forked w.m q ∧ w.m.state q ≠ .unused ∧ w.m.state q ≠ .embryo := by
  rcases h with h | ⟨_, ⟨_, hstate, _, hforked⟩, _⟩
  · exact hw.whole q h
  · refine ⟨hforked, ?_, ?_⟩
    · exact fun heq => hstate (by simp [heq])
    · exact fun heq => hstate (by simp [heq])

theorem held_whole (hw : Held nm w) (ht : step w.m e = some t) (q : ProcSlot)
    (h : Victim (w.after nm e t) q) :
    ¬ Forked t q ∧ t.state q ≠ .unused ∧ t.state q ≠ .embryo := by
  obtain ⟨hpid, hold⟩ := victim_step hw ht h
  obtain ⟨hforked, hunused, hembryo⟩ := victim_whole hw hold
  refine ⟨fun hf => (forked_step ht hf).elim hforked fun h => hunused h.1, ?_⟩
  have hnumber : (t.cs.proc q).pid ≠ 0 := (held_numbered hw ht q _ h).1
  have hturn := turn_step ht q
  simp only [Machine.state] at *
  generalize t.cs.proc q = x at *
  cases hturn with
  | same | cleared _ _ _ _ _ | moved _ _ _ _ _ _ _ _ => exact ⟨hunused, hembryo⟩
  | killed _ =>
    simp only [markKilled]
    split
    · exact ⟨by simp, by simp⟩
    · exact ⟨hunused, hembryo⟩
  | left _ y hy => rcases hy with rfl | rfl | rfl <;> exact ⟨by simp, by simp⟩
  | allocated _ _ _ hq => exact absurd hq hunused
  | givenUp _ run _ _ hp => exact absurd ⟨run.p, hp⟩ hforked
  | reaped _ _ _ => exact absurd rfl hnumber
  | _ => exact ⟨by simp, by simp⟩

/-- How a process comes to be paused. -/
theorem pause_step {s : Machine n} (h : step s e = some t) (ht : t.state q = .pause) :
    s.state q = .pause ∨ ∃ c run nm', e = .loop c ∧ Runs s c run ∧ s.pc run.p = .pausing nm' q true := by
  have hturn := turn_step h q
  simp only [Machine.state] at ht ⊢
  generalize t.cs.proc q = x at ht hturn
  cases hturn with
  | same | cleared _ _ _ _ _ | moved _ _ _ _ _ _ _ _ => exact Or.inl ht
  | killed _ =>
    simp only [markKilled] at ht
    split at ht
    · cases ht
    · exact Or.inl ht
  | left _ y hy => rcases hy with rfl | rfl | rfl <;> cases ht
  | paused c run nm' he hrun hp => exact Or.inr ⟨c, run, nm', he, hrun, hp⟩
  | _ => cases ht

/-- A victim that is paused after the step belonged to the container before, and the step leaves it
there. -/
theorem paused_kept (hw : Held nm w) (hC : Calm nm w e) (ht : step w.m e = some t)
    (h : Victim (w.after nm e t) q) (hpause : t.state q = .pause) :
    Member w.m nm q ∧ ∀ a, (w.m.cs.proc q).cont = some a → name w.m.cs.table a = nm →
      name t.cs.table a = nm := by
  obtain ⟨_, hold⟩ := victim_step hw ht h
  -- a change of the name would need a paused victim to rely on it
  have hname (hsafe : ∀ a, (w.m.cs.proc q).cont = some a → name w.m.cs.table a = nm →
        ¬ Clears w.m e a ∧ ∀ c nm' vc, e = .call c (.setName nm' vc) → index vc = some a → nm' = nm)
      (a : Cont) (hcont : (w.m.cs.proc q).cont = some a) (ha : name w.m.cs.table a = nm) :
      name t.cs.table a = nm := by
    obtain ⟨hclear, hset⟩ := hsafe a hcont ha
    rcases (names_step hw.fits hC.2.1 ht).2 a with hkept | ⟨_, hcleared⟩ | ⟨c, nm', vc, he, hvc, hnew⟩
    · exact hkept.trans ha
    · exact absurd hcleared hclear
    · exact hnew.trans (hset c nm' vc he hvc)
  rcases hold with hvictim | ⟨hcall, _, hmem⟩
  · rcases pause_step ht hpause with hpaused | ⟨c, run, nm', rfl, hrun, hpc⟩
    · refine ⟨hw.found q hvictim hpaused, hname fun a hcont ha => ⟨fun hclear => ?_, ?_⟩⟩
      · exact hC.2.2.1 a hclear ha q hvictim hpaused hcont
      · rintro c nm' vc rfl hvc
        obtain ⟨run, hrun, _⟩ := enter_eq_some ht
        have hcalm := hC.2.2.2 run.p hrun.map a hvc
        by_contra hne
        rw [if_neg hne] at hcalm
        exact hcalm ha q hvictim hpaused hcont
    · have hcalm := hC.2.2.2
      simp only [hrun.at, hpc] at hcalm
      refine ⟨((hcalm q (slotAt_eq_some.mpr rfl)).2 hvictim).1, hname fun a _ _ => ⟨?_, ?_⟩⟩
      · simp [Clears, hrun.at, hpc]
      · rintro c nm' vc he
        cases he
  · refine ⟨hmem, hname fun a _ _ => ?_⟩
    unfold pauseCalled at hcall
    split at hcall
    · exact ⟨by simp [Clears], fun _ _ _ he => by cases he⟩
    · exact absurd hcall id

theorem held_found (hw : Held nm w) (hC : Calm nm w e) (ht : step w.m e = some t) (q : ProcSlot)
    (h : Victim (w.after nm e t) q) (hpause : t.state q = .pause) : Member t nm q := by
  obtain ⟨_, hold⟩ := victim_step hw ht h
  obtain ⟨⟨a, hcont, ha⟩, hkept⟩ := paused_kept hw hC ht h hpause
  have hforked := (victim_whole hw hold).1
  rcases cont_step ht q with hsame | ⟨_, _, hf⟩ | ⟨c, run, _, _, hpc, _⟩ |
    ⟨c, run, vc, b, rfl, hrun, rfl, hb, hmoved⟩
  · exact ⟨a, hsame.trans hcont, hkept a hcont ha⟩
  · exact absurd hf hforked
  · exact absurd ⟨run.p, Or.inr hpc⟩ hforked
  · -- a paused process on a CPU moves to another container of the same name
    have hvictim : Victim w run.p := hold.resolve_right fun hnew => hnew.1
    have hpaused : w.m.state run.p = .pause := by
      rcases pause_step ht hpause with hpaused | ⟨_, _, _, he, _⟩
      · exact hpaused
      · cases he
    have hname := (hC.2.2.2 run.p hrun.map b hb).2 hvictim hpaused
    rcases (names_step hw.fits hC.2.1 ht).2 b with hsame | ⟨_, hcleared⟩ | ⟨_, _, _, he, _⟩
    · exact ⟨b, hmoved, hsame.trans hname⟩
    · exact absurd hcleared id
    · cases he

theorem held_resumed (hw : Held nm w) (hC : Calm nm w e) (ht : step w.m e = some t) (q : ProcSlot)
    (h : Victim (w.after nm e t) q) (hpast : ∃ p, (t.pc p).resumes nm (q + 1)) :
    t.state q ≠ .pause := by
  intro hpause
  obtain ⟨_, hold⟩ := victim_step hw ht h
  obtain ⟨p, hp⟩ := hpast
  rcases resumes_step ht hp with hp | ⟨hzero, _⟩ | ⟨c, run, j, hit, rfl, hrun, rfl, hj, hpc, rfl⟩
  · rcases hold with hvictim | ⟨hcall, _⟩
    · rcases pause_step ht hpause with hpaused | ⟨c, run, nm', rfl, hrun, hpc⟩
      · exact hw.resumed q hvictim ⟨p, hp⟩ hpaused
      · have hcalm := hC.2.2.2
        simp only [hrun.at, hpc] at hcalm
        exact ((hcalm q (slotAt_eq_some.mpr rfl)).2 hvictim).2 p hp
    · exact calm_pauseCalled hC ht hcall p (hp.mono (Nat.zero_le _))
  · omega
  · obtain rfl : j = q.val := by omega
    have hvictim : Victim w q := hold.resolve_right fun hnew => hnew.1
    have hslot : slotAt q.val = some q := slotAt_eq_some.mpr rfl
    simp only [Machine.resumeStep, hslot] at hpause hp
    cases hit with
    | true =>
      have hstate : (w.m.setState q .runnable).state q = .pause := hpause
      rw [Machine.state_setState, if_pos rfl] at hstate
      cases hstate
    | false =>
      simp only [Bool.false_eq_true, if_false] at hpause hp
      split at hp
      · rw [Machine.pc_setPc, if_pos rfl] at hp
        exact absurd hp.2 (by omega)
      · next htest =>
        rw [if_neg htest] at hpause
        have hpaused : w.m.state q = .pause := hpause
        obtain ⟨a, hcont, hname⟩ := hw.found q hvictim hpaused
        refine htest ⟨hpaused, ?_⟩
        rw [State.contName, hcont]
        exact (strcmp_eq_zero_iff _ _).mpr hname

theorem held_missed (hw : Held nm w) (ht : step w.m e = some t) (q : ProcSlot)
    (h : (w.after nm e t).missed q = true) : Still t q := by
  obtain ⟨hrunnable, hmissed⟩ := of_decide_eq_true h
  refine still_step ?_ ht hrunnable
  rcases hmissed with hmissed | ⟨hpause, ch, hch, _⟩
  · exact hw.missed q hmissed
  · refine ⟨fun hon => ?_, ?_⟩
    · rw [hw.inv.2.onCpu q hon] at hch
      cases hch
    · simp [hpause]

theorem held_step (hw : Held nm w) (hC : Calm nm w e) (hnm : nm ≠ emptyName)
    (ht : step w.m e = some t) : Held nm (w.after nm e t) where
  inv := keeps_chan.step hw.inv hC.1 ht
  pids := (pids_step hw.pids ht).1
  fits := (names_step hw.fits hC.2.1 ht).1
  apart := held_apart hw hC ht
  still := held_still hw hC hnm ht
  numbered := held_numbered hw ht
  whole := held_whole hw ht
  found := held_found hw hC ht
  resumed := held_resumed hw hC ht
  missed := held_missed hw ht

end Step

/-! ## Runs -/

variable {s : Machine n}

theorem held_boot (hboot : Boot s) (hpids : PidsOk s) (hfits : ∀ a, NameFits s.cs.table a)
    (nm : CString) : Held nm (unwatched s) where
  inv := ⟨inv_boot hboot, chanOk_boot hboot⟩
  pids := hpids
  fits := hfits
  apart := by
    intro _ p hp
    simp only [unwatched, (hboot.2 p).1] at hp
    exact hp
  still := by
    rintro q (h | ⟨p, hp⟩) _
    · cases h
    · simp only [unwatched, (hboot.2 p).1] at hp
      exact absurd hp id
  numbered := fun _ _ h => by cases h
  whole := fun _ h => by cases h
  found := fun _ h => by cases h
  resumed := fun _ h => by cases h
  missed := fun _ h => by cases h

theorem held_run {nm : CString} (hboot : Boot s) (hpids : PidsOk s)
    (hfits : ∀ a, NameFits s.cs.table a) (hnm : nm ≠ emptyName) {es : List (Event n)}
    (hall : Always (watch nm) (Calm nm) (unwatched s) es) {w : Watch n}
    (h : run (watch nm) (unwatched s) es = some w) : Held nm w := by
  refine run_invariant ?_ (held_boot hboot hpids hfits nm) hall h
  intro w e w' hw hC hstep
  obtain ⟨t, ht, rfl⟩ := Option.map_eq_some_iff.mp hstep
  exact held_step hw hC hnm ht

/-- When `resume(nm)` returns, its loop is behind every process, and nothing else changes. -/
theorem resumeReturns_spec {nm : CString} {t : Machine n} {e : Event n} (h : resumeReturns nm s e)
    (ht : step s e = some t) : (∃ p, (s.pc p).resumes nm nproc ∧ t = s.setPc p .free) := by
  unfold resumeReturns at h
  split at h
  · next c =>
    obtain ⟨x, hx, hres⟩ := h
    obtain ⟨run, hrun, hloop⟩ := current_eq_some ht
    rw [hrun.at] at hx
    cases hx
    refine ⟨run.p, hres, ?_⟩
    rcases loop_stays hloop with ⟨_, _, _, hpc, _⟩ | ⟨nm', k, hit, hpc, rfl⟩ | ⟨_, _, _, hpc, _⟩
    · rw [hpc] at hres
      exact absurd hres id
    · rw [hpc] at hres
      rw [Machine.resumeStep, slotAt_eq_none.mpr hres.2]
    · rw [hpc] at hres
      exact absurd hres id
  · exact absurd h id

/-- A child in a container is preempted and its container is paused. -/
def preemptedAndPaused : List (Event 1) :=
  childInContainer ++ [.timer 0, .yield 0, .pass 0 0] ++ withLoop (.pause contName)

end Process

end Xv6Containers
