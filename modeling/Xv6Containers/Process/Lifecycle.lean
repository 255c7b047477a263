import Xv6Containers.Process.Turns
import Xv6Containers.Lib.Runs

/-!
# The life cycle of a process

A process that has exited does not run again, as long as `resume` does not make
runnable what `pause` found as a zombie, half created or on a CPU. `pause` and
`resume` overwrite the state of a process without the lock and without
remembering what it was.

## Implementation notes

The context of a process that has exited lies behind the `sched` of `exit`; it
stays there, also when the process has been reaped, until `allocproc` gives the
slot a new one. `Pc.exited` stands for it.
-/

namespace Xv6Containers

open Lib.Memory Lib.Strings Lib.Search Lib.Runs Function

namespace Process

open Container

variable {n : Nat} {s t : Machine n} {e : Event n} {c : Fin n} {p q : ProcSlot}

/-- `resume` may make process `q` runnable: it is paused, asleep or runnable, has not exited, is
complete and on no CPU. -/
def Resumable (s : Machine n) (q : ProcSlot) : Prop :=
  s.state q ∈ [.pause, .sleeping, .runnable] ∧ s.pc q ≠ .exited ∧ ¬ Forked s q ∧ ¬ OnCpu s q

instance (s : Machine n) (q : ProcSlot) : Decidable (Resumable s q) := by
  unfold Resumable
  infer_instance

/-- The process that the next step of the loop on CPU `c` makes runnable. -/
def resumes (s : Machine n) (c : Fin n) : Option ProcSlot :=
  match s.cpu c with
  | none => none
  | some run =>
    match s.pc run.p with
    | .resuming _ k true => slotAt k
    | _ => none

/-- Every store of `resume` finds a process that may be made runnable. -/
def ResumeOk (s : Machine n) : Event n → Prop
  | .loop c => ∀ q, resumes s c = some q → Resumable s q
  | _ => True

instance (s : Machine n) (e : Event n) : Decidable (ResumeOk s e) := by
  rcases e with _ | _ <;> dsimp only [ResumeOk] <;> infer_instance

/-! ## The invariant -/

section Moves

variable {run : Running}

/-- What holds of a slot of the process table. -/
structure SlotOk (s : Machine n) (q : ProcSlot) : Prop where
  exited : s.pc q = .exited → s.state q ≠ .runnable ∧ s.state q ≠ .running ∧ s.state q ≠ .sleeping
  zombie : s.state q = .zombie → s.pc q = .exited
  onCpu : OnCpu s q → (s.state q = .running ∨ s.state q = .pause) ∧ s.pc q ≠ .exited ∧ ¬ Forked s q
  forked : Forked s q → s.state q = .embryo ∨ s.state q = .pause
  dormant : s.state q = .unused ∨ Forked s q → s.pc q = .free ∨ s.pc q = .exited
  cleared : ∀ p, s.pc p = .forkCleared q → s.pc q = .free

/-- Every slot is in order, no process is on two CPUs, and no slot is taken twice. -/
structure Inv (s : Machine n) : Prop where
  slot : ∀ q, SlotOk s q
  cpus : ∀ c d q, (s.cpu c).map Running.p = some q → (s.cpu d).map Running.p = some q → c = d
  forks : ∀ p r q, Forking s p q → Forking s r q → p = r

theorem inv_boot (h : Boot s) : Inv s := by
  obtain ⟨hcpu, hslot⟩ := h
  have hfork (p q : ProcSlot) : ¬ Forking s p q := by
    simp [Forking, (hslot p).1]
  have hoff (c : Fin n) (q : ProcSlot) : (s.cpu c).map Running.p ≠ some q := by
    simp [hcpu c]
  refine ⟨fun q => ⟨?_, ?_, ?_, ?_, ?_, ?_⟩, fun c d q h => absurd h (hoff c q),
    fun p r q h => absurd h (hfork p q)⟩
  · simp [(hslot q).1]
  · rcases (hslot q).2 with hstate | hstate <;> simp [hstate]
  · rintro ⟨c, h⟩
    exact absurd h (hoff c q)
  · rintro ⟨p, h⟩
    exact absurd h (hfork p q)
  · exact fun _ => Or.inl (hslot q).1
  · exact fun _ _ => (hslot q).1

theorem SlotOk.not_onCpu (h : SlotOk s q) (hrunning : s.state q ≠ .running)
    (hpause : s.state q ≠ .pause) : ¬ OnCpu s q := fun hon => (h.onCpu hon).1.elim hrunning hpause

theorem SlotOk.not_forked (h : SlotOk s q) (hembryo : s.state q ≠ .embryo)
    (hpause : s.state q ≠ .pause) : ¬ Forked s q := fun hf => (h.forked hf).elim hembryo hpause

/-- A slot that a move does not touch stays in order. -/
theorem SlotOk.congr (h : SlotOk s q) (hstate : t.state q = s.state q) (hpc : t.pc q = s.pc q)
    (hon : OnCpu t q → OnCpu s q) (hfork : Forked t q → Forked s q)
    (hclear : ∀ p, t.pc p = .forkCleared q → s.pc p = .forkCleared q) : SlotOk t q where
  exited := by
    rw [hpc, hstate]
    exact h.exited
  zombie := by
    rw [hpc, hstate]
    exact h.zombie
  onCpu := by
    intro hq
    obtain ⟨hrun, hpc', hwhole⟩ := h.onCpu (hon hq)
    rw [hpc, hstate]
    exact ⟨hrun, hpc', fun hf => hwhole (hfork hf)⟩
  forked := by
    rw [hstate]
    exact fun hf => h.forked (hfork hf)
  dormant := by
    rw [hpc, hstate]
    exact fun hd => h.dormant (hd.imp id hfork)
  cleared := by
    rw [hpc]
    exact fun p hp => h.cleared p (hclear p hp)

/-- A slot with a complete process that has not exited is in order. -/
theorem slotOk_whole (hpc : s.pc q ≠ .exited) (hwhole : ¬ Forked s q) (hunused : s.state q ≠ .unused)
    (hzombie : s.state q ≠ .zombie) (hon : OnCpu s q → s.state q = .running ∨ s.state q = .pause) :
    SlotOk s q where
  exited h := absurd h hpc
  zombie h := absurd h hzombie
  onCpu h := ⟨hon h, hpc, hwhole⟩
  forked h := absurd h hwhole
  dormant h := absurd h (not_or.mpr ⟨hunused, hwhole⟩)
  cleared p h := absurd ⟨p, Or.inr h⟩ hwhole

/-! ## Moves that wake processes up -/

/-- The CPUs run the same processes. -/
def SameCpus (s t : Machine n) : Prop := ∀ c, (t.cpu c).map Running.p = (s.cpu c).map Running.p

theorem SameCpus.onCpu (h : SameCpus s t) (q : ProcSlot) : OnCpu t q ↔ OnCpu s q := by
  simp only [OnCpu, h _]

theorem forking_congr (h : t.pc = s.pc) (p q : ProcSlot) : Forking t p q ↔ Forking s p q := by
  simp only [Forking, h]

theorem forked_congr (h : t.pc = s.pc) (q : ProcSlot) : Forked t q ↔ Forked s q := by
  simp only [Forked, forking_congr h]

/-- Nothing changes but that sleeping processes become runnable. -/
theorem inv_woken (hs : Inv s) (hpc : t.pc = s.pc) (hcpu : SameCpus s t)
    (hstate : ∀ q, t.state q = s.state q ∨ s.state q = .sleeping ∧ t.state q = .runnable) :
    Inv t := by
  refine ⟨fun q => ?_, fun c d q hc hd => ?_, fun p r q hp hr => ?_⟩
  · have hslot := hs.slot q
    rcases hstate q with hsame | ⟨hsleep, hrun⟩
    · exact hslot.congr hsame (by rw [hpc]) (hcpu.onCpu q).mp (forked_congr hpc q).mp fun p h => hpc ▸ h
    · have hoff := hslot.not_onCpu (by simp [hsleep]) (by simp [hsleep])
      have hwhole := hslot.not_forked (by simp [hsleep]) (by simp [hsleep])
      refine slotOk_whole ?_ (fun h => hwhole ((forked_congr hpc q).mp h)) (by simp [hrun])
        (by simp [hrun]) fun h => absurd ((hcpu.onCpu q).mp h) hoff
      rw [hpc]
      exact fun h => (hslot.exited h).2.2 hsleep
  · rw [hcpu] at hc hd
    exact hs.cpus c d q hc hd
  · rw [forking_congr hpc] at hp hr
    exact hs.forks p r q hp hr

/-! ## Moves of one process -/

/-- `p` stays in order while it creates a process elsewhere, or moves on. -/
theorem slotOk_forker (hs : Inv s) (hon : OnCpu s p) (hstate : t.state p = s.state p)
    (hpc : t.pc p ≠ .exited) (hforked : Forked t p → Forked s p) : SlotOk t p := by
  obtain ⟨hrun, _, hwhole⟩ := (hs.slot p).onCpu hon
  refine slotOk_whole hpc (fun h => hwhole (hforked h)) ?_ ?_ fun _ => by rwa [hstate]
  · rcases hrun with hrun | hrun <;> simp [hstate, hrun]
  · rcases hrun with hrun | hrun <;> simp [hstate, hrun]

/-- A process on a CPU moves on to a point where it is not creating a process. -/
theorem inv_setPc (hs : Inv s) (hon : OnCpu s p) {x : Pc} (hx : x.Plain) : Inv (s.setPc p x) := by
  have hfork (r q : ProcSlot) (h : Forking (s.setPc p x) r q) : Forking s r q := by
    unfold Forking at h ⊢
    rw [Machine.pc_setPc] at h
    split at h
    · rcases h with rfl | rfl <;> exact hx.elim
    · exact h
  have hforked (q : ProcSlot) : Forked (s.setPc p x) q → Forked s q :=
    fun ⟨r, h⟩ => ⟨r, hfork r q h⟩
  have hclear (q r : ProcSlot) (h : (s.setPc p x).pc r = .forkCleared q) :
      s.pc r = .forkCleared q := by
    rw [Machine.pc_setPc] at h
    split at h
    · subst h
      exact hx.elim
    · exact h
  refine ⟨fun q => ?_, hs.cpus, fun r r' q h h' => hs.forks r r' q (hfork r q h) (hfork r' q h')⟩
  by_cases hq : q = p
  · subst hq
    refine slotOk_forker hs hon rfl (fun h => ?_) (hforked q)
    rw [Machine.pc_setPc, if_pos rfl] at h
    subst h
    exact hx.elim
  · exact (hs.slot q).congr rfl (by simp [Machine.pc_setPc, hq]) id (hforked q) (hclear q)

variable {x : ProcState}

/-- The state of one process changes. -/
theorem inv_setState (hs : Inv s) (hslot : SlotOk (s.setState q x) q) : Inv (s.setState q x) := by
  refine ⟨fun r => ?_, hs.cpus, hs.forks⟩
  by_cases hr : r = q
  · subst hr
    exact hslot
  · exact (hs.slot r).congr (by simp [Machine.state_setState, hr]) rfl id id fun _ h => h

/-- `pause` may overwrite any state. -/
theorem inv_pause (hs : Inv s) (q : ProcSlot) : Inv (s.setState q .pause) := by
  have hslot := hs.slot q
  have hself : (s.setState q .pause).state q = .pause := by simp [Machine.state_setState]
  refine inv_setState hs ⟨?_, ?_, ?_, ?_, ?_, ?_⟩
  · simp [hself]
  · simp [hself]
  · exact fun hon => ⟨Or.inr hself, (hslot.onCpu hon).2⟩
  · exact fun _ => Or.inr hself
  · intro h
    exact hslot.dormant (Or.inr (h.resolve_left (by simp [hself])))
  · exact hslot.cleared

theorem inv_resume (hs : Inv s) (hq : Resumable s q) : Inv (s.setState q .runnable) := by
  obtain ⟨_, hpc, hwhole, hoff⟩ := hq
  have hself : (s.setState q .runnable).state q = .runnable := by simp [Machine.state_setState]
  exact inv_setState hs (slotOk_whole hpc hwhole (by simp [hself]) (by simp [hself])
    fun hon => absurd hon hoff)

theorem onCpu_dispatch {holder : Option CString} (hcpu : s.cpu c = none) (r : ProcSlot) :
    OnCpu (s.dispatch c holder q) r ↔ r = q ∨ OnCpu s r := by
  constructor
  · rintro ⟨d, hd⟩
    by_cases hdc : d = c
    · subst hdc
      simp only [Machine.dispatch, update_self, Option.map_some, Option.some.injEq] at hd
      exact Or.inl hd.symm
    · simp only [Machine.dispatch, update_of_ne hdc] at hd
      exact Or.inr ⟨d, hd⟩
  · rintro (rfl | ⟨d, hd⟩)
    · exact ⟨c, by simp [Machine.dispatch]⟩
    · have hdc : d ≠ c := by
        rintro rfl
        rw [hcpu] at hd
        cases hd
      exact ⟨d, by simpa [Machine.dispatch, update_of_ne hdc] using hd⟩

theorem inv_dispatch (hs : Inv s) {holder : Option CString} (hcpu : s.cpu c = none)
    (hq : s.state q = .runnable) : Inv (s.dispatch c holder q) := by
  have hslot := hs.slot q
  have hoff := hslot.not_onCpu (by simp [hq]) (by simp [hq])
  have hwhole := hslot.not_forked (by simp [hq]) (by simp [hq])
  have hstate (r : ProcSlot) :
      (s.dispatch c holder q).state r = if r = q then .running else s.state r :=
    Machine.state_setState s q .running r
  refine ⟨fun r => ?_, fun d d' r hd hd' => ?_, hs.forks⟩
  · by_cases hr : r = q
    · subst hr
      have hself : (s.dispatch c holder r).state r = .running := by simp [hstate]
      exact slotOk_whole (fun h => (hslot.exited h).1 hq) hwhole (by simp [hself]) (by simp [hself])
        fun _ => Or.inl hself
    · refine (hs.slot r).congr (by simp [hstate, hr]) rfl (fun h => ?_) id fun _ h => h
      exact ((onCpu_dispatch hcpu r).mp h).resolve_left hr
  · have hother (e : Fin n) (he : e ≠ c) : (s.dispatch c holder q).cpu e = s.cpu e := by
      simp [Machine.dispatch, update_of_ne he]
    have hnew (e : Fin n) (he : ((s.dispatch c holder q).cpu e).map Running.p = some q) : e = c := by
      by_contra hec
      rw [hother e hec] at he
      exact hoff ⟨e, he⟩
    have hself : ((s.dispatch c holder q).cpu c).map Running.p = some q := by
      simp [Machine.dispatch]
    by_cases hdc : d = c
    · subst hdc
      rw [hself] at hd
      exact (hnew d' (hd ▸ hd')).symm
    · by_cases hdc' : d' = c
      · subst hdc'
        rw [hself] at hd'
        exact hnew d (hd' ▸ hd)
      · rw [hother d hdc] at hd
        rw [hother d' hdc'] at hd'
        exact hs.cpus d d' r hd hd'

/-! ### Leaving a CPU -/

theorem cpu_offCpu (s : Machine n) (c : Fin n) (run : Running) (x : ProcState) (d : Fin n) :
    (s.offCpu c run x).cpu d = if d = c then none else s.cpu d :=
  Machine.cpu_setCpu _ c none d

theorem state_offCpu (s : Machine n) (c : Fin n) (run : Running) (x : ProcState) (q : ProcSlot) :
    (s.offCpu c run x).state q = if q = run.p then x else s.state q :=
  Machine.state_setState s run.p x q

/-- The process is on no CPU afterwards, and the others stay where they are. -/
theorem onCpu_offCpu (hs : Inv s) (hcpu : s.cpu c = some run) (x : ProcState) (q : ProcSlot) :
    OnCpu (s.offCpu c run x) q ↔ q ≠ run.p ∧ OnCpu s q := by
  constructor
  · rintro ⟨d, hd⟩
    rw [cpu_offCpu] at hd
    split at hd
    · cases hd
    · next hdc =>
      refine ⟨?_, d, hd⟩
      rintro rfl
      exact hdc (hs.cpus d c run.p hd (by rw [hcpu]; rfl))
  · rintro ⟨hq, d, hd⟩
    refine ⟨d, ?_⟩
    rw [cpu_offCpu, if_neg]
    · exact hd
    · rintro rfl
      rw [hcpu] at hd
      exact hq (Option.some.inj hd).symm

theorem cpus_offCpu (hs : Inv s) (c : Fin n) (run : Running) (x : ProcState) (d d' : Fin n)
    (q : ProcSlot) (h : ((s.offCpu c run x).cpu d).map Running.p = some q)
    (h' : ((s.offCpu c run x).cpu d').map Running.p = some q) : d = d' := by
  rw [cpu_offCpu] at h h'
  split at h
  · cases h
  · split at h'
    · cases h'
    · exact hs.cpus d d' q h h'

/-- A process goes to sleep or gives the CPU away. -/
theorem inv_offCpu (hs : Inv s) (hcpu : s.cpu c = some run) (hx : x = .runnable ∨ x = .sleeping) :
    Inv (s.offCpu c run x) := by
  obtain ⟨_, hpc, hwhole⟩ := (hs.slot run.p).onCpu (onCpu_of_cpu hcpu)
  refine ⟨fun q => ?_, cpus_offCpu hs c run x, hs.forks⟩
  by_cases hq : q = run.p
  · subst hq
    have hself : (s.offCpu c run x).state run.p = x := by simp [state_offCpu]
    refine slotOk_whole hpc hwhole ?_ ?_ fun h =>
      absurd rfl ((onCpu_offCpu hs hcpu x run.p).mp h).1
    · rcases hx with rfl | rfl <;> simp [hself]
    · rcases hx with rfl | rfl <;> simp [hself]
  · refine (hs.slot q).congr (by simp [state_offCpu, hq]) rfl (fun h => ?_) id fun _ h => h
    exact ((onCpu_offCpu hs hcpu x q).mp h).2

theorem inv_exit (hs : Inv s) (hrun : Runs s c run) (hfree : s.pc run.p = .free) :
    Inv ((s.setPc run.p .exited).offCpu c run .zombie) := by
  obtain ⟨_, _, hwhole⟩ := (hs.slot run.p).onCpu hrun.onCpu
  have hon (q : ProcSlot) := onCpu_offCpu hs hrun.cpu .zombie q
  have hcpus := cpus_offCpu hs c run .zombie
  have hpc (q : ProcSlot) : ((s.setPc run.p .exited).offCpu c run .zombie).pc q =
      if q = run.p then .exited else s.pc q := Machine.pc_setPc s run.p .exited q
  have hstate (q : ProcSlot) : ((s.setPc run.p .exited).offCpu c run .zombie).state q =
      if q = run.p then .zombie else s.state q := state_offCpu (s.setPc run.p .exited) c run _ q
  replace hon (q : ProcSlot) (h : OnCpu ((s.setPc run.p .exited).offCpu c run .zombie) q) :
      q ≠ run.p ∧ OnCpu s q := (hon q).mp h
  replace hcpus (d d' : Fin n) (q : ProcSlot)
      (h : (((s.setPc run.p .exited).offCpu c run .zombie).cpu d).map Running.p = some q)
      (h' : (((s.setPc run.p .exited).offCpu c run .zombie).cpu d').map Running.p = some q) : d = d' :=
    hcpus d d' q h h'
  generalize (s.setPc run.p .exited).offCpu c run .zombie = t at *
  have hfork (r q : ProcSlot) : Forking t r q ↔ Forking s r q := by
    unfold Forking
    rw [hpc]
    split
    · next h => simp [h, hfree]
    · rfl
  have hforked (q : ProcSlot) : Forked t q ↔ Forked s q := by
    simp only [Forked, hfork]
  have hclear (q r : ProcSlot) (h : t.pc r = .forkCleared q) : s.pc r = .forkCleared q := by
    rw [hpc] at h
    split at h
    · cases h
    · exact h
  refine ⟨fun q => ?_, hcpus, fun r r' q h h' => ?_⟩
  · by_cases hq : q = run.p
    · subst hq
      refine ⟨?_, ?_, ?_, ?_, ?_, ?_⟩
      · simp [hstate]
      · simp [hpc]
      · exact fun h => absurd rfl (hon run.p h).1
      · exact fun h => absurd ((hforked _).mp h) hwhole
      · exact fun _ => Or.inr (by simp [hpc])
      · exact fun r h => absurd ⟨r, Or.inr (hclear _ r h)⟩ hwhole
    · exact (hs.slot q).congr (by simp [hstate, hq]) (by simp [hpc, hq]) (fun h => (hon q h).2)
        (hforked q).mp (hclear q)
  · exact hs.forks r r' q ((hfork r q).mp h) ((hfork r' q).mp h')

theorem inv_reap (hs : Inv s) (hq : s.state q = .zombie) : Inv (s.reap q) := by
  have hslot := hs.slot q
  have hstate (r : ProcSlot) : (s.reap q).state r = if r = q then .unused else s.state r := by
    by_cases hr : r = q
    · subst hr
      simp [Machine.reap, Machine.state, State.setProc]
    · simp [Machine.reap, Machine.state, State.setProc, hr]
  refine ⟨fun r => ?_, hs.cpus, hs.forks⟩
  by_cases hr : r = q
  · subst hr
    have hself : (s.reap r).state r = .unused := by simp [hstate]
    refine ⟨by simp [hself], by simp [hself], fun h => ?_, fun h => ?_, fun _ => ?_, hslot.cleared⟩
    · exact absurd h (hslot.not_onCpu (by simp [hq]) (by simp [hq]))
    · exact absurd h (hslot.not_forked (by simp [hq]) (by simp [hq]))
    · exact Or.inr (hslot.zombie hq)
  · exact (hs.slot r).congr (by simp [hstate, hr]) rfl id id fun _ h => h

/-! ### Creating a process -/

/-- Who creates a process is not being created itself. -/
theorem forking_ne (hs : Inv s) (hon : OnCpu s p) (hf : Forking s p q) : p ≠ q := by
  rintro rfl
  exact ((hs.slot p).onCpu hon).2.2 ⟨p, hf⟩

theorem inv_take (hs : Inv s) (hrun : Runs s c run) (hq : s.state q = .unused) :
    Inv (s.take run.p q) := by
  have hslot := hs.slot q
  have hoff := hslot.not_onCpu (by simp [hq]) (by simp [hq])
  have hwhole := hslot.not_forked (by simp [hq]) (by simp [hq])
  have hne : q ≠ run.p := fun h => hoff (h ▸ hrun.onCpu)
  generalize ht : s.take run.p q = t
  have hcpu : t.cpu = s.cpu := by rw [← ht]; rfl
  have hpcs (r : ProcSlot) : t.pc r = if r = run.p then .forkAllocated q else s.pc r := by
    simp [← ht, Machine.take, update_apply]
  have hstate (r : ProcSlot) : t.state r = if r = q then .embryo else s.state r := by
    by_cases hr : r = q
    · simp [← ht, Machine.take, Machine.state, State.setProc, hr]
    · simp [← ht, Machine.take, Machine.state, State.setProc, hr]
  have hfork (r x : ProcSlot) (h : Forking t r x) : (r = run.p ∧ x = q) ∨ Forking s r x := by
    unfold Forking at h
    rw [hpcs] at h
    split at h
    · next hr =>
      refine Or.inl ⟨hr, ?_⟩
      rcases h with h | h <;> cases h
      rfl
    · exact Or.inr h
  have hforked (x : ProcSlot) (hx : x ≠ q) : Forked t x → Forked s x := by
    rintro ⟨r, h⟩
    exact ⟨r, (hfork r x h).resolve_left fun hr => hx hr.2⟩
  have hclear (x r : ProcSlot) (h : t.pc r = .forkCleared x) : s.pc r = .forkCleared x := by
    rw [hpcs] at h
    split at h
    · cases h
    · exact h
  refine ⟨fun x => ?_, by rw [hcpu]; exact hs.cpus, fun r r' x h h' => ?_⟩
  · by_cases hx : x = q
    · subst hx
      have hself : t.state x = .embryo := by simp [hstate]
      refine ⟨by simp [hself], by simp [hself], ?_, fun _ => Or.inl hself, fun _ => ?_, ?_⟩
      · intro h
        rw [OnCpu, hcpu] at h
        exact absurd h hoff
      · rw [hpcs, if_neg hne]
        exact hslot.dormant (Or.inl hq)
      · exact fun r h => absurd ⟨r, Or.inr (hclear x r h)⟩ hwhole
    · by_cases hxp : x = run.p
      · subst hxp
        exact slotOk_forker hs hrun.onCpu (by simp [hstate, hx]) (by simp [hpcs]) (hforked _ hx)
      · refine (hs.slot x).congr (by simp [hstate, hx]) (by simp [hpcs, hxp]) (fun h => ?_)
          (hforked x hx) (hclear x)
        rw [OnCpu, hcpu] at h
        exact h
  · rcases hfork r x h with ⟨rfl, rfl⟩ | hold
    · rcases hfork r' x h' with ⟨rfl, _⟩ | hold'
      · rfl
      · exact absurd ⟨r', hold'⟩ hwhole
    · rcases hfork r' x h' with ⟨_, rfl⟩ | hold'
      · exact absurd ⟨r, hold⟩ hwhole
      · exact hs.forks r r' x hold hold'

theorem inv_clear (hs : Inv s) (hrun : Runs s c run) (hpc : s.pc run.p = .forkAllocated q) :
    Inv (s.clear run.p q) := by
  have hf : Forking s run.p q := Or.inl hpc
  have hne := forking_ne hs hrun.onCpu hf
  have hslot := hs.slot q
  have hdormant := hslot.dormant (Or.inr ⟨_, hf⟩)
  have hpcs (r : ProcSlot) : (s.clear run.p q).pc r =
      if r = run.p then .forkCleared q else if r = q then .free else s.pc r := by
    simp [Machine.clear, update_apply]
  have hstate (r : ProcSlot) : (s.clear run.p q).state r = s.state r := by
    by_cases hr : r = q
    · simp [Machine.clear, Machine.state, State.setProc, hr]
    · simp [Machine.clear, Machine.state, State.setProc, hr]
  have hfork (r x : ProcSlot) (h : Forking (s.clear run.p q) r x) : Forking s r x := by
    unfold Forking at h
    rw [hpcs] at h
    split at h
    · next hr =>
      rcases h with h | h <;> cases h
      rw [hr]
      exact hf
    · split at h
      · simp at h
      · exact h
  have hforked (x : ProcSlot) : Forked (s.clear run.p q) x → Forked s x := by
    rintro ⟨r, h⟩
    exact ⟨r, hfork r x h⟩
  refine ⟨fun x => ?_, hs.cpus, fun r r' x h h' => hs.forks r r' x (hfork r x h) (hfork r' x h')⟩
  by_cases hx : x = q
  · subst hx
    have hself : (s.clear run.p x).pc x = .free := by simp [hpcs, hne.symm]
    refine ⟨?_, ?_, ?_, ?_, fun _ => Or.inl hself, fun _ _ => hself⟩
    · simp [hself]
    · intro h
      rw [hstate] at h
      rcases hslot.forked ⟨_, hf⟩ with hst | hst <;> rw [hst] at h <;> cases h
    · exact fun h => absurd ⟨_, hf⟩ (hslot.onCpu h).2.2
    · rw [hstate]
      exact fun h => hslot.forked (hforked x h)
  · by_cases hxp : x = run.p
    · subst hxp
      exact slotOk_forker hs hrun.onCpu (hstate _) (by simp [hpcs]) (hforked _)
    · refine (hs.slot x).congr (hstate x) (by simp [hpcs, hxp, hx]) id (hforked x) fun r h => ?_
      rw [hpcs] at h
      split at h
      · cases h
        exact absurd rfl hx
      · split at h
        · cases h
        · exact h

/-- `fork` is done with slot `q`, which is free again or holds a new process. -/
theorem inv_forkEnd (hs : Inv s) (hon : OnCpu s p) (hf : Forking s p q)
    (hx : x = .unused ∨ x = .runnable ∧ s.pc q ≠ .exited)
    (hstate : ∀ r, t.state r = if r = q then x else s.state r) (hpc : t.pc = update s.pc p .free)
    (hcpu : t.cpu = s.cpu) : Inv t := by
  have hne := forking_ne hs hon hf
  have hslot := hs.slot q
  have hpcs (r : ProcSlot) : t.pc r = if r = p then .free else s.pc r := by
    simp [hpc, update_apply]
  have hfork (r y : ProcSlot) (h : Forking t r y) : r ≠ p ∧ Forking s r y := by
    unfold Forking at h
    rw [hpcs] at h
    split at h
    · simp at h
    · next hr => exact ⟨hr, h⟩
  have hforked (y : ProcSlot) : Forked t y → Forked s y := fun ⟨r, h⟩ => ⟨r, (hfork r y h).2⟩
  have hdone : ¬ Forked t q := by
    rintro ⟨r, h⟩
    obtain ⟨hr, hold⟩ := hfork r q h
    exact hr (hs.forks r p q hold hf)
  have hclear (y r : ProcSlot) (h : t.pc r = .forkCleared y) : s.pc r = .forkCleared y := by
    rw [hpcs] at h
    split at h
    · cases h
    · exact h
  refine ⟨fun y => ?_, by rw [hcpu]; exact hs.cpus, fun r r' y h h' =>
    hs.forks r r' y (hfork r y h).2 (hfork r' y h').2⟩
  by_cases hy : y = q
  · subst hy
    have hself : t.state y = x := by simp [hstate]
    have hpcy : t.pc y = s.pc y := by simp [hpcs, hne.symm]
    refine ⟨?_, ?_, ?_, fun h => absurd h hdone, ?_, ?_⟩
    · rw [hself, hpcy]
      rcases hx with rfl | ⟨rfl, hawake⟩
      · simp
      · exact fun h => absurd h hawake
    · rw [hself]
      rcases hx with rfl | ⟨rfl, _⟩ <;> simp
    · intro h
      rw [OnCpu, hcpu] at h
      exact absurd ⟨p, hf⟩ (hslot.onCpu h).2.2
    · intro _
      rw [hpcy]
      exact hslot.dormant (Or.inr ⟨p, hf⟩)
    · exact fun r h => absurd ⟨r, Or.inr h⟩ hdone
  · by_cases hyp : y = p
    · subst hyp
      exact slotOk_forker hs hon (by simp [hstate, hy]) (by simp [hpcs]) (hforked _)
    · refine (hs.slot y).congr (by simp [hstate, hy]) (by simp [hpcs, hyp]) (fun h => ?_) (hforked y)
        (hclear y)
      rw [OnCpu, hcpu] at h
      exact h

/-! ## Every step -/

/-- Nothing changes that the invariant speaks of. -/
theorem inv_same (hs : Inv s) (hpc : t.pc = s.pc) (hcpu : t.cpu = s.cpu)
    (hstate : ∀ q, t.state q = s.state q) : Inv t :=
  inv_woken hs hpc (fun c => by rw [hcpu]) fun q => Or.inl (hstate q)

theorem state_wakeup1 (s : Machine n) (ch : Chan) (q : ProcSlot) :
    (s.wakeup1 ch).state q = s.state q ∨
      s.state q = .sleeping ∧ (s.wakeup1 ch).state q = .runnable := by
  by_cases h : s.state q = .sleeping ∧ s.chan q = some ch
  · refine Or.inr ⟨h.1, ?_⟩
    change (s.woken ch q).state = .runnable
    rw [Machine.woken, if_pos h]
  · refine Or.inl ?_
    change (s.woken ch q).state = s.state q
    rw [Machine.woken, if_neg h]
    rfl

theorem resumes_eq (hrun : Runs s c run) {nm : CString} {k : Nat}
    (hpc : s.pc run.p = .resuming nm k true) : resumes s c = slotAt k := by
  simp [resumes, hrun.cpu, hpc]

theorem ResumeOk.resumable (h : ResumeOk s (.loop c)) (hrun : Runs s c run) {nm : CString}
    (hpc : s.pc run.p = .resuming nm q true) : Resumable s q :=
  h q (by rw [resumes_eq hrun hpc, slotAt_eq_some])

/-- Every move keeps the invariant, if the stores of `resume` are in order. -/
theorem keeps_inv : Keeps (n := n) ResumeOk Inv where
  wakeup s ch hs := inv_woken hs rfl (fun _ => rfl) (state_wakeup1 s ch)
  dispatch _ _ _ _ hs hcpu hq := inv_dispatch hs hcpu hq
  tick s c run hs hrun := by
    refine inv_woken hs rfl (fun d => ?_) fun q => Or.inl rfl
    rw [Machine.tick, Machine.cpu_setCpu]
    split
    · next hd => rw [hd, hrun.cpu]; rfl
    · rfl
  yield _ _ _ hs hcpu := inv_offCpu hs hcpu (Or.inl rfl)
  sleep s c run ch hs hrun := by
    have hchan : Inv (s.setChan run.p (some ch)) := inv_same hs rfl rfl fun _ => rfl
    exact inv_offCpu hchan hrun.cpu (Or.inr rfl)
  parents _ _ hs := inv_same hs rfl rfl fun _ => rfl
  exit _ _ _ hs hrun hpc := inv_exit hs hrun hpc
  reap _ _ hs hq := inv_reap hs hq
  goes _ _ _ _ hs hrun hx := inv_setPc hs hrun.onCpu hx
  take _ _ _ _ _ hs _ hrun _ hq := inv_take hs hrun hq
  clear _ _ _ _ hs hrun hpc := inv_clear hs hrun hpc
  giveUp s _ _ q hs hrun hpc :=
    inv_forkEnd hs hrun.onCpu hpc (Or.inl rfl) (Machine.state_setState s q .unused) rfl rfl
  hatch s c run q hs hrun hpc := by
    have hfree := (hs.slot q).cleared run.p hpc
    refine inv_forkEnd hs hrun.onCpu (Or.inr hpc) (Or.inr ⟨rfl, by simp [hfree]⟩) (fun r => ?_) rfl rfl
    by_cases hr : r = q
    · simp [Machine.hatch, Machine.state, State.setProc, hr]
    · simp [Machine.hatch, Machine.state, State.setProc, hr]
  pauses _ q hs := inv_pause hs q
  resumes _ _ _ _ _ hs hok hrun hpc := inv_resume hs (hok.resumable hrun hpc)
  kills s p pid hs := inv_woken hs rfl (fun _ => rfl) (kill_state s.cs p pid)
  joins s p a hs := by
    refine inv_same hs rfl rfl fun q => ?_
    by_cases hq : q = p
    · simp [Machine.joins, Machine.state, State.setProc, hq]
    · simp [Machine.joins, Machine.state, State.setProc, hq]
  table _ _ hs := inv_same hs rfl rfl fun _ => rfl
  store _ _ hs := inv_same hs rfl rfl fun _ => rfl

end Moves

theorem inv_run {es : List (Event n)} (hboot : Boot s)
    (hok : Always step ResumeOk s es) (hrun : run step s es = some t) : Inv t :=
  run_invariant (fun _ _ _ hs hC h => keeps_inv.step hs hC h) (inv_boot hboot) hok hrun

/-! ## Becoming runnable -/

/-- The states from which a process may become runnable. -/
def MayRun (s : Machine n) (q : ProcSlot) : Prop :=
  s.state q ∈ [.runnable, .embryo, .running, .sleeping] ∨ s.state q = .pause ∧ s.pc q ≠ .exited

/-- A step makes a process runnable that is being created, runs, sleeps, or is paused and has not
exited. -/
theorem mayRun_step (hs : Inv s) (hok : ResumeOk s e) (h : step s e = some t)
    (hq : t.state q = .runnable) : MayRun s q := by
  have hslot := hs.slot q
  have hturn := turn_step h q
  rw [Machine.state] at hq
  generalize t.cs.proc q = x at hq hturn
  cases hturn with
  | same | cleared _ _ _ _ _ | moved _ _ _ _ _ _ _ _ =>
    exact Or.inl (List.mem_cons.mpr (Or.inl hq))
  | woken hsleep => exact Or.inl (by simp [hsleep])
  | killed _ =>
    simp only [markKilled] at hq
    split at hq
    · next hsleep => exact Or.inl (by simp [Machine.state, hsleep])
    · exact Or.inl (by simp [Machine.state, hq])
  | left hon x _ =>
    obtain ⟨hrun, hpc, _⟩ := hslot.onCpu hon
    exact hrun.imp (fun hrun => by simp [hrun]) fun hpause => ⟨hpause, hpc⟩
  | hatched c run _ _ hpc =>
    refine (hslot.forked ⟨run.p, Or.inr hpc⟩).imp (fun hembryo => by simp [hembryo]) fun hpause => ?_
    exact ⟨hpause, by simp [hslot.cleared run.p hpc]⟩
  | resumed c run nm he hrun hpc =>
    subst he
    obtain ⟨hstate, hexit, _⟩ := hok.resumable hrun hpc
    simp only [List.mem_cons, List.not_mem_nil, or_false] at hstate
    rcases hstate with hstate | hstate | hstate
    · exact Or.inr ⟨hstate, hexit⟩
    · exact Or.inl (by simp [hstate])
    · exact Or.inl (by simp [hstate])
  | _ => cases hq

/-! ## Contexts -/

/-- A process that has exited stays where it is until its slot gets a new context. -/
theorem exited_step (h : step s e = some t) (hq : s.pc q = .exited) :
    t.pc q = .exited ∨ ∃ p, s.pc p = .forkAllocated q := by
  cases pcTurn_step h q with
  | same heq => exact Or.inl (heq.trans hq)
  | renewed _ p hp => exact Or.inr ⟨p, hp⟩
  | exits heq _ => exact Or.inl heq
  | forkOver _ hp =>
    rw [hq] at hp
    rcases hp with hp | ⟨r, hp⟩
    · cases hp
    · rw [Forking, hq] at hp
      rcases hp with hp | hp <;> cases hp
  | forkEnters _ hp | allocates _ _ hp _ _ | clears _ _ hp | enters _ _ _ _ _ _ hp _ =>
    rw [hq] at hp
    cases hp
  | loops _ _ _ _ _ hloop =>
    rw [Machine.loop, hq] at hloop
    cases hloop

/-- In every run in which `resume` only makes runnable what may be made runnable, a process that
has exited is not runnable, running or asleep and on no CPU, and stays so until its slot is given
to a new process; and a process becomes runnable only while it is being created, runs, sleeps or
is paused and has not exited. -/
theorem zombie_never_runs {s t : Machine n} {es : List (Event n)} (hboot : Boot s)
    (hok : Always step ResumeOk s es) (hrun : run step s es = some t) :
    (∀ q, t.state q = .zombie → t.pc q = .exited) ∧
    (∀ q, t.pc q = .exited → t.state q ≠ .runnable ∧ t.state q ≠ .running ∧ t.state q ≠ .sleeping ∧
      ¬ OnCpu t q) ∧
    ∀ e u, ResumeOk t e → step t e = some u → ∀ q,
      (t.pc q = .exited → u.pc q = .exited ∨ ∃ p, t.pc p = .forkAllocated q) ∧
      (u.state q = .runnable → MayRun t q) := by
  have hinv := inv_run hboot hok hrun
  have hoff (q : ProcSlot) (hq : t.pc q = .exited) : ¬ OnCpu t q :=
    fun hon => ((hinv.slot q).onCpu hon).2.1 hq
  refine ⟨fun q => (hinv.slot q).zombie, fun q hq => ?_, fun e u he hu q => ⟨fun hq => ?_, ?_⟩⟩
  · obtain ⟨hrunnable, hrunning, hsleeping⟩ := (hinv.slot q).exited hq
    exact ⟨hrunnable, hrunning, hsleeping, hoff q hq⟩
  · exact exited_step hu hq
  · exact mayRun_step hinv he hu

/-- The first process after boot, on a machine with one CPU. -/
def bootMachine : Machine 1 where
  cs :=
    { proc := update (fun _ => ⟨.unused, 0, false, none⟩) initproc
        ⟨.runnable, 1, false, none⟩
      table := Container.containerInit fun _ => 0
      low := fun _ => emptyName }
  nextpid := 2
  parent := fun _ => none
  chan := fun _ => none
  pc := fun _ => .free
  cpu := fun _ => none

/-- The name of a container. -/
def contName : CString := ofBytes [99]

/-- The first process names a container, forks, and its child enters the container. -/
def childInContainer : List (Event 1) :=
  [.pass 0 1, .call 0 (.setName contName 0), .fork 0 true, .fork 0 true, .fork 0 true, .fork 0 true,
    .timer 0, .yield 0, .call 0 (.contProcSet 0)]

/-- A call of `pause` or `resume` by the process on the CPU, with the loop it runs. -/
def withLoop (call : Call) : List (Event 1) := .call 0 call :: List.replicate 66 (.loop 0)

/-- A child that is preempted, paused and resumed runs on, exits and is reaped. -/
def pausedAndReaped : List (Event 1) :=
  childInContainer ++ [.timer 0, .yield 0, .pass 0 0] ++ withLoop (.pause contName) ++
    withLoop (.resume contName) ++ [.timer 0, .yield 0, .pass 0 1, .exit 0, .pass 0 0, .wait 0]

theorem zombie_never_runs_pausedAndReaped :
    ∃ t, run step bootMachine pausedAndReaped = some t ∧ t.pc 1 = .exited ∧ ¬ OnCpu t 1 := by
  obtain ⟨t, ht, hpc⟩ := Option.map_eq_some_iff.mp
    (by decide +kernel : (run step bootMachine pausedAndReaped).map (fun t => t.pc 1) = some .exited)
  have hall := zombie_never_runs (s := bootMachine) (by unfold Boot; decide +kernel)
    (by decide +kernel) ht
  exact ⟨t, ht, hpc, (hall.2.1 1 hpc).2.2.2⟩

/-- A child that exits, is paused and resumed runs again behind its own `exit`. -/
theorem zombie_runs_again :
    ∃ t, run step bootMachine (childInContainer ++ [.exit 0, .pass 0 0] ++
        withLoop (.pause contName) ++ withLoop (.resume contName) ++
        [.timer 0, .yield 0, .pass 0 1]) = some t ∧
      t.pc 1 = .exited ∧ t.state 1 = .running ∧ OnCpu t 1 := by
  obtain ⟨t, ht, hstate⟩ := Option.map_eq_some_iff.mp
    (by decide +kernel : (run step bootMachine (childInContainer ++ [.exit 0, .pass 0 0] ++
        withLoop (.pause contName) ++ withLoop (.resume contName) ++
        [.timer 0, .yield 0, .pass 0 1])).map
      (fun t => decide (t.pc 1 = .exited ∧ t.state 1 = .running ∧ OnCpu t 1)) = some true)
  exact ⟨t, ht, of_decide_eq_true hstate⟩

end Process

end Xv6Containers
