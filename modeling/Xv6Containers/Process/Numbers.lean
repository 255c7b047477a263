import Xv6Containers.Process.Lifecycle

/-!
# Process numbers and channels

Numbers are given out once, and a process sleeps on a channel exactly while it
is on no CPU. Both hold along every run in which `resume` stores to nothing that
it may not make runnable.
-/

namespace Xv6Containers

open Lib.Memory Lib.Strings Lib.Search Function

namespace Process

open Container

variable {n : Nat} {s t : Machine n} {e : Event n} {c : Fin n} {run : Running} {p q : ProcSlot}

/-! ## Process numbers -/

/-- Numbers are given out once. The number `0` stands for none. -/
structure PidsOk (s : Machine n) : Prop where
  next : 0 < s.nextpid
  range : ∀ q, 0 ≤ (s.cs.proc q).pid ∧ (s.cs.proc q).pid < s.nextpid
  distinct : ∀ q r, (s.cs.proc q).pid = (s.cs.proc r).pid → (s.cs.proc q).pid ≠ 0 → q = r

theorem pidsOk_bootMachine : PidsOk bootMachine where
  next := by decide
  range := by decide +kernel
  distinct := by decide +kernel

theorem PidsOk.congr (h : PidsOk s) (hnext : t.nextpid = s.nextpid)
    (hpid : ∀ q, (t.cs.proc q).pid = (s.cs.proc q).pid) : PidsOk t := by
  refine ⟨by rw [hnext]; exact h.next, fun q => ?_, fun q r => ?_⟩
  · rw [hnext, hpid]
    exact h.range q
  · rw [hpid, hpid]
    exact h.distinct q r

theorem pid_setProc {s : State} {x : Proc} (hx : x.pid = (s.proc q).pid) (r : ProcSlot) :
    ((s.setProc q x).proc r).pid = (s.proc r).pid := by
  by_cases hr : r = q
  · subst hr
    simpa [State.setProc] using hx
  · simp [State.setProc, hr]

theorem kill_pid (s : State) (me : ProcSlot) (pid : Int) (q : ProcSlot) :
    ((kill s me pid).proc q).pid = (s.proc q).pid := by
  unfold kill
  split
  · rfl
  · split
    · rfl
    · exact pid_setProc (by rfl) q

theorem pidsOk_reap (h : PidsOk s) (q : ProcSlot) : PidsOk (s.reap q) := by
  have hpid (r : ProcSlot) : ((s.reap q).cs.proc r).pid = if r = q then 0 else (s.cs.proc r).pid := by
    by_cases hr : r = q
    · subst hr
      simp [Machine.reap, State.setProc]
    · simp [Machine.reap, State.setProc, hr]
  refine ⟨h.next, fun r => ?_, fun r r' => ?_⟩
  · rw [hpid]
    split
    · exact ⟨le_refl 0, h.next⟩
    · exact h.range r
  · rw [hpid, hpid]
    split
    · exact fun _ hne => absurd rfl hne
    · split
      · exact fun heq hne => absurd heq hne
      · exact h.distinct r r'

theorem pidsOk_take (h : PidsOk s) (p q : ProcSlot) : PidsOk (s.take p q) := by
  have hpid (r : ProcSlot) : ((s.take p q).cs.proc r).pid =
      if r = q then s.nextpid else (s.cs.proc r).pid := by
    by_cases hr : r = q
    · simp [Machine.take, State.setProc, hr]
    · simp [Machine.take, State.setProc, hr]
  have hnext : (s.take p q).nextpid = s.nextpid + 1 := rfl
  have hpos := h.next
  refine ⟨by omega, fun r => ?_, fun r r' heq hne => ?_⟩
  · have hrange := h.range r
    rw [hpid]
    split <;> omega
  · have hrange := h.range r
    have hrange' := h.range r'
    rw [hpid] at heq hne
    rw [hpid] at heq
    split at heq <;> split at heq
    · next hr hr' => rw [hr, hr']
    · omega
    · omega
    · next hr _ =>
      rw [if_neg hr] at hne
      exact h.distinct r r' heq hne

/-- The process numbers stay in order, and the next one never falls. -/
theorem keeps_pids (low : Int) :
    Keeps (n := n) (fun _ _ => True) fun s => PidsOk s ∧ low ≤ s.nextpid where
  wakeup s ch h := by
    refine ⟨h.1.congr rfl fun q => ?_, h.2⟩
    rcases wakeup1_proc s ch q with hq | ⟨_, hq⟩ <;> rw [hq]
  dispatch _ _ _ _ h _ _ := ⟨h.1.congr rfl (pid_setProc (by rfl)), h.2⟩
  tick _ _ _ h _ := ⟨h.1.congr rfl fun _ => rfl, h.2⟩
  yield _ _ _ h _ := ⟨h.1.congr rfl (pid_setProc (by rfl)), h.2⟩
  sleep _ _ _ _ h _ := ⟨h.1.congr rfl (pid_setProc (by rfl)), h.2⟩
  parents _ _ h := ⟨h.1.congr rfl fun _ => rfl, h.2⟩
  exit _ _ _ h _ _ := ⟨h.1.congr rfl (pid_setProc (by rfl)), h.2⟩
  reap _ q h _ := ⟨pidsOk_reap h.1 q, h.2⟩
  goes _ _ _ _ h _ _ := ⟨h.1.congr rfl fun _ => rfl, h.2⟩
  take _ _ run _ q h _ _ _ _ := ⟨pidsOk_take h.1 run.p q, h.2.trans (Int.le_add_one (le_refl _))⟩
  clear _ _ _ _ h _ _ := ⟨h.1.congr rfl (pid_setProc (by rfl)), h.2⟩
  giveUp _ _ _ _ h _ _ := ⟨h.1.congr rfl (pid_setProc (by rfl)), h.2⟩
  hatch _ _ _ _ h _ _ := ⟨h.1.congr rfl (pid_setProc (by rfl)), h.2⟩
  pauses _ _ h := ⟨h.1.congr rfl (pid_setProc (by rfl)), h.2⟩
  resumes _ _ _ _ _ h _ _ _ := ⟨h.1.congr rfl (pid_setProc (by rfl)), h.2⟩
  kills _ _ _ h := ⟨h.1.congr rfl (kill_pid _ _ _), h.2⟩
  joins _ _ _ h := ⟨h.1.congr rfl (pid_setProc (by rfl)), h.2⟩
  table _ _ h := ⟨h.1.congr rfl fun _ => rfl, h.2⟩
  store _ _ h := ⟨h.1.congr rfl fun _ => rfl, h.2⟩

theorem pids_step (hs : PidsOk s) (h : step s e = some t) :
    PidsOk t ∧ s.nextpid ≤ t.nextpid :=
  (keeps_pids s.nextpid).step ⟨hs, le_refl _⟩ trivial h

/-! ## Channels -/

/-- A process that sleeps has a channel; one that is on a CPU has none. -/
structure ChanOk (s : Machine n) : Prop where
  onCpu : ∀ q, OnCpu s q → s.chan q = none
  sleeping : ∀ q, s.state q = .sleeping → s.chan q ≠ none

theorem chanOk_boot (hboot : Boot s) : ChanOk s := by
  refine ⟨fun q hq => ?_, fun q hq => ?_⟩
  · obtain ⟨c, hc⟩ := hq
    rw [hboot.1 c] at hc
    cases hc
  · rcases (hboot.2 q).2 with h | h <;> rw [h] at hq <;> cases hq

theorem ChanOk.congr (h : ChanOk s) (hchan : t.chan = s.chan)
    (hcpu : ∀ q, OnCpu t q → OnCpu s q) (hstate : ∀ q, t.state q = .sleeping → s.state q = .sleeping) :
    ChanOk t := by
  refine ⟨fun q hq => ?_, fun q hq => ?_⟩
  · rw [hchan]
    exact h.onCpu q (hcpu q hq)
  · rw [hchan]
    exact h.sleeping q (hstate q hq)

theorem sleeping_setState {r : ProcSlot} {x : ProcState} (hx : x ≠ .sleeping)
    (h : (s.setState q x).state r = .sleeping) : s.state r = .sleeping := by
  rw [Machine.state_setState] at h
  split at h
  · exact absurd h hx
  · exact h

/-- Nothing changes but processes, and none goes to sleep. -/
theorem ChanOk.setProc (h : ChanOk s) {x : Proc} (hcs : t.cs = s.cs.setProc q x)
    (hchan : t.chan = s.chan) (hcpu : t.cpu = s.cpu)
    (hx : x.state ≠ .sleeping ∨ x.state = s.state q) : ChanOk t := by
  refine h.congr hchan (fun r hr => by rwa [OnCpu, hcpu] at hr) fun r hr => ?_
  rw [Machine.state, hcs] at hr
  by_cases hrq : r = q
  · subst hrq
    simp only [State.setProc, update_self] at hr
    exact (hx.resolve_left fun hno => hno hr).symm.trans hr
  · simpa [Machine.state, State.setProc, hrq] using hr

theorem offCpu_onCpu {x : ProcState} (h : OnCpu (s.offCpu c run x) q) : OnCpu s q := by
  obtain ⟨d, hd⟩ := h
  by_cases hdc : d = c
  · subst hdc
    simp [Machine.offCpu, Machine.setCpu] at hd
  · simp only [Machine.offCpu, Machine.setCpu, update_of_ne hdc] at hd
    exact ⟨d, hd⟩

theorem chanOk_dispatch (h : ChanOk s) (holder : Option CString) (q : ProcSlot) :
    ChanOk (s.dispatch c holder q) := by
  refine ⟨fun r hr => ?_, fun r hr => ?_⟩
  · by_cases hrq : r = q
    · subst hrq
      simp [Machine.dispatch]
    · obtain ⟨d, hd⟩ := hr
      have hdc : d ≠ c := by
        rintro rfl
        simp only [Machine.dispatch, update_self, Option.map_some, Option.some.injEq] at hd
        exact hrq hd.symm
      simp only [Machine.dispatch, update_of_ne hdc] at hd
      simp only [Machine.dispatch, update_of_ne hrq]
      exact h.onCpu r ⟨d, hd⟩
  · have hsleep := sleeping_setState (s := s) (q := q) (by decide) hr
    have hrq : r ≠ q := by
      rintro rfl
      have hself : (s.setState r .running).state r = .sleeping := hr
      rw [Machine.state_setState, if_pos rfl] at hself
      cases hself
    simp only [Machine.dispatch, update_of_ne hrq]
    exact h.sleeping r hsleep

/-- A process goes to sleep and leaves its only CPU. -/
theorem chanOk_sleep (hinv : Inv s) (h : ChanOk s) (hcpu : s.cpu c = some run) (ch : Chan) :
    ChanOk ((s.setChan run.p (some ch)).offCpu c run .sleeping) := by
  refine ⟨fun q hq => ?_, fun q hq => ?_⟩
  · have hne : q ≠ run.p := by
      rintro rfl
      obtain ⟨d, hd⟩ := hq
      have hdc : d ≠ c := by
        rintro rfl
        simp [Machine.offCpu, Machine.setCpu] at hd
      simp only [Machine.offCpu, Machine.setCpu, Machine.setState, Machine.setChan,
        update_of_ne hdc] at hd
      exact hdc (hinv.cpus d c run.p hd (by rw [hcpu]; rfl))
    simp only [Machine.offCpu, Machine.setCpu, Machine.setState, Machine.setChan,
      update_of_ne hne]
    exact h.onCpu q (offCpu_onCpu (s := s.setChan run.p (some ch)) hq)
  · by_cases hne : q = run.p
    · subst hne
      simp [Machine.offCpu, Machine.setCpu, Machine.setState, Machine.setChan]
    · simp only [Machine.offCpu, Machine.setCpu, Machine.setState, Machine.setChan,
        update_of_ne hne]
      refine h.sleeping q ?_
      simpa [Machine.state, Machine.offCpu, Machine.setCpu, Machine.setState, Machine.setChan,
        State.setProc, hne] using hq

theorem kill_sleeping {s : State} {me : ProcSlot} {pid : Int}
    (h : ((kill s me pid).proc q).state = .sleeping) : (s.proc q).state = .sleeping := by
  rcases kill_state s me pid q with hq | ⟨hq, _⟩
  · rw [← hq]
    exact h
  · exact hq

theorem keeps_chan : Keeps (n := n) ResumeOk fun s => Inv s ∧ ChanOk s where
  wakeup s ch h := by
    refine ⟨keeps_inv.wakeup s ch h.1, h.2.congr rfl (fun _ hq => hq) fun q hq => ?_⟩
    rcases wakeup1_proc s ch q with hsame | ⟨hsleep, _⟩
    · rw [Machine.state, hsame] at hq
      exact hq
    · exact hsleep
  dispatch s c holder q h hcpu hstate :=
    ⟨keeps_inv.dispatch s c holder q h.1 hcpu hstate, chanOk_dispatch h.2 holder q⟩
  tick s c run h hrun :=
    ⟨keeps_inv.tick s c run h.1 hrun, h.2.congr rfl (fun _ => tick_onCpu hrun.cpu) fun _ hq => hq⟩
  yield s c run h hcpu :=
    ⟨keeps_inv.yield s c run h.1 hcpu,
      h.2.congr rfl (fun _ => offCpu_onCpu) fun _ hq => sleeping_setState (by decide) hq⟩
  sleep s c run ch h hrun := ⟨keeps_inv.sleep s c run ch h.1 hrun, chanOk_sleep h.1 h.2 hrun.cpu ch⟩
  parents s f h := ⟨keeps_inv.parents s f h.1, h.2.congr rfl (fun _ hq => hq) fun _ hq => hq⟩
  exit s c run h hrun hpc :=
    ⟨keeps_inv.exit s c run h.1 hrun hpc,
      h.2.congr rfl (fun _ => offCpu_onCpu (s := s.setPc run.p .exited)) fun _ hq =>
        sleeping_setState (s := s.setPc run.p .exited) (by decide) hq⟩
  reap s q h hstate :=
    ⟨keeps_inv.reap s q h.1 hstate, h.2.setProc rfl rfl rfl (Or.inl (by simp))⟩
  goes s c run x h hrun hx :=
    ⟨keeps_inv.goes s c run x h.1 hrun hx, h.2.congr rfl (fun _ hq => hq) fun _ hq => hq⟩
  take s c run ok q h hC hrun hpc hq :=
    ⟨keeps_inv.take s c run ok q h.1 hC hrun hpc hq, h.2.setProc rfl rfl rfl (Or.inl (by simp))⟩
  clear s c run q h hrun hpc :=
    ⟨keeps_inv.clear s c run q h.1 hrun hpc, h.2.setProc rfl rfl rfl (Or.inr rfl)⟩
  giveUp s c run q h hrun hpc :=
    ⟨keeps_inv.giveUp s c run q h.1 hrun hpc, h.2.setProc rfl rfl rfl (Or.inl (by simp))⟩
  hatch s c run q h hrun hpc :=
    ⟨keeps_inv.hatch s c run q h.1 hrun hpc, h.2.setProc rfl rfl rfl (Or.inl (by simp))⟩
  pauses s q h := ⟨keeps_inv.pauses s q h.1, h.2.setProc rfl rfl rfl (Or.inl (by simp))⟩
  resumes s c run nm q h hC hrun hpc :=
    ⟨keeps_inv.resumes s c run nm q h.1 hC hrun hpc, h.2.setProc rfl rfl rfl (Or.inl (by simp))⟩
  kills s p pid h :=
    ⟨keeps_inv.kills s p pid h.1, h.2.congr rfl (fun _ hq => hq) fun _ hq => kill_sleeping hq⟩
  joins s p a h := ⟨keeps_inv.joins s p a h.1, h.2.setProc rfl rfl rfl (Or.inr rfl)⟩
  table s m h := ⟨keeps_inv.table s m h.1, h.2.congr rfl (fun _ hq => hq) fun _ hq => hq⟩
  store s low h := ⟨keeps_inv.store s low h.1, h.2.congr rfl (fun _ hq => hq) fun _ hq => hq⟩

end Process

end Xv6Containers
