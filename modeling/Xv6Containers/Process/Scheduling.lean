import Xv6Containers.Process.Choice
import Xv6Containers.Process.Numbers

/-!
# Who the scheduler can choose

`get_cticks` compares the ticks of every container in use with those of record
0, also when record 0 is not in use, and gives up when no container is in use. A
process of a container gets a turn from passes and ticks alone if every
container in use has a process that can take its own turns; a process of a
container that was stopped may never get one.

## Implementation notes

A timer interrupt and the `yield` that follows it are two events. The proof
first empties all CPUs and then works with one of them: the container that
`get_cticks` returns runs until its processes have all used a tick.
-/

namespace Xv6Containers

open Lib.Memory Lib.Strings Lib.Search Lib.Runs Function

open scoped BigOperators

namespace Process

open Container

variable {n : Nat}

/-- A pass of the scheduler or a timer interrupt. -/
def IsTick : Event n → Prop
  | .pass _ _ | .timer _ | .yield _ => True
  | _ => False

/-- The machine gets from `s` to `t` by passes and ticks. -/
def Reaches (s t : Machine n) : Prop := ∃ es, (∀ e ∈ es, IsTick e) ∧ run step s es = some t

/-- `get_cticks` serves process `p` when `rand` returns `r`. -/
def Selects (s : Machine n) (r : Fin 7) (p : ProcSlot) : Prop :=
  match (s.cs.proc p).cont with
  | none => getCticks s.cs.table r = none
  | some a => ∃ i, getCticks s.cs.table r = some i ∧ name s.cs.table i = name s.cs.table a

/-- Passes and ticks lead to a pass that serves process `p`. -/
def Served (s : Machine n) (p : ProcSlot) : Prop :=
  ∃ t c r, Reaches s t ∧ (∃ u, step t (.pass c r) = some u) ∧ Selects t r p

/-- `containers[i].ticks`. -/
def clock (s : Machine n) (i : Cont) : Int := intField s.cs.table i .ticks

/-- The process runs or can be picked. -/
def Able (s : Machine n) (q : ProcSlot) : Prop :=
  s.state q = .runnable ∨ OnCpu s q ∧ s.state q = .running

/-- Ticks by which the clocks of `a` and record 0 stay ahead of every container that may have to
catch up. -/
def horizon (s : Machine n) (a : Cont) : Int := max (clock s 0) (clock s a) + (n + 1) * nproc

/-- Every other container in use that may have to catch up has a process that can take a turn, no
clock is about to overflow, and the names fit the scheduler's buffer. A process of container `a`
relies on record 0: `a` is in use and so is record 0, or the two have the same name. -/
structure TurnsTaken (s : Machine n) (a : Cont) : Prop where
  names : NamesOk s.cs.table
  short : ∀ i, InUse s.cs.table i → strlen (name s.cs.table i) < schedulerName
  low : ∀ i, clock s i + (n + 3) * nproc < 2147483648
  some_inUse : ∃ i, InUse s.cs.table i
  able : ∀ i, InUse s.cs.table i → i ≠ a → clock s i < horizon s a →
    ∃ q, Able s q ∧ (s.cs.proc q).cont = some i
  first : name s.cs.table a = name s.cs.table 0 ∨ InUse s.cs.table a ∧ InUse s.cs.table 0

/-! ## Sequences of passes and ticks -/

theorem Reaches.refl (s : Machine n) : Reaches s s := ⟨[], by simp, rfl⟩

variable {s t u : Machine n} {p : ProcSlot} {c : Fin n} {j : Cont} {lim top : Int}

theorem Reaches.trans (h : Reaches s t) (h' : Reaches t u) : Reaches s u := by
  obtain ⟨es, hes, ht⟩ := h
  obtain ⟨fs, hfs, hu⟩ := h'
  refine ⟨es ++ fs, fun e he => ?_, (run_append_eq_some step).mpr ⟨t, ht, hu⟩⟩
  rcases List.mem_append.mp he with he | he
  · exact hes e he
  · exact hfs e he

theorem Reaches.single {e : Event n} (he : IsTick e) (h : step s e = some t) : Reaches s t := by
  refine ⟨[e], by simpa using he, ?_⟩
  rw [run_cons_eq_some]
  exact ⟨t, h, rfl⟩

/-! ## Emptying a CPU -/

/-- Nothing happens to the processes but that some wake up. -/
structure Woken (s t : Machine n) : Prop where
  cont : ∀ q, (t.cs.proc q).cont = (s.cs.proc q).cont
  state : ∀ q, t.state q = s.state q ∨ s.state q = .sleeping ∧ t.state q = .runnable

/-- Process `p` becomes runnable, and otherwise nothing happens but that some processes wake up. -/
structure Preempted (s t : Machine n) (p : ProcSlot) : Prop where
  cont : ∀ q, (t.cs.proc q).cont = (s.cs.proc q).cont
  self : t.state p = .runnable
  others : ∀ q, q ≠ p → t.state q = s.state q ∨ s.state q = .sleeping ∧ t.state q = .runnable

theorem woken_wakeup1 (s : Machine n) (ch : Chan) : Woken s (s.wakeup1 ch) := by
  refine ⟨fun q => ?_, fun q => ?_⟩
  · rcases wakeup1_proc s ch q with h | ⟨_, h⟩ <;> rw [h]
  · rcases wakeup1_proc s ch q with h | ⟨hsleep, h⟩
    · exact Or.inl (by rw [Machine.state, h]; rfl)
    · exact Or.inr ⟨hsleep, by rw [Machine.state, h]⟩

theorem Woken.preempted (h : Woken s t) (h' : Preempted t u p) : Preempted s u p := by
  refine ⟨fun q => (h'.cont q).trans (h.cont q), h'.self, fun q hq => ?_⟩
  rcases h'.others q hq with hu | ⟨hsleep, hu⟩
  · rw [hu]
    exact h.state q
  · rcases h.state q with ht | ⟨_, ht⟩
    · exact Or.inr ⟨ht.symm.trans hsleep, hu⟩
    · rw [ht] at hsleep
      cases hsleep

/-- What a tick for process `p` makes of the clocks. -/
theorem clock_ticked (hu : u.cs.table = s.ticked p) (hfits : ∀ i, NameFits s.cs.table i)
    (hlow : ∀ i, clock s i + 1 < 2147483648) :
    SameNames s.cs.table u.cs.table ∧
      ∀ i, clock u i = clock s i + if (s.cs.proc p).cont = some i then 1 else 0 := by
  unfold Machine.ticked at hu
  split at hu
  · next hnone =>
    rw [hu]
    refine ⟨⟨fun _ => rfl, hfits⟩, fun i => ?_⟩
    rw [hnone, if_neg (by simp), clock, clock, hu, Int.add_zero]
  · next a ha =>
    rw [hu]
    refine ⟨sameNames_writeWord_of_fits hfits a .ticks _, fun i => ?_⟩
    rw [ha, clock, hu]
    by_cases hi : a = i
    · subst hi
      rw [if_pos rfl]
      have hrange := intField_range s.cs.table a .ticks
      have hlow := hlow a
      rw [clock] at hlow
      exact intField_addField _ _ _ _ (by omega) hlow
    · rw [if_neg (by simpa using hi), Int.add_zero]
      exact intField_addField_of_ne _ _ fun h => absurd h.symm hi

/-- The CPU loses its process, which goes on being runnable. The clock of its container advances,
unless the timer had already charged it. -/
structure Freed (s u : Machine n) (c : Fin n) (run : Running) : Prop where
  cpu : u.cpu = update s.cpu c none
  preempted : Preempted s u run.p
  table : u.cs.table = s.cs.table ∧ run.resched = true ∨ u.cs.table = s.ticked run.p

theorem freed_offCpu (s : Machine n) (c : Fin n) (run : Running) (hre : run.resched = true) :
    Freed s (s.offCpu c run .runnable) c run := by
  have hstate (q : ProcSlot) : (s.offCpu c run .runnable).state q =
      if q = run.p then .runnable else s.state q := Machine.state_setState s run.p .runnable q
  refine ⟨rfl, ⟨fun q => ?_, ?_, fun q hq => ?_⟩, Or.inl ⟨rfl, hre⟩⟩
  · by_cases hq : q = run.p
    · subst hq
      simp [Machine.offCpu, Machine.setCpu, Machine.setState, State.setProc]
    · simp [Machine.offCpu, Machine.setCpu, Machine.setState, State.setProc, hq]
  · rw [hstate, if_pos rfl]
  · rw [hstate, if_neg hq]
    exact Or.inl rfl

/-- The timer charges a tick to the container of the process that runs. -/
theorem timer_charges {run : Running} (hcpu : s.cpu c = some run) (hre : run.resched = false)
    (hrunning : s.state run.p = .running) :
    ∃ x, step s (.timer c) = some x ∧ Woken s x ∧
      x.cpu = update s.cpu c (some { run with resched := true }) ∧
      x.cs.table = s.ticked run.p := by
  have hwoken : Woken s (if c.val = 0 then s.wakeup1 .ticks else s) ∧
      (if c.val = 0 then s.wakeup1 .ticks else s).cpu = s.cpu ∧
      (if c.val = 0 then s.wakeup1 .ticks else s).cs.table = s.cs.table ∧
      (if c.val = 0 then s.wakeup1 .ticks else s).state run.p = .running := by
    split
    · refine ⟨woken_wakeup1 s .ticks, rfl, rfl, ?_⟩
      rcases wakeup1_proc s .ticks run.p with h | ⟨hsleep, _⟩
      · rw [Machine.state, h]
        exact hrunning
      · rw [hrunning] at hsleep
        cases hsleep
    · exact ⟨⟨fun _ => rfl, fun _ => Or.inl rfl⟩, rfl, rfl, hrunning⟩
  simp only [step, Machine.timer]
  generalize (if c.val = 0 then s.wakeup1 .ticks else s) = v at hwoken
  obtain ⟨hkept, hvcpu, hvtable, hvstate⟩ := hwoken
  rw [hvcpu, hcpu]
  simp only [hre, Bool.false_eq_true, if_false, Option.some.injEq, exists_eq_left']
  refine ⟨⟨hkept.cont, hkept.state⟩, ?_, ?_⟩
  · simp only [Machine.setCpu, Machine.setTable_cpu, hvcpu, hvstate, decide_true]
  · rw [Machine.setCpu_cs, Machine.setTable, hkept.cont, hvtable]
    rfl

/-- A process that runs can be preempted, and the scheduler's loop goes on behind it. -/
theorem reaches_freed {run : Running} (hcpu : s.cpu c = some run)
    (hrunning : s.state run.p = .running) :
    ∃ u, Freed s u c run ∧ Reaches s (u.scan c run.holder (run.p + 1)) := by
  have hyield (x : Machine n) (run : Running) (hx : x.cpu c = some run) (hre : run.resched = true) :
      Reaches x ((x.offCpu c run .runnable).scan c run.holder (run.p + 1)) := by
    refine .single (e := .yield c) trivial ?_
    simp only [step, hx, hre]
    rfl
  cases hre : run.resched with
  | true => exact ⟨s.offCpu c run .runnable, freed_offCpu s c run hre, hyield s run hcpu hre⟩
  | false =>
    obtain ⟨x, hx, hwoken, hxcpu, hxtable⟩ := timer_charges hcpu hre hrunning
    let run' : Running := { run with resched := true }
    have hfreed := freed_offCpu x c run' rfl
    refine ⟨x.offCpu c run' .runnable, ⟨?_, hwoken.preempted hfreed.preempted, Or.inr hxtable⟩,
      (Reaches.single (e := .timer c) trivial hx).trans (hyield x run' ?_ rfl)⟩
    · rw [hfreed.cpu, hxcpu, update_idem]
    · rw [hxcpu, update_self]

/-- What the clocks show when process `p` and those behind it that the loop looks for have run. -/
structure Charged (s t : Machine n) (run : Running) : Prop where
  names : SameNames s.cs.table t.cs.table
  lower : ∀ i, clock s i ≤ clock t i
  upper : ∀ i, clock t i ≤ clock s i + (nproc - run.p.val : Nat)
  self : run.resched = false → ∀ i, (s.cs.proc run.p).cont = some i → clock s i < clock t i
  spared : ∀ i, (s.cs.proc run.p).cont ≠ some i →
    (∀ q, s.Eligible run.holder q → (s.cs.proc q).cont ≠ some i) → clock t i = clock s i

/-- One process has used its tick. -/
theorem Freed.charged {run : Running} (h : Freed s u c run) (hfits : ∀ i, NameFits s.cs.table i)
    (hlow : ∀ i, clock s i + 1 < 2147483648) :
    SameNames s.cs.table u.cs.table ∧ (∀ i, clock s i ≤ clock u i ∧ clock u i ≤ clock s i + 1) ∧
      (run.resched = false → ∀ i, (s.cs.proc run.p).cont = some i → clock s i < clock u i) ∧
      ∀ i, (s.cs.proc run.p).cont ≠ some i → clock u i = clock s i := by
  rcases h.table with ⟨hsame, hre⟩ | hticked
  · have hclock (i : Cont) : clock u i = clock s i := by rw [clock, clock, hsame]
    refine ⟨by rw [hsame]; exact ⟨fun _ => rfl, hfits⟩, fun i => ?_, fun hno => ?_,
      fun i _ => hclock i⟩
    · rw [hclock]
      omega
    · rw [hre] at hno
      cases hno
  · obtain ⟨hnames, hclock⟩ := clock_ticked hticked hfits hlow
    refine ⟨hnames, fun i => ?_, fun _ i hi => ?_, fun i hi => ?_⟩
    · rw [hclock]
      split <;> omega
    · rw [hclock, if_pos hi]
      omega
    · rw [hclock, if_neg hi, Int.add_zero]

theorem eligible_congr (hnames : ∀ i, name t.cs.table i = name s.cs.table i)
    (hcont : ∀ q, (t.cs.proc q).cont = (s.cs.proc q).cont) (holder : Option CString)
    (q : ProcSlot) : t.Eligible holder q ↔ s.Eligible holder q := by
  unfold Machine.Eligible
  rw [hcont q]
  cases holder with
  | none => cases (s.cs.proc q).cont <;> rfl
  | some nm =>
    cases (s.cs.proc q).cont with
    | none => rfl
    | some a => simp only [hnames]

/-- Switching to a process changes only that process and the CPU. -/
theorem dispatch_frame (s : Machine n) (c : Fin n) (holder : Option CString) (q : ProcSlot) :
    (∀ r, ((s.dispatch c holder q).cs.proc r).cont = (s.cs.proc r).cont) ∧
    (∀ r, (s.dispatch c holder q).state r = if r = q then .running else s.state r) ∧
    (s.dispatch c holder q).cs.table = s.cs.table := by
  refine ⟨fun r => ?_, Machine.state_setState s q .running, rfl⟩
  by_cases hr : r = q
  · subst hr
    simp [Machine.dispatch, Machine.setState, State.setProc]
  · simp [Machine.dispatch, Machine.setState, State.setProc, hr]

/-- A process is preempted, another one takes its place and is preempted in turn. -/
theorem Preempted.next {holder : Option CString} {q : ProcSlot} (h : Preempted s u p)
    (hq : u.state q = .runnable) (hpq : p ≠ q) (h' : Preempted (u.dispatch c holder q) t q) :
    Preempted s t p := by
  obtain ⟨hcont, hstate, _⟩ := dispatch_frame u c holder q
  -- the second process is runnable before and after its turn
  have hrest (r : ProcSlot) : t.state r = u.state r ∨ u.state r = .sleeping ∧ t.state r = .runnable := by
    by_cases hr : r = q
    · subst hr
      exact Or.inl (h'.self.trans hq.symm)
    · have hothers := h'.others r hr
      rw [hstate, if_neg hr] at hothers
      exact hothers
  refine ⟨fun r => ?_, ?_, fun r hr => ?_⟩
  · rw [h'.cont, hcont, h.cont]
  · rcases hrest p with ht | ⟨hsleep, _⟩
    · exact ht.trans h.self
    · rw [h.self] at hsleep
      cases hsleep
  · rcases hrest r with ht | ⟨hsleep, ht⟩
    · rw [ht]
      exact h.others r hr
    · rcases h.others r hr with hu | ⟨_, hu⟩
      · exact Or.inr ⟨hu.symm.trans hsleep, ht⟩
      · rw [hu] at hsleep
        cases hsleep

theorem Charged.next {run : Running} {q : ProcSlot} (h : Freed s u c run)
    (hfits : ∀ i, NameFits s.cs.table i)
    (hlow : ∀ i, clock s i + (nproc - run.p.val : Nat) < 2147483648) (hq : run.p.val + 1 ≤ q.val)
    (helig : u.Eligible run.holder q) (h' : (∀ i, NameFits u.cs.table i) →
      (∀ i, clock u i + (nproc - q.val : Nat) < 2147483648) →
      Charged (u.dispatch c run.holder q) t ⟨q, run.holder, false⟩) : Charged s t run := by
  have hlt := q.isLt
  obtain ⟨hnames, hclock, hself, hother⟩ := h.charged hfits fun i => by have := hlow i; omega
  obtain ⟨hcont, _, _⟩ := dispatch_frame u c run.holder q
  have hcharged := h' hnames.fits fun i => by
    have := hlow i
    have := hclock i
    omega
  have hsame (r : ProcSlot) : u.Eligible run.holder r ↔ s.Eligible run.holder r :=
    eligible_congr hnames.name h.preempted.cont _ r
  have hlower (i : Cont) : clock u i ≤ clock t i := hcharged.lower i
  have hupper (i : Cont) : clock t i ≤ clock u i + (nproc - q.val : Nat) := hcharged.upper i
  refine ⟨⟨fun i => (hcharged.names.name i).trans (hnames.name i), hcharged.names.fits⟩, fun i => ?_,
    fun i => ?_, fun hre i hi => ?_, fun i hi hspare => ?_⟩
  · exact (hclock i).1.trans (hlower i)
  · have := hclock i
    have := hupper i
    omega
  · exact lt_of_lt_of_le (hself hre i hi) (hlower i)
  · rw [← hother i hi]
    refine hcharged.spared i ?_ fun r hr => ?_
    · change ((u.dispatch c run.holder q).cs.proc q).cont ≠ some i
      rw [hcont, h.preempted.cont]
      exact hspare q ((hsame q).mp helig)
    · rw [hcont, h.preempted.cont]
      refine hspare r ((hsame r).mp ?_)
      exact (eligible_congr (s := u) (t := u.dispatch c run.holder q) (fun _ => rfl) hcont _ r).mp hr

/-- Passes and ticks empty a CPU whose process is in state `RUNNING`: it is preempted, and so are
the processes that the scheduler's loop still finds behind it. -/
theorem drain {run : Running} (hcpu : s.cpu c = some run) (hrunning : s.state run.p = .running) :
    ∃ t, Reaches s t ∧ t.cpu = update s.cpu c none ∧ Preempted s t run.p ∧
      ((∀ i, NameFits s.cs.table i) →
        (∀ i, clock s i + (nproc - run.p.val : Nat) < 2147483648) → Charged s t run) := by
  generalize hk : nproc - run.p.val = k
  induction k using Nat.strong_induction_on generalizing s run with
  | _ k ih =>
    obtain ⟨u, hfreed, hreach⟩ := reaches_freed hcpu hrunning
    have hplt := run.p.isLt
    unfold Machine.scan at hreach
    split at hreach
    · refine ⟨u, hreach, hfreed.cpu, hfreed.preempted, fun hfits hlow => ?_⟩
      obtain ⟨hnames, hclock, hself, hother⟩ := hfreed.charged hfits fun i => by
        have := hlow i
        omega
      refine ⟨hnames, fun i => (hclock i).1, fun i => ?_, hself, fun i hi _ => hother i hi⟩
      have := hclock i
      omega
    · next q hq =>
      obtain ⟨hle, helig, hrunnable⟩ := candidate_eq_some hq
      obtain ⟨_, hstate, _⟩ := dispatch_frame u c run.holder q
      have hqlt := q.isLt
      have hne : run.p ≠ q := fun heq => by
        rw [heq] at hle
        omega
      have hvcpu : (u.dispatch c run.holder q).cpu c = some ⟨q, run.holder, false⟩ := by
        simp [Machine.dispatch]
      obtain ⟨t, ht, htcpu, hpre, hcharged⟩ := ih (nproc - q.val) (by omega) hvcpu
        (by rw [hstate, if_pos rfl]) rfl
      refine ⟨t, hreach.trans ht, ?_, hfreed.preempted.next hrunnable hne hpre,
        fun hfits hlow => Charged.next hfreed hfits (by rw [hk]; exact hlow) hle helig hcharged⟩
      rw [htcpu]
      simp [Machine.dispatch, hfreed.cpu]

/-- No two CPUs run one process, and every process on a CPU is in state `RUNNING`. -/
structure Tame (s : Machine n) : Prop where
  running : ∀ q, OnCpu s q → s.state q = .running
  cpus : ∀ c d q, (s.cpu c).map Running.p = some q → (s.cpu d).map Running.p = some q → c = d

/-- What emptying `k` CPUs leaves. -/
structure Emptied (s t : Machine n) (k : Nat) : Prop where
  cont : ∀ q, (t.cs.proc q).cont = (s.cs.proc q).cont
  able : ∀ q, Able s q → Able t q
  clock : (∀ i, NameFits s.cs.table i) → (∀ i, clock s i + k * nproc < 2147483648) →
    SameNames s.cs.table t.cs.table ∧ ∀ i, clock s i ≤ clock t i ∧ clock t i ≤ clock s i + k * nproc

theorem tame_drained {run : Running} (hs : Tame s) (hcpu : s.cpu c = some run)
    (htcpu : t.cpu = update s.cpu c none) (hpre : Preempted s t run.p) :
    Tame t ∧ ∀ q, Able s q → Able t q := by
  have hself : (s.cpu c).map Running.p = some run.p := by rw [hcpu]; rfl
  have hold {d : Fin n} {q : ProcSlot} (hd : (t.cpu d).map Running.p = some q) :
      (s.cpu d).map Running.p = some q ∧ q ≠ run.p := by
    by_cases hdc : d = c
    · subst hdc
      rw [htcpu, update_self] at hd
      cases hd
    · rw [htcpu, update_of_ne hdc] at hd
      exact ⟨hd, fun hq => hdc (hs.cpus d c run.p (hq ▸ hd) hself)⟩
  refine ⟨⟨fun q ⟨d, hd⟩ => ?_, fun d d' q hd hd' => hs.cpus d d' q (hold hd).1 (hold hd').1⟩,
    fun q hq => ?_⟩
  · have hrunning := hs.running q ⟨d, (hold hd).1⟩
    rcases hpre.others q (hold hd).2 with h | ⟨h, _⟩
    · exact h.trans hrunning
    · rw [hrunning] at h
      cases h
  · by_cases hqp : q = run.p
    · subst hqp
      exact Or.inl hpre.self
    · rcases hpre.others q hqp with h | ⟨_, h⟩
      · rcases hq with hq | ⟨⟨d, hd⟩, hq⟩
        · exact Or.inl (h.trans hq)
        · have hdc : d ≠ c := by
            rintro rfl
            rw [hself] at hd
            exact hqp (Option.some.inj hd).symm
          refine Or.inr ⟨⟨d, ?_⟩, h.trans hq⟩
          rw [htcpu, update_of_ne hdc]
          exact hd
      · exact Or.inl h

/-- Passes and ticks empty a list of CPUs. -/
theorem empty_cpus (cs : List (Fin n)) (hs : Tame s) :
    ∃ t, Reaches s t ∧ Tame t ∧ Emptied s t cs.length ∧ (∀ c ∈ cs, t.cpu c = none) ∧
      ∀ c, s.cpu c = none → t.cpu c = none := by
  induction cs generalizing s with
  | nil =>
    refine ⟨s, .refl s, hs, ⟨fun _ => rfl, fun _ => id, fun hfits _ => ?_⟩, by simp, fun _ => id⟩
    exact ⟨⟨fun _ => rfl, hfits⟩, fun i => ⟨le_refl _, by simp⟩⟩
  | cons c cs ih =>
    cases hcpu : s.cpu c with
    | none =>
      obtain ⟨t, hreach, ht, hempty, hnone, hstay⟩ := ih hs
      refine ⟨t, hreach, ht, ⟨hempty.cont, hempty.able, fun hfits hlow => ?_⟩, fun d hd => ?_, hstay⟩
      · rw [List.length_cons] at hlow ⊢
        obtain ⟨hnames, hclock⟩ := hempty.clock hfits fun i => by
          have := hlow i
          push_cast at this ⊢
          linarith
        refine ⟨hnames, fun i => ⟨(hclock i).1, ?_⟩⟩
        have := (hclock i).2
        push_cast at this ⊢
        linarith
      · rcases List.mem_cons.mp hd with rfl | hd
        · exact hstay d hcpu
        · exact hnone d hd
    | some run =>
      obtain ⟨u, hu, hucpu, hpre, hcharged⟩ := drain hcpu (hs.running run.p ⟨c, by rw [hcpu]; rfl⟩)
      obtain ⟨hutame, huable⟩ := tame_drained hs hcpu hucpu hpre
      obtain ⟨t, hreach, ht, hempty, hnone, hstay⟩ := ih hutame
      have hkeep (d : Fin n) (hd : s.cpu d = none ∨ d = c) : t.cpu d = none := by
        refine hstay d ?_
        rw [hucpu]
        by_cases hdc : d = c
        · rw [hdc, update_self]
        · rw [update_of_ne hdc]
          exact hd.resolve_right hdc
      refine ⟨t, hu.trans hreach, ht, ⟨fun q => (hempty.cont q).trans (hpre.cont q),
        fun q hq => hempty.able q (huable q hq), fun hfits hlow => ?_⟩, fun d hd => ?_,
        fun d hd => hkeep d (Or.inl hd)⟩
      · rw [List.length_cons] at hlow ⊢
        push_cast at hlow ⊢
        have hle : ((nproc - run.p.val : Nat) : Int) ≤ nproc := by omega
        have hpos : (0 : Int) ≤ cs.length * nproc := by positivity
        have hfirst := hcharged hfits fun i => by
          have := hlow i
          linarith
        obtain ⟨hnames, hclock⟩ := hempty.clock hfirst.names.fits fun i => by
          have := hlow i
          have := hfirst.upper i
          linarith
        refine ⟨⟨fun i => (hnames.name i).trans (hfirst.names.name i), hnames.fits⟩,
          fun i => ⟨(hfirst.lower i).trans (hclock i).1, ?_⟩⟩
        have := hfirst.upper i
        have := (hclock i).2
        linarith
      · rcases List.mem_cons.mp hd with rfl | hd
        · exact hkeep d (Or.inr rfl)
        · exact hnone d hd

/-! ## One round -/

/-- What `get_cticks` returns: a container in use with fewer ticks than record 0, and record 0 if
there is none. -/
theorem getCticks_spec (hused : ∃ i, InUse s.cs.table i) :
    ∃ j, getCticks s.cs.table 1 = some j ∧
      (j = 0 ∧ (∀ i, InUse s.cs.table i → clock s 0 ≤ clock s i) ∨
        InUse s.cs.table j ∧ clock s j < clock s 0) := by
  refine ⟨_, getCticks_eq hused (by decide), ?_⟩
  cases hfind : last (fun i => Leads s.cs.table i) with
  | none =>
    rw [last_eq_none] at hfind
    refine Or.inl ⟨rfl, fun i hi => ?_⟩
    by_contra hlt
    exact of_decide_eq_false (hfind i) ⟨not_le.mp hlt, hi⟩
  | some j =>
    have hj : Leads s.cs.table j := of_decide_eq_true (last_eq_some.mp hfind).1
    exact Or.inr ⟨hj.2, hj.1⟩

/-- No CPU runs a process, every container in use whose clock is below `lim` has a process to run,
and the clocks are below `top`, that of record 0 below `lim`. -/
structure Ready (s : Machine n) (lim top : Int) : Prop where
  idle : ∀ c, s.cpu c = none
  names : NamesOk s.cs.table
  short : ∀ i, InUse s.cs.table i → strlen (name s.cs.table i) < schedulerName
  some_inUse : ∃ i, InUse s.cs.table i
  manned : ∀ i, InUse s.cs.table i → clock s i < lim →
    ∃ q, s.state q = .runnable ∧ (s.cs.proc q).cont = some i
  upper : ∀ i, clock s i ≤ top
  first : clock s 0 ≤ lim
  gap : lim + nproc ≤ top
  room : top + nproc < 2147483648

/-- The container that `get_cticks` returned has its turn: its clock advances, the others stay. -/
structure Round (s t : Machine n) (j : Cont) : Prop where
  reaches : Reaches s t
  idle : ∀ c, t.cpu c = none
  cont : ∀ q, (t.cs.proc q).cont = (s.cs.proc q).cont
  runnable : ∀ q, s.state q = .runnable → t.state q = .runnable
  names : SameNames s.cs.table t.cs.table
  lower : clock s j < clock t j
  upper : clock t j ≤ clock s j + nproc
  others : ∀ i, i ≠ j → clock t i = clock s i

theorem eligible_name (hnames : NamesOk s.cs.table) (hj : InUse s.cs.table j) (q : ProcSlot) :
    s.Eligible (some (name s.cs.table j)) q ↔ (s.cs.proc q).cont = some j := by
  unfold Machine.Eligible
  cases hcont : (s.cs.proc q).cont with
  | none => simp
  | some a =>
    simp only [strcmp_eq_zero_iff, Option.some.injEq]
    constructor
    · exact fun h => (hnames.distinct j a hj h.symm).symm
    · rintro rfl
      rfl

theorem round (hs : Ready s lim top) (c : Fin n) (hj : getCticks s.cs.table 1 = some j)
    (hused : InUse s.cs.table j) (hlim : clock s j < lim) : ∃ t, Round s t j := by
  have helig := eligible_name hs.names hused
  obtain ⟨q₀, hrunnable₀, hcont₀⟩ := hs.manned j hused hlim
  -- the scheduler finds a process of the container
  obtain ⟨q, hq⟩ : ∃ q, s.candidate (some (name s.cs.table j)) 0 = some q := by
    rw [← Option.isSome_iff_exists, Option.isSome_iff_ne_none]
    intro hnone
    have hmiss := first_eq_none.mp hnone q₀
    simp [helig, hcont₀, hrunnable₀] at hmiss
  obtain ⟨_, hqelig, hqrunnable⟩ := candidate_eq_some hq
  have hqcont := (helig q).mp hqelig
  let holder := some (name s.cs.table j)
  let u := s.dispatch c holder q
  have hpass : step s (.pass c 1) = some u := by
    simp only [step, Machine.pass, hs.idle c, hj, holderName, if_pos (hs.short j hused),
      Option.map_some, Machine.scan, hq]
    rfl
  obtain ⟨hcont, hstate, _⟩ := dispatch_frame s c holder q
  have hucpu : u.cpu c = some ⟨q, holder, false⟩ := by simp [u, Machine.dispatch]
  obtain ⟨t, ht, htcpu, hpre, hcharged⟩ := drain hucpu (by simp only [u, hstate, if_pos])
  have hlow (i : Cont) : clock u i + (nproc - q.val : Nat) < 2147483648 := by
    have hupper : clock u i ≤ top := hs.upper i
    have := hs.room
    omega
  have hch := hcharged hs.names.fits hlow
  refine ⟨t, (Reaches.single (e := .pass c 1) trivial hpass).trans ht, fun d => ?_,
    fun r => (hpre.cont r).trans (hcont r), fun r hr => ?_, hch.names, ?_, ?_, fun i hi => ?_⟩
  · rw [htcpu]
    by_cases hd : d = c
    · rw [hd, update_self]
    · rw [update_of_ne hd]
      simp only [u, Machine.dispatch, update_of_ne hd]
      exact hs.idle d
  · by_cases hrq : r = q
    · subst hrq
      exact hpre.self
    · rcases hpre.others r hrq with h | ⟨h, _⟩
      · rw [h, hstate, if_neg hrq]
        exact hr
      · rw [hstate, if_neg hrq, hr] at h
        cases h
  · exact hch.self rfl j ((hcont q).trans hqcont)
  · have hupper : clock t j ≤ clock s j + (nproc - q.val : Nat) := hch.upper j
    omega
  · refine hch.spared i ?_ fun r hr => ?_
    · change (u.cs.proc q).cont ≠ some i
      rw [hcont, hqcont]
      simpa using fun h => hi h.symm
    · have hr' : s.Eligible holder r :=
        (eligible_congr (s := s) (t := u) (fun _ => rfl) hcont holder r).mp hr
      rw [hcont, (helig r).mp hr']
      simpa using fun h => hi h.symm

theorem Round.ready (h : Round s t j) (hs : Ready s lim top) (hj : clock t j ≤ top)
    (hzero : clock t 0 ≤ lim) : Ready t lim top where
  idle := h.idle
  names := h.names.ok hs.names
  short := fun i hi => by
    rw [h.names.name]
    exact hs.short i ((h.names.inUse i).mp hi)
  some_inUse := by
    obtain ⟨i, hi⟩ := hs.some_inUse
    exact ⟨i, (h.names.inUse i).mpr hi⟩
  manned := fun i hi hlim => by
    have hle : clock s i ≤ clock t i := by
      by_cases hij : i = j
      · rw [hij]
        exact h.lower.le
      · rw [h.others i hij]
    obtain ⟨q, hq, hcont⟩ := hs.manned i ((h.names.inUse i).mp hi) (lt_of_le_of_lt hle hlim)
    exact ⟨q, h.runnable q hq, (h.cont q).trans hcont⟩
  upper := fun i => by
    by_cases hij : i = j
    · rw [hij]
      exact hj
    · rw [h.others i hij]
      exact hs.upper i
  first := hzero
  gap := hs.gap
  room := hs.room

/-! ## Taking turns -/

/-- `get_cticks` returns a container with the name of `a`. -/
def Hit (s : Machine n) (a : Cont) : Prop :=
  ∃ i, getCticks s.cs.table 1 = some i ∧ name s.cs.table i = name s.cs.table a

/-- Rounds lead from `s` to `t`. -/
structure Later (s t : Machine n) (lim top : Int) : Prop where
  reaches : Reaches s t
  ready : Ready t lim top
  cont : ∀ q, (t.cs.proc q).cont = (s.cs.proc q).cont
  name : ∀ i, name t.cs.table i = name s.cs.table i

theorem Later.refl (hs : Ready s lim top) : Later s s lim top :=
  ⟨.refl s, hs, fun _ => rfl, fun _ => rfl⟩

theorem Later.trans (h : Later s t lim top) (h' : Later t u lim top) : Later s u lim top :=
  ⟨h.reaches.trans h'.reaches, h'.ready, fun q => (h'.cont q).trans (h.cont q),
    fun i => (h'.name i).trans (h.name i)⟩

theorem Round.later (h : Round s t j) (ht : Ready t lim top) :
    Later s t lim top := ⟨h.reaches, ht, h.cont, h.names.name⟩

/-- How far the clocks are behind that of record 0. -/
def lag (s : Machine n) : Nat := ∑ i : Cont, (clock s 0 - clock s i).toNat

/-- Containers with fewer ticks than record 0 catch up, until record 0 or the container with the
name of `a` has its turn. -/
theorem catch_up (c : Fin n) (a : Cont) (hs : Ready s lim top) :
    ∃ t, Later s t lim top ∧ (Hit t a ∨
      getCticks t.cs.table 1 = some 0 ∧ (∀ i, InUse t.cs.table i → clock t 0 ≤ clock t i) ∧
        clock t 0 = clock s 0 ∧ clock t a = clock s a) := by
  generalize hm : lag s = m
  induction m using Nat.strong_induction_on generalizing s with
  | _ m ih =>
    obtain ⟨j, hj, ⟨rfl, hall⟩ | ⟨hused, hbehind⟩⟩ := getCticks_spec hs.some_inUse
    · exact ⟨s, .refl hs, Or.inr ⟨hj, hall, rfl, rfl⟩⟩
    by_cases hname : name s.cs.table j = name s.cs.table a
    · exact ⟨s, .refl hs, Or.inl ⟨j, hj, hname⟩⟩
    have hja : a ≠ j := fun h => hname (by rw [h])
    have hj0 : (0 : Cont) ≠ j := fun h => by
      rw [← h] at hbehind
      omega
    have hfirst := hs.first
    have hgap := hs.gap
    obtain ⟨u, hround⟩ := round hs c hj hused (by omega)
    have hzero := hround.others 0 hj0
    have hready : Ready u lim top := by
      refine hround.ready hs ?_ (by omega)
      have := hround.upper
      omega
    have hlag : lag u < m := by
      rw [← hm]
      refine Finset.sum_lt_sum (fun i _ => ?_) ⟨j, Finset.mem_univ j, ?_⟩
      · rw [hzero]
        by_cases hij : i = j
        · subst hij
          have := hround.lower
          omega
        · rw [hround.others i hij]
      · have := hround.lower
        omega
    obtain ⟨t, hlater, hend⟩ := ih (lag u) hlag hready rfl
    refine ⟨t, (hround.later hready).trans hlater, hend.imp id fun ⟨h0, hall, hclock, ha⟩ => ?_⟩
    exact ⟨h0, hall, hclock.trans hzero, ha.trans (hround.others a hja)⟩

/-- The container with the name of `a` gets its turn. -/
theorem get_turn (c : Fin n) {a : Cont} (hs : Ready s lim top)
    (hfirst : name s.cs.table a = name s.cs.table 0 ∨ InUse s.cs.table a ∧ InUse s.cs.table 0)
    (ha : clock s a + nproc ≤ lim) : ∃ t, Later s t lim top ∧ Hit t a := by
  generalize hm : (clock s a + 1 - clock s 0).toNat = m
  induction m using Nat.strong_induction_on generalizing s with
  | _ m ih =>
    obtain ⟨t, hlater, hhit | ⟨hzero, hall, hclock0, hclocka⟩⟩ := catch_up c a hs
    · exact ⟨t, hlater, hhit⟩
    have hname (i : Cont) := hlater.name i
    by_cases hsame : name s.cs.table a = name s.cs.table 0
    · exact ⟨t, hlater, 0, hzero, by rw [hname, hname, hsame]⟩
    obtain ⟨huseda, hused0⟩ := hfirst.resolve_left hsame
    have hinUse (i : Cont) (hi : InUse s.cs.table i) : InUse t.cs.table i := by
      rwa [InUse, hname]
    have hle := hall a (hinUse a huseda)
    -- record 0 has its turn and gets ahead of `a`
    have hnproc : (0 : Int) < nproc := by decide
    have hgap := hs.gap
    obtain ⟨u, hround⟩ := round hlater.ready c hzero (hinUse 0 hused0) (by omega)
    have hne : a ≠ 0 := fun h => hsame (by rw [h])
    have hua := hround.others a hne
    have hupper := hround.upper
    have hlower := hround.lower
    have hready : Ready u lim top := hround.ready hlater.ready (by omega) (by omega)
    have hnameu (i : Cont) : name u.cs.table i = name s.cs.table i :=
      (hround.names.name i).trans (hname i)
    obtain ⟨v, hv, hhit⟩ := ih (clock u a + 1 - clock u 0).toNat (by omega) hready
      (by rw [InUse, InUse, hnameu, hnameu]; exact Or.inr ⟨huseda, hused0⟩) (by omega) rfl
    exact ⟨v, hlater.trans ((hround.later hready).trans hv), hhit⟩

/-- All CPUs can be emptied. -/
theorem reaches_idle (hs : Tame s) : ∃ t, Reaches s t ∧ (∀ c, t.cpu c = none) ∧ Emptied s t n := by
  obtain ⟨t, hreach, _, hempty, hnone, _⟩ := empty_cpus (List.finRange n) hs
  rw [List.length_finRange] at hempty
  exact ⟨t, hreach, fun c => hnone c (List.mem_finRange c), hempty⟩

theorem served_root (c : Fin n) (hs : Tame s) (hp : (s.cs.proc p).cont = none) : Served s p := by
  obtain ⟨t, hreach, hidle, hempty⟩ := reaches_idle hs
  have hnone : getCticks t.cs.table 0 = none := by
    unfold getCticks
    split <;> rfl
  refine ⟨t, c, 0, hreach, ?_, ?_⟩
  · simp [step, Machine.pass, hidle c, hnone, holderName]
  · rw [Selects, hempty.cont, hp]
    exact hnone

theorem served_member (c : Fin n) (hs : Tame s) {a : Cont} (hp : Able s p)
    (hcont : (s.cs.proc p).cont = some a) (hturns : TurnsTaken s a) : Served s p := by
  obtain ⟨t, hreach, hidle, hempty⟩ := reaches_idle hs
  have hnproc : (0 : Int) ≤ nproc := by positivity
  obtain ⟨hnames, hclock⟩ := hempty.clock hturns.names.fits fun i => by
    have := hturns.low i
    linarith
  have hzero := hclock 0
  have ha := hclock a
  have hmax0 := le_max_left (clock s 0) (clock s a)
  have hmaxa := le_max_right (clock s 0) (clock s a)
  have hlim : horizon s a = max (clock s 0) (clock s a) + n * nproc + nproc := by
    rw [horizon, Int.add_mul, Int.one_mul, Int.add_assoc]
  have hlow (i : Cont) : clock s i + n * nproc + 3 * nproc < 2147483648 := by
    have := hturns.low i
    linarith
  have htop : horizon s a + 2 * nproc < 2147483648 := by
    have h0 := hlow 0
    have h1 := hlow a
    rcases max_choice (clock s 0) (clock s a) with h | h <;> rw [hlim, h] <;> linarith
  have hrun {q : ProcSlot} (hq : Able s q) : t.state q = .runnable := by
    refine (hempty.able q hq).resolve_right ?_
    rintro ⟨⟨d, hd⟩, _⟩
    rw [hidle d] at hd
    cases hd
  have hready : Ready t (horizon s a) (2147483647 - nproc) := by
    refine ⟨hidle, hnames.ok hturns.names, fun i hi => ?_, ?_, fun i hi hlt => ?_, fun i => ?_, ?_, ?_,
      by omega⟩
    · rw [hnames.name]
      exact hturns.short i ((hnames.inUse i).mp hi)
    · obtain ⟨i, hi⟩ := hturns.some_inUse
      exact ⟨i, (hnames.inUse i).mpr hi⟩
    · by_cases hia : i = a
      · subst hia
        exact ⟨p, hrun hp, (hempty.cont p).trans hcont⟩
      · obtain ⟨q, hq, hqcont⟩ := hturns.able i ((hnames.inUse i).mp hi) hia
          (lt_of_le_of_lt (hclock i).1 hlt)
        exact ⟨q, hrun hq, (hempty.cont q).trans hqcont⟩
    · have := hlow i
      have := (hclock i).2
      omega
    · linarith
    · omega
  obtain ⟨u, hlater, i, hi, hname⟩ := get_turn c (a := a) hready
    (by rw [hnames.name, hnames.name, hnames.inUse, hnames.inUse]; exact hturns.first) (by linarith)
  refine ⟨u, c, 1, hreach.trans hlater.reaches, ?_, ?_⟩
  · have hshort : strlen (name u.cs.table i) < schedulerName := by
      by_cases huse : InUse u.cs.table i
      · exact hlater.ready.short i huse
      · rw [not_not.mp huse]
        decide
    simp [step, Machine.pass, hlater.ready.idle c, hi, holderName, hshort]
  · rw [Selects, hlater.cont, hempty.cont, hcont]
    exact ⟨i, hi, hname⟩

/-- A child in the first container is preempted. -/
def childPreempted : List (Event 1) := childInContainer ++ [.timer 0, .yield 0]

/-- Passes and ticks do not change the names, nor who belongs to what. -/
theorem reaches_frame (h : Reaches s t) (hfits : ∀ i, NameFits s.cs.table i) :
    SameNames s.cs.table t.cs.table ∧ ∀ q, (t.cs.proc q).cont = (s.cs.proc q).cont := by
  obtain ⟨es, hes, hrun⟩ := h
  refine run_invariant (C := fun _ e => IsTick e)
    (I := fun u => SameNames s.cs.table u.cs.table ∧ ∀ q, (u.cs.proc q).cont = (s.cs.proc q).cont)
    ?_ ⟨⟨fun _ => rfl, hfits⟩, fun _ => rfl⟩ (always_of_mem hes) hrun
  rintro u e v ⟨hnames, hcont⟩ he hstep
  have hok : NameOk e := by
    cases e <;> first | exact trivial | exact absurd he id
  obtain ⟨hvfits, hvnames⟩ := names_step hnames.fits hok hstep
  refine ⟨⟨fun i => ?_, hvfits⟩, fun q => ?_⟩
  · rcases hvnames i with h | ⟨_, hclear⟩ | ⟨_, _, _, rfl, _⟩
    · exact h.trans (hnames.name i)
    · cases e <;> first | exact absurd hclear id | exact absurd he id
    · exact absurd he id
  · rcases cont_step hstep q with h | ⟨_, ⟨_, rfl⟩, _⟩ | ⟨_, _, rfl, _⟩ | ⟨_, _, _, _, rfl, _⟩
    · exact h.trans (hcont q)
    · exact absurd he id
    · exact absurd he id
    · exact absurd he id

/-- The first process stops the container of its child. -/
def childStopped : List (Event 1) :=
  childPreempted ++ [.pass 0 0, .call 0 (.cstop contName)] ++ List.replicate 67 (.loop 0)

end Process

end Xv6Containers
