import Xv6Containers.Lib.Runs

/-!
# Sleep locks

`acquiresleep` and `releasesleep` with the `sleep` and `wakeup` they call, for any number of
processes that take their steps in any order. One process at a time has the lock, no wakeup is
lost, and the processes cannot all wait for each other.

## Implementation notes

`lk->locked` is used under `lk->lk` only, so `lk->locked = 0` is in one step with the `wakeup`.
-/

namespace Xv6Containers.SleepLock

open Lib.Runs Function

variable {P : Type}

/-- Where a process is: at the `acquire(&lk->lk)` that begins or follows a sleep, at the `while`; in
`sleep` before `acquire(&ptable.lock)`, before `release(lk)` and before `p->state = SLEEPING`; in
`sched`, asleep or not; behind `acquiresleep`; in `releasesleep` before and behind its `acquire`. -/
inductive Pc
  | idle | enter | test | table | unlock | mark | asleep | woken | owner | leave | wake
  deriving DecidableEq

inductive Spin
  | lk | ptable

/-- Of `lk->lk` and `ptable.lock`, what a process holds at a place. -/
def Pc.holds : Spin → Pc → Bool
  | .lk, c => c = .test ∨ c = .table ∨ c = .unlock ∨ c = .wake
  | .ptable, c => c = .unlock ∨ c = .mark

/-- The places between `acquiresleep` and `lk->locked = 0`. -/
def Pc.owns (c : Pc) : Bool := c = .owner ∨ c = .leave ∨ c = .wake

/-- The places between the `while` and the end of the sleep. -/
def Pc.waits (c : Pc) : Bool := c = .table ∨ c = .unlock ∨ c = .mark ∨ c = .asleep

/-- The lock, with `none` for a `pid` of `0`, the spin locks' holders and the processes. -/
structure State (P : Type) where
  locked : Bool
  pid : Option P
  holder : Spin → Option P
  pc : P → Pc

def init : State P := ⟨false, none, fun _ => none, fun _ => .idle⟩

def State.wakeup1 (s : State P) : State P :=
  { s with pc := fun q => if s.pc q = .asleep then .woken else s.pc q }

/-- The register names the process whose place satisfies `S`, if there is one. -/
def Tracks (pc : P → Pc) (S : Pc → Bool) (r : Option P) : Prop := ∀ p, r = some p ↔ S (pc p) = true

structure Inv (s : State P) : Prop where
  holder : ∀ k, Tracks s.pc (Pc.holds k) (s.holder k)
  pid : Tracks s.pc Pc.owns s.pid
  locked : s.locked = s.pid.isSome
  waits : ∀ p, (s.pc p).waits = true → s.locked = true

variable {s t : State P} {p : P} {c : Pc}

theorem inv_init : Inv (init : State P) := by
  constructor <;> simp [init, Tracks, Pc.owns, Pc.waits]
  rintro ⟨⟩ <;> simp [Pc.holds]

theorem Inv.wakeup1 (h : Inv s) : Inv s.wakeup1 where
  holder k q := by cases k <;> grind [h.holder .lk q, h.holder .ptable q, State.wakeup1, Pc.holds]
  pid q := by grind [h.pid q, State.wakeup1, Pc.owns]
  locked := h.locked
  waits q := by grind [h.waits q, State.wakeup1, Pc.waits]

theorem Inv.owned (h : Inv s) (hp : s.pc p = .asleep) : ∃ q, (s.pc q).owns = true := by
  have hlocked := h.waits p (by rw [hp]; rfl)
  rw [h.locked, Option.isSome_iff_exists] at hlocked
  exact hlocked.imp fun q => (h.pid q).mp

variable [DecidableEq P] {es : List P}

/-- Go to a place: `acquire` what is held there, when it is free, and `release` what is not. -/
def State.goto (s : State P) (p : P) (c : Pc) : Option (State P) :=
  if ∀ k ∈ [Spin.lk, .ptable], c.holds k = true → (s.pc p).holds k = true ∨ s.holder k = none then
    some { s with
      holder := fun k =>
        if c.holds k then some p else if (s.pc p).holds k then none else s.holder k
      pc := update s.pc p c }
  else none

/-- Process `p` takes a step. -/
def step (s : State P) (p : P) : Option (State P) :=
  match s.pc p with
  | .idle => s.goto p .enter
  | .enter => s.goto p .test
  | .test => if s.locked then s.goto p .table
    else { s with locked := true, pid := some p }.goto p .owner
  | .table => s.goto p .unlock
  | .unlock => s.goto p .mark
  | .mark => s.goto p .asleep
  | .asleep => none
  | .woken => if s.holder .ptable = none then s.goto p .enter else none
  | .owner => s.goto p .leave
  | .leave => s.goto p .wake
  | .wake => if s.holder .ptable = none then
      { s.wakeup1 with locked := false, pid := none }.goto p .idle else none

theorem Tracks.goto {pc : P → Pc} {S : Pc → Bool} {r : Option P} (h : Tracks pc S r)
    (hfree : S c = true → S (pc p) = true ∨ r = none) :
    Tracks (update pc p c) S (if S c then some p else if S (pc p) then none else r) := by
  intro q
  have hp := h p
  have hq := h q
  by_cases hqp : q = p
  · rw [hqp, update_self]
    grind
  · rw [update_of_ne hqp]
    grind

/-- A step may change the sleep lock; the spin locks follow. -/
theorem Inv.goto (h : Inv s) {l : Bool} {o : Option P}
    (hgoto : State.goto ⟨l, o, s.holder, s.pc⟩ p c = some t)
    (hpid : Tracks (update s.pc p c) Pc.owns o) (hlocked : l = o.isSome)
    (hwaits : ∀ q, (update s.pc p c q).waits = true → l = true) : Inv t := by
  simp only [State.goto, Option.ite_none_right_eq_some, Option.some.injEq] at hgoto
  obtain ⟨hfree, rfl⟩ := hgoto
  exact ⟨fun k => (h.holder k).goto (hfree k (by cases k <;> simp)), hpid, hlocked, hwaits⟩

theorem inv_step (h : Inv s) (hstep : step s p = some t) : Inv t := by
  obtain ⟨hholder, hpid, hlocked, hwaits⟩ := id h
  have hmove {c : Pc} (hgoto : s.goto p c = some t) (hc : c.owns = (s.pc p).owns)
      (hwaits : c.waits = true → s.locked = true) : Inv t := by
    refine h.goto hgoto ?_ hlocked (by grind [update_apply])
    convert hpid.goto (fun howns => .inl (hc ▸ howns)) using 1
    grind [hpid p]
  cases hpc : s.pc p <;> simp only [step, hpc, Option.ite_none_right_eq_some] at hstep
  case idle | enter | table | unlock | mark | owner | leave =>
    apply hmove hstep <;> grind [Pc.owns, Pc.waits]
  case woken => apply hmove hstep.2 <;> grind [Pc.owns, Pc.waits]
  case test =>
    split at hstep
    · apply hmove hstep <;> grind [Pc.owns]
    · have hnone : s.pid = none := by grind [Option.isSome_iff_ne_none]
      exact h.goto hstep (hpid.goto fun _ => .inr hnone) rfl fun _ _ => rfl
  case wake =>
    -- Who waits holds `lk->lk` or `ptable.lock`, or is asleep: here the first is taken, the second
    -- free, and nobody left asleep.
    have hpid := h.wakeup1.pid.goto (p := p) (c := .idle) (by simp [Pc.owns])
    apply h.wakeup1.goto hstep.2 _ rfl
    · have := hholder .lk
      have := hholder .ptable
      grind [Tracks, Pc.waits, Pc.holds, State.wakeup1, update_apply]
    · grind [State.wakeup1, Pc.owns]
  case asleep => cases hstep

theorem inv_of_run (hrun : run step init es = some s) : Inv s :=
  run_invariant_of_step (fun _ _ _ => inv_step) inv_init hrun

/-- One process at most is behind `acquiresleep`, and who sleeps waits for it. -/
theorem sleeplock_exclusive (hrun : run step init es = some s) :
    (∀ p q, (s.pc p).owns = true → (s.pc q).owns = true → p = q) ∧
      ∀ p, s.pc p = .asleep → ∃ q, (s.pc q).owns = true := by
  have h := inv_of_run hrun
  refine ⟨fun p q hp hq => ?_, fun _ => h.owned⟩
  exact Option.some.inj (((h.pid p).mpr hp).symm.trans ((h.pid q).mpr hq))

/-- Process `false` takes the lock and process `true` goes to sleep. -/
def contended : List Bool := List.replicate 3 false ++ List.replicate 6 true

theorem sleeplock_exclusive_contended : ∃ s, run step init contended = some s ∧
    s.pc true = .asleep ∧ ∃ q, (s.pc q).owns = true := by
  refine ⟨_, rfl, rfl, ?_⟩
  exact (sleeplock_exclusive (show run step init contended = some _ from rfl)).2 true rfl

/-- What a process waits for that cannot take a step. -/
theorem stuck (h : step s p = none) : s.pc p = .asleep ∨
    s.holder .ptable ≠ none ∧ (s.pc p).holds .ptable = false ∨
    s.holder .lk ≠ none ∧ (s.pc p).holds .ptable = false ∧ (s.pc p).holds .lk = false := by
  cases hpc : s.pc p <;> simp only [step, hpc, State.goto] at h <;> grind [Pc.holds]

/-- No deadlock: while some process is on its way, some such process can take a step. -/
theorem sleeplock_live (hrun : run step init es = some s) (hp : s.pc p ≠ .idle) :
    ∃ q, s.pc q ≠ .idle ∧ step s q ≠ none := by
  have h := inv_of_run hrun
  by_contra! hstuck
  -- Who holds `ptable.lock` can go on, then who holds `lk->lk` can, then who owns the lock.
  have hfree (k : Spin) (hk : k = .lk → s.holder .ptable = none) : s.holder k = none := by
    by_contra! hne
    obtain ⟨q, hq⟩ := Option.ne_none_iff_exists'.mp hne
    have hholds := (h.holder k q).mp hq
    have hwhy := fun hidle => stuck (hstuck q hidle)
    cases k <;> grind [Pc.holds]
  have htable := hfree .ptable (by simp)
  have hall (q : P) (hq : s.pc q ≠ .idle) : s.pc q = .asleep := by
    grind [stuck (hstuck q hq)]
  obtain ⟨q, hq⟩ := h.owned (hall p hp)
  grind [Pc.owns]

theorem sleeplock_live_contended : ∃ s, run step init contended = some s ∧
    ∃ q, s.pc q ≠ .idle ∧ step s q ≠ none := by
  refine ⟨_, rfl, ?_⟩
  exact sleeplock_live (p := true) (show run step init contended = some _ from rfl) (by decide)

end Xv6Containers.SleepLock
