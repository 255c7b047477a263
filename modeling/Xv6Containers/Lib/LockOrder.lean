import Xv6Containers.Lib.Runs

/-!
# Lock order

Any number of threads execute sequences of acquisitions and releases of locks.
If every sequence acquires in the order of a rank, then in no reachable state do
threads wait for each other in a cycle.
-/

namespace Xv6Containers.Lib.LockOrder

open Runs Function

inductive Act (L : Type)
  | acquire (l : L)
  | release (l : L)

/-- Who holds each lock, and what each thread has yet to do. -/
structure State (P L : Type) where
  holder : L → Option P
  todo : P → List (Act L)

inductive Event (P X : Type)
  | start (p : P) (x : X)
  | go (p : P)

variable {P L X : Type} [DecidableEq P] [DecidableEq L]

/-- Nobody runs and every lock is free. -/
def idle : State P L := ⟨fun _ => none, fun _ => []⟩

/-- A thread enters one of the sequences, or does its next action. It spins on a lock that is
taken. -/
def step (acts : X → List (Act L)) (s : State P L) : Event P X → Option (State P L)
  | .start p x =>
    if (s.todo p).isEmpty then some { s with todo := update s.todo p (acts x) } else none
  | .go p =>
    match s.todo p with
    | [] => none
    | .acquire l :: rest =>
      if (s.holder l).isNone then
        some ⟨update s.holder l (some p), update s.todo p rest⟩
      else none
    | .release l :: rest =>
      if s.holder l = some p then
        some ⟨update s.holder l none, update s.todo p rest⟩
      else none

omit [DecidableEq P] [DecidableEq L] in
/-- Thread `p` spins for a lock that `q` holds. -/
def Waits (s : State P L) (p q : P) : Prop :=
  ∃ l rest, s.todo p = .acquire l :: rest ∧ s.holder l = some q

omit [DecidableEq P] [DecidableEq L] in
/-- Threads wait for each other in a cycle. -/
def Deadlocked (s : State P L) : Prop := ∃ p, Relation.TransGen (Waits s) p p

/-! ## Sequences that climb -/

/-- From the locks `held` on, the sequence acquires in the order of the rank, and ends
with the locks `after`. -/
def Climbs (rank : L → Nat) : (held : List L) → List (Act L) → (after : List L) → Prop
  | held, [], after => held = after
  | held, .acquire l :: rest, after =>
    (∀ m ∈ held, rank m < rank l) ∧ Climbs rank (l :: held) rest after
  | held, .release l :: rest, after => Climbs rank (held.erase l) rest after

variable {rank : L → Nat} {held mid after : List L}

omit [DecidableEq P] in
theorem Climbs.append {as bs : List (Act L)} (ha : Climbs rank held as mid)
    (hb : Climbs rank mid bs after) : Climbs rank held (as ++ bs) after := by
  induction as generalizing held with
  | nil =>
    cases ha
    exact hb
  | cons a as ih =>
    cases a with
    | acquire l => exact ⟨ha.1, ih ha.2⟩
    | release l => exact ih (ha : Climbs rank (held.erase l) as mid)

theorem Climbs.flatMap {α : Type} {f : α → List (Act L)} {xs : List α}
    (h : ∀ x ∈ xs, Climbs rank held (f x) held) : Climbs rank held (xs.flatMap f) held := by
  induction xs with
  | nil => rfl
  | cons x xs ih =>
    rw [List.flatMap_cons]
    exact (h x (List.mem_cons_self ..)).append (ih fun y hy => h y (List.mem_cons_of_mem _ hy))

/-- A sequence that runs with one lock held. -/
theorem Climbs.under {l : L} {as : List (Act L)} (h : Climbs rank [l] as [l]) :
    Climbs rank [] (.acquire l :: as ++ [.release l]) [] := by
  refine ⟨by simp, h.append ?_⟩
  simp [Climbs]

/-! ## No cycle -/

/-- What each thread holds lets it climb to its end. -/
def Ordered (rank : L → Nat) (s : State P L) : Prop :=
  ∀ p, ∃ held, (∀ l, s.holder l = some p → l ∈ held) ∧ Climbs rank held (s.todo p) []

omit [DecidableEq P] in
theorem ordered_idle : Ordered rank (idle : State P L) := by
  refine fun _ => ⟨[], fun _ h => ?_, rfl⟩
  cases h

variable {acts : X → List (Act L)} {s t : State P L}

theorem step_ordered {e : Event P X} (hs : Ordered rank s)
    (hclimbs : ∀ p x, e = .start p x → Climbs rank [] (acts x) []) (ht : step acts s e = some t) :
    Ordered rank t := by
  intro q
  obtain ⟨held, hheld, hclimb⟩ := hs q
  cases e with
  | start p x =>
    simp only [step] at ht
    split at ht
    · next hidle =>
      cases ht
      by_cases hq : q = p
      · subst hq
        rw [List.isEmpty_iff] at hidle
        rw [hidle] at hclimb
        cases hclimb
        exact ⟨[], hheld, by simpa using hclimbs q x rfl⟩
      · exact ⟨held, hheld, by simpa [update_of_ne hq] using hclimb⟩
    · cases ht
  | go p =>
    simp only [step] at ht
    split at ht
    · cases ht
    · next l rest htodo =>
      split at ht
      · next hfree =>
        cases ht
        by_cases hq : q = p
        · subst hq
          rw [htodo] at hclimb
          refine ⟨l :: held, fun m hm => ?_, by simpa using hclimb.2⟩
          by_cases hml : m = l
          · simp [hml]
          · exact List.mem_cons_of_mem _ (hheld m (by simpa [hml] using hm))
        · refine ⟨held, fun m hm => ?_, by simpa [update_of_ne hq] using hclimb⟩
          by_cases hml : m = l
          · subst hml
            simp only [update_self, Option.some.injEq] at hm
            exact absurd hm.symm hq
          · exact hheld m (by simpa [hml] using hm)
      · cases ht
    · next l rest htodo =>
      split at ht
      · next hholds =>
        cases ht
        have hother (m : L) (hm : update s.holder l none m = some q) :
            m ≠ l ∧ s.holder m = some q := by
          by_cases hml : m = l
          · subst hml
            simp at hm
          · exact ⟨hml, by rwa [update_of_ne hml] at hm⟩
        by_cases hq : q = p
        · subst hq
          rw [htodo] at hclimb
          refine ⟨held.erase l, fun m hm => ?_, by simpa [Climbs] using hclimb⟩
          obtain ⟨hml, hm⟩ := hother m hm
          exact (List.mem_erase_of_ne hml).mpr (hheld m hm)
        · exact ⟨held, fun m hm => hheld m (hother m hm).2,
            by simpa [update_of_ne hq] using hclimb⟩
      · cases ht

omit [DecidableEq P] in
/-- Along a chain of waiting threads the rank of the awaited lock grows. -/
theorem Ordered.rank_lt (hs : Ordered rank s) {p q : P} (hpq : Relation.TransGen (Waits s) p q)
    {k l : L} {rest rest' : List (Act L)} (hp : s.todo p = .acquire k :: rest)
    (hq : s.todo q = .acquire l :: rest') : rank k < rank l := by
  have hone {p q : P} {k l : L} {rest rest' : List (Act L)} (hw : Waits s p q)
      (hp : s.todo p = .acquire k :: rest) (hq : s.todo q = .acquire l :: rest') :
      rank k < rank l := by
    obtain ⟨k', _, hk', hholds⟩ := hw
    rw [hp] at hk'
    cases hk'
    obtain ⟨held, hheld, hclimb⟩ := hs q
    rw [hq] at hclimb
    exact hclimb.1 k (hheld k hholds)
  induction hpq generalizing l rest' with
  | single hw => exact hone hw hp hq
  | tail _ hw ih =>
    obtain ⟨m, _, hm, _⟩ := id hw
    exact Nat.lt_trans (ih hm) (hone hw hm hq)

omit [DecidableEq P] in
theorem Ordered.not_deadlocked (hs : Ordered rank s) : ¬ Deadlocked s := by
  rintro ⟨p, hcycle⟩
  obtain ⟨q, hw, _⟩ := Relation.TransGen.head'_iff.mp hcycle
  obtain ⟨l, rest, hp, _⟩ := hw
  exact absurd (hs.rank_lt hcycle hp hp) (Nat.lt_irrefl _)

/-- The rule of lock order. -/
theorem run_not_deadlocked {C : State P L → Event P X → Prop} {es : List (Event P X)}
    (hclimbs : ∀ s p x, C s (.start p x) → Climbs rank [] (acts x) [])
    (hc : Always (step acts) C idle es) (hrun : run (step acts) idle es = some s) :
    ¬ Deadlocked s := by
  have hordered : Ordered rank s := by
    refine run_invariant (fun u e v hu hC hv => ?_) ordered_idle hc hrun
    refine step_ordered hu (fun p x he => ?_) hv
    subst he
    exact hclimbs u p x hC
  exact hordered.not_deadlocked

end Xv6Containers.Lib.LockOrder
