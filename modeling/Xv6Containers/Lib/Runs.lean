import Mathlib

/-!
# Runs of a partial step function

A system is a function that takes a state and an event to the next state, or to
`none` when the event is not enabled. A run is a list of events. The rules here
turn facts about one step into facts about every run.
-/

namespace Xv6Containers.Lib.Runs

variable {σ ε : Type*} (step : σ → ε → Option σ)

/-- Execute a list of events in order. -/
def run : σ → List ε → Option σ
  | s, [] => some s
  | s, e :: es => (step s e).bind fun t => run t es

@[simp] theorem run_nil (s : σ) : run step s [] = some s := rfl

variable {s : σ} {es : List ε} {C D : σ → ε → Prop} {I : σ → Prop}

theorem run_cons_eq_some {t : σ} {e : ε} :
    run step s (e :: es) = some t ↔ ∃ u, step s e = some u ∧ run step u es = some t := by
  simp [run, Option.bind_eq_some_iff]

theorem run_append_eq_some {t : σ} {fs : List ε} :
    run step s (es ++ fs) = some t ↔ ∃ u, run step s es = some u ∧ run step u fs = some t := by
  induction es generalizing s with
  | nil => simp
  | cons e es ih =>
    rw [List.cons_append, run_cons_eq_some]
    constructor
    · rintro ⟨u, hu, hrest⟩
      obtain ⟨v, hv, hfs⟩ := ih.mp hrest
      exact ⟨v, (run_cons_eq_some step).mpr ⟨u, hu, hv⟩, hfs⟩
    · rintro ⟨v, hv, hfs⟩
      obtain ⟨u, hu, hes⟩ := (run_cons_eq_some step).mp hv
      exact ⟨u, hu, ih.mpr ⟨v, hes, hfs⟩⟩

/-- Every event of the run satisfies `C` in the state it is executed in. -/
def Always (C : σ → ε → Prop) : σ → List ε → Prop
  | _, [] => True
  | s, e :: es => C s e ∧ ∀ t, step s e = some t → Always C t es

/-- Checking a run evaluates the condition at each of its states. -/
instance Always.instDecidable (C : σ → ε → Prop) [∀ s e, Decidable (C s e)] (s : σ)
    (es : List ε) : Decidable (Always step C s es) :=
  match es with
  | [] => isTrue trivial
  | e :: es =>
    match hstep : step s e with
    | none => decidable_of_iff (C s e)
        ⟨fun h => ⟨h, fun t ht => by rw [hstep] at ht; cases ht⟩, And.left⟩
    | some t =>
      have := Always.instDecidable C t es
      decidable_of_iff (C s e ∧ Always step C t es)
        ⟨fun h => ⟨h.1, fun u hu => by rw [hstep] at hu; cases hu; exact h.2⟩,
          fun h => ⟨h.1, h.2 t hstep⟩⟩

variable {step}

/-- A condition on the events alone. -/
theorem always_of_mem {C : ε → Prop} (h : ∀ e ∈ es, C e) : Always step (fun _ e => C e) s es := by
  induction es generalizing s with
  | nil => trivial
  | cons e es ih =>
    exact ⟨h e (List.mem_cons_self ..), fun t _ => ih fun e he => h e (List.mem_cons_of_mem _ he)⟩

/-- The invariant rule: what holds first and is kept by every allowed step holds after
every run whose steps are all allowed. -/
theorem run_invariant (hstep : ∀ s e t, I s → C s e → step s e = some t → I t) {t : σ} (hs : I s)
    (hc : Always step C s es) (hrun : run step s es = some t) : I t := by
  induction es generalizing s with
  | nil =>
    rw [run_nil, Option.some.injEq] at hrun
    exact hrun ▸ hs
  | cons e es ih =>
    obtain ⟨u, hu, hrest⟩ := (run_cons_eq_some step).mp hrun
    exact ih (hstep s e u hs hc.1 hu) (hc.2 u hu) hrest

/-- What an invariant implies of every step holds at every step of a run. -/
theorem always_of_invariant (hstep : ∀ s e t, I s → C s e → step s e = some t → I t)
    (hD : ∀ s e, I s → D s e) (hs : I s) (hc : Always step C s es) : Always step D s es := by
  induction es generalizing s with
  | nil => trivial
  | cons e es ih => exact ⟨hD s e hs, fun t ht => ih (hstep s e t hs hc.1 ht) (hc.2 t ht)⟩

/-- Two conditions that agree at every step from a state of the invariant agree on runs. -/
theorem always_iff_of_invariant (hstep : ∀ s e t, I s → C s e → step s e = some t → I t)
    (hD : ∀ s e t, I s → step s e = some t → (C s e ↔ D s e)) {t : σ} (hs : I s)
    (hrun : run step s es = some t) : Always step C s es ↔ Always step D s es := by
  induction es generalizing s with
  | nil => exact Iff.rfl
  | cons e es ih =>
    obtain ⟨u, hu, hrest⟩ := (run_cons_eq_some step).mp hrun
    have hhead := hD s e u hs hu
    have htail : ∀ v, C s e → step s e = some v → (Always step C v es ↔ Always step D v es) := by
      intro v hc hv
      obtain rfl : u = v := Option.some.inj (hu.symm.trans hv)
      exact ih (hstep s e u hs hc hu) hrest
    constructor
    · intro h
      exact ⟨hhead.mp h.1, fun v hv => (htail v h.1 hv).mp (h.2 v hv)⟩
    · intro h
      exact ⟨hhead.mpr h.1, fun v hv => (htail v (hhead.mpr h.1) hv).mpr (h.2 v hv)⟩

/-- Two conditions that agree in all states of an invariant agree on runs. -/
theorem always_congr (hstep : ∀ s e t, I s → step s e = some t → I t)
    (hD : ∀ s e, I s → (C s e ↔ D s e)) (hs : I s) : Always step C s es ↔ Always step D s es := by
  induction es generalizing s with
  | nil => exact Iff.rfl
  | cons e es ih =>
    exact and_congr (hD s e hs)
      (forall_congr' fun t => forall_congr' fun ht => ih (hstep s e t hs ht))

/-- The invariant rule for steps without a side condition. -/
theorem run_invariant_of_step (hstep : ∀ s e t, I s → step s e = some t → I t) {t : σ} (hs : I s)
    (hrun : run step s es = some t) : I t := by
  induction es generalizing s with
  | nil =>
    rw [run_nil, Option.some.injEq] at hrun
    exact hrun ▸ hs
  | cons e es ih =>
    obtain ⟨u, hu, hrest⟩ := (run_cons_eq_some step).mp hrun
    exact ih (hstep s e u hs hu) hrest

end Xv6Containers.Lib.Runs
