import Xv6Containers.Lib.Program

/-!
# Machines that answer requests

A machine takes a state and a request to an answer and the next state, or it fails. One machine
follows another if it gives the same answers, apart from failures of its own, such as running
out of a resource that the other does not have.
-/

namespace Xv6Containers.Lib.Refinement

open Program

variable {σ τ ι α β ε : Type} {E : ε → Prop} {R : σ → τ → Prop}

/-- The answers to a list of requests, and the state after them. -/
def answers (step : σ → ι → Except ε (α × σ)) : σ → List ι → Except ε (List α × σ)
  | s, [] => .ok ([], s)
  | s, i :: is => do
    let (a, s) ← step s i
    let (as, s) ← answers step s is
    return (a :: as, s)

/-- The first result is an error of `E`, or it is the second result with a related state. -/
def Follows (E : ε → Prop) (R : σ → τ → Prop) (x : Except ε (α × σ)) (y : Except ε (α × τ)) :
    Prop :=
  Yields (fun e => E e ∨ y = .error e) (fun r => ∃ t, y = .ok (r.1, t) ∧ R r.2 t) x

theorem Follows.bind {x : Except ε (α × σ)} {y : Except ε (α × τ)}
    {f : α × σ → Except ε (β × σ)} {g : α × τ → Except ε (β × τ)} (h : Follows E R x y)
    (hf : ∀ a s t, R s t → Follows E R (f (a, s)) (g (a, t))) :
    Follows E R (x >>= f) (y >>= g) := by
  cases x with
  | error e =>
    rcases h with h | rfl
    · exact .inl h
    · exact .inr rfl
  | ok r =>
    obtain ⟨t, rfl, hR⟩ := h
    exact hf r.1 r.2 t hR

/-- A machine that follows another request by request follows it on every list of requests. -/
theorem answers_follows {C : ι → Prop} {step : σ → ι → Except ε (α × σ)}
    {step' : τ → ι → Except ε (α × τ)}
    (hstep : ∀ s t i, C i → R s t → Follows E R (step s i) (step' t i)) {s : σ} {t : τ}
    (hR : R s t) {is : List ι} (hC : ∀ i ∈ is, C i) :
    Follows E R (answers step s is) (answers step' t is) := by
  induction is generalizing s t with
  | nil => exact ⟨t, rfl, hR⟩
  | cons i is ih =>
    apply (hstep s t i (hC i (List.mem_cons_self ..)) hR).bind
    intro a u v huv
    apply (ih huv fun j hj => hC j (List.mem_cons_of_mem _ hj)).bind
    intro as u' v' huv'
    exact ⟨v', rfl, huv'⟩

end Xv6Containers.Lib.Refinement
