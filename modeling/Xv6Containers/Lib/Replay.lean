import Mathlib

/-!
# Ordered writes, crashes and replay

A store is a function from addresses to contents, and a procedure that writes
it is described by the ordered list of cell writes it issues. A crash keeps an
arbitrary prefix of that list. A recovery procedure is a function from the
store it finds to the writes it issues; it may itself be stopped after any
prefix and started again on what it left.

## Implementation notes

Reads are not events. A procedure that reads the store is a function of the
store, so the writes it issues already contain everything it read.
-/

namespace Xv6Containers.Lib.Replay

variable {α β : Type*} [DecidableEq α]

/-- The store after an ordered list of cell writes. -/
def applyWrites (ws : List (α × β)) (s : α → β) : α → β :=
  ws.foldl (fun s w => Function.update s w.1 w.2) s

@[simp] theorem applyWrites_nil (s : α → β) : applyWrites [] s = s := rfl

@[simp] theorem applyWrites_cons (w : α × β) (ws : List (α × β)) (s : α → β) :
    applyWrites (w :: ws) s = applyWrites ws (Function.update s w.1 w.2) := rfl

theorem applyWrites_append (ws vs : List (α × β)) (s : α → β) :
    applyWrites (ws ++ vs) s = applyWrites vs (applyWrites ws s) := by
  simp [applyWrites, List.foldl_append]

/-- A cell that no write names keeps its contents. -/
theorem applyWrites_frame {ws : List (α × β)} {a : α} (h : ∀ w ∈ ws, w.1 ≠ a) (s : α → β) :
    applyWrites ws s a = s a := by
  induction ws generalizing s with
  | nil => rfl
  | cons w ws ih =>
    have hw : a ≠ w.1 := fun heq => h w (by simp) heq.symm
    rw [applyWrites_cons, ih (fun v hv => h v (by simp [hv])), Function.update_of_ne hw]

/-- A cell written once by a list without repeated addresses holds that write. -/
theorem applyWrites_of_mem {ws : List (α × β)} (hnd : (ws.map Prod.fst).Nodup)
    {a : α} {v : β} (h : (a, v) ∈ ws) (s : α → β) : applyWrites ws s a = v := by
  induction ws generalizing s with
  | nil => simp at h
  | cons w ws ih =>
    simp only [List.map_cons, List.nodup_cons, List.mem_map, not_exists, not_and] at hnd
    rcases List.mem_cons.mp h with rfl | hmem
    · rw [applyWrites_cons, applyWrites_frame (fun u hu => hnd.1 u hu), Function.update_self]
    · exact ih hnd.2 hmem _

/-- What a recovery procedure, interrupted any number of times and then run to its end,
can make of a store. `redo s` is the ordered list of writes it issues on `s`. -/
inductive Recovers (redo : (α → β) → List (α × β)) : (α → β) → (α → β) → Prop
  | done (s : α → β) : Recovers redo s (applyWrites (redo s) s)
  | stop {s t : α → β} (k : Nat)
      (rest : Recovers redo (applyWrites ((redo s).take k) s) t) : Recovers redo s t

/-- A property kept by every prefix of a recovery and turned into `Q` by a whole one
gives `Q` after the first recovery that completes. -/
theorem Recovers.rule {redo : (α → β) → List (α × β)} {I Q : (α → β) → Prop}
    (hstop : ∀ s k, I s → I (applyWrites ((redo s).take k) s))
    (hdone : ∀ s, I s → Q (applyWrites (redo s) s)) {s t : α → β}
    (run : Recovers redo s t) (hs : I s) : Q t := by
  induction run with
  | done s => exact hdone s hs
  | stop k rest ih => exact ih (hstop _ k hs)

end Xv6Containers.Lib.Replay
