import Mathlib

/-!
# Lists linked by pointers

The cells of a linked list are its elements `some b` and the anchor `none`, where
the list begins. A pointer field is a function on cells; the pointer `none` ends
the list, which is the null pointer or, in a ring, the anchor itself. `Chain`
says which elements a pointer field links, and every operation on pointers has a
lemma that says what it does to the list. A doubly linked ring is a chain whose
second field links the same elements backwards.
-/

namespace Xv6Containers.Lib.Linked

open Function

variable {B : Type}

/-- From cell `a` on the field links the elements `l`. -/
def Chain (next : Option B → Option B) : Option B → List B → Prop
  | a, [] => next a = none
  | a, b :: l => next a = some b ∧ Chain next (some b) l

/-- The first element from cell `c` on that satisfies `p`; the outer result is `none` if the
field does not end within the given number of cells. -/
def search (next : Option B → Option B) (p : B → Bool) : Nat → Option B → Option (Option B)
  | 0, _ => none
  | n + 1, c =>
    match next c with
    | none => some none
    | some b => if p b then some (some b) else search next p n (some b)

/-- The last cell from cell `c` on. -/
def lastCell (next : Option B → Option B) : Nat → Option B → Option (Option B)
  | 0, _ => none
  | n + 1, c =>
    match next c with
    | none => some c
    | some b => lastCell next n (some b)

variable {next : Option B → Option B} {a : Option B} {l : List B}

theorem getLast?_cons_or (b : B) (l : List B) (a : Option B) :
    (b :: l).getLast?.or a = l.getLast?.or (some b) := by
  rw [List.getLast?_cons]
  cases l.getLast? <;> rfl

theorem getLast?_or_mem (l : List B) (b : B) : ∃ c ∈ b :: l, l.getLast?.or (some b) = some c := by
  cases hlast : l.getLast? with
  | none => exact ⟨b, List.mem_cons_self .., rfl⟩
  | some c => exact ⟨c, List.mem_cons_of_mem _ (List.mem_of_getLast? hlast), rfl⟩

theorem Chain.head (h : Chain next a l) : next a = l.head? := by
  cases l with
  | nil => exact h
  | cons b l => exact h.1

theorem Chain.search_eq (h : Chain next a l) {p : B → Bool} {n : Nat} (hn : l.length < n) :
    search next p n a = some (l.find? p) := by
  induction l generalizing a n with
  | nil =>
    obtain ⟨n, rfl⟩ := Nat.exists_eq_add_of_lt hn
    simp [search, show next a = none from h]
  | cons b l ih =>
    cases n with
    | zero => simp at hn
    | succ n =>
      simp only [search, h.1, List.find?_cons]
      cases p b with
      | true => rfl
      | false => exact ih h.2 (by simpa using hn)

theorem Chain.lastCell_eq (h : Chain next a l) {n : Nat} (hn : l.length < n) :
    lastCell next n a = some (l.getLast?.or a) := by
  induction l generalizing a n with
  | nil =>
    obtain ⟨n, rfl⟩ := Nat.exists_eq_add_of_lt hn
    simp [lastCell, show next a = none from h]
  | cons b l ih =>
    cases n with
    | zero => simp at hn
    | succ n =>
      simp only [lastCell, h.1]
      rw [ih h.2 (by simpa using hn), getLast?_cons_or]

/-- Only the fields of the linked cells matter. -/
theorem Chain.congr {next' : Option B → Option B} (h : Chain next a l) (ha : next' a = next a)
    (hl : ∀ b ∈ l, next' (some b) = next (some b)) : Chain next' a l := by
  induction l generalizing a with
  | nil => exact ha.trans h
  | cons b l ih =>
    exact ⟨ha.trans h.1, ih h.2 (hl b (List.mem_cons_self ..))
      fun c hc => hl c (List.mem_cons_of_mem _ hc)⟩

variable {l' : List B} {b : B}

theorem Chain.append (h : Chain next a (l ++ l')) : Chain next (l.getLast?.or a) l' := by
  induction l generalizing a with
  | nil => simpa using h
  | cons b l ih =>
    rw [getLast?_cons_or]
    exact ih h.2

variable [DecidableEq B]

/-- Link a new element behind the last one. -/
theorem Chain.concat (h : Chain next a l) (hb : b ∉ l) (hl : l.Nodup) (ha : ∀ c ∈ l, a ≠ some c)
    (hab : a ≠ some b) :
    Chain (update (update next (some b) none) (l.getLast?.or a) (some b)) a
      (l ++ [b]) := by
  induction l generalizing a with
  | nil => exact ⟨by simp, by simp [Chain, update_of_ne hab.symm]⟩
  | cons c l ih =>
    obtain ⟨hbc, hbl⟩ := List.ne_and_not_mem_of_not_mem_cons hb
    obtain ⟨hcl, hl⟩ := List.nodup_cons.mp hl
    have hne : a ≠ l.getLast?.or (some c) := by
      obtain ⟨d, hd, hlast⟩ := getLast?_or_mem l c
      rw [hlast]
      exact ha d hd
    rw [getLast?_cons_or]
    refine ⟨?_, ih h.2 hbl hl (fun d hd hcd => hcl (Option.some.inj hcd ▸ hd))
      (fun hcb => hbc (Option.some.inj hcb).symm)⟩
    rw [update_of_ne hne, update_of_ne hab]
    exact h.1

/-- Unlink an element: the cell before it takes over its pointer. -/
theorem Chain.remove (h : Chain next a (l ++ b :: l')) (hl : (l ++ b :: l').Nodup)
    (ha : ∀ c ∈ l ++ b :: l', a ≠ some c) :
    Chain (update next (l.getLast?.or a) (next (some b))) a (l ++ l') := by
  induction l generalizing a with
  | nil =>
    obtain ⟨hb, _⟩ := List.nodup_cons.mp hl
    have hrest : Chain next (some b) l' := h.2
    cases l' with
    | nil => simpa [Chain] using hrest
    | cons c l' =>
      refine ⟨by simpa using hrest.1, hrest.2.congr ?_ fun d hd => ?_⟩
      · exact update_of_ne (ha c (by simp)).symm ..
      · exact update_of_ne (ha d (by simp [hd])).symm ..
  | cons c l ih =>
    obtain ⟨hc, hl⟩ := List.nodup_cons.mp hl
    have hne : a ≠ l.getLast?.or (some c) := by
      obtain ⟨d, hd, hlast⟩ := getLast?_or_mem l c
      rw [hlast]
      refine ha d ?_
      rcases List.mem_cons.mp hd with rfl | hd
      · simp
      · simp [hd]
    rw [getLast?_cons_or]
    refine ⟨?_, ih h.2 hl fun d hd hcd => hc (Option.some.inj hcd ▸ hd)⟩
    rw [update_of_ne hne]
    exact h.1

/-- Link a new element behind the anchor. -/
theorem Chain.push (h : Chain next none l) (hb : b ∉ l) :
    Chain (update (update next (some b) (next none)) none (some b)) none
      (b :: l) := by
  refine ⟨by simp, ?_⟩
  have hself : update (update next (some b) (next none)) none (some b) (some b) =
      next none := by simp
  have hother (c : B) (hc : c ∈ l) :
      update (update next (some b) (next none)) none (some b) (some c) =
        next (some c) := by
    have hcb : c ≠ b := fun hcb => hb (hcb ▸ hc)
    simp [hcb]
  cases l with
  | nil => exact hself.trans h
  | cons c l =>
    refine ⟨hself.trans h.1, h.2.congr (hother c (List.mem_cons_self ..)) fun d hd => ?_⟩
    exact hother d (List.mem_cons_of_mem _ hd)

/-! ## Rings -/

/-- The fields `next` and `prev` link the elements `l` in a ring through the anchor. -/
structure IsRing (next prev : Option B → Option B) (l : List B) : Prop where
  nodup : l.Nodup
  forward : Chain next none l
  backward : Chain prev none l.reverse

variable {prev : Option B → Option B}

omit [DecidableEq B] in
/-- The pointers of an element lead to its neighbours. -/
theorem IsRing.neighbours (h : IsRing next prev (l ++ b :: l')) :
    next (some b) = l'.head? ∧ prev (some b) = l.getLast? := by
  refine ⟨h.forward.append.2.head, ?_⟩
  have hback := h.backward
  rw [List.reverse_append, List.reverse_cons, List.append_assoc] at hback
  simpa using hback.append.2.head

/-- Unlink an element in both directions. -/
theorem IsRing.remove (h : IsRing next prev (l ++ b :: l')) :
    IsRing (update next (prev (some b)) (next (some b)))
      (update prev (next (some b)) (prev (some b))) (l ++ l') := by
  obtain ⟨hnext, hprev⟩ := h.neighbours
  refine ⟨h.nodup.sublist (by simp), ?_, ?_⟩
  · have hforward := h.forward.remove h.nodup (by simp)
    rw [hprev]
    simpa using hforward
  · have hback := h.backward
    rw [List.reverse_append, List.reverse_cons, List.append_assoc] at hback
    have hremoved := Chain.remove (b := b) (by simpa using hback)
      (by simpa [List.nodup_append] using List.nodup_reverse.mpr h.nodup) (by simp)
    rw [hnext, List.reverse_append]
    simpa using hremoved

/-- Link an element that is in no list behind the anchor, in both directions. -/
theorem IsRing.push (h : IsRing next prev l) (hb : b ∉ l) :
    IsRing (update (update next (some b) (next none)) none (some b))
      (update (update prev (some b) none) (next none) (some b)) (b :: l) := by
  refine ⟨List.nodup_cons.mpr ⟨hb, h.nodup⟩, h.forward.push hb, ?_⟩
  have hconcat := h.backward.concat (b := b) (by simpa using hb) (List.nodup_reverse.mpr h.nodup)
    (by simp) (by simp)
  rw [h.forward.head, List.reverse_cons]
  simpa using hconcat

end Xv6Containers.Lib.Linked
