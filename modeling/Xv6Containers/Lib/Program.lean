import Xv6Containers.Lib.Runs

/-!
# Programs over primitive operations

A program is a tree of calls of primitive operations; what an operation does is
given from outside, so one program text has a meaning over every machine that
implements the operations. A program runs alone, or as one of many threads that
interleave call by call.

`Safe` checks a program against a discipline of its own resources for every result
its calls may return; a machine that respects the discipline then keeps its
invariant, whether the program runs alone or among others.
-/

namespace Xv6Containers.Lib.Program

open Runs

variable {Op : Type} {Res : Op → Type} {α β σ ε G P : Type}

/-- A sequence of fallible steps succeeds when each of them does. -/
theorem except_bind_eq_ok {x : Except ε α} {f : α → Except ε β} {b : β} :
    (x >>= f) = .ok b ↔ ∃ a, x = .ok a ∧ f a = .ok b := by
  cases x with
  | error e => simp [bind, Except.bind]
  | ok a => simp [bind, Except.bind]

theorem except_map_eq_ok {x : Except ε α} {f : α → β} {b : β} :
    x.map f = .ok b ↔ ∃ a, x = .ok a ∧ f a = b := by
  cases x with
  | error e => simp [Except.map]
  | ok a => simp [Except.map]

/-- The computation returns a value with `Q`, or fails with an error that `E` allows. -/
def Yields (E : ε → Prop) (Q : α → Prop) : Except ε α → Prop
  | .ok a => Q a
  | .error e => E e

theorem Yields.bind {E : ε → Prop} {P : α → Prop} {Q : β → Prop} {x : Except ε α}
    {f : α → Except ε β} (hx : Yields E P x) (hf : ∀ a, P a → Yields E Q (f a)) :
    Yields E Q (x >>= f) := by
  cases x with
  | error e => exact hx
  | ok a => exact hf a hx

theorem Yields.mono {E E' : ε → Prop} {P Q : α → Prop} {x : Except ε α} (hx : Yields E P x)
    (hE : ∀ e, E e → E' e) (hQ : ∀ a, P a → Q a) : Yields E' Q x := by
  cases x with
  | error e => exact hE e hx
  | ok a => exact hQ a hx

theorem Yields.and {E E' : ε → Prop} {P Q : α → Prop} {x : Except ε α} (hx : Yields E P x)
    (hx' : Yields E' Q x) : Yields E (fun a => P a ∧ Q a) x := by
  cases x with
  | error e => exact hx
  | ok a => exact ⟨hx, hx'⟩

theorem yields_iff {E : ε → Prop} {Q : α → Prop} {x : Except ε α} :
    Yields E Q x ↔ (∀ a, x = .ok a → Q a) ∧ ∀ e, x = .error e → E e := by
  cases x with
  | error e => simp [Yields]
  | ok a => simp [Yields]

theorem except_toOption_eq_some {x : Except ε α} {a : α} : x.toOption = some a ↔ x = .ok a := by
  cases x with
  | error e => simp [Except.toOption]
  | ok b => simp [Except.toOption]

inductive Prog (Res : Op → Type) (α : Type) : Type
  | ret (a : α)
  | call (o : Op) (next : Res o → Prog Res α)

namespace Prog

def bind : Prog Res α → (α → Prog Res β) → Prog Res β
  | ret a, f => f a
  | call o next, f => call o fun r => (next r).bind f

instance : Monad (Prog Res) where
  pure := ret
  bind := bind

/-- The program that makes one call. -/
def op (o : Op) : Prog Res (Res o) := call o ret

/-! ## A program alone -/

variable (exec : (o : Op) → σ → Except ε (Res o × σ))

def run : Prog Res α → σ → Except ε (α × σ)
  | ret a, s => .ok (a, s)
  | call o next, s =>
    match exec o s with
    | .ok (r, t) => (next r).run t
    | .error e => .error e

theorem run_bind (x : Prog Res α) (f : α → Prog Res β) (s : σ) :
    (x >>= f).run exec s = x.run exec s >>= fun r => (f r.1).run exec r.2 := by
  change (x.bind f).run exec s = _
  induction x generalizing s with
  | ret a => rfl
  | call o next ih =>
    simp only [bind, run]
    cases exec o s with
    | error e => rfl
    | ok r => exact ih r.1 r.2

variable {exec} in
theorem run_bind_of_ok {x : Prog Res α} {a : α} {s t : σ} (h : x.run exec s = .ok (a, t))
    (f : α → Prog Res β) : (x >>= f).run exec s = (f a).run exec t := by
  rw [run_bind, h]
  rfl

@[simp] theorem run_op (o : Op) (s : σ) : (op o).run exec s = exec o s := by
  simp only [op, run]
  cases exec o s <;> rfl

variable {exec} in
theorem run_op_bind {o : Op} {s t : σ} {r : Res o} (h : exec o s = .ok (r, t))
    (f : Res o → Prog Res β) : (op o >>= f).run exec s = (f r).run exec t := by
  rw [run_bind]
  simp only [op, run, h]
  rfl

/-- Every call of the run satisfies `C` in the state it is made in. -/
def Meets (C : Op → σ → Prop) : Prog Res α → σ → Prop
  | ret _, _ => True
  | call o next, s => C o s ∧ ∀ r t, exec o s = .ok (r, t) → (next r).Meets C t

theorem meets_bind {C : Op → σ → Prop} (x : Prog Res α) (f : α → Prog Res β) (s : σ) :
    (x >>= f).Meets exec C s ↔
      x.Meets exec C s ∧ ∀ a t, x.run exec s = .ok (a, t) → (f a).Meets exec C t := by
  change (x.bind f).Meets exec C s ↔ _
  induction x generalizing s with
  | ret a =>
    simp only [bind, Meets, run, true_and]
    constructor
    · rintro h b t hb
      cases hb
      exact h
    · exact fun h => h a s rfl
  | call o next ih =>
    simp only [bind, Meets, ih, run]
    cases hexec : exec o s with
    | error e => simp
    | ok r =>
      constructor
      · rintro ⟨hc, hnext⟩
        refine ⟨⟨hc, fun r' t' hr => (hnext r' t' hr).1⟩, ?_⟩
        exact (hnext r.1 r.2 rfl).2
      · rintro ⟨⟨hc, hnext⟩, hrest⟩
        refine ⟨hc, fun r' t' hr => ⟨hnext r' t' hr, ?_⟩⟩
        cases hr
        exact hrest

/-- Every state of the run satisfies `P`. -/
def Passes (P : σ → Prop) : Prog Res α → σ → Prop
  | ret _, s => P s
  | call o next, s => P s ∧ ∀ r t, exec o s = .ok (r, t) → (next r).Passes P t

/-- Checking a run evaluates the condition at each of its calls. -/
instance Meets.instDecidable (C : Op → σ → Prop) [∀ o s, Decidable (C o s)] (x : Prog Res α)
    (s : σ) : Decidable (x.Meets exec C s) :=
  match x with
  | ret _ => isTrue trivial
  | call o next =>
    match hexec : exec o s with
    | .error _ => decidable_of_iff (C o s)
        ⟨fun h => ⟨h, fun r t ht => by rw [hexec] at ht; cases ht⟩, And.left⟩
    | .ok (r, t) =>
      have := Meets.instDecidable C (next r) t
      decidable_of_iff (C o s ∧ (next r).Meets exec C t)
        ⟨fun h => ⟨h.1, fun r' t' ht => by rw [hexec] at ht; cases ht; exact h.2⟩,
          fun h => ⟨h.1, h.2 r t hexec⟩⟩

variable {exec} {C : Op → σ → Prop}

/-! ## Disciplines -/

/-- A discipline of the resources of one thread: when a call is allowed, what may be assumed
of its result, and how it changes what the thread holds. -/
structure Discipline (Res : Op → Type) (G : Type) where
  pre : Op → G → Prop
  may : (o : Op) → G → Res o → Prop
  next : (o : Op) → Res o → G → G

variable {D : Discipline Res G}

/-- Whatever its calls return, the program keeps the discipline and ends with `post`. -/
def Safe (D : Discipline Res G) (post : α → G → Prop) : Prog Res α → G → Prop
  | ret a, g => post a g
  | call o next, g => D.pre o g ∧ ∀ r, D.may o g r → (next r).Safe D post (D.next o r g)

@[simp] theorem safe_pure {post : α → G → Prop} {a : α} {g : G} :
    (pure a : Prog Res α).Safe D post g ↔ post a g := Iff.rfl

@[simp] theorem safe_bind {x : Prog Res α} {f : α → Prog Res β} {post : β → G → Prop} {g : G} :
    (x >>= f).Safe D post g ↔ x.Safe D (fun a g' => (f a).Safe D post g') g := by
  change (x.bind f).Safe D post g ↔ _
  induction x generalizing g with
  | ret a => rfl
  | call o next ih => simp only [bind, Safe, ih]

theorem Safe.mono {post post' : α → G → Prop} (h : ∀ a g, post a g → post' a g)
    {x : Prog Res α} {g : G} (hx : x.Safe D post g) : x.Safe D post' g := by
  induction x generalizing g with
  | ret a => exact h a g hx
  | call o next ih => exact ⟨hx.1, fun r hr => ih r (hx.2 r hr)⟩

/-- Two disciplines at once. -/
def Discipline.prod {H : Type} (D : Discipline Res G) (E : Discipline Res H) :
    Discipline Res (G × H) where
  pre := fun o g => D.pre o g.1 ∧ E.pre o g.2
  may := fun o g r => D.may o g.1 r ∧ E.may o g.2 r
  next := fun o r g => (D.next o r g.1, E.next o r g.2)

/-- A program that keeps two disciplines keeps both at once. -/
theorem Safe.prod {H : Type} {E : Discipline Res H} {post : α → G → Prop} {post' : α → H → Prop}
    {x : Prog Res α} {g : G} {h : H} (hx : x.Safe D post g) (hy : x.Safe E post' h) :
    x.Safe (D.prod E) (fun a k => post a k.1 ∧ post' a k.2) (g, h) := by
  induction x generalizing g h with
  | ret a => exact ⟨hx, hy⟩
  | call o next ih =>
    exact ⟨⟨hx.1, hy.1⟩, fun r hr => ih r (hx.2 r hr.1) (hy.2 r hr.2)⟩

/-! ## Results -/

/-- Whatever its calls return, the program returns a value with `post`. -/
def Ends (post : α → Prop) : Prog Res α → Prop
  | ret a => post a
  | call _ next => ∀ r, (next r).Ends post

@[simp] theorem ends_bind {x : Prog Res α} {f : α → Prog Res β} {post : β → Prop} :
    (x >>= f).Ends post ↔ x.Ends fun a => (f a).Ends post := by
  change (x.bind f).Ends post ↔ _
  induction x with
  | ret a => rfl
  | call o next ih => simp only [bind, Ends, ih]

theorem Ends.mono {post post' : α → Prop} (h : ∀ a, post a → post' a) {x : Prog Res α}
    (hx : x.Ends post) : x.Ends post' := by
  induction x with
  | ret a => exact h a hx
  | call o next ih => exact fun r => ih r (hx r)

/-- How a program ends, its runs end. -/
theorem Ends.run_ok {post : α → Prop} {x : Prog Res α} (hx : x.Ends post) {s t : σ} {a : α}
    (hrun : x.run exec s = .ok (a, t)) : post a := by
  induction x generalizing s with
  | ret b =>
    cases hrun
    exact hx
  | call o next ih =>
    rw [run] at hrun
    split at hrun
    · next r u hexec => exact ih r (hx r) hrun
    · cases hrun

/-- What holds of every result may be used after a disciplined run. -/
theorem Safe.and_ends {post : α → G → Prop} {post' : α → Prop} {x : Prog Res α} {g : G}
    (hx : x.Safe D post g) (hy : x.Ends post') : x.Safe D (fun a g => post a g ∧ post' a) g := by
  induction x generalizing g with
  | ret a => exact ⟨hx, hy⟩
  | call o next ih => exact ⟨hx.1, fun r hr => ih r (hx.2 r hr) (hy r)⟩

/-! ## Which operations a program calls -/

/-- Every call the program can make satisfies `K`. -/
def Only (K : Op → Prop) : Prog Res α → Prop
  | ret _ => True
  | call o next => K o ∧ ∀ r, (next r).Only K

variable {K : Op → Prop}

@[simp] theorem only_pure {a : α} : (pure a : Prog Res α).Only K := trivial

@[simp] theorem only_op {o : Op} : (op o : Prog Res (Res o)).Only K ↔ K o :=
  ⟨And.left, fun h => ⟨h, fun _ => trivial⟩⟩

theorem only_bind {x : Prog Res α} {f : α → Prog Res β} (hx : x.Only K) (hf : ∀ a, (f a).Only K) :
    (x >>= f).Only K := by
  change (x.bind f).Only K
  induction x with
  | ret a => exact hf a
  | call o next ih => exact ⟨hx.1, fun r => ih r (hx.2 r)⟩

theorem Only.mono {L : Op → Prop} (h : ∀ o, K o → L o) {x : Prog Res α} (hx : x.Only K) :
    x.Only L := by
  induction x with
  | ret a => exact trivial
  | call o next ih => exact ⟨h o hx.1, fun r => ih r (hx.2 r)⟩

theorem ends_true (x : Prog Res α) : x.Ends fun _ => True := by
  induction x with
  | ret a => trivial
  | call o next ih => exact fun r => ih r

/-- A program whose calls need no permission keeps a discipline without holdings. -/
theorem Ends.safe {D : Discipline Res Unit} {post : α → Prop} {x : Prog Res α}
    (hx : x.Ends post) (honly : x.Only K) (hpre : ∀ o, K o → D.pre o ()) :
    x.Safe D (fun a _ => post a) () := by
  induction x with
  | ret a => exact hx
  | call o next ih => exact ⟨hpre o honly.1, fun r _ => ih r (hx r) (honly.2 r)⟩

/-- If nothing is assumed of the results, a disciplined program ends with its postcondition
whatever its calls return. -/
theorem Safe.ends {post : α → Prop} {x : Prog Res α} {g : G} (hx : x.Safe D (fun a _ => post a) g)
    (honly : x.Only K) (hmay : ∀ o g r, K o → D.may o g r) : x.Ends post := by
  induction x generalizing g with
  | ret a => exact hx
  | call o next ih => exact fun r => ih r (hx.2 r (hmay o g r honly.1)) (honly.2 r)

theorem Passes.start {P : σ → Prop} {x : Prog Res α} {s : σ} (h : x.Passes exec P s) : P s := by
  cases x with
  | ret a => exact h
  | call o next => exact h.1

/-- If `C` says of every call that it leads to a state with `P`, then it says so of the run. -/
theorem passes_iff_meets {I P : σ → Prop}
    (hop : ∀ o s, K o → I s → (C o s ↔ ∀ r t, exec o s = .ok (r, t) → P t))
    (hkeep : ∀ o s, K o → I s → C o s → ∀ r t, exec o s = .ok (r, t) → I t)
    (hP : ∀ s, I s → P s) {x : Prog Res α} {s : σ} (honly : x.Only K) (hs : I s) :
    x.Passes exec P s ↔ x.Meets exec C s := by
  induction x generalizing s with
  | ret a => exact ⟨fun _ => trivial, fun _ => hP s hs⟩
  | call o next ih =>
    constructor
    · rintro ⟨_, hnext⟩
      have hc : C o s := (hop o s honly.1 hs).mpr fun r t ht => (hnext r t ht).start
      refine ⟨hc, fun r t ht => ?_⟩
      exact (ih r (honly.2 r) (hkeep o s honly.1 hs hc r t ht)).mp (hnext r t ht)
    · rintro ⟨hc, hnext⟩
      refine ⟨hP s hs, fun r t ht => ?_⟩
      exact (ih r (honly.2 r) (hkeep o s honly.1 hs hc r t ht)).mpr (hnext r t ht)

/-- A map of states that commutes with every call that meets `C` commutes with the run. -/
theorem run_map {I : σ → Prop} {f : σ → σ}
    (hop : ∀ o s, K o → I s → C o s → exec o (f s) = (exec o s).map (Prod.map id f))
    (hkeep : ∀ o s, K o → I s → C o s → ∀ r t, exec o s = .ok (r, t) → I t)
    {x : Prog Res α} {s : σ} (honly : x.Only K) (hs : I s) (hm : x.Meets exec C s) :
    x.run exec (f s) = (x.run exec s).map (Prod.map id f) := by
  induction x generalizing s with
  | ret a => rfl
  | call o next ih =>
    simp only [run, hop o s honly.1 hs hm.1]
    cases hexec : exec o s with
    | error e => rfl
    | ok r => exact ih r.1 (honly.2 r.1) (hkeep o s honly.1 hs hm.1 _ _ hexec) (hm.2 _ _ hexec)

/-- A safe program whose holdings record a violation of `C` ends with such a record exactly
when its run does not meet `C`. -/
theorem Safe.run_meets {I : G → σ → Prop} {B : G → Prop} {post : α → G → Prop}
    (hop : ∀ o g s r t, K o → I g s → D.pre o g → exec o s = .ok (r, t) →
      D.may o g r ∧ I (D.next o r g) t ∧ (B (D.next o r g) ↔ B g ∨ ¬ C o s))
    {x : Prog Res α} {g : G} {s t : σ} {a : α} (honly : x.Only K) (hx : x.Safe D post g)
    (hs : I g s) (hrun : x.run exec s = .ok (a, t)) :
    ∃ g', post a g' ∧ I g' t ∧ (B g' ↔ B g ∨ ¬ x.Meets exec C s) := by
  induction x generalizing g s with
  | ret b =>
    cases hrun
    exact ⟨g, hx, hs, by simp [Meets]⟩
  | call o next ih =>
    rw [run] at hrun
    split at hrun
    · next r u hu =>
      obtain ⟨hmay, hI, hbad⟩ := hop o g s r u honly.1 hs hx.1 hu
      obtain ⟨g', hpost, hI', hbad'⟩ := ih r (honly.2 r) (hx.2 r hmay) hI hrun
      refine ⟨g', hpost, hI', hbad'.trans ?_⟩
      have hmeets : (call o next).Meets exec C s ↔ C o s ∧ (next r).Meets exec C u := by
        simp only [Meets]
        refine and_congr_right fun _ => ⟨fun hall => hall r u hu, fun hr r' u' hu' => ?_⟩
        rw [hu] at hu'
        cases hu'
        exact hr
      rw [hbad, hmeets, not_and_or, or_assoc]
    · cases hrun

/-- On a machine that completes every permitted call, except for errors in `E`, a safe program
runs to its end. -/
theorem Safe.yields {E : ε → Prop} {I : G → σ → Prop} {post : α → G → Prop}
    (hop : ∀ o g s, K o → I g s → D.pre o g →
      Yields E (fun r => D.may o g r.1 ∧ I (D.next o r.1 g) r.2) (exec o s))
    {x : Prog Res α} {g : G} {s : σ} (honly : x.Only K) (hx : x.Safe D post g) (hs : I g s) :
    Yields E (fun r => ∃ g', post r.1 g' ∧ I g' r.2) (x.run exec s) := by
  induction x generalizing g s with
  | ret a => exact ⟨g, hx, hs⟩
  | call o next ih =>
    have hcall := hop o g s honly.1 hs hx.1
    rw [run]
    cases hexec : exec o s with
    | error e =>
      rw [hexec] at hcall
      exact hcall
    | ok r =>
      rw [hexec] at hcall
      exact ih r.1 (honly.2 r.1) (hx.2 r.1 hcall.1) hcall.2

/-- What every call keeps, the run keeps. -/
theorem run_keeps {E : ε → Prop} {I : σ → Prop}
    (hop : ∀ o s, I s → Yields E (fun r => I r.2) (exec o s)) (x : Prog Res α) {s : σ} (hs : I s) :
    Yields E (fun r => I r.2) (x.run exec s) := by
  induction x generalizing s with
  | ret a => exact hs
  | call o next ih =>
    have hcall := hop o s hs
    rw [run]
    cases hexec : exec o s with
    | error e =>
      rw [hexec] at hcall
      exact hcall
    | ok r =>
      rw [hexec] at hcall
      exact ih r.1 hcall

/-- The rule for sequences of programs. -/
theorem yields_run_bind {E : ε → Prop} {Q : α × σ → Prop} {R : β × σ → Prop} {x : Prog Res α}
    {f : α → Prog Res β} {s : σ} (hx : Yields E Q (x.run exec s))
    (hf : ∀ a t, Q (a, t) → Yields E R ((f a).run exec t)) :
    Yields E R ((x >>= f).run exec s) := by
  rw [run_bind]
  exact hx.bind fun r hr => hf r.1 r.2 hr

/-! ## Programs within larger programs -/

section Embed

variable {Op' : Type} {Res' : Op' → Type} (f : Op → Op') (back : (o : Op) → Res' (f o) → Res o)

/-- The program over a larger set of operations. -/
def embed : Prog Res α → Prog Res' α
  | ret a => ret a
  | call o next => call (f o) fun r => (next (back o r)).embed

/-- An embedded program runs on the part of the machine that implements its operations. -/
theorem run_embed (big : (o : Op') → σ → Except ε (Res' o × σ)) (x : Prog Res α) (s : σ) :
    (x.embed f back).run big s =
      x.run (fun o s => (big (f o) s).map fun r => (back o r.1, r.2)) s := by
  induction x generalizing s with
  | ret a => rfl
  | call o next ih =>
    simp only [embed, run]
    cases big (f o) s with
    | error e => rfl
    | ok r => exact ih (back o r.1) r.2

end Embed

/-! ## Threads -/

/-- A shared state and the program each thread has yet to run. -/
structure Config (Res : Op → Type) (σ P : Type) where
  shared : σ
  thread : P → Option (Prog Res Int)

/-- A thread starts one of the programs, or makes its next call. -/
inductive Event (X P : Type)
  | start (p : P) (x : X)
  | go (p : P)

variable {X : Type} [DecidableEq P] (exec' : P → (o : Op) → σ → Except ε (Res o × σ))
  (code : X → Prog Res Int)

/-- One step of one thread. A call that cannot proceed has no step. -/
def step (c : Config Res σ P) : Event X P → Option (Config Res σ P)
  | .start p x =>
    match c.thread p with
    | none => some { c with thread := Function.update c.thread p (some (code x)) }
    | some _ => none
  | .go p =>
    match c.thread p with
    | none => none
    | some (.ret _) => some { c with thread := Function.update c.thread p none }
    | some (.call o next) =>
      match exec' p o c.shared with
      | .ok (r, t) => some ⟨t, Function.update c.thread p (some (next r))⟩
      | .error _ => none

/-- The condition `C` on the call that the event makes. -/
def Admits (C : P → Op → σ → Prop) (c : Config Res σ P) : Event X P → Prop
  | .start _ _ => True
  | .go p =>
    match c.thread p with
    | some (.call o _) => C p o c.shared
    | _ => True

instance (C : P → Op → σ → Prop) [∀ p o s, Decidable (C p o s)] (c : Config Res σ P)
    (e : Event X P) : Decidable (Admits C c e) := by
  unfold Admits
  split
  · infer_instance
  · split <;> infer_instance

/-- A thread between programs holds `idle`; a running one keeps the discipline to its end. -/
def ThreadSafe (D : Discipline Res G) (idle : G) (g : G) : Option (Prog Res Int) → Prop
  | none => g = idle
  | some x => x.Safe D (fun _ g' => g' = idle) g

/-- The threads keep the discipline and the machine its invariant. -/
def Disciplined (D : Discipline Res G) (idle : G) (I : (P → G) → σ → Prop) (c : Config Res σ P) :
    Prop :=
  ∃ g : P → G, I g c.shared ∧ ∀ p, ThreadSafe D idle (g p) (c.thread p)

/-- The rule of disciplined threads: if every call respects the discipline and every program
is safe, then any interleaving keeps the invariant. -/
theorem step_disciplined {idle : G} {I : (P → G) → σ → Prop} {C' : P → Op → σ → Prop}
    (hop : ∀ p o g s r t, I g s → D.pre o (g p) → C' p o s → exec' p o s = .ok (r, t) →
      D.may o (g p) r ∧ I (Function.update g p (D.next o r (g p))) t)
    (hstart : ∀ x, (code x).Safe D (fun _ g' => g' = idle) idle)
    (c : Config Res σ P) (e : Event X P) (d : Config Res σ P) (h : Disciplined D idle I c)
    (hc : Admits C' c e) (hstep : step exec' code c e = some d) : Disciplined D idle I d := by
  obtain ⟨g, hI, hthreads⟩ := h
  cases e with
  | start p x =>
    cases hp : c.thread p with
    | some y => simp [step, hp] at hstep
    | none =>
      simp only [step, hp, Option.some.injEq] at hstep
      subst hstep
      refine ⟨g, hI, fun q => ?_⟩
      by_cases hq : q = p
      · subst hq
        have hidle := hthreads q
        rw [hp] at hidle
        simp only [Function.update_self, ThreadSafe]
        rw [show g q = idle from hidle]
        exact hstart x
      · simpa [Function.update_of_ne hq] using hthreads q
  | go p =>
    cases hp : c.thread p with
    | none => simp [step, hp] at hstep
    | some x =>
      have hsafe := hthreads p
      rw [hp] at hsafe
      cases x with
      | ret a =>
        simp only [step, hp, Option.some.injEq] at hstep
        subst hstep
        refine ⟨g, hI, fun q => ?_⟩
        by_cases hq : q = p
        · subst hq
          simpa [ThreadSafe, Safe] using hsafe
        · simpa [Function.update_of_ne hq] using hthreads q
      | call o next =>
        simp only [step, hp] at hstep
        split at hstep
        · next r t ht =>
          cases hstep
          simp only [Admits, hp] at hc
          obtain ⟨hmay, hnext⟩ := hop p o g c.shared r t hI hsafe.1 hc ht
          refine ⟨Function.update g p (D.next o r (g p)), hnext, fun q => ?_⟩
          by_cases hq : q = p
          · subst hq
            simpa [ThreadSafe] using hsafe.2 r hmay
          · simpa [Function.update_of_ne hq] using hthreads q
        · cases hstep

end Prog

end Xv6Containers.Lib.Program
