import Xv6Containers.Lib.Memory
import Xv6Containers.Lib.RingBuffer
import Xv6Containers.Lib.Runs

/-!
# Pipes

`pipewrite`, `piperead` and `pipeclose` of `pipe.c` on one pipe, by any number
of processes that interleave wherever the pipe lock allows it.

## Implementation notes

A thread is one call of `pipewrite` or `piperead`; a process that makes several
calls is several threads. The counters `nread` and `nwrite` wrap at `2 ^ 32`.
While `sleep` waits the thread does not hold the lock; it is woken by `wakeup` on
its channel or by `kill`, and then has to take the lock again. Once both ends are
closed the pipe is freed and no thread steps on it any more. The fields `stored`
and `taken` record what the threads have put in and taken out.
-/

namespace Xv6Containers.Ipc

open Lib Lib.Memory Lib.Runs Function

/-- `PIPESIZE`. -/
def pipeSize : Nat := 512

/-- Where a `uint` wraps. -/
def uintMod : Nat := 2 ^ 32

/-- `struct pipe` without its lock. -/
structure Pipe extends RingBuffer Byte where
  readopen : Bool
  writeopen : Bool

/-- The channels `&p->nread` and `&p->nwrite`. -/
inductive Chan
  | nread
  | nwrite
  deriving DecidableEq

/-- A call with its arguments. A reader's buffer is not represented. -/
inductive Job
  | write (addr : Nat → Byte) (n : Int)
  | read (n : Int)

/-- Where a call is. The first case of each name holds the lock, `Sleep` is `SLEEPING` and
`Woken` has yet to take the lock again. -/
inductive Pc
  | start
  | writing (i : Nat)
  | writeSleep (i : Nat)
  | writeWoken (i : Nat)
  | reading
  | readSleep
  | readWoken
  | copying (i : Nat)
  | done (r : Int)

namespace Pc

/-- `wakeup(chan)` for one thread. -/
def wake (c : Chan) : Pc → Pc
  | writeSleep i => if c = .nwrite then writeWoken i else writeSleep i
  | readSleep => if c = .nread then readWoken else readSleep
  | x => x

/-- `kill` for one thread. -/
def rouse : Pc → Pc
  | writeSleep i => writeWoken i
  | readSleep => readWoken
  | x => x

/-- The thread holds the pipe lock. -/
def Inside : Pc → Prop
  | writing _ | reading | copying _ => True
  | _ => False

/-- The variable `i` of the loop. -/
def index : Pc → Nat
  | writing i | writeSleep i | writeWoken i | copying i => i
  | _ => 0

end Pc

structure State (P : Type) where
  pipe : Pipe
  live : Bool
  lock : Option P
  pc : P → Pc
  killed : P → Bool
  stored : List (P × Byte)
  taken : List (P × Byte)

variable {P : Type} [DecidableEq P]

namespace State

def setPc (s : State P) (p : P) (x : Pc) : State P := { s with pc := update s.pc p x }

/-- `acquire(&p->lock)`, which waits for the lock. -/
def enter (s : State P) (p : P) (x : Pc) : Option (State P) :=
  if s.lock.isNone then some { s.setPc p x with lock := some p } else none

/-- `release(&p->lock)`. -/
def leave (s : State P) (p : P) (x : Pc) : State P := { s.setPc p x with lock := none }

omit [DecidableEq P] in
def wakeup (s : State P) (c : Chan) : State P := { s with pc := fun p => (s.pc p).wake c }

end State

/-- One round of the loops of `pipewrite`. -/
def pipewrite (p : P) (addr : Nat → Byte) (n : Int) (i : Nat) (s : State P) : State P :=
  if (i : Int) < n then
    if s.pipe.Full pipeSize uintMod then
      if s.pipe.readopen = false ∨ s.killed p = true then s.leave p (.done (-1))
      else (s.wakeup .nread).leave p (.writeSleep i)
    else
      { s.setPc p (.writing (i + 1)) with
        pipe := { s.pipe with toRingBuffer := s.pipe.push pipeSize uintMod (addr i) }
        stored := s.stored ++ [(p, addr i)] }
  else (s.wakeup .nread).leave p (.done n)

/-- One round of the first loop of `piperead`. -/
def pipereadWait (p : P) (s : State P) : State P :=
  if s.pipe.Empty ∧ s.pipe.writeopen = true then
    if s.killed p = true then s.leave p (.done (-1)) else s.leave p .readSleep
  else s.setPc p (.copying 0)

/-- One round of the second loop of `piperead`. -/
def pipereadCopy (p : P) (n : Int) (i : Nat) (s : State P) : State P :=
  if (i : Int) < n ∧ ¬ s.pipe.Empty then
    { s.setPc p (.copying (i + 1)) with
      pipe := { s.pipe with toRingBuffer := s.pipe.pop uintMod }
      taken := s.taken ++ [(p, s.pipe.front pipeSize)] }
  else (s.wakeup .nwrite).leave p (.done i)

/-- `pipeclose`. -/
def pipeclose (writable : Bool) (s : State P) : State P :=
  let s :=
    if writable then
      { s with pipe := { s.pipe with writeopen := false } }.wakeup .nread
    else { s with pipe := { s.pipe with readopen := false } }.wakeup .nwrite
  { s with live := s.pipe.readopen || s.pipe.writeopen }

inductive Event (P : Type)
  | go (p : P)
  | kill (p : P)
  | close (writable : Bool)

/-- One step of the thread `p`. -/
def threadStep (job : P → Job) (p : P) (s : State P) : Option (State P) :=
  match job p, s.pc p with
  | .write _ _, .start => s.enter p (.writing 0)
  | .write addr n, .writing i => some (pipewrite p addr n i s)
  | .write _ _, .writeWoken i => s.enter p (.writing i)
  | .read _, .start => s.enter p .reading
  | .read _, .reading => some (pipereadWait p s)
  | .read _, .readWoken => s.enter p .reading
  | .read n, .copying i => some (pipereadCopy p n i s)
  | _, _ => none

def step (job : P → Job) (s : State P) : Event P → Option (State P)
  | .go p => if s.live then threadStep job p s else none
  | .kill p =>
    some { s with
      pc := update s.pc p (s.pc p).rouse
      killed := update s.killed p true }
  | .close writable => if s.live ∧ s.lock.isNone then some (pipeclose writable s) else none

/-- The pipe that `pipealloc` makes of a page, before any call. -/
def pipealloc (data : Nat → Byte) (killed : P → Bool) : State P where
  pipe := ⟨⟨data, 0, 0⟩, true, true⟩
  live := true
  lock := none
  pc := fun _ => .start
  killed := killed
  stored := []
  taken := []

/-! ## The queue -/

/-- What thread `p` has contributed to a record. -/
def bytesOf (l : List (P × Byte)) (p : P) : List Byte := (l.filter (·.1 = p)).map Prod.snd

/-- A writer has stored the first bytes of its buffer in order; all of them once it has
returned `n`. -/
def Sent : Job → Pc → List Byte → Prop
  | .read _, _, bs => bs = []
  | .write addr n, .done r, bs =>
    ∃ i ≤ n.toNat, bs = (List.range i).map addr ∧ (r = n → i = n.toNat)
  | .write addr n, x, bs => x.index ≤ n.toNat ∧ bs = (List.range x.index).map addr

/-- A reader has taken as many bytes as it returns. -/
def Got : Job → Pc → List Byte → Prop
  | .write _ _, _, bs => bs = []
  | .read _, .done r, bs => r = bs.length ∨ (r = -1 ∧ bs = [])
  | .read _, x, bs => bs.length = x.index

structure Inv (job : P → Job) (s : State P) : Prop where
  ring : s.pipe.Ok pipeSize uintMod
  queue : s.taken.map Prod.snd ++ s.pipe.contents pipeSize uintMod = s.stored.map Prod.snd
  mutex : ∀ p, (s.pc p).Inside → s.lock = some p
  sent : ∀ p, Sent (job p) (s.pc p) (bytesOf s.stored p)
  got : ∀ p, Got (job p) (s.pc p) (bytesOf s.taken p)
  drained : ∀ p, s.pc p = .copying 0 → s.pipe.Empty → s.pipe.writeopen = false

section Steps

variable {job : P → Job} {s t : State P} {p : P}

omit [DecidableEq P] in
theorem sent_wake {j : Job} {x : Pc} {c : Chan} {bs : List Byte} :
    Sent j (x.wake c) bs ↔ Sent j x bs := by
  cases j <;> cases x <;> simp only [Pc.wake] <;> split <;> rfl

theorem bytesOf_append (l : List (P × Byte)) (p q : P) (b : Byte) :
    bytesOf (l ++ [(p, b)]) q = if q = p then bytesOf l q ++ [b] else bytesOf l q := by
  by_cases hq : q = p
  · simp [bytesOf, List.filter_append, hq]
  · simp [bytesOf, List.filter_append, hq, Ne.symm hq]

omit [DecidableEq P] in
theorem got_wake {j : Job} {x : Pc} {c : Chan} {bs : List Byte} :
    Got j (x.wake c) bs ↔ Got j x bs := by
  cases j <;> cases x <;> simp only [Pc.wake] <;> split <;> rfl

theorem inside_wake {x : Pc} {c : Chan} : (x.wake c).Inside ↔ x.Inside := by
  cases x <;> simp only [Pc.wake] <;> split <;> rfl

theorem wake_eq_copying {x : Pc} {c : Chan} {i : Nat} : x.wake c = .copying i ↔ x = .copying i := by
  cases x <;> simp only [Pc.wake] <;> split <;> simp

/-- `kill` wakes the thread whatever it sleeps on. -/
theorem rouse_eq_wake (x : Pc) : ∃ c, x.rouse = x.wake c := by
  cases x with
  | readSleep => exact ⟨.nread, rfl⟩
  | _ => exact ⟨.nwrite, rfl⟩

/-- No thread sleeps on both channels. -/
theorem eq_wake (x : Pc) : ∃ c, x = x.wake c := by
  cases x with
  | readSleep => exact ⟨.nwrite, rfl⟩
  | _ => exact ⟨.nread, rfl⟩

/-! ## One step -/

/-- Waking threads, one by one or all at once, changes nothing else. -/
theorem Inv.woken (h : Inv job s) {f : P → Pc} (hf : ∀ q, ∃ c, f q = (s.pc q).wake c) :
    Inv job { s with pc := f } where
  ring := h.ring
  queue := h.queue
  mutex := fun q hq => by
    obtain ⟨c, hc⟩ := hf q
    change (f q).Inside at hq
    rw [hc, inside_wake] at hq
    exact h.mutex q hq
  sent := fun q => by
    obtain ⟨c, hc⟩ := hf q
    simpa only [hc, sent_wake] using h.sent q
  got := fun q => by
    obtain ⟨c, hc⟩ := hf q
    simpa only [hc, got_wake] using h.got q
  drained := fun q hq => by
    obtain ⟨c, hc⟩ := hf q
    change f q = .copying 0 at hq
    rw [hc, wake_eq_copying] at hq
    exact h.drained q hq

theorem Inv.wakeup (h : Inv job s) (c : Chan) : Inv job (s.wakeup c) := h.woken fun _ => ⟨c, rfl⟩

/-- One thread moves on while nobody else is inside. -/
theorem Inv.move (h : Inv job s) {x : Pc} {l : Option P}
    (hothers : ∀ q, q ≠ p → ¬ (s.pc q).Inside) (hlock : x.Inside → l = some p)
    (hsent : Sent (job p) x (bytesOf s.stored p)) (hgot : Got (job p) x (bytesOf s.taken p))
    (hdrained : x = .copying 0 → s.pipe.Empty → s.pipe.writeopen = false) :
    Inv job { s.setPc p x with lock := l } := by
  refine ⟨h.ring, h.queue, fun q hq => ?_, fun q => ?_, fun q => ?_, fun q hq => ?_⟩
  all_goals simp only [State.setPc] at *
  all_goals by_cases hqp : q = p
  · subst hqp
    exact hlock (by simpa using hq)
  · rw [update_of_ne hqp] at hq
    exact absurd hq (hothers q hqp)
  · subst hqp
    simpa using hsent
  · simpa [update_of_ne hqp] using h.sent q
  · subst hqp
    simpa using hgot
  · simpa [update_of_ne hqp] using h.got q
  · subst hqp
    exact hdrained (by simpa using hq)
  · exact h.drained q (by simpa [update_of_ne hqp] using hq)

theorem Inv.alone (h : Inv job s) (hp : (s.pc p).Inside) (q : P) (hq : q ≠ p) :
    ¬ (s.pc q).Inside := by
  intro hq'
  have hlock := h.mutex q hq'
  rw [h.mutex p hp] at hlock
  exact hq (Option.some.inj hlock).symm

theorem Inv.nobody (h : Inv job s) (hlock : s.lock.isNone) (q : P) : ¬ (s.pc q).Inside := by
  intro hq
  rw [h.mutex q hq] at hlock
  cases hlock

theorem Inv.enter (h : Inv job s) {x : Pc} (hsent : Sent (job p) x (bytesOf s.stored p))
    (hgot : Got (job p) x (bytesOf s.taken p)) (hx : x ≠ .copying 0)
    (ht : s.enter p x = some t) : Inv job t := by
  unfold State.enter at ht
  split at ht
  · next hlock =>
    cases ht
    exact h.move (fun q _ => h.nobody hlock q) (fun _ => rfl) hsent hgot (fun h => absurd h hx)
  · cases ht

theorem Inv.leave (h : Inv job s) {x : Pc} (hp : (s.pc p).Inside) (hx : ¬ x.Inside)
    (hsent : Sent (job p) x (bytesOf s.stored p)) (hgot : Got (job p) x (bytesOf s.taken p)) :
    Inv job (s.leave p x) :=
  h.move (h.alone hp) (fun hi => absurd hi hx) hsent hgot (fun h0 => absurd (h0 ▸ trivial) hx)

theorem pipewrite_inv (h : Inv job s) {addr : Nat → Byte} {n : Int} {i : Nat}
    (hjob : job p = .write addr n) (hp : s.pc p = .writing i) : Inv job (pipewrite p addr n i s) := by
  have hinside : (s.pc p).Inside := by simp [hp, Pc.Inside]
  have hsent := h.sent p
  have hgot := h.got p
  rw [hjob, hp] at hsent hgot
  obtain ⟨hle, hbytes⟩ := hsent
  have hle : i ≤ n.toNat := hle
  unfold pipewrite
  split
  · next hi =>
    split
    · split
      · refine h.leave hinside id ?_ ?_
        · rw [hjob]
          exact ⟨i, hle, hbytes, fun hn => by omega⟩
        · rw [hjob]
          exact hgot
      · refine (h.wakeup .nread).leave (inside_wake.mpr hinside) id ?_ ?_
        · rw [hjob]
          exact ⟨hle, hbytes⟩
        · rw [hjob]
          exact hgot
    · next hfull =>
      refine ⟨RingBuffer.ok_push h.ring (by decide) hfull _, ?_, fun q hq => ?_, fun q => ?_,
        fun q => ?_, fun q hq => ?_⟩
      · simp only [State.setPc, List.map_append, List.map_cons, List.map_nil]
        rw [RingBuffer.contents_push (by decide) (by decide) h.ring hfull, ← List.append_assoc,
          h.queue]
      all_goals simp only [State.setPc] at *
      all_goals by_cases hqp : q = p
      · subst hqp
        exact h.mutex q hinside
      · rw [update_of_ne hqp] at hq
        exact absurd hq (h.alone hinside q hqp)
      · subst hqp
        rw [update_self, bytesOf_append, if_pos rfl, hjob, hbytes]
        refine ⟨?_, ?_⟩
        · simp only [Pc.index]
          omega
        · simp [Pc.index, List.range_succ]
      · rw [update_of_ne hqp, bytesOf_append, if_neg hqp]
        exact h.sent q
      · subst hqp
        rw [update_self, hjob]
        exact hgot
      · rw [update_of_ne hqp]
        exact h.got q
      · subst hqp
        simp at hq
      · rw [update_of_ne hqp] at hq
        exact absurd (hq ▸ trivial) (h.alone hinside q hqp)
  · next hi =>
    refine (h.wakeup .nread).leave (inside_wake.mpr hinside) id ?_ ?_
    · rw [hjob]
      exact ⟨i, hle, hbytes, fun _ => by omega⟩
    · rw [hjob]
      exact hgot

theorem pipereadWait_inv (h : Inv job s) {n : Int} (hjob : job p = .read n)
    (hp : s.pc p = .reading) : Inv job (pipereadWait p s) := by
  have hinside : (s.pc p).Inside := by simp [hp, Pc.Inside]
  have hsent := h.sent p
  have hgot := h.got p
  rw [hjob, hp] at hsent hgot
  have hnone : bytesOf s.taken p = [] := List.eq_nil_of_length_eq_zero hgot
  unfold pipereadWait
  split
  · split
    · refine h.leave hinside id ?_ ?_
      · rw [hjob]
        exact hsent
      · rw [hjob]
        exact Or.inr ⟨rfl, hnone⟩
    · refine h.leave hinside id ?_ ?_
      · rw [hjob]
        exact hsent
      · rw [hjob]
        exact hgot
  · next hwait =>
    refine h.move (l := s.lock) (h.alone hinside) (fun _ => h.mutex p hinside) ?_ ?_ fun _ hempty => ?_
    · rw [hjob]
      exact hsent
    · rw [hjob]
      exact hgot
    · simpa [hempty] using hwait

theorem pipereadCopy_inv (h : Inv job s) {n : Int} {i : Nat} (hjob : job p = .read n)
    (hp : s.pc p = .copying i) : Inv job (pipereadCopy p n i s) := by
  have hinside : (s.pc p).Inside := by simp [hp, Pc.Inside]
  have hsent := h.sent p
  have hgot := h.got p
  rw [hjob, hp] at hsent hgot
  unfold pipereadCopy
  split
  · next hi =>
    refine ⟨RingBuffer.ok_pop h.ring (by decide) hi.2, ?_, fun q hq => ?_, fun q => ?_,
      fun q => ?_, fun q hq => ?_⟩
    · have hqueue := h.queue
      rw [RingBuffer.contents_pop (by decide) (by decide) h.ring hi.2] at hqueue
      simpa [State.setPc] using hqueue
    all_goals simp only [State.setPc] at *
    all_goals by_cases hqp : q = p
    · subst hqp
      exact h.mutex q hinside
    · rw [update_of_ne hqp] at hq
      exact absurd hq (h.alone hinside q hqp)
    · subst hqp
      rw [update_self, hjob]
      exact hsent
    · rw [update_of_ne hqp]
      exact h.sent q
    · subst hqp
      rw [update_self, bytesOf_append, if_pos rfl, hjob]
      simpa [Got, Pc.index] using hgot
    · rw [update_of_ne hqp, bytesOf_append, if_neg hqp]
      exact h.got q
    · subst hqp
      simp at hq
    · rw [update_of_ne hqp] at hq
      exact absurd (hq ▸ trivial) (h.alone hinside q hqp)
  · refine (h.wakeup .nwrite).leave (inside_wake.mpr hinside) id ?_ ?_
    · rw [hjob]
      exact hsent
    · rw [hjob]
      exact Or.inl (congrArg Nat.cast hgot.symm)

theorem threadStep_inv (h : Inv job s) (ht : threadStep job p s = some t) : Inv job t := by
  have hsent := h.sent p
  have hgot := h.got p
  unfold threadStep at ht
  split at ht
  · next hj hx =>
    rw [hj, hx] at hsent hgot
    exact h.enter (by rw [hj]; exact hsent) (by rw [hj]; exact hgot) (by simp) ht
  · next hj hx =>
    cases ht
    exact pipewrite_inv h hj hx
  · next hj hx =>
    rw [hj, hx] at hsent hgot
    exact h.enter (by rw [hj]; exact hsent) (by rw [hj]; exact hgot) (by simp) ht
  · next hj hx =>
    rw [hj, hx] at hsent hgot
    exact h.enter (by rw [hj]; exact hsent) (by rw [hj]; exact hgot) (by simp) ht
  · next hj hx =>
    cases ht
    exact pipereadWait_inv h hj hx
  · next hj hx =>
    rw [hj, hx] at hsent hgot
    exact h.enter (by rw [hj]; exact hsent) (by rw [hj]; exact hgot) (by simp) ht
  · next hj hx =>
    cases ht
    exact pipereadCopy_inv h hj hx
  · cases ht

/-- A close happens while nobody is inside. -/
theorem pipeclose_inv (h : Inv job s) (hlock : s.lock.isNone) (writable : Bool) :
    Inv job (pipeclose writable s) := by
  have hclosed (pipe : Pipe) (hring : pipe.toRingBuffer = s.pipe.toRingBuffer) :
      Inv job { s with pipe := pipe } := by
    refine ⟨?_, ?_, h.mutex, h.sent, h.got, fun q hq => ?_⟩
    · simpa only [hring] using h.ring
    · simpa only [hring] using h.queue
    · refine absurd ?_ (h.nobody hlock q)
      simp [show s.pc q = .copying 0 from hq, Pc.Inside]
  have hlive {u : State P} (hu : Inv job u) (b : Bool) : Inv job { u with live := b } :=
    ⟨hu.ring, hu.queue, hu.mutex, hu.sent, hu.got, hu.drained⟩
  unfold pipeclose
  refine hlive ?_ _
  split
  · exact (hclosed { s.pipe with writeopen := false } rfl).wakeup .nread
  · exact (hclosed { s.pipe with readopen := false } rfl).wakeup .nwrite

theorem step_inv {e : Event P} (h : Inv job s) (ht : step job s e = some t) : Inv job t := by
  cases e with
  | go p =>
    simp only [step] at ht
    split at ht
    · exact threadStep_inv h ht
    · cases ht
  | kill p =>
    cases ht
    have hwoken := h.woken (f := update s.pc p (s.pc p).rouse) fun q => by
      by_cases hqp : q = p
      · subst hqp
        simpa using rouse_eq_wake (s.pc q)
      · simpa [update_of_ne hqp] using eq_wake (s.pc q)
    exact ⟨hwoken.ring, hwoken.queue, hwoken.mutex, hwoken.sent, hwoken.got, hwoken.drained⟩
  | close writable =>
    simp only [step] at ht
    split at ht
    · next hopen =>
      cases ht
      exact pipeclose_inv h hopen.2 writable
    · cases ht

theorem pipealloc_inv (data : Nat → Byte) (killed : P → Bool) :
    Inv job (pipealloc data killed) := by
  have hring : (pipealloc data killed : State P).pipe.Ok pipeSize uintMod := by
    refine ⟨by simp [pipealloc, uintMod], by simp [pipealloc, uintMod], ?_⟩
    simp [pipealloc, RingBuffer.size]
  refine ⟨hring, ?_, fun _ hq => hq.elim, fun p => ?_, fun p => ?_, fun _ hq => ?_⟩
  · rw [(RingBuffer.contents_eq_nil_iff hring).mpr rfl]
    rfl
  · cases job p with
    | write addr n => exact ⟨Nat.zero_le _, rfl⟩
    | read n => rfl
  · cases job p <;> rfl
  · cases hq

/-- `piperead` returns zero only from an empty pipe whose write end is closed. -/
theorem piperead_zero (h : Inv job s) {n : Int} (hjob : job p = .read n)
    (ht : step job s (.go p) = some t) (hzero : t.pc p = .done 0) :
    n ≤ 0 ∨ (s.pipe.Empty ∧ s.pipe.writeopen = false) := by
  simp only [step] at ht
  split at ht
  · unfold threadStep at ht
    rw [hjob] at ht
    have henter {y : Pc} (hy : y ≠ .done 0) (he : s.enter p y = some t) : False := by
      unfold State.enter at he
      split at he
      · cases he
        simp [State.setPc, hy] at hzero
      · cases he
    split at ht <;> try cases ‹Job.read n = Job.write _ _›
    · exact (henter (by simp) ht).elim
    · cases ht
      unfold pipereadWait at hzero
      split at hzero
      · split at hzero <;> simp [State.leave, State.setPc] at hzero
      · simp [State.setPc] at hzero
    · exact (henter (by simp) ht).elim
    · next m i hm hx =>
      cases hm
      cases ht
      unfold pipereadCopy at hzero
      split at hzero
      · simp [State.setPc] at hzero
      · next hi =>
        simp only [State.leave, State.setPc, update_self, Pc.done.injEq,
          Int.natCast_eq_zero] at hzero
        subst hzero
        by_cases hn : n ≤ 0
        · exact Or.inl hn
        · have hempty : s.pipe.Empty := by
            by_contra hempty
            exact hi ⟨by simpa using hn, hempty⟩
          exact Or.inr ⟨hempty, h.drained p hx hempty⟩
    · cases ht
  · cases ht

end Steps

/-- Every interleaving of writers, readers, kills and closes of one pipe keeps it a lossless
queue: at most `PIPESIZE` bytes are in the ring; what was taken out, followed by the ring, is
what was put in; every writer has stored the beginning of its buffer, in order, and all of it
when it has returned `n`; a reader returns the number of bytes it took, zero only from an empty
pipe with a closed write end. -/
theorem pipe_lossless {P : Type} [DecidableEq P] (job : P → Job) (data : Nat → Byte)
    (killed : P → Bool) {es : List (Event P)} {s : State P}
    (hrun : run (step job) (pipealloc data killed) es = some s) :
    s.pipe.size uintMod ≤ pipeSize ∧
    s.taken.map Prod.snd ++ s.pipe.contents pipeSize uintMod = s.stored.map Prod.snd ∧
    (∀ p addr n, job p = .write addr n →
      ∃ i ≤ n.toNat, bytesOf s.stored p = (List.range i).map addr ∧
        (s.pc p = .done n → i = n.toNat)) ∧
    (∀ p n r, job p = .read n → s.pc p = .done r →
      r = (bytesOf s.taken p).length ∨ (r = -1 ∧ bytesOf s.taken p = [])) ∧
    ∀ p n t, job p = .read n → step job s (.go p) = some t → t.pc p = .done 0 →
      n ≤ 0 ∨ (s.pipe.Empty ∧ s.pipe.writeopen = false) := by
  have h : Inv job s :=
    run_invariant_of_step (fun _ _ _ h ht => step_inv h ht) (pipealloc_inv data killed) hrun
  refine ⟨h.ring.size, h.queue, fun p addr n hjob => ?_, fun p n r hjob hp => ?_,
    fun p n t hjob ht hzero => piperead_zero h hjob ht hzero⟩
  · have hsent := h.sent p
    rw [hjob] at hsent
    cases hp : s.pc p with
    | done r =>
      rw [hp] at hsent
      obtain ⟨i, hi, hbytes, hall⟩ := hsent
      exact ⟨i, hi, hbytes, fun hr => hall (Pc.done.inj hr)⟩
    | _ =>
      rw [hp] at hsent
      exact ⟨_, hsent.1, hsent.2, fun hr => nomatch hr⟩
  · have hgot := h.got p
    rw [hjob, hp] at hgot
    exact hgot

/-- A writer stores two bytes, a reader of three takes them and returns two. -/
theorem pipe_lossless_two :
    ∃ s, run (step fun p : Fin 2 => if p = 0 then .write (fun i => UInt8.ofNat (7 + i)) 2 else .read 3)
        (pipealloc (fun _ => 0) fun _ => false)
        [.go 0, .go 0, .go 0, .go 0, .go 1, .go 1, .go 1, .go 1, .go 1] = some s ∧
      s.taken.map Prod.snd ++ s.pipe.contents pipeSize uintMod = s.stored.map Prod.snd ∧
      s.stored.map Prod.snd = [7, 8] ∧ s.pipe.nread = 2 := by
  obtain ⟨s, hs, hproj⟩ := Option.map_eq_some_iff.mp (by decide +kernel :
    (run (step fun p : Fin 2 => if p = 0 then .write (fun i => UInt8.ofNat (7 + i)) 2 else .read 3)
      (pipealloc (fun _ => 0) fun _ => false)
      [.go 0, .go 0, .go 0, .go 0, .go 1, .go 1, .go 1, .go 1, .go 1]).map
        (fun s => (s.stored.map Prod.snd, s.pipe.nread)) = some ([7, 8], 2))
  simp only [Prod.mk.injEq] at hproj
  exact ⟨s, hs, (pipe_lossless _ _ _ hs).2.1, hproj⟩

end Xv6Containers.Ipc
