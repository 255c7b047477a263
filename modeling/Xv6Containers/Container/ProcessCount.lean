import Xv6Containers.Container.Counters
import Xv6Containers.Lib.Counting
import Xv6Containers.Lib.Runs

/-!
# The process count of a container

`sys_fork` and `sys_exit` keep the counter `curr_proc`; processes come and go in
`fork`, `exit` and `wait`, and containers in `ctool start` and `cstop`. The
counter is the number of live processes of the container as long as no `fork`
fails after it was counted and no process leaves without `sys_exit`.

## Implementation notes

One system call is one step. `fork` fails where memory runs out for the kernel
stack or for the copy of the address space; which of them happens is part of the
event. `ctool start` is one step, up to the `cont_proc_set` of its caller.
-/

namespace Xv6Containers

open Lib.Memory Lib.Strings Lib.Search Lib.Counting Lib.Runs

namespace Container

/-! ## Creating and ending processes -/

/-- Where the memory for a new process ends. -/
inductive ForkMemory
  | enough
  | noStack
  | noCopy
  deriving DecidableEq

/-- The process table with the next process number. -/
structure Book where
  cs : State
  nextpid : Int

/-- `fork`, with the slot of the child. A slot whose memory ran out keeps its new number; the
container of the last process in it is forgotten once there is a kernel stack. -/
def fork (b : Book) (me : ProcSlot) (mem : ForkMemory) : Option ProcSlot × Book :=
  match first fun q => (b.cs.proc q).state = .unused with
  | none => (none, b)
  | some q =>
    let x := { b.cs.proc q with pid := b.nextpid }
    match mem with
    | .noStack => (none, ⟨b.cs.setProc q x, b.nextpid + 1⟩)
    | .noCopy => (none, ⟨b.cs.setProc q { x with cont := none }, b.nextpid + 1⟩)
    | .enough =>
      (some q, ⟨b.cs.setProc q { x with state := .runnable, cont := (b.cs.proc me).cont },
        b.nextpid + 1⟩)

/-- `sys_fork`. -/
def sysFork (b : Book) (me : ProcSlot) (mem : ForkMemory) : Option (Option ProcSlot × Book) :=
  match find b.cs.table (b.cs.contName me me) with
  | none => some (fork b me mem)
  | some x =>
    let m := setCurrProc b.cs.table 1 x
    if intField m x .currProc = intField b.cs.table x .currProc then
      (stopOwn b.cs me).map fun s => (none, { b with cs := s })
    else some (fork { b with cs := { b.cs with table := m } } me mem)

/-- `exit`. -/
def exit (s : State) (me : ProcSlot) : State := s.setProc me { s.proc me with state := .zombie }

/-- `sys_exit`. -/
def sysExit (s : State) (me : ProcSlot) : State :=
  match find s.table (s.contName me me) with
  | none => exit s me
  | some x => exit { s with table := setCurrProc s.table (-1) x } me

/-- `wait`, when it finds the zombie `q`. -/
def reap (s : State) (q : ProcSlot) : State :=
  s.setProc q { s.proc q with state := .unused, pid := 0, killed := false }

/-- `is_full`: the first record without a name. -/
def isFull (m : Table) : Option Cont := first fun c => strlen (name m c) = 0

/-- A limit that `ctool start` stores only if it is given. -/
def setLimit (f : Field) (v : Int) (c : Cont) (m : Table) : Option Table :=
  if v ≠ 0 then setField f v c m else some m

/-- What `ctool start` stores for the record it found. -/
def startTable (nm : CString) (maxProc maxMem maxDisk : Int) (c : Cont) (m : Table) : Option Table := do
  let m ← setLimit .maxProc maxProc c m
  let m ← setLimit .maxMem maxMem c m
  let m ← setLimit .maxDisk maxDisk c m
  setName nm c m

/-- `ctool start`, run by `me`. -/
def start (s : State) (me : ProcSlot) (nm : CString) (maxProc maxMem maxDisk : Int) : Option State :=
  match isFull s.table with
  | none => some s
  | some c =>
    if find s.table nm = some 0 then some s
    else (onTable s (startTable nm maxProc maxMem maxDisk c)).bind fun t => contProcSet t me c

/-- The process exists and has not exited. -/
def Live (x : Proc) : Prop := x.state ≠ .unused ∧ x.state ≠ .zombie

instance (x : Proc) : Decidable (Live x) := by
  unfold Live
  infer_instance

/-- The states between which `sleep`, `wakeup`, `yield` and the scheduler move a process. -/
inductive Shift
  | sleeping
  | runnable
  | running
  deriving DecidableEq

def Shift.state : Shift → ProcState
  | .sleeping => .sleeping
  | .runnable => .runnable
  | .running => .running

namespace Processes

/-- What happens to processes and containers. `trapExit` is the `exit` of `trap`, for a process
that was killed or did something forbidden. -/
inductive Event
  | fork (me : ProcSlot) (mem : ForkMemory)
  | exit (me : ProcSlot)
  | trapExit (me : ProcSlot)
  | reap (q : ProcSlot)
  | shift (q : ProcSlot) (next : Shift)
  | call (me : ProcSlot) (call : Call)
  | setCurrProc (procs vc : Int)
  | start (me : ProcSlot) (nm : CString) (maxProc maxMem maxDisk : Int)

def step (b : Book) : Event → Option Book
  | .fork me mem => if Live (b.cs.proc me) then (sysFork b me mem).map Prod.snd else none
  | .exit me => if Live (b.cs.proc me) then some { b with cs := sysExit b.cs me } else none
  | .trapExit me => if Live (b.cs.proc me) then some { b with cs := Container.exit b.cs me } else none
  | .reap q =>
    if (b.cs.proc q).state = .zombie then some { b with cs := Container.reap b.cs q } else none
  | .shift q next =>
    if (b.cs.proc q).state ∈ [.sleeping, .runnable, .running] then
      some { b with cs := b.cs.setProc q { b.cs.proc q with state := next.state } }
    else none
  | .call me call =>
    if Live (b.cs.proc me) then (exec b.cs me call).map fun s => { b with cs := s } else none
  | .setCurrProc procs vc =>
    (onTable b.cs fun m => (index vc).map (Container.setCurrProc m procs)).map
      fun s => { b with cs := s }
  | .start me nm maxProc maxMem maxDisk =>
    if Live (b.cs.proc me) then
      (Container.start b.cs me nm maxProc maxMem maxDisk).map fun s => { b with cs := s }
    else none

/-! ## The count -/

/-- What a process counts for in container `c`. -/
def weight (c : Cont) (x : Proc) : Int := if x.cont = some c ∧ Live x then 1 else 0

/-- The number of live processes of container `c`. -/
def members (s : State) (c : Cont) : Int := ∑ q, weight c (s.proc q)

/-- The counter of every container in use is the number of its live processes, within the
limit. -/
def Counted (s : State) : Prop :=
  ∀ c, InUse s.table c → intField s.table c .currProc = members s c ∧
    members s c ≤ intField s.table c .maxProc

/-- The memory of a root process does not spell the name of a container. -/
def Uncharged (s : State) (me : ProcSlot) : Prop :=
  (s.proc me).cont = none → find s.table (s.low me) = none

instance (s : State) (me : ProcSlot) : Decidable (Uncharged s me) := by
  unfold Uncharged
  infer_instance

/-- The process belongs to no container in use. -/
def Outside (s : State) (me : ProcSlot) : Prop := ∀ c, (s.proc me).cont = some c → ¬ InUse s.table c

instance (s : State) (me : ProcSlot) : Decidable (Outside s me) := by
  unfold Outside
  infer_instance

/-- What a `ctool start` that is not refused finds: a caller outside, a new name that fits, and a
record that counts one process and that no live process points to. -/
def Startable (s : State) (me : ProcSlot) (nm : CString) (maxProc : Int) : Prop :=
  ∀ c, isFull s.table = some c → find s.table nm ≠ some 0 →
    strlen nm < nameSize ∧ (∀ d, name s.table d ≠ nm) ∧ Outside s me ∧
      (∀ q, q ≠ me → (s.proc q).cont = some c → ¬ Live (s.proc q)) ∧
      intField s.table c .currProc = 1 ∧
      1 ≤ if maxProc ≠ 0 then toSigned (word maxProc) else intField s.table c .maxProc

instance (s : State) (me : ProcSlot) (nm : CString) (maxProc : Int) :
    Decidable (Startable s me nm maxProc) := by
  unfold Startable
  infer_instance

/-- The steps that count: a `fork` that is counted succeeds, a process of a container in use
leaves through `sys_exit`, and nobody else writes the counters or moves a process in or out. -/
def Paired (b : Book) : Event → Prop
  | .fork me mem => Uncharged b.cs me ∧ ∀ c, (b.cs.proc me).cont = some c → InUse b.cs.table c →
      intField b.cs.table c .currProc < intField b.cs.table c .maxProc →
      mem = .enough ∧ ∃ q, (b.cs.proc q).state = .unused
  | .exit me => Uncharged b.cs me
  | .trapExit me => Outside b.cs me
  | .call _ (.pause nm) => ∀ q c, (b.cs.proc q).cont = some c → InUse b.cs.table c →
      name b.cs.table c = nm → (b.cs.proc q).state ≠ .zombie
  | .call me (.contProcSet vc) => ∀ c : Cont, vc = c → (b.cs.proc me).cont = some c ∨
      ¬ InUse b.cs.table c ∧ Outside b.cs me
  | .call _ (.setName nm vc) => strlen nm < nameSize ∧ ∀ c : Cont, vc = c → nm = emptyName ∨
      InUse b.cs.table c ∧ ∀ d, d ≠ c → name b.cs.table d ≠ nm
  | .call _ (.setMaxProc procs vc) => ∀ c : Cont, vc = c → InUse b.cs.table c →
      intField b.cs.table c .currProc ≤ toSigned (word procs)
  | .setCurrProc procs vc => ∀ c : Cont, vc = c → InUse b.cs.table c → procs = 0 ∨
      intField b.cs.table c .maxProc < intField b.cs.table c .currProc + procs
  | .start me nm maxProc _ _ => Startable b.cs me nm maxProc
  | _ => True

instance (b : Book) (e : Event) : Decidable (Paired b e) := by
  unfold Paired
  split <;> infer_instance

/-! ## What the steps do to the count -/

theorem members_setProc (s : State) (q : ProcSlot) (x : Proc) (c : Cont) :
    members (s.setProc q x) c = members s c - weight c (s.proc q) + weight c x :=
  sum_update (weight c) s.proc q x

variable {s t : State} {c : Cont} {b : Book} {nm : CString} {me : ProcSlot} {vc : Int} {m : Table}

/-- The processes of every container are as many as before. -/
theorem members_of_weight (h : ∀ q, weight c (t.proc q) = weight c (s.proc q)) :
    members t c = members s c :=
  Finset.sum_congr rfl fun q _ => h q

theorem weight_eq_zero {x : Proc} (h : ¬ Live x) : weight c x = 0 :=
  if_neg fun hx => h hx.2

theorem weight_of_live {x : Proc} (h : Live x) : weight c x = if x.cont = some c then 1 else 0 := by
  simp [weight, h]

/-- A change of state that neither starts nor ends a process. -/
theorem weight_congr {x y : Proc} (hcont : y.cont = x.cont) (hlive : Live y ↔ Live x) :
    weight c y = weight c x := by
  simp only [weight, hcont, hlive]

theorem live_markKilled (x : Proc) : Live (markKilled x) ↔ Live x := by
  unfold Live markKilled
  simp only
  split
  · next h => simp [h]
  · rfl

theorem weight_kill (s : State) (me : ProcSlot) (pid : Int) (c : Cont) (q : ProcSlot) :
    weight c ((kill s me pid).proc q) = weight c (s.proc q) := by
  unfold kill
  split
  · rfl
  · next r _ =>
    split
    · rfl
    · by_cases hq : q = r
      · subst hq
        simpa [State.setProc] using
          weight_congr (c := c) (markKilled_cont (s.proc q)) (live_markKilled (s.proc q))
      · simp [State.setProc, Function.update_of_ne hq]

theorem killLoop_count (me : ProcSlot) (nm : CString) (skip : ProcSlot → Bool) (qs : List ProcSlot)
    (s : State) : (killLoop me nm skip qs s).table = s.table ∧
      ∀ c, members (killLoop me nm skip qs s) c = members s c := by
  induction qs generalizing s with
  | nil => exact ⟨rfl, fun _ => rfl⟩
  | cons q qs ih =>
    rw [killLoop]
    split
    · obtain ⟨htable, hcount⟩ := ih (kill s me (s.proc q).pid)
      refine ⟨htable.trans (kill_table s me _), fun c => (hcount c).trans ?_⟩
      exact members_of_weight (weight_kill s me _ c)
    · exact ih s

theorem fork_count (b : Book) (me : ProcSlot) (mem : ForkMemory) :
    (fork b me mem).2.cs.table = b.cs.table ∧
      ∀ c, members (fork b me mem).2.cs c = members b.cs c +
        if (fork b me mem).1.isSome ∧ (b.cs.proc me).cont = some c then 1 else 0 := by
  unfold fork
  split
  · simp
  · next q hq =>
    have hunused : (b.cs.proc q).state = .unused := by simpa using (first_eq_some.mp hq).1
    have hold (c : Cont) : weight c (b.cs.proc q) = 0 :=
      weight_eq_zero fun hlive => hlive.1 hunused
    have hset (c : Cont) (x : Proc) :
        members (b.cs.setProc q x) c = members b.cs c + weight c x := by
      rw [members_setProc, hold]
      omega
    have hfree (c : Cont) (x : Proc) (hx : x.state = .unused) :
        members (b.cs.setProc q x) c = members b.cs c := by
      rw [hset, weight_eq_zero fun hlive => hlive.1 hx]
      omega
    cases mem with
    | noStack =>
      refine ⟨rfl, fun c => ?_⟩
      simpa using hfree c { b.cs.proc q with pid := b.nextpid } hunused
    | noCopy =>
      refine ⟨rfl, fun c => ?_⟩
      simpa using hfree c { b.cs.proc q with pid := b.nextpid, cont := none } hunused
    | enough =>
      refine ⟨rfl, fun c => ?_⟩
      simp only [hset, Option.isSome_some, true_and]
      rw [weight_of_live (by simp [Live])]

/-- A counted `fork` has a slot and memory. -/
theorem fork_isSome (me : ProcSlot) (h : ∃ q, (b.cs.proc q).state = .unused) :
    (fork b me .enough).1.isSome = true := by
  unfold fork
  split
  · next hnone =>
    obtain ⟨q, hq⟩ := h
    have hfalse := first_eq_none.mp hnone q
    simp [hq] at hfalse
  · rfl

theorem members_exit (s : State) (me : ProcSlot) (c : Cont) :
    members (Container.exit s me) c = members s c - weight c (s.proc me) := by
  unfold Container.exit
  rw [members_setProc, weight_eq_zero (x := { s.proc me with state := .zombie }) (by simp [Live])]
  omega

/-- The names are in order and the counters right. -/
structure Inv (s : State) : Prop where
  names : NamesOk s.table
  counted : Counted s

/-- The counters stay, and no container in use gains or loses a process. -/
theorem inv_kept (hs : Inv s) (hkept : RecordsKept [.currProc, .maxProc] s.table t.table)
    (hcount : ∀ c, InUse s.table c → members t c = members s c) : Inv t := by
  refine ⟨hkept.names, fun c hc => ?_⟩
  have hin := hkept.inUse c hc
  rw [hkept.field c hc .currProc (by simp), hkept.field c hc .maxProc (by simp), hcount c hin]
  exact hs.counted c hin

/-- Only processes change, and no container in use gains or loses one. -/
theorem inv_procs (hs : Inv s) (htable : t.table = s.table)
    (hcount : ∀ c, InUse s.table c → members t c = members s c) : Inv t :=
  inv_kept hs (by rw [htable]; exact .refl hs.names) hcount

theorem inv_resetFound {u : State} (hs : Inv s) (htable : u.table = s.table)
    (hcount : ∀ c, members u c = members s c) (h : resetFound u nm = some t) : Inv t := by
  rw [resetFound, Option.map_eq_some_iff] at h
  obtain ⟨c, _, rfl⟩ := h
  refine inv_kept hs ?_ fun c _ => hcount c
  simp only [htable]
  exact recordsKept_reset hs.names _ c

/-! ### The calls that charge -/

/-- `find` leads a process that is charged to its own container. -/
theorem find_own (hs : NamesOk s.table) (hme : Uncharged s me) {x : Cont}
    (h : find s.table (s.contName me me) = some x) :
    (s.proc me).cont = some x ∧ InUse s.table x := by
  obtain ⟨hin, hname⟩ := inUse_of_find h
  refine ⟨?_, hin⟩
  cases hcont : (s.proc me).cont with
  | none =>
    have hlow := hme hcont
    rw [State.contName, hcont] at h
    rw [hlow] at h
    cases h
  | some c =>
    rw [State.contName, hcont] at hname
    rw [hs.distinct x c hin hname]

theorem find_contName (hs : NamesOk s.table) (hcont : (s.proc me).cont = some c)
    (hc : InUse s.table c) : find s.table (s.contName me me) = some c := by
  rw [State.contName, hcont]
  exact find_name hs hc

/-- A charged `fork` or exit: the counter of one container and its processes change alike. -/
theorem inv_charged (hs : Inv s) {x : Cont} {n : Int}
    (htable : t.table = addField s.table x .currProc n)
    (hcount : ∀ c, members t c = members s c + if x = c then n else 0)
    (hpos : 0 ≤ members s x + n)
    (hmax : InUse s.table x → members s x + n ≤ intField s.table x .maxProc) : Inv t := by
  have hnames : SameNames s.table t.table := by
    rw [htable]
    exact sameNames_writeWord hs.names x _ _
  refine ⟨hnames.ok hs.names, fun c hc => ?_⟩
  have hin := (hnames.inUse c).mp hc
  obtain ⟨hcur, hle⟩ := hs.counted c hin
  have hmaxc : intField t.table c .maxProc = intField s.table c .maxProc := by
    rw [htable]
    exact intField_addField_of_ne _ _ fun _ => by decide
  rw [hcount, hmaxc, htable]
  by_cases hx : x = c
  · subst hx
    have hbound := hmax hin
    have hrange := intField_range s.table x .maxProc
    rw [intField_addField _ _ _ _ (by omega) (by omega), if_pos rfl]
    omega
  · rw [intField_addField_of_ne _ _ fun h => absurd h.symm hx, if_neg hx]
    omega

theorem members_nonneg (s : State) (c : Cont) : 0 ≤ members s c :=
  Finset.sum_nonneg fun q _ => by
    unfold weight
    split <;> omega

theorem inv_stopOwn (hs : Inv s) (h : stopOwn s me = some t) : Inv t :=
  inv_resetFound hs (killLoop_count me _ _ _ s).1 (killLoop_count me _ _ _ s).2 h

theorem inv_fork (hb : Inv b.cs) {mem : ForkMemory} {r : Option ProcSlot × Book}
    (hpaired : Paired b (.fork me mem)) (h : sysFork b me mem = some r) : Inv r.2.cs := by
  obtain ⟨huncharged, hroom⟩ := hpaired
  unfold sysFork at h
  split at h
  · next hnone =>
    cases h
    obtain ⟨htable, hcount⟩ := fork_count b me mem
    refine inv_procs hb htable fun c hc => ?_
    rw [hcount, if_neg, add_zero]
    rintro ⟨_, hcont⟩
    rw [find_contName hb.names hcont hc] at hnone
    cases hnone
  · next x hfind =>
    obtain ⟨hcont, hin⟩ := find_own hb.names huncharged hfind
    obtain ⟨hcur, hle⟩ := hb.counted x hin
    have hnonneg := members_nonneg b.cs x
    have hrange := intField_range b.cs.table x .maxProc
    by_cases hfull : intField b.cs.table x .currProc + 1 > intField b.cs.table x .maxProc
    · -- The limit is reached: the container is stopped.
      simp only [setCurrProc, addBounded, if_pos hfull, if_true, Option.map_eq_some_iff] at h
      obtain ⟨t, ht, rfl⟩ := h
      exact inv_stopOwn hb ht
    · have hadd := intField_addField b.cs.table x .currProc 1 (by omega) (by omega)
      simp only [setCurrProc, addBounded, if_neg hfull] at h
      rw [if_neg (by omega)] at h
      cases h
      obtain ⟨rfl, hslot⟩ := hroom x hcont hin (by omega)
      let charged : Book := { b with cs := { b.cs with table := addField b.cs.table x .currProc 1 } }
      obtain ⟨htable, hcount⟩ := fork_count charged me .enough
      have hchild : (fork charged me .enough).1.isSome = true := fork_isSome me hslot
      refine inv_charged hb htable (fun c => ?_) (by omega) (fun _ => by omega)
      have hmine : (charged.cs.proc me).cont = some x := hcont
      rw [hcount]
      simp only [hchild, hmine, true_and, Option.some.injEq]
      rfl

/-- What `sys_exit` takes off the counters. -/
theorem sysExit_table (hs : Inv s) (hlive : Live (s.proc me)) (hme : Uncharged s me) :
    (∃ x, (s.proc me).cont = some x ∧ InUse s.table x ∧ 1 ≤ members s x ∧
      sysExit s me = Container.exit { s with table := addField s.table x .currProc (-1) } me) ∨
    (Outside s me ∧ sysExit s me = Container.exit s me) := by
  unfold sysExit
  split
  · next hnone =>
    refine Or.inr ⟨fun c hcont hc => ?_, rfl⟩
    rw [find_contName hs.names hcont hc] at hnone
    cases hnone
  · next x hfind =>
    obtain ⟨hcont, hin⟩ := find_own hs.names hme hfind
    obtain ⟨hcur, hle⟩ := hs.counted x hin
    have hone : 1 ≤ members s x := by
      have hterm := le_sum_of_nonneg (f := fun q => weight x (s.proc q))
        (fun q => by unfold weight; split <;> omega) me
      rw [weight_of_live hlive, if_pos hcont] at hterm
      exact hterm
    refine Or.inl ⟨x, hcont, hin, hone, ?_⟩
    rw [setCurrProc, addBounded, if_neg (by omega)]

theorem weight_outside (h : Outside s me) (hc : InUse s.table c) : weight c (s.proc me) = 0 :=
  if_neg fun hw => h c hw.1 hc

theorem inv_leave (hs : Inv s) (h : Outside s me) : Inv (Container.exit s me) :=
  inv_procs hs rfl fun c hc => by rw [members_exit, weight_outside h hc, sub_zero]

theorem inv_exit (hs : Inv s) (hlive : Live (s.proc me)) (hme : Uncharged s me) :
    Inv (sysExit s me) := by
  rcases sysExit_table hs hlive hme with ⟨x, hcont, hin, hone, heq⟩ | ⟨hout, heq⟩
  · obtain ⟨_, hle⟩ := hs.counted x hin
    rw [heq]
    refine inv_charged hs rfl (fun c => ?_) (n := -1) (by omega) (fun _ => by omega)
    rw [members_exit, weight_of_live hlive]
    simp only [hcont, Option.some.injEq]
    split
    · rfl
    · rw [sub_zero, add_zero]
      rfl
  · rw [heq]
    exact inv_leave hs hout

/-! ### The calls that manage containers -/

/-- A store to a field that is not `curr_proc`, and leaves `max_proc` at or above the count. -/
theorem inv_setField (hs : Inv s) {f : Field} {v : Int} (hf : f ≠ .currProc)
    (hmax : f = .maxProc → ∀ c : Cont, vc = c → InUse s.table c →
      intField s.table c .currProc ≤ toSigned (word v)) (h : onTable s (setField f v vc) = some t) :
    Inv t := by
  simp only [onTable, setField, Option.map_eq_some_iff] at h
  obtain ⟨_, ⟨c, hindex, rfl⟩, rfl⟩ := h
  have hvc := index_eq_some.mp hindex
  have hnames := sameNames_writeWord hs.names c f (word v)
  refine ⟨hnames.ok hs.names, fun d hd => ?_⟩
  have hin := (hnames.inUse d).mp hd
  obtain ⟨hcur, hle⟩ := hs.counted d hin
  have hcurd : intField (writeWord s.table (address c f.offset) (word v)) d .currProc =
      intField s.table d .currProc := by
    rw [intField, intField, field_writeWord_of_ne _ _ fun _ => hf.symm]
  refine ⟨hcurd.trans hcur, ?_⟩
  by_cases hself : d = c ∧ f = .maxProc
  · obtain ⟨rfl, rfl⟩ := hself
    have hbound := hmax rfl d hvc hin
    simp only [intField, field_writeWord_self] at *
    change members s d ≤ _
    omega
  · have hmaxd : intField (writeWord s.table (address c f.offset) (word v)) d .maxProc =
        intField s.table d .maxProc := by
      rw [intField, intField, field_writeWord_of_ne _ _ fun hdc hfm => hself ⟨hdc, hfm.symm⟩]
    rw [hmaxd]
    exact hle

theorem inv_setName (hs : Inv s) (hnm : strlen nm < nameSize)
    (hnew : ∀ c : Cont, vc = c → nm = emptyName ∨
      InUse s.table c ∧ ∀ d, d ≠ c → name s.table d ≠ nm) (h : onTable s (setName nm vc) = some t) :
    Inv t := by
  obtain ⟨m, hm, rfl⟩ := Option.map_eq_some_iff.mp h
  obtain ⟨c, hvc, rfl⟩ := setName_eq_some hm
  exact inv_kept hs (recordsKept_setName hs.names _ hnm (hnew c hvc)) fun _ _ => rfl

theorem inv_cstop (hs : Inv s) (h : cstop s me nm = some t) : Inv t := by
  unfold cstop at h
  split at h
  · split at h
    · exact inv_resetFound hs (killLoop_count me _ _ _ s).1 (killLoop_count me _ _ _ s).2 h
    · cases h
      exact hs
  · exact inv_resetFound hs (killLoop_count me _ _ _ s).1 (killLoop_count me _ _ _ s).2 h

/-- `pause` of a container in use finds no zombie there. -/
theorem inv_pause (hs : Inv s)
    (hzombie : ∀ q c, (s.proc q).cont = some c → InUse s.table c → name s.table c = nm →
      (s.proc q).state ≠ .zombie) : Inv (pause s nm) := by
  refine inv_procs hs rfl fun c hc => members_of_weight fun q => ?_
  unfold pause
  dsimp only
  split
  · rfl
  · next d hcont =>
    split
    · next hhit =>
      by_cases hdc : d = c
      · subst hdc
        have hname := (strcmp_eq_zero_iff _ _).mp hhit.2
        refine weight_congr rfl ⟨fun _ => ⟨hhit.1, hzombie q d hcont hc hname⟩, fun _ => ?_⟩
        simp [Live]
      · have hother (x : Proc) (hx : x.cont = some d) : weight c x = 0 :=
          if_neg fun hw => hdc (Option.some.inj (hx.symm.trans hw.1))
        exact (hother { s.proc q with state := .pause } hcont).trans (hother _ hcont).symm
    · rfl

theorem inv_resume (hs : Inv s) (me : ProcSlot) (nm : CString) : Inv (resume s me nm) := by
  refine inv_procs hs rfl fun c _ => members_of_weight fun q => ?_
  unfold resume
  dsimp only
  split
  · next hhit => exact weight_congr rfl (by simp [Live, hhit.1])
  · rfl

theorem inv_contProcSet (hs : Inv s)
    (hmove : ∀ c : Cont, vc = c → (s.proc me).cont = some c ∨ ¬ InUse s.table c ∧ Outside s me)
    (h : contProcSet s me vc = some t) : Inv t := by
  rw [contProcSet, Option.map_eq_some_iff] at h
  obtain ⟨c, hindex, rfl⟩ := h
  refine inv_procs hs rfl fun d hd => ?_
  rcases hmove c (index_eq_some.mp hindex) with hsame | ⟨hout, hme⟩
  · have hstay : ({ s.proc me with cont := some c } : Proc) = s.proc me := by rw [← hsame]
    rw [hstay, members_setProc]
    omega
  · rw [members_setProc, weight_outside hme hd, weight, if_neg]
    · omega
    · rintro ⟨hcd, _⟩
      cases hcd
      exact hout hd

theorem inv_call (hb : Inv b.cs) {call : Call} (hpaired : Paired b (.call me call))
    (h : exec b.cs me call = some t) : Inv t := by
  cases call with
  | kill pid =>
    cases h
    exact inv_procs hb (kill_table _ _ _) fun c _ => members_of_weight (weight_kill _ _ _ c)
  | cstop nm => exact inv_cstop hb h
  | pause nm =>
    cases h
    exact inv_pause hb hpaired
  | resume nm =>
    cases h
    exact inv_resume hb me nm
  | contProcSet vc => exact inv_contProcSet hb hpaired h
  | containerReset vc next =>
    simp only [exec, onTable, containerReset, Option.map_eq_some_iff] at h
    obtain ⟨_, ⟨c, _, rfl⟩, rfl⟩ := h
    exact inv_kept hb (recordsKept_reset hb.names _ c) fun _ _ => rfl
  | setName nm vc => exact inv_setName hb hpaired.1 hpaired.2 h
  | setMaxMem mem vc => exact inv_setField hb (by decide) (fun hf => by cases hf) h
  | setMaxDisk disk vc => exact inv_setField hb (by decide) (fun hf => by cases hf) h
  | setMaxProc procs vc => exact inv_setField hb (by decide) (fun _ => hpaired) h

/-! ### Starting a container -/

theorem setLimit_spec {m' : Table} (hm : NamesOk m) {f : Field} {v : Int}
    (h : setLimit f v c m = some m') :
    SameNames m m' ∧ ∀ d g, intField m' d g =
      if d = c ∧ g = f ∧ v ≠ 0 then toSigned (word v) else intField m d g := by
  unfold setLimit at h
  split at h
  · next hv =>
    rw [setField, index_eq_some.mpr rfl] at h
    cases h
    refine ⟨sameNames_writeWord hm c f _, fun d g => ?_⟩
    split
    · next hself =>
      obtain ⟨rfl, rfl, _⟩ := hself
      rw [intField, field_writeWord_self]
    · next hne =>
      rw [intField, intField, field_writeWord_of_ne _ _ fun hd hg => hne ⟨hd, hg, hv⟩]
  · next hv =>
    cases h
    exact ⟨.refl hm, fun d g => by rw [if_neg fun h => hv h.2.2]⟩

/-- The limit that `ctool start` is given for a field, if any. -/
def givenLimit (maxProc maxMem maxDisk : Int) : Field → Int
  | .maxProc => maxProc
  | .maxMem => maxMem
  | .maxDisk => maxDisk
  | _ => 0

/-- What the stores of `ctool start` leave. -/
theorem startTable_spec {m' : Table} (hm : NamesOk m) {maxProc maxMem maxDisk : Int}
    (hnm : strlen nm < nameSize) (hnew : ∀ d, name m d ≠ nm)
    (h : startTable nm maxProc maxMem maxDisk c m = some m') :
    NamesOk m' ∧ (∀ d, d ≠ c → name m' d = name m d) ∧
      ∀ d f, intField m' d f =
        if d = c ∧ givenLimit maxProc maxMem maxDisk f ≠ 0 then
          toSigned (word (givenLimit maxProc maxMem maxDisk f))
        else intField m d f := by
  simp only [startTable, Option.bind_eq_bind, Option.bind_eq_some_iff] at h
  obtain ⟨m₁, h₁, m₂, h₂, m₃, h₃, h⟩ := h
  obtain ⟨hn₁, hf₁⟩ := setLimit_spec hm h₁
  have hm₁ := hn₁.ok hm
  obtain ⟨hn₂, hf₂⟩ := setLimit_spec hm₁ h₂
  have hm₂ := hn₂.ok hm₁
  obtain ⟨hn₃, hf₃⟩ := setLimit_spec hm₂ h₃
  have hm₃ := hn₃.ok hm₂
  have hname (d : Cont) : name m₃ d = name m d := by rw [hn₃.name, hn₂.name, hn₁.name]
  obtain ⟨c', hcc, rfl⟩ := setName_eq_some h
  obtain rfl : c = c' := Fin.ext (by omega)
  have hkept := othersKept_setName (m := m₃) (c := c) hnm
  refine ⟨namesOk_setName hm₃ hnm (Or.inr fun d _ => by rw [hname]; exact hnew d),
    fun d hd => ?_, fun d f => ?_⟩
  · rw [(hkept.name hd (hm₃.fits d)).1, hname]
  · rw [intField_blit_name hnm, hf₃, hf₂, hf₁]
    cases f <;> grind [givenLimit]

theorem isFull_eq_some (h : isFull m = some c) : ¬ InUse m c := by
  have hlen := (first_eq_some.mp h).1
  rw [InUse, not_not, CString.ext_iff]
  simpa [strlen, emptyName] using hlen

theorem inv_start (hs : Inv s) {maxProc maxMem maxDisk : Int} (hlive : Live (s.proc me))
    (hstart : Startable s me nm maxProc)
    (h : Container.start s me nm maxProc maxMem maxDisk = some t) : Inv t := by
  unfold Container.start at h
  split at h
  · cases h
    exact hs
  next c hfull =>
  split at h
  · cases h
    exact hs
  next hfind =>
  obtain ⟨hnm, hnew, hout, hnobody, hone, hlimit⟩ := hstart c hfull hfind
  simp only [onTable, contProcSet, Option.bind_eq_some_iff, Option.map_eq_some_iff] at h
  obtain ⟨_, ⟨m', hm', rfl⟩, c', hindex, rfl⟩ := h
  have hcc : c = c' := Fin.ext (by have := index_eq_some.mp hindex; omega)
  subst hcc
  obtain ⟨hnames, hother, hfield⟩ := startTable_spec hs.names hnm hnew hm'
  refine ⟨hnames, fun d hd => ?_⟩
  have hjoin : weight d { s.proc me with cont := some c } = if c = d then 1 else 0 := by
    rw [weight_of_live (x := { s.proc me with cont := some c }) hlive]
    simp only [Option.some.injEq]
  have hmembers : members ({ s with table := m' }.setProc me { s.proc me with cont := some c }) d =
      members s d - weight d (s.proc me) + if c = d then 1 else 0 := by
    rw [members_setProc, hjoin]
    rfl
  change intField m' d .currProc = members _ d ∧ members _ d ≤ intField m' d .maxProc
  have hcur : intField m' d .currProc = intField s.table d .currProc := by
    rw [hfield, if_neg fun h => h.2 rfl]
  have hmax : intField m' d .maxProc =
      if d = c ∧ maxProc ≠ 0 then toSigned (word maxProc) else intField s.table d .maxProc :=
    hfield d .maxProc
  rw [hmembers, hcur, hmax]
  by_cases hdc : d = c
  · -- The caller is the first process of the new container.
    subst hdc
    have halone : members s d = weight d (s.proc me) :=
      Finset.sum_eq_single me (fun q _ hq => if_neg fun hw => hnobody q hq hw.1 hw.2) (by simp)
    simp only [halone, sub_self, hone, if_true, true_and]
    simp only [Int.zero_add, true_and]
    exact hlimit
  · have hin : InUse s.table d := by
      rw [InUse, ← hother d hdc]
      exact hd
    obtain ⟨hcurd, hle⟩ := hs.counted d hin
    rw [weight_outside hout hin, if_neg (Ne.symm hdc), if_neg fun h => hdc h.1]
    omega

/-! ## Every run -/

theorem inv_setCurrProc (hs : Inv s) {procs : Int}
    (hfree : ∀ c : Cont, vc = c → InUse s.table c → procs = 0 ∨
      intField s.table c .maxProc < intField s.table c .currProc + procs)
    (h : onTable s (fun m => (index vc).map (Container.setCurrProc m procs)) = some t) : Inv t := by
  simp only [onTable, Option.map_eq_some_iff] at h
  obtain ⟨_, ⟨c, hindex, rfl⟩, rfl⟩ := h
  have hcond := hfree c (index_eq_some.mp hindex)
  have hnames := sameNames_addBounded hs.names c .currProc .maxProc procs
  refine inv_kept hs ⟨hnames.ok hs.names, fun d hd => (hnames.inUse d).mp hd, fun d hd f _ => ?_⟩
    fun _ _ => rfl
  by_cases hself : d = c ∧ f = .currProc
  · obtain ⟨rfl, rfl⟩ := hself
    have hrange := intField_range s.table d .currProc
    rcases hcond ((hnames.inUse d).mp hd) with rfl | hover
    · simp only [Container.setCurrProc, addBounded]
      split
      · rfl
      · rw [intField_addField _ _ _ _ (by omega) (by omega), add_zero]
    · rw [Container.setCurrProc, addBounded, if_pos hover]
  · exact intField_addBounded_of_ne _ _ fun hdc hf => hself ⟨hdc, hf⟩

theorem inv_step (b : Book) (e : Event) (b' : Book) (hb : Inv b.cs) (hpaired : Paired b e)
    (h : step b e = some b') : Inv b'.cs := by
  cases e with
  | fork me mem =>
    simp only [step] at h
    split at h
    · obtain ⟨r, hr, rfl⟩ := Option.map_eq_some_iff.mp h
      exact inv_fork hb hpaired hr
    · cases h
  | exit me =>
    simp only [step] at h
    split at h
    · next hlive =>
      cases h
      exact inv_exit hb hlive hpaired
    · cases h
  | trapExit me =>
    simp only [step] at h
    split at h
    · cases h
      exact inv_leave hb hpaired
    · cases h
  | reap q =>
    simp only [step] at h
    split at h
    · next hzombie =>
      cases h
      refine inv_procs hb rfl fun c _ => ?_
      unfold Container.reap
      rw [members_setProc, weight_eq_zero (x := b.cs.proc q) (by simp [Live, hzombie]),
        weight_eq_zero (by simp [Live])]
      omega
    · cases h
  | shift q next =>
    simp only [step] at h
    split at h
    · next hstate =>
      cases h
      refine inv_procs hb rfl fun c _ => ?_
      have hlive : Live (b.cs.proc q) := by
        constructor <;> rintro hzero <;> simp [hzero] at hstate
      have hnext : Live { b.cs.proc q with state := next.state } := by
        cases next <;> simp [Live, Shift.state]
      rw [members_setProc, weight_of_live hlive, weight_of_live hnext]
      simp only
      omega
    · cases h
  | call me call =>
    simp only [step] at h
    split at h
    · obtain ⟨t, ht, rfl⟩ := Option.map_eq_some_iff.mp h
      exact inv_call hb hpaired ht
    · cases h
  | setCurrProc procs vc =>
    obtain ⟨t, ht, rfl⟩ := Option.map_eq_some_iff.mp h
    exact inv_setCurrProc hb hpaired ht
  | start me nm maxProc maxMem maxDisk =>
    simp only [step] at h
    split at h
    · next hlive =>
      obtain ⟨t, ht, rfl⟩ := Option.map_eq_some_iff.mp h
      exact inv_start hb hlive hpaired ht
    · cases h

/-- After `container_init` no container is in use. -/
theorem inv_init (h : s.table = containerInit m) : Inv s := by
  have hname (c : Cont) : s.table (address c nameOffset) = 0 := by
    rw [h]
    exact containerInit_name m c
  have hempty (c : Cont) : name s.table c = emptyName := name_eq_empty_iff.mpr (hname c)
  exact ⟨⟨fun c => ⟨0, by decide, hname c⟩, fun c _ hc => absurd (hempty c) hc⟩,
    fun c hc => absurd (hempty c) hc⟩

/-- A `sys_fork` that fails leaves the counters of the containers that are still in use. -/
theorem failed_fork {r : Book} (hb : Inv b.cs) {mem : ForkMemory}
    (hpaired : Paired b (.fork me mem)) (h : sysFork b me mem = some (none, r))
    (hc : InUse r.cs.table c) :
    intField r.cs.table c .currProc = intField b.cs.table c .currProc := by
  obtain ⟨huncharged, hroom⟩ := hpaired
  unfold sysFork at h
  split at h
  · have htable := (fork_count b me mem).1
    rw [Option.some.inj h] at htable
    rw [htable]
  · next x hfind =>
    obtain ⟨hcont, hin⟩ := find_own hb.names huncharged hfind
    by_cases hfull : intField b.cs.table x .currProc + 1 > intField b.cs.table x .maxProc
    · simp only [setCurrProc, addBounded, if_pos hfull, if_true, Option.map_eq_some_iff] at h
      obtain ⟨t, ht, hr⟩ := h
      cases hr
      rw [stopOwn, resetFound, Option.map_eq_some_iff] at ht
      obtain ⟨y, _, rfl⟩ := ht
      have hcy : c ≠ y := by
        rintro rfl
        exact hc (name_reset _ _)
      have hkept := (othersKept_reset_self
        (killLoop me (b.cs.contName me me) (fun _ => false) (List.finRange nproc) b.cs).table
        y).intField hcy .currProc
      rw [(killLoop_count _ _ _ _ _).1] at hkept
      simpa only [(killLoop_count _ _ _ _ _).1] using hkept
    · obtain ⟨rfl, hslot⟩ := hroom x hcont hin (by omega)
      have hbelow := hb.counted x hin
      have hrange := intField_range b.cs.table x .maxProc
      have hnonneg := members_nonneg b.cs x
      have hadd := intField_addField b.cs.table x .currProc 1 (by omega) (by omega)
      simp only [setCurrProc, addBounded, if_neg hfull] at h
      rw [if_neg (by omega), Option.some.injEq] at h
      have hchild : (fork { b with cs := { b.cs with table := addField b.cs.table x .currProc 1 } }
          me .enough).1.isSome = true := fork_isSome me hslot
      rw [h] at hchild
      cases hchild

/-- A process that leaves is taken off the counter of its container once. -/
theorem leaving_counted {b' : Book} (hb : Inv b.cs) {e : Event}
    (he : e = .exit me ∨ e = .trapExit me) (hpaired : Paired b e) (h : step b e = some b')
    (hc : InUse b.cs.table c) :
    intField b'.cs.table c .currProc =
      intField b.cs.table c .currProc - if (b.cs.proc me).cont = some c then 1 else 0 := by
  have houtside (hout : Outside b.cs me) : (b.cs.proc me).cont ≠ some c :=
    fun hcont => hout c hcont hc
  rcases he with rfl | rfl
  · simp only [step] at h
    split at h
    · next hlive =>
      cases h
      rcases sysExit_table hb hlive hpaired with ⟨x, hcont, hin, hone, heq⟩ | ⟨hout, heq⟩
      · simp only [heq, Container.exit, State.setProc, hcont, Option.some.injEq]
        obtain ⟨hcur, hle⟩ := hb.counted x hin
        have hrange := intField_range b.cs.table x .maxProc
        by_cases hxc : x = c
        · subst hxc
          rw [intField_addField _ _ _ _ (by omega) (by omega), if_pos rfl]
          rfl
        · rw [intField_addField_of_ne _ _ fun h => absurd h.symm hxc, if_neg hxc, sub_zero]
      · rw [heq, if_neg (houtside hout), sub_zero]
        rfl
    · cases h
  · simp only [step] at h
    split at h
    · cases h
      rw [if_neg (houtside hpaired), sub_zero]
      rfl
    · cases h

/-- One root process after boot. -/
def oneProcess : Book where
  cs :=
    { proc := Function.update (fun _ => ⟨.unused, 0, false, none⟩) 0 ⟨.running, 1, false, none⟩
      table := containerInit fun _ => 0
      low := fun _ => emptyName }
  nextpid := 2

/-- The name of the container that the runs below start. -/
def demoName : CString := ⟨[99], by decide⟩

/-- A container is started, its process forks, the child exits and is reaped. -/
def forkAndExit : List Event :=
  [.start 0 demoName 2 0 0, .fork 0 .enough, .exit 1, .reap 1]

end Processes

end Container

end Xv6Containers
