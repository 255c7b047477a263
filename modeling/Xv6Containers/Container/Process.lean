import Xv6Containers.Container.Table

/-!
# Processes of containers

The process table as far as the container system calls see it, and those calls:
`kill`, `cstop`, `pause`, `resume`, `cont_proc_set`, `container_reset`,
`set_name` and `set_max_*`, each with the function of `proc.c` or `container.c`
it runs.

## Implementation notes

`p->cont->name` of a process without a container reads the running process's
memory at the offset of `name`; `low` is the string that stands there. A call
returns `none` where the source writes outside the container table.
-/

namespace Xv6Containers

open Lib.Memory Lib.Strings Lib.Search

/-- `enum procstate`. -/
inductive ProcState
  | unused
  | embryo
  | sleeping
  | runnable
  | running
  | zombie
  | pause
  deriving DecidableEq

/-- `struct proc`, as far as these calls use it. -/
structure Proc where
  state : ProcState
  pid : Int
  killed : Bool
  cont : Option Cont
  deriving DecidableEq

instance : NeZero nproc := ⟨by decide⟩

/-- An index into `ptable.proc`. -/
abbrev ProcSlot := Fin nproc

namespace Container

structure State where
  proc : ProcSlot → Proc
  table : Table
  low : ProcSlot → CString

namespace State

def setProc (s : State) (q : ProcSlot) (x : Proc) : State :=
  { s with proc := Function.update s.proc q x }

/-- The string that `strcmp1` reads at `p->cont->name` for process `q` while `me` runs. -/
def contName (s : State) (me q : ProcSlot) : CString :=
  match (s.proc q).cont with
  | some c => name s.table c
  | none => s.low me

/-- The first process with that number. -/
def byPid (s : State) (pid : Int) : Option ProcSlot := first fun q => (s.proc q).pid = pid

/-- `kill` refuses a process of a container a target of another name. -/
def Refused (s : State) (me q : ProcSlot) : Prop :=
  match (s.proc me).cont with
  | none => False
  | some a =>
    match (s.proc q).cont with
    | none => True
    | some c => strcmp (name s.table a).bytes (name s.table c).bytes ≠ 0

instance (s : State) (me q : ProcSlot) : Decidable (s.Refused me q) := by
  unfold Refused
  split
  · infer_instance
  · split <;> infer_instance

end State

/-- What `kill` does to its target. -/
def markKilled (x : Proc) : Proc :=
  { x with
    killed := true
    state := if x.state = .sleeping then .runnable else x.state }

/-- `kill`. -/
def kill (s : State) (me : ProcSlot) (pid : Int) : State :=
  match s.byPid pid with
  | none => s
  | some q => if s.Refused me q then s else s.setProc q (markKilled (s.proc q))

/-- The loop of `cstop_container_helper` and of `cstop_helper`: `kill` for every process
whose container name is `nm`. -/
def killLoop (me : ProcSlot) (nm : CString) (skip : ProcSlot → Bool) :
    List ProcSlot → State → State
  | [], s => s
  | q :: qs, s =>
    killLoop me nm skip qs
      (if skip q = false ∧ strcmp (s.contName me q).bytes nm.bytes = 0 then
        kill s me (s.proc q).pid else s)

/-- `container_reset(find(name))`. -/
def resetFound (s : State) (nm : CString) : Option State :=
  (find s.table nm).map fun c => { s with table := reset s.table c }

/-- `cstop_container_helper`. -/
def cstopContainerHelper (s : State) (me : ProcSlot) (c : Cont) : Option State :=
  resetFound (killLoop me (name s.table c) (fun _ => false) (List.finRange nproc) s)
    (name s.table c)

/-- `cstop_helper`, which skips the processes without a container. -/
def cstopHelper (s : State) (me : ProcSlot) (nm : CString) : Option State :=
  resetFound (killLoop me nm (fun q => (s.proc q).cont.isNone) (List.finRange nproc) s) nm

/-- `sys_cstop`. -/
def cstop (s : State) (me : ProcSlot) (nm : CString) : Option State :=
  match (s.proc me).cont with
  | some c =>
    if strlen nm = strlen (name s.table c) ∧
        strncmp (strlen nm) nm.bytes (name s.table c).bytes = 0 then
      cstopContainerHelper s me c
    else some s
  | none => cstopHelper s me nm

/-- `pause`. -/
def pause (s : State) (nm : CString) : State :=
  { s with proc := fun q =>
      match (s.proc q).cont with
      | none => s.proc q
      | some c =>
        if (s.proc q).state ≠ .unused ∧ strcmp (name s.table c).bytes nm.bytes = 0 then
          { s.proc q with state := .pause }
        else s.proc q }

/-- `resume`. -/
def resume (s : State) (me : ProcSlot) (nm : CString) : State :=
  { s with proc := fun q =>
      if (s.proc q).state = .pause ∧ strcmp (s.contName me q).bytes nm.bytes = 0 then
        { s.proc q with state := .runnable }
      else s.proc q }

/-- `sys_cont_proc_set`. -/
def contProcSet (s : State) (me : ProcSlot) (vc : Int) : Option State :=
  (index vc).map fun c => s.setProc me { s.proc me with cont := some c }

/-- A call that only writes the container table. -/
def onTable (s : State) (f : Table → Option Table) : Option State :=
  (f s.table).map fun m => { s with table := m }

/-- The calls, with the words and strings the process passes. `container_reset` has one
argument, but `sys_container_reset` fetches the word after it. -/
inductive Call
  | kill (pid : Int)
  | cstop (nm : CString)
  | pause (nm : CString)
  | resume (nm : CString)
  | contProcSet (vc : Int)
  | containerReset (vc next : Int)
  | setName (nm : CString) (vc : Int)
  | setMaxMem (mem vc : Int)
  | setMaxDisk (disk vc : Int)
  | setMaxProc (procs vc : Int)

/-- One system call of process `me`. -/
def exec (s : State) (me : ProcSlot) : Call → Option State
  | .kill pid => some (kill s me pid)
  | .cstop nm => cstop s me nm
  | .pause nm => some (pause s nm)
  | .resume nm => some (resume s me nm)
  | .contProcSet vc => contProcSet s me vc
  | .containerReset _ next => onTable s (containerReset next)
  | .setName nm vc => onTable s (setName nm vc)
  | .setMaxMem mem vc => onTable s (setMaxMem mem vc)
  | .setMaxDisk disk vc => onTable s (setMaxDisk disk vc)
  | .setMaxProc procs vc => onTable s (setMaxProc procs vc)

/-! ## What the calls do to a process -/

theorem byPid_eq_some {s : State} {pid : Int} {q : ProcSlot} :
    s.byPid pid = some q ↔ (s.proc q).pid = pid ∧ ∀ r < q, (s.proc r).pid ≠ pid := by
  unfold State.byPid
  rw [first_eq_some]
  simp

/-- `kill` by a process of container `a` spares everything but the first process of that
number, and that one unless its container has the name of `a`. -/
theorem kill_proc (s : State) {me : ProcSlot} {a : Cont} (hme : (s.proc me).cont = some a)
    (pid : Int) (q : ProcSlot) :
    (kill s me pid).proc q =
      if s.byPid pid = some q ∧ ∃ c, (s.proc q).cont = some c ∧ name s.table a = name s.table c then
        markKilled (s.proc q) else s.proc q := by
  unfold kill
  cases hpid : s.byPid pid with
  | none => simp
  | some r =>
    have hrefused : s.Refused me r ↔
        ¬ ∃ c, (s.proc r).cont = some c ∧ name s.table a = name s.table c := by
      unfold State.Refused
      cases hc : (s.proc r).cont with
      | none => simp [hme]
      | some c => simp [hme, strcmp_eq_zero_iff]
    by_cases hqr : q = r
    · subst hqr
      simp only [hrefused, true_and, ite_not]
      split <;> simp [State.setProc]
    · have hne : ¬ (some r = some q ∧
          ∃ c, (s.proc q).cont = some c ∧ name s.table a = name s.table c) :=
        fun h => hqr (Option.some.inj h.1).symm
      rw [if_neg hne]
      simp only
      split
      · rfl
      · simp [State.setProc, Function.update_of_ne hqr]

theorem kill_table (s : State) (me : ProcSlot) (pid : Int) : (kill s me pid).table = s.table := by
  unfold kill
  split
  · rfl
  · split <;> rfl

theorem kill_low (s : State) (me : ProcSlot) (pid : Int) : (kill s me pid).low = s.low := by
  unfold kill
  split
  · rfl
  · split <;> rfl

@[simp] theorem markKilled_pid (x : Proc) : (markKilled x).pid = x.pid := rfl

@[simp] theorem markKilled_cont (x : Proc) : (markKilled x).cont = x.cont := rfl

theorem markKilled_idem (x : Proc) : markKilled (markKilled x) = markKilled x := by
  unfold markKilled
  simp only
  split <;> simp_all

/-- A killed process is left as it was exactly when it was killed before and did not sleep. -/
theorem markKilled_eq_iff (x : Proc) :
    (markKilled x).killed = x.killed ∧ (markKilled x).state = x.state ↔
      x.killed = true ∧ x.state ≠ .sleeping := by
  unfold markKilled
  constructor
  · rintro ⟨hkilled, hstate⟩
    refine ⟨hkilled.symm, fun hsleep => ?_⟩
    simp [hsleep] at hstate
  · rintro ⟨hkilled, hstate⟩
    simp [hkilled, hstate]

/-- `kill` changes no number, no container and no name. -/
structure SameIds (s t : State) : Prop where
  pid : ∀ q, (t.proc q).pid = (s.proc q).pid
  cont : ∀ q, (t.proc q).cont = (s.proc q).cont
  table : t.table = s.table
  low : t.low = s.low

theorem SameIds.contName {s t : State} (h : SameIds s t) (me q : ProcSlot) :
    t.contName me q = s.contName me q := by
  simp only [State.contName, h.cont, h.table, h.low]

theorem SameIds.byPid {s t : State} (h : SameIds s t) (pid : Int) : t.byPid pid = s.byPid pid := by
  simp only [State.byPid, h.pid]

theorem kill_sameIds (s : State) {me : ProcSlot} {a : Cont} (hme : (s.proc me).cont = some a)
    (pid : Int) : SameIds s (kill s me pid) where
  pid := by
    intro q
    rw [kill_proc s hme]
    split <;> simp
  cont := by
    intro q
    rw [kill_proc s hme]
    split <;> simp
  table := kill_table s me pid
  low := kill_low s me pid

/-- Slot `q` is the target of a `kill` that the loop over `qs` makes. -/
def Targeted (s : State) (me : ProcSlot) (nm : CString) (qs : List ProcSlot) (q : ProcSlot) : Prop :=
  ∃ p ∈ qs, s.contName me p = nm ∧ s.byPid (s.proc p).pid = some q

/-- The loop of `cstop_container_helper` kills its targets whose container has the name of the
caller's. -/
theorem killLoop_proc (me : ProcSlot) (nm : CString) (a : Cont) (qs : List ProcSlot) (s : State)
    (hme : (s.proc me).cont = some a) (q : ProcSlot) :
    ((Targeted s me nm qs q ∧ ∃ c, (s.proc q).cont = some c ∧ name s.table a = name s.table c) →
      (killLoop me nm (fun _ => false) qs s).proc q = markKilled (s.proc q)) ∧
    (¬ (Targeted s me nm qs q ∧ ∃ c, (s.proc q).cont = some c ∧ name s.table a = name s.table c) →
      (killLoop me nm (fun _ => false) qs s).proc q = s.proc q) := by
  induction qs generalizing s with
  | nil => simp [killLoop, Targeted]
  | cons p ps ih =>
    rw [killLoop]
    by_cases hname : s.contName me p = nm
    · have hcmp : strcmp (s.contName me p).bytes nm.bytes = 0 := (strcmp_eq_zero_iff _ _).mpr hname
      rw [if_pos ⟨rfl, hcmp⟩]
      have hids := kill_sameIds s hme (s.proc p).pid
      have hproc := kill_proc s hme (s.proc p).pid q
      have htarget : Targeted (kill s me (s.proc p).pid) me nm ps q ↔ Targeted s me nm ps q := by
        simp only [Targeted, hids.contName, hids.byPid, hids.pid]
      obtain ⟨hhit, hmiss⟩ := ih (kill s me (s.proc p).pid) ((hids.cont me).trans hme)
      rw [htarget, hids.cont, hids.table, hproc] at hhit hmiss
      have hsplit : Targeted s me nm (p :: ps) q ↔
          s.byPid (s.proc p).pid = some q ∨ Targeted s me nm ps q := by
        simp [Targeted, hname]
      rw [hsplit]
      constructor
      · rintro ⟨htar, hc⟩
        by_cases hrest : Targeted s me nm ps q
        · rw [hhit ⟨hrest, hc⟩]
          split
          · exact markKilled_idem _
          · rfl
        · rw [hmiss fun h => hrest h.1, if_pos ⟨htar.resolve_right hrest, hc⟩]
      · intro hnot
        rw [hmiss fun h => hnot ⟨Or.inr h.1, h.2⟩, if_neg fun h => hnot ⟨Or.inl h.1, h.2⟩]
    · have hsplit : Targeted s me nm (p :: ps) q ↔ Targeted s me nm ps q := by
        simp [Targeted, hname]
      rw [if_neg (by rw [strcmp_eq_zero_iff]; exact fun h => hname h.2), hsplit]
      exact ih s hme

theorem killLoop_sameIds (me : ProcSlot) (nm : CString) (a : Cont) (qs : List ProcSlot) (s : State)
    (hme : (s.proc me).cont = some a) :
    SameIds s (killLoop me nm (fun _ => false) qs s) := by
  induction qs generalizing s with
  | nil => exact ⟨fun _ => rfl, fun _ => rfl, rfl, rfl⟩
  | cons p ps ih =>
    rw [killLoop]
    split
    · have hids := kill_sameIds s hme (s.proc p).pid
      have hrest := ih _ ((hids.cont me).trans hme)
      exact ⟨fun q => (hrest.pid q).trans (hids.pid q),
        fun q => (hrest.cont q).trans (hids.cont q), hrest.table.trans hids.table,
        hrest.low.trans hids.low⟩
    · exact ih s hme

end Container

end Xv6Containers
