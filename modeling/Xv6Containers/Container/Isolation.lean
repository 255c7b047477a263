import Xv6Containers.Container.Process
import Xv6Containers.Lib.Runs

/-!
# Process isolation between containers

When a call of a process of container `a` leaves every process outside `a` and
every other container record alone. Only `kill` and `cstop` check anything, and
they compare names; the other calls act on whatever name or index they are
given.
-/

namespace Xv6Containers

open Lib.Memory Lib.Strings Lib.Search Lib.Runs

namespace Container

/-- A process that does not belong to `a`: a root process, or one of another container. -/
def Outsider (s : State) (a : Cont) (q : ProcSlot) : Prop :=
  (s.proc q).state ≠ .unused ∧ (s.proc q).cont ≠ some a

/-- The call leaves the outsiders, the other records and the membership of its caller alone. -/
def Isolates (s : State) (me : ProcSlot) (a : Cont) (call : Call) : Prop :=
  ∃ t, exec s me call = some t ∧
    (∀ q, Outsider s a q → (t.proc q).killed = (s.proc q).killed ∧
      (t.proc q).state = (s.proc q).state ∧ (t.proc q).cont = (s.proc q).cont) ∧
    OthersKept a s.table t.table ∧
    (t.proc me).cont = some a

/-- A process of another container that carries the name of `a` and would feel a `kill`. -/
def Namesake (s : State) (a : Cont) (q : ProcSlot) : Prop :=
  (s.proc q).state ≠ .unused ∧
  (∃ c, (s.proc q).cont = some c ∧ c ≠ a ∧ name s.table c = name s.table a) ∧
  ((s.proc q).killed = false ∨ (s.proc q).state = .sleeping)

/-- When the call isolates. -/
def Harmless (s : State) (me : ProcSlot) (a : Cont) : Call → Prop
  | .kill pid => ∀ q, s.byPid pid = some q → ¬ Namesake s a q
  | .cstop nm =>
    nm = name s.table a →
      nm ≠ emptyName ∧ (∀ d < a, name s.table d ≠ nm) ∧
      ∀ q, s.byPid (s.proc q).pid = some q → ¬ Namesake s a q
  | .pause nm =>
    ∀ q c, (s.proc q).cont = some c → c ≠ a → name s.table c = nm →
      (s.proc q).state = .unused ∨ (s.proc q).state = .pause
  | .resume nm =>
    ∀ q, (s.proc q).state = .pause → (s.proc q).cont ≠ some a → s.contName me q ≠ nm
  | .contProcSet vc => vc = a
  | .containerReset _ next => ∃ c : Cont, next = c ∧ (c = a ∨ IsReset s.table c)
  | .setName nm vc =>
    ∃ c : Cont, vc = c ∧ address c nameOffset + (toBytes nm).length ≤ tableSize ∧
      ∀ i < (toBytes nm).length, (address c nameOffset + i) / recordSize = a ∨
        s.table (address c nameOffset + i) = (toBytes nm).getD i 0
  | .setMaxMem mem vc => ∃ c : Cont, vc = c ∧ (c = a ∨ field s.table c .maxMem = word mem)
  | .setMaxDisk disk vc => ∃ c : Cont, vc = c ∧ (c = a ∨ field s.table c .maxDisk = word disk)
  | .setMaxProc procs vc => ∃ c : Cont, vc = c ∧ (c = a ∨ field s.table c .maxProc = word procs)

section Calls

variable {s : State} {me : ProcSlot} {a : Cont} (hme : (s.proc me).cont = some a)

include hme

/-- Calls that only write the table. -/
theorem isolates_onTable {call : Call} {f : Table → Option Table}
    (hexec : exec s me call = onTable s f) :
    Isolates s me a call ↔ ∃ m, f s.table = some m ∧ OthersKept a s.table m := by
  constructor
  · rintro ⟨t, ht, _, hkept, _⟩
    rw [hexec, onTable, Option.map_eq_some_iff] at ht
    obtain ⟨m, hm, rfl⟩ := ht
    exact ⟨m, hm, hkept⟩
  · rintro ⟨m, hm, hkept⟩
    refine ⟨{ s with table := m }, ?_, fun q _ => ⟨rfl, rfl, rfl⟩, hkept, hme⟩
    rw [hexec, onTable, hm, Option.map_some]

variable {vc : Int} {nm : CString}

theorem isolates_setField {call : Call} {f : Field} {v : Int}
    (hexec : exec s me call = onTable s (setField f v vc)) :
    Isolates s me a call ↔ ∃ c : Cont, vc = c ∧ (c = a ∨ field s.table c f = word v) := by
  rw [isolates_onTable hme hexec]
  constructor
  · rintro ⟨m, hm, hkept⟩
    rw [setField, Option.map_eq_some_iff] at hm
    obtain ⟨c, hc, rfl⟩ := hm
    exact ⟨c, index_eq_some.mp hc, (othersKept_writeWord (word_lt v)).mp hkept⟩
  · rintro ⟨c, hc, hwrite⟩
    refine ⟨_, ?_, (othersKept_writeWord (word_lt v)).mpr hwrite⟩
    rw [setField, index_eq_some.mpr hc, Option.map_some]

theorem isolates_setName : Isolates s me a (.setName nm vc) ↔ Harmless s me a (.setName nm vc) := by
  rw [isolates_onTable hme (show exec s me (.setName nm vc) = onTable s (setName nm vc) from rfl)]
  constructor
  · rintro ⟨m, hm, hkept⟩
    rw [setName, Option.bind_eq_some_iff] at hm
    obtain ⟨c, hc, hm⟩ := hm
    obtain ⟨hfit, ⟨⟩⟩ := Option.ite_none_right_eq_some.mp hm
    exact ⟨c, index_eq_some.mp hc, hfit, (othersKept_blit hfit).mp hkept⟩
  · rintro ⟨c, hc, hfit, hbytes⟩
    refine ⟨_, ?_, (othersKept_blit hfit).mpr hbytes⟩
    rw [setName, index_eq_some.mpr hc, Option.bind_some, if_pos hfit]

theorem isolates_containerReset {next : Int} :
    Isolates s me a (.containerReset vc next) ↔ Harmless s me a (.containerReset vc next) := by
  rw [isolates_onTable hme
    (show exec s me (.containerReset vc next) = onTable s (containerReset next) from rfl)]
  constructor
  · rintro ⟨m, hm, hkept⟩
    rw [containerReset, Option.map_eq_some_iff] at hm
    obtain ⟨c, hc, rfl⟩ := hm
    exact ⟨c, index_eq_some.mp hc, othersKept_reset.mp hkept⟩
  · rintro ⟨c, hc, hreset⟩
    refine ⟨_, ?_, othersKept_reset.mpr hreset⟩
    rw [containerReset, index_eq_some.mpr hc, Option.map_some]

theorem isolates_contProcSet :
    Isolates s me a (.contProcSet vc) ↔ Harmless s me a (.contProcSet vc) := by
  constructor
  · rintro ⟨t, ht, _, _, hcont⟩
    rw [exec, contProcSet, Option.map_eq_some_iff] at ht
    obtain ⟨c, hc, rfl⟩ := ht
    simp only [State.setProc, Function.update_self, Option.some.injEq] at hcont
    exact hcont ▸ index_eq_some.mp hc
  · intro hvc
    have hself : s.setProc me { s.proc me with cont := some a } = s := by
      rw [← hme]
      simp [State.setProc]
    refine ⟨s, ?_, fun q _ => ⟨rfl, rfl, rfl⟩, OthersKept.refl a s.table, hme⟩
    rw [exec, contProcSet, index_eq_some.mpr hvc, Option.map_some, hself]

omit hme in
/-- A killed outsider is a namesake, unless the `kill` leaves it as it was. -/
theorem outsider_kept {q : ProcSlot} {c : Cont} (hq : Outsider s a q)
    (hc : (s.proc q).cont = some c) (hname : name s.table a = name s.table c)
    (hnot : ¬ Namesake s a q) :
    (markKilled (s.proc q)).killed = (s.proc q).killed ∧
      (markKilled (s.proc q)).state = (s.proc q).state := by
  rw [markKilled_eq_iff]
  have hca : c ≠ a := fun heq => hq.2 (heq ▸ hc)
  have hfeel : ¬ ((s.proc q).killed = false ∨ (s.proc q).state = .sleeping) :=
    fun hfeel => hnot ⟨hq.1, ⟨c, hc, hca, hname.symm⟩, hfeel⟩
  push Not at hfeel
  exact ⟨by simpa using hfeel.1, hfeel.2⟩

omit hme in
theorem namesake_changed {q : ProcSlot} (hq : Namesake s a q) :
    Outsider s a q ∧ (∃ c, (s.proc q).cont = some c ∧ name s.table a = name s.table c) ∧
      ¬ ((markKilled (s.proc q)).killed = (s.proc q).killed ∧
        (markKilled (s.proc q)).state = (s.proc q).state) := by
  obtain ⟨hused, ⟨c, hc, hca, hname⟩, hfeel⟩ := hq
  refine ⟨⟨hused, ?_⟩, ⟨c, hc, hname.symm⟩, ?_⟩
  · rw [hc]
    exact fun heq => hca (Option.some.inj heq)
  · rw [markKilled_eq_iff]
    rintro ⟨hkilled, hstate⟩
    rcases hfeel with h | h
    · rw [hkilled] at h
      cases h
    · exact hstate h

theorem isolates_kill {pid : Int} :
    Isolates s me a (.kill pid) ↔ Harmless s me a (.kill pid) := by
  constructor
  · rintro ⟨t, ht, hout, _, _⟩ q hpid hsake
    cases ht
    obtain ⟨hoq, hc, hchanged⟩ := namesake_changed hsake
    have hproc := kill_proc s hme pid q
    rw [if_pos ⟨hpid, hc⟩] at hproc
    have hkept := hout q hoq
    rw [hproc] at hkept
    exact hchanged ⟨hkept.1, hkept.2.1⟩
  · intro hharm
    have hids := kill_sameIds s hme pid
    refine ⟨_, rfl, fun q hq => ?_, ?_, (hids.cont me).trans hme⟩
    · have hproc := kill_proc s hme pid q
      by_cases hhit : s.byPid pid = some q ∧
          ∃ c, (s.proc q).cont = some c ∧ name s.table a = name s.table c
      · rw [if_pos hhit] at hproc
        obtain ⟨hpid, c, hc, hname⟩ := hhit
        obtain ⟨hkilled, hstate⟩ := outsider_kept hq hc hname (hharm q hpid)
        rw [hproc]
        exact ⟨hkilled, hstate, rfl⟩
      · rw [if_neg hhit] at hproc
        rw [hproc]
        exact ⟨rfl, rfl, rfl⟩
    · rw [hids.table]
      exact OthersKept.refl a s.table

theorem isolates_pause : Isolates s me a (.pause nm) ↔ Harmless s me a (.pause nm) := by
  have hproc (q : ProcSlot) : (pause s nm).proc q =
      if ∃ c, (s.proc q).cont = some c ∧ (s.proc q).state ≠ .unused ∧ name s.table c = nm then
        { s.proc q with state := .pause } else s.proc q := by
    cases hc : (s.proc q).cont with
    | none => simp [pause, hc]
    | some c => simp [pause, hc, strcmp_eq_zero_iff]
  constructor
  · rintro ⟨t, ht, hout, _, _⟩ q c hc hca hname
    cases ht
    by_cases hused : (s.proc q).state = .unused
    · exact Or.inl hused
    right
    have hkept := (hout q ⟨hused, by rw [hc]; exact fun heq => hca (Option.some.inj heq)⟩).2.1
    rw [hproc, if_pos ⟨c, hc, hused, hname⟩] at hkept
    exact hkept.symm
  · intro hharm
    refine ⟨_, rfl, fun q hq => ?_, OthersKept.refl a s.table, ?_⟩
    · rw [hproc]
      split
      · next hhit =>
        obtain ⟨c, hc, hused, hname⟩ := hhit
        have hca : c ≠ a := fun heq => hq.2 (heq ▸ hc)
        have hstate := (hharm q c hc hca hname).resolve_left hused
        exact ⟨rfl, hstate.symm, rfl⟩
      · exact ⟨rfl, rfl, rfl⟩
    · rw [hproc]
      split <;> exact hme

theorem isolates_resume : Isolates s me a (.resume nm) ↔ Harmless s me a (.resume nm) := by
  have hproc (q : ProcSlot) : (resume s me nm).proc q =
      if (s.proc q).state = .pause ∧ s.contName me q = nm then
        { s.proc q with state := .runnable } else s.proc q := by
    simp [resume, strcmp_eq_zero_iff]
  constructor
  · rintro ⟨t, ht, hout, _, _⟩ q hstate hcont hname
    cases ht
    have hkept := (hout q ⟨by rw [hstate]; decide, hcont⟩).2.1
    rw [hproc, if_pos ⟨hstate, hname⟩, hstate] at hkept
    cases hkept
  · intro hharm
    refine ⟨_, rfl, fun q hq => ?_, OthersKept.refl a s.table, ?_⟩
    · rw [hproc, if_neg fun hhit => hharm q hhit.1 hq.2 hhit.2]
      exact ⟨rfl, rfl, rfl⟩
    · rw [hproc]
      split <;> exact hme

/-- `cstop` of the caller's own name. -/
theorem isolates_cstop : Isolates s me a (.cstop nm) ↔ Harmless s me a (.cstop nm) := by
  have hexec : exec s me (.cstop nm) =
      if nm = name s.table a then cstopContainerHelper s me a else some s := by
    simp only [exec, cstop, hme, strlen_strncmp_iff]
  by_cases hnm : nm = name s.table a
  · subst hnm
    rw [if_pos rfl] at hexec
    have hids := killLoop_sameIds me (name s.table a) a (List.finRange nproc) s hme
    have hloop := killLoop_proc me (name s.table a) a (List.finRange nproc) s hme
    have hfound : exec s me (.cstop (name s.table a)) =
        (find s.table (name s.table a)).map fun c =>
          { killLoop me (name s.table a) (fun _ => false) (List.finRange nproc) s with
            table := reset s.table c } := by
      rw [hexec, cstopContainerHelper, resetFound, hids.table]
    generalize killLoop me (name s.table a) (fun _ => false) (List.finRange nproc) s = u
      at hids hloop hfound
    -- a process of the name is a target exactly when it is the first of its number
    have htarget (q : ProcSlot) (c : Cont) (hc : (s.proc q).cont = some c)
        (hname : name s.table a = name s.table c)
        (hfirst : s.byPid (s.proc q).pid = some q) :
        Targeted s me (name s.table a) (List.finRange nproc) q :=
      ⟨q, List.mem_finRange q, by simp [State.contName, hc, hname], hfirst⟩
    have hfirst (q : ProcSlot) (ht : Targeted s me (name s.table a) (List.finRange nproc) q) :
        s.byPid (s.proc q).pid = some q := by
      obtain ⟨p, _, _, hp⟩ := ht
      rw [(byPid_eq_some.mp hp).1]
      exact hp
    constructor
    · rintro ⟨t, ht, hout, hkept, _⟩ _
      rw [hfound, Option.map_eq_some_iff] at ht
      obtain ⟨d, hd, rfl⟩ := ht
      obtain ⟨hne, hdname, hbefore⟩ := find_eq_some.mp hd
      refine ⟨hne, ?_, ?_⟩
      · -- the record that is reset is the caller's own
        have hda : d = a := by
          rcases othersKept_reset.mp hkept with hda | hreset
          · exact hda
          · exact absurd (hdname ▸ name_eq_empty_iff.mpr hreset.1) hne
        exact hda ▸ hbefore
      · intro q hq hsake
        obtain ⟨hoq, ⟨c, hc, hname⟩, hchanged⟩ := namesake_changed hsake
        have hproc := (hloop q).1 ⟨htarget q c hc hname hq, c, hc, hname⟩
        have hsame := hout q hoq
        simp only [hproc] at hsame
        exact hchanged ⟨hsame.1, hsame.2.1⟩
    · intro hharm
      obtain ⟨hne, hbefore, hsakes⟩ := hharm rfl
      have hfind : find s.table (name s.table a) = some a := find_eq_some.mpr ⟨hne, rfl, hbefore⟩
      rw [hfind, Option.map_some] at hfound
      refine ⟨_, hfound, fun q hq => ?_, othersKept_reset.mpr (Or.inl rfl),
        (hids.cont me).trans hme⟩
      by_cases hhit : Targeted s me (name s.table a) (List.finRange nproc) q ∧
          ∃ c, (s.proc q).cont = some c ∧ name s.table a = name s.table c
      · have hproc := (hloop q).1 hhit
        obtain ⟨ht, c, hc, hname⟩ := hhit
        obtain ⟨hkilled, hstate⟩ := outsider_kept hq hc hname (hsakes q (hfirst q ht))
        simp only [hproc]
        exact ⟨hkilled, hstate, rfl⟩
      · have hproc := (hloop q).2 hhit
        simp only [hproc]
        exact ⟨trivial, trivial, trivial⟩
  · rw [if_neg hnm] at hexec
    refine iff_of_true ?_ (fun heq => absurd heq hnm)
    exact ⟨s, hexec, fun q _ => ⟨rfl, rfl, rfl⟩, OthersKept.refl a s.table, hme⟩

end Calls

/-- For every process table and container table and every call of a process of container `a`:
outsiders, the other records and the caller's membership are left alone if and only if the
call is harmless. -/
theorem process_isolation_iff (s : State) (me : ProcSlot) (a : Cont)
    (hme : (s.proc me).cont = some a) (call : Call) :
    Isolates s me a call ↔ Harmless s me a call := by
  cases call with
  | kill pid => exact isolates_kill hme
  | cstop nm => exact isolates_cstop hme
  | pause nm => exact isolates_pause hme
  | resume nm => exact isolates_resume hme
  | contProcSet vc => exact isolates_contProcSet hme
  | containerReset vc next => exact isolates_containerReset hme
  | setName nm vc => exact isolates_setName hme
  | setMaxMem mem vc => exact isolates_setField hme rfl
  | setMaxDisk disk vc => exact isolates_setField hme rfl
  | setMaxProc procs vc => exact isolates_setField hme rfl

/-- A table of processes without a container and of empty records. -/
def bootState : State where
  proc := fun q => if q.val < 3 then ⟨.runnable, q.val + 1, false, none⟩ else ⟨.unused, 0, false, none⟩
  table := fun _ => 0
  low := fun _ => emptyName

/-- The names `c1` and `c2`. -/
def firstName : CString := ⟨[99, 49], by decide⟩

def secondName : CString := ⟨[99, 50], by decide⟩

/-- Two processes enter a container each. -/
def enterBoth : List (ProcSlot × Call) :=
  [(1, .setName firstName 0), (1, .contProcSet 0), (2, .setName secondName 1), (2, .contProcSet 1)]

def twoContainers : Option State := run (fun s e => exec s e.1 e.2) bootState enterBoth

theorem process_isolation_own_kill :
    ∃ s, twoContainers = some s ∧ (s.proc 1).cont = some 0 ∧ Isolates s 1 0 (.kill 3) := by
  obtain ⟨s, hs⟩ := Option.isSome_iff_exists.mp (by decide +kernel : twoContainers.isSome = true)
  have hstate : twoContainers.map (fun s => ((s.proc 1).cont, s.byPid 3, (s.proc 2).cont,
      name s.table 0, name s.table 1)) =
      some (some 0, some 2, some 1, firstName, secondName) := by decide +kernel
  rw [hs, Option.map_some, Option.some.injEq] at hstate
  simp only [Prod.mk.injEq] at hstate
  obtain ⟨hme, hpid, hcont, hname₀, hname₁⟩ := hstate
  refine ⟨s, hs, hme, (process_isolation_iff s 1 0 hme (.kill 3)).mpr ?_⟩
  intro q hq hsake
  rw [hpid, Option.some.injEq] at hq
  subst hq
  obtain ⟨_, ⟨c, hc, _, hname⟩, _⟩ := hsake
  rw [hcont, Option.some.injEq] at hc
  subst hc
  rw [hname₀, hname₁] at hname
  exact absurd hname (by decide)

/-- A process of the first container pauses the second one. -/
theorem pause_breaks_isolation :
    ∃ s, twoContainers = some s ∧ (s.proc 1).cont = some 0 ∧ ¬ Isolates s 1 0 (.pause secondName) := by
  obtain ⟨s, hs⟩ := Option.isSome_iff_exists.mp (by decide +kernel : twoContainers.isSome = true)
  have hstate : twoContainers.map (fun s => ((s.proc 1).cont, (s.proc 2).cont, (s.proc 2).state,
      name s.table 1)) = some (some 0, some 1, .runnable, secondName) := by decide +kernel
  rw [hs, Option.map_some, Option.some.injEq] at hstate
  simp only [Prod.mk.injEq] at hstate
  obtain ⟨hme, hcont, hrun, hname⟩ := hstate
  refine ⟨s, hs, hme, fun hiso => ?_⟩
  have hharm := (isolates_pause hme).mp hiso 2 1 hcont (by decide) hname
  rw [hrun] at hharm
  exact absurd hharm (by decide)

end Container

end Xv6Containers
