import Xv6Containers.Fs.Nodes
import Xv6Containers.Fs.References

/-!
# Balance of inode references

`namex` by itself: it leaves one reference more on the entry it returns and none
on the others, exactly when it does not leave through `return cont->root` with
another entry in hand. All system calls together, interleaved in any way: as
long as no lookup leaves like that, and `set_root_inode` meets null roots only,
each count is the number of holders.
-/

namespace Xv6Containers.Fs

open Lib.Memory Lib.Strings Lib.Program Lib.Program.Prog Lib.Runs Kernel Function

variable {S : Type} {st : Store S} {me : ProcSlot} {s t : Kernel S}

/-! ## A lookup by itself -/

/-- The operations of a lookup. -/
def Lookup : Op → Prop
  | .iget _ | .dupCwd | .ilock _ | .iunlock _ | .reclaim _ | .drop _ | .inumOf _ | .fields _
  | .readDirent _ _ | .inCont | .rootInum | .returnRoot _ | .panic _ => True
  | _ => False

theorem only_panic {α : Type} {p : Panic} : (panic p : FsProg α).Only Lookup :=
  ⟨trivial, fun e => nomatch (e : Empty)⟩

variable {i : Slot} {name : Name} {parent : Bool}

theorem only_iput : (iput i).Only Lookup :=
  only_bind (only_op.mpr trivial) fun _ => only_op.mpr trivial

theorem only_iunlockput : (iunlockput i).Only Lookup :=
  only_bind (only_op.mpr trivial) fun _ => only_iput

theorem only_dirlookupFrom {dp : Slot} (k n : Nat) : (dirlookupFrom dp name k n).Only Lookup := by
  induction n generalizing k with
  | zero => exact only_pure
  | succ n ih =>
    refine only_bind (only_op.mpr trivial) fun de => ?_
    split
    · exact only_panic
    · split
      · exact ih (k + 1)
      · split
        · exact only_bind (only_op.mpr trivial) fun _ => only_pure
        · exact ih (k + 1)

theorem only_dirlookup {dp : Slot} : (dirlookup dp name).Only Lookup := by
  refine only_bind (only_op.mpr trivial) fun d => ?_
  split
  · exact only_dirlookupFrom 0 _
  · exact only_panic

theorem only_clamped {cont : Bool} {path : List Byte} {ip : Slot} :
    (clamped cont path ip).Only Lookup := by
  unfold clamped
  split
  · exact only_bind (only_op.mpr trivial) fun _ =>
      only_bind (only_op.mpr trivial) fun _ => only_pure
  · exact only_pure

theorem only_namexLoop {cont : Bool} (rest : List (Name × List Byte)) (ip : Slot) (name : Name) :
    (namexLoop cont parent ip name rest).Only Lookup := by
  induction rest generalizing ip name with
  | nil =>
    unfold namexLoop
    split
    · exact only_bind only_iput fun _ => only_pure
    · exact only_pure
  | cons e rest ih =>
    obtain ⟨nm, path⟩ := e
    refine only_bind (only_op.mpr trivial) fun _ => only_bind (only_op.mpr trivial) fun d => ?_
    split
    · exact only_bind only_iunlockput fun _ => only_pure
    refine only_bind only_clamped fun b => ?_
    split
    · exact only_bind (only_op.mpr trivial) fun _ => only_pure
    refine only_bind (only_op.mpr trivial) fun n => ?_
    split
    · exact only_bind (only_op.mpr trivial) fun _ =>
        only_bind (only_op.mpr trivial) fun _ => only_pure
    split
    · exact only_bind (only_op.mpr trivial) fun _ => only_pure
    refine only_bind only_dirlookup fun r => ?_
    split
    · exact only_bind only_iunlockput fun _ => only_pure
    · exact only_bind only_iunlockput fun _ => ih _ _

theorem only_namex {path : CString} : (namex path parent name).Only Lookup := by
  refine only_bind ?_ fun ip => only_bind (only_op.mpr trivial) fun cont =>
    only_bind only_clamped fun b => ?_
  · unfold startInode
    split <;> exact only_op.mpr trivial
  · split
    · exact only_pure
    · exact only_namexLoop _ ip name

/-- What a lookup that began in `s` holds is what `t` has more than `s`. -/
structure Relative (s : Kernel S) (h : Hold) (t : Kernel S) : Prop where
  count : ∀ i, (t.icache i).ref = (s.icache i).ref + h.refs i
  locked : ∀ i, (t.icache i).locked = ((s.icache i).locked || h.lock i)
  apart : ∀ i, h.lock i = true → (s.icache i).locked = false

theorem Relative.take {h : Hold} {u : Kernel S} (hr : Relative s h t)
    (hcount : ∀ j, (u.icache j).ref = (t.icache j).ref + if j = i then 1 else 0)
    (hlocked : ∀ j, (u.icache j).locked = (t.icache j).locked) : Relative s (h.take i) u where
  count := fun j => by
    rw [hcount, hr.count, Hold.take_refs]
    split
    · next hj =>
      subst hj
      omega
    · omega
  locked := fun j => by rw [hlocked, hr.locked, Hold.take_lock]
  apart := hr.apart

/-- One operation of a lookup keeps the account, and is recorded as a stray exit exactly when
it is one. -/
theorem relative_step {o : Op} {r : o.Res} {h : Hold} {u : Kernel S} (hlookup : Lookup o)
    (heffect : Effect me t o r u) (hr : Relative s h t) (hallowed : Allowed h o) :
    Returns false h o r ∧ Relative s (after o r h) u ∧
      ((after o r h).stray = true ↔ h.stray = true ∨ ¬ KeepsCount me o t) := by
  cases heffect with
  | quiet hquiet hsame =>
    refine ⟨?_, ?_, ?_⟩
    · cases o <;> trivial
    · rw [after_quiet hquiet]
      exact ⟨fun i => (hsame.entry i).ref.trans (hr.count i),
        fun i => (hsame.entry i).locked.trans (hr.locked i), hr.apart⟩
    · rw [after_quiet hquiet]
      cases o <;> first | exact (Bool.false_ne_true hquiet).elim | simp [KeepsCount]
  | @iget n i c hget =>
    refine ⟨trivial, hr.take (fun j => ?_) fun j => ?_, by simp [after, KeepsCount]⟩
    · split
      · next hj =>
        subst hj
        exact (Icache.iget_self hget).1
      · next hj => simp [Icache.iget_frame hget hj]
    · by_cases hj : j = i
      · subst hj
        exact (Icache.iget_self hget).2.2.2.2
      · simp [Icache.iget_frame hget hj]
  | @dupCwd i hcwd =>
    refine ⟨trivial, hr.take (fun j => ?_) fun j => ?_, by simp [after, KeepsCount]⟩
    · simp only [Icache.idup, Icache.addRef, update_apply]
      split
      · next hj => rw [hj]
      · simp
    · simp only [Icache.idup, Icache.addRef, update_apply]
      split
      · next hj => rw [hj]
      · rfl
  | @ilock i d valid hfree =>
    have hboth := hr.locked i
    rw [hfree] at hboth
    have hfree' : (s.icache i).locked = false ∧ h.lock i = false :=
      Bool.or_eq_false_iff.mp hboth.symm
    refine ⟨hfree'.2, ⟨fun j => ?_, fun j => ?_, fun j hj => ?_⟩, by simp [after, KeepsCount]⟩
    · by_cases hj : j = i
      · subst hj
        simpa [setInode, after] using hr.count j
      · simpa [setInode, update_of_ne hj, after] using hr.count j
    · by_cases hj : j = i
      · subst hj
        simp [setInode, after]
      · simpa [setInode, update_of_ne hj, after, hj] using hr.locked j
    · by_cases hji : j = i
      · subst hji
        exact hfree'.1
      · exact hr.apart j (by simpa [after, hji] using hj)
  | @iunlock i hheld =>
    have hfree := hr.apart i hallowed
    refine ⟨trivial, ⟨fun j => ?_, fun j => ?_, fun j hj => ?_⟩, by simp [after, KeepsCount]⟩
    · by_cases hj : j = i
      · subst hj
        simpa [setInode, after] using hr.count j
      · simpa [setInode, update_of_ne hj, after] using hr.count j
    · by_cases hj : j = i
      · subst hj
        simp [setInode, after, hfree]
      · simpa [setInode, update_of_ne hj, after, hj] using hr.locked j
    · by_cases hji : j = i
      · subst hji
        exact hfree
      · exact hr.apart j (by simpa [after, hji] using hj)
  | @reclaim i r t hfree hsame =>
    have hboth := hr.locked i
    rw [hfree] at hboth
    refine ⟨(Bool.or_eq_false_iff.mp hboth.symm).2, ?_, by simp [after, KeepsCount]⟩
    exact ⟨fun i => (hsame.entry i).ref.trans (hr.count i),
      fun i => (hsame.entry i).locked.trans (hr.locked i), hr.apart⟩
  | @drop i =>
    have hi : 0 < h.refs i := hallowed.1
    refine ⟨trivial, ⟨fun j => ?_, fun j => ?_, hr.apart⟩, by simp [after, KeepsCount]⟩
    · have hj := hr.count j
      simp only [after, Hold.give_refs, Icache.dropRef, update_apply]
      split
      · next hji =>
        subst hji
        simp only
        omega
      · exact hj
    · have hj := hr.locked j
      simp only [after, Hold.give_lock, Icache.dropRef, update_apply]
      split
      · next hji =>
        subst hji
        exact hj
      · exact hj
  | @returnRoot ip c hcont =>
    have hkeeps : KeepsCount me (.returnRoot ip) t ↔ t.root c = some ip := by
      simp [KeepsCount, hcont]
    refine ⟨(fun hstrict => by cases hstrict), ?_, ?_⟩
    · simp only [after]
      split
      · exact hr
      · exact ⟨hr.count, hr.locked, hr.apart⟩
    · rw [hkeeps]
      simp only [after]
      split
      · next hroot => simp [hroot]
      · next hroot => simp [hroot]
  | setRoot _ => cases hlookup
  | takeCwd _ => cases hlookup
  | setCwd => cases hlookup
  | clearCwd => cases hlookup
  | fileFull => cases hlookup
  | fileOpen _ _ => cases hlookup
  | closeShared _ => cases hlookup
  | closeLast _ => cases hlookup
  | forkFull => cases hlookup
  | fork _ _ _ _ => cases hlookup
  | exited => cases hlookup

/-- What a lookup that returned `r` should have done: one reference more on what it returns,
and every other count and every lock as before. -/
def Balanced (s t : Kernel S) (r : Option Slot) : Prop :=
  ∀ i, (t.icache i).ref = (s.icache i).ref + (if r = some i then 1 else 0) ∧
    (t.icache i).locked = (s.icache i).locked

/-- `namex` is balanced exactly when it does not leave through `return cont->root` with
another entry in hand. -/
theorem namex_balanced_iff {path : CString} {nm : Name} {r : Option Slot}
    (hrun : (namex path parent name).run (execOp st me) s = .ok ((r, nm), t)) :
    Balanced s t r ↔ (namex path parent name).Meets (execOp st me) (KeepsCount me) s := by
  have hsafe : (namex path parent name).Safe (discipline false)
      (fun res h => h.lock = Hold.idle.lock ∧
        (h.stray = false → h.refs = (Hold.idle.takeOpt res.1).refs) ∧
        (h.stray = true → ∃ ip, h.refs ip = 1 ∧ res.1 ≠ some ip)) Hold.idle := by
    refine safe_namex rfl ?_ ?_ ?_
    · exact fun _ => ⟨rfl, fun _ => rfl, (fun hstray => by cases hstray)⟩
    · exact fun i _ => ⟨rfl, fun _ => rfl, (fun hstray => by cases hstray)⟩
    · exact fun _ ip r _ hr => ⟨rfl, (fun hstray => by cases hstray),
        fun _ => ⟨ip, by simp [Hold.idle], hr⟩⟩
  have hstart : Relative s Hold.idle s := ⟨fun i => by simp [Hold.idle],
    fun i => by simp [Hold.idle], fun i hi => by simp [Hold.idle] at hi⟩
  obtain ⟨h, ⟨hlock, hkept, hstray⟩, hrel, hbad⟩ := hsafe.run_meets (C := KeepsCount me)
    (B := fun h => h.stray = true) (I := Relative s)
    (fun o g u r v hlookup hu hpre hv => relative_step hlookup (exec_effect hv) hu hpre)
    only_namex hstart hrun
  have hmeets : h.stray = true ↔ ¬ (namex path parent name).Meets (execOp st me) (KeepsCount me) s := by
    simpa [Hold.idle] using hbad
  have hlocked (i : Slot) : (t.icache i).locked = (s.icache i).locked := by
    have hi := hrel.locked i
    rw [hlock] at hi
    simpa [Hold.idle] using hi
  constructor
  · intro hbal
    by_contra hnot
    obtain ⟨ip, hone, hne⟩ := hstray (hmeets.mpr hnot)
    have hcount := hrel.count ip
    have hsame := (hbal ip).1
    rw [if_neg hne] at hsame
    omega
  · intro hm i
    have hgood : h.stray = false := by
      by_contra hs
      exact hmeets.mp (by simpa using hs) hm
    refine ⟨?_, hlocked i⟩
    rw [hrel.count i, hkept hgood]
    cases r with
    | none => simp [Hold.takeOpt, Hold.idle]
    | some j =>
      simp only [Hold.takeOpt, Hold.take_refs, Option.some.injEq, eq_comm (a := j)]
      split <;> simp [Hold.idle]

/-! ## All system calls together -/

instance (me : ProcSlot) (o : Op) (s : Kernel S) : Decidable (KeepsCount me o s) := by
  unfold KeepsCount
  split <;> infer_instance

/-- The counts, the locks and the working directories agree with what the running calls
hold. -/
structure Accounted (g : ProcSlot → Hold) (s : Kernel S) : Prop where
  balance : Balance g s
  locks : Locks g s
  left : CwdsLeft g s

/-- No call is running, and the counts and locks say so. -/
structure AtRest (c : System S) : Prop where
  idle : ∀ p, c.thread p = none
  count : ∀ i, (c.shared.icache i).ref = holders (fun _ => Hold.idle) c.shared i
  unlocked : ∀ i, (c.shared.icache i).locked = false
  left : ∀ p, c.shared.Dead p → c.shared.cwd p = none

theorem accounted_step {g : ProcSlot → Hold} {o : Op} {r : o.Res} (h : Accounted g s)
    (hallowed : Allowed (g me) o) (hkeeps : KeepsCount me o s)
    (hexec : execOp st me o s = .ok (r, t)) :
    Returns true (g me) o r ∧ Accounted (update g me (after o r (g me))) t := by
  have heffect := exec_effect hexec
  refine ⟨?_, balance_step heffect h.balance hallowed h.left hkeeps,
    locks_step heffect h.locks hallowed, cwdsLeft_step heffect h.left hallowed⟩
  cases heffect with
  | ilock hfree => exact h.locks.free hfree me
  | reclaim hfree _ => exact h.locks.free hfree me
  | returnRoot hcont => exact fun _ => hkeeps _ hcont
  | quiet hquiet _ => cases o <;> trivial
  | _ => trivial

theorem AtRest.disciplined {c : System S} (h : AtRest c) :
    Disciplined (discipline true) Hold.idle Accounted c := by
  refine ⟨fun _ => Hold.idle, ⟨h.count, ⟨fun i => ?_, fun i p q hp => ?_⟩, fun p => ?_⟩, fun p => ?_⟩
  · simp [h.unlocked i, Hold.idle]
  · simp [Hold.idle] at hp
  · exact ⟨fun hleft => by simp [Hold.idle] at hleft, fun hdead => ⟨h.left p hdead, rfl⟩⟩
  · rw [h.idle p]
    rfl

/-- Any interleaving keeps the account. -/
theorem system_disciplined {c d : System S} {es : List (Event Call ProcSlot)} (hc : AtRest c)
    (hes : Always (systemStep st) (Admits KeepsCount) c es)
    (hrun : run (systemStep st) c es = some d) :
    Disciplined (discipline true) Hold.idle Accounted d :=
  run_invariant (step_disciplined (I := Accounted) (execOp st) Call.prog
    (fun _ _ _ _ _ _ hs hpre hkeeps hexec => accounted_step hs hpre hkeeps hexec)
    (fun call => safe_call call rfl (fun _ => rfl) fun _ => rfl)) hc.disciplined hes hrun

/-- An entry in use keeps its identity. -/
theorem effect_inum {o : Op} {r : o.Res} (heffect : Effect me s o r t) (hi : 0 < (s.icache i).ref) :
    (t.icache i).inum = (s.icache i).inum := by
  cases heffect with
  | quiet _ hsame => exact (hsame.entry i).inum
  | @iget n j c hget =>
    rcases Icache.iget_cases hget with ⟨_, rfl⟩ | ⟨_, hzero, rfl⟩
    · simp only [Icache.addRef, update_apply]
      split
      · next hij => rw [hij]
      · rfl
    · have hne : i ≠ j := by
        rintro rfl
        omega
      simp [update_of_ne hne]
  | @dupCwd j _ =>
    simp only [Icache.idup, Icache.addRef, update_apply]
    split
    · next hij => rw [hij]
    · rfl
  | @ilock j d valid _ =>
    simp only [setInode, update_apply]
    split
    · next hij => rw [hij]
    · rfl
  | @iunlock j _ =>
    simp only [setInode, update_apply]
    split
    · next hij => rw [hij]
    · rfl
  | @drop j =>
    simp only [Icache.dropRef, update_apply]
    split
    · next hij => rw [hij]
    · rfl
  | reclaim _ hsame => exact (hsame.entry i).inum
  | closeShared hsame => exact (hsame.entry i).inum
  | @fileOpen j readable writable f fd _ _ =>
    simp only [setInode, setFile, setFd, update_apply]
    split
    · next hij => rw [hij]
    · rfl
  | @fork q j u child fds _ _ hsame _ =>
    have hentry := (hsame.entry i).inum
    simp only [Icache.idup, Icache.addRef, update_apply]
    split
    · next hij =>
      subst hij
      exact hentry
    · exact hentry
  | _ => rfl

theorem step_inum {c d : System S} {e : Event Call ProcSlot} (hstep : systemStep st c e = some d)
    (hi : 0 < (c.shared.icache i).ref) : (d.shared.icache i).inum = (c.shared.icache i).inum := by
  cases e with
  | start p call =>
    simp only [systemStep, Prog.step] at hstep
    split at hstep
    · cases hstep
      rfl
    · cases hstep
  | go p =>
    simp only [systemStep, Prog.step] at hstep
    split at hstep
    · cases hstep
    · cases hstep
      rfl
    · split at hstep
      · next hexec =>
        cases hstep
        exact effect_inum (exec_effect hexec) hi
      · cases hstep

/-- A lookup is balanced exactly when it does not leave through `return cont->root` with another
entry in hand. In every run in which no lookup leaves like that, and `set_root_inode` replaces
null roots only, each count is the number of holders, and the entry of a container root is not
recycled. -/
theorem references_balanced_iff {S : Type} (st : Store S) :
    (∀ (me : ProcSlot) (path : CString) (parent : Bool) (name nm : Name) (s t : Kernel S)
      (r : Option Slot), (namex path parent name).run (execOp st me) s = .ok ((r, nm), t) →
      (Balanced s t r ↔ (namex path parent name).Meets (execOp st me) (KeepsCount me) s)) ∧
    (∀ (c d : System S) (es : List (Event Call ProcSlot)), AtRest c →
      Always (systemStep st) (Admits KeepsCount) c es → run (systemStep st) c es = some d →
      ∃ g : ProcSlot → Hold,
        (∀ p, ThreadSafe (discipline true) Hold.idle (g p) (d.thread p)) ∧
        (∀ i, (d.shared.icache i).ref = holders g d.shared i ∧ 0 ≤ (d.shared.icache i).ref) ∧
        ∀ e d', systemStep st d e = some d' → ∀ k i, d.shared.root k = some i →
          (d'.shared.icache i).inum = (d.shared.icache i).inum) := by
  refine ⟨fun me path parent name nm s t r hrun => namex_balanced_iff hrun,
    fun c d es hc hes hrun => ?_⟩
  obtain ⟨g, hacc, hthreads⟩ := system_disciplined hc hes hrun
  refine ⟨g, hthreads, fun i => ⟨hacc.balance i, ?_⟩, fun e d' hstep k i hroot => ?_⟩
  · rw [hacc.balance i]
    exact holders_nonneg g d.shared i
  · refine step_inum hstep ?_
    rw [hacc.balance i]
    exact holders_pos_of_root hroot

/-- The machine after boot. -/
def bootSystem : System Nodes := ⟨bootKernel bootNodes, fun _ => none⟩

theorem bootSystem_atRest : AtRest bootSystem where
  idle := fun _ => rfl
  count := by decide +kernel
  unlocked := by decide +kernel
  left := by
    have hleft : ∀ p, p ≠ 0 → bootSystem.shared.cwd p = none := by decide +kernel
    intro p hp
    refine hleft p ?_
    rintro rfl
    rcases hp with hp | hp <;> cases hp

/-- After a `fork` the parent runs `mkdir("c")` and the child `chdir("/")`, interleaved. -/
def mkdirAndChdir : List (Event Call ProcSlot) :=
  [.start 0 .fork, .go 0, .go 0, .start 0 (.mkdir (ofBytes [99]) dotName),
    .start 1 (.chdir (ofBytes [47])), .go 0, .go 1, .go 0, .go 1] ++ List.replicate 20 (.go 0)

theorem references_balanced_mkdirAndChdir :
    (∃ d g, run (systemStep (nodeStore 8)) bootSystem mkdirAndChdir = some d ∧
      (d.shared.icache 0).ref = 4 ∧ ∀ i, (d.shared.icache i).ref = holders g d.shared i) ∧
    ∃ t nm, (namex (ofBytes [47]) false dotName).run (execOp (nodeStore 8) 0)
      (bootKernel bootNodes) = .ok ((some 0, nm), t) ∧
      Balanced (bootKernel bootNodes) t (some 0) := by
  constructor
  · obtain ⟨d, hd⟩ := Option.isSome_iff_exists.mp
      (by decide +kernel : (run (systemStep (nodeStore 8)) bootSystem mkdirAndChdir).isSome = true)
    have href : ((run (systemStep (nodeStore 8)) bootSystem mkdirAndChdir).map
        fun d => (d.shared.icache 0).ref) = some 4 := by decide +kernel
    rw [hd] at href
    obtain ⟨g, _, hcount, _⟩ := (references_balanced_iff (nodeStore 8)).2 bootSystem d
      mkdirAndChdir bootSystem_atRest (by decide +kernel) hd
    exact ⟨d, g, hd, Option.some.inj href, fun i => (hcount i).1⟩
  · have hok : ∃ t, (namex (ofBytes [47]) false dotName).run (execOp (nodeStore 8) 0)
        (bootKernel bootNodes) = .ok ((some 0, dotName), t) := ⟨_, rfl⟩
    obtain ⟨t, ht⟩ := hok
    exact ⟨t, dotName, ht, ((references_balanced_iff (nodeStore 8)).1 0 (ofBytes [47]) false dotName
      dotName (bootKernel bootNodes) t (some 0) ht).mpr (by decide +kernel)⟩

/-- The container `c` with the directory `/c` as its root, and a process in it. -/
def makeContainer : List (ProcSlot × Call) :=
  [(0, .mkdir (ofBytes [99]) dotName), (0, .container (.setName (ofBytes [99]) 0)),
    (0, .setRootInode (ofBytes [99])), (0, .fork), (1, .container (.contProcSet 0))]

/-- In a container, `namei("/a")` returns the root of the container without a reference, and
keeps the one it has on the real root. After `chdir("c")`, `open("/a")` and `close` the count
of the root's entry is zero, and the next `mkdir` recycles it. -/
theorem container_root_recycled :
    (∃ s t, run (callStep (nodeStore 8)) (bootKernel bootNodes) makeContainer = some s ∧
      (namex (ofBytes [47, 97]) false dotName).run (execOp (nodeStore 8) 1) s =
        .ok ((some 1, Name.ofBytes [97]), t) ∧
      (t.icache 1).ref = (s.icache 1).ref ∧ (t.icache 0).ref = (s.icache 0).ref + 1) ∧
    (∃ u, run (callStep (nodeStore 8)) (bootKernel bootNodes)
        (makeContainer ++ [(1, .chdir (ofBytes [99]))]) = some u ∧
      (u.icache 1).ref = 1 ∧ holders (fun _ => Hold.idle) u 1 = 2 ∧ u.root 0 = some 1 ∧
      (u.icache 1).inum = 2) ∧
    ∃ v, run (callStep (nodeStore 8)) (bootKernel bootNodes)
        (makeContainer ++ [(1, .chdir (ofBytes [99])), (1, .openFile (ofBytes [47, 97]) 0 dotName),
          (1, .close 0), (0, .mkdir (ofBytes [100]) dotName)]) = some v ∧
      v.root 0 = some 1 ∧ (v.icache 1).inum = 3 := by
  refine ⟨?_, ?_, ?_⟩
  · obtain ⟨s, hs, hlookup⟩ := Option.map_eq_some_iff.mp (by decide +kernel :
      (run (callStep (nodeStore 8)) (bootKernel bootNodes) makeContainer).map (fun s =>
        ((namex (ofBytes [47, 97]) false dotName).run (execOp (nodeStore 8) 1) s).toOption.map
          fun x => (x.1, decide ((x.2.icache 1).ref = (s.icache 1).ref),
            decide ((x.2.icache 0).ref = (s.icache 0).ref + 1))) =
        some (some ((some 1, Name.ofBytes [97]), true, true)))
    obtain ⟨⟨r, t⟩, ht, hrefs⟩ := Option.map_eq_some_iff.mp hlookup
    simp only [Prod.mk.injEq, decide_eq_true_eq] at hrefs
    obtain ⟨rfl, hroot, hreal⟩ := hrefs
    exact ⟨s, t, hs, except_toOption_eq_some.mp ht, hroot, hreal⟩
  · obtain ⟨u, hu, hproj⟩ := Option.map_eq_some_iff.mp (by decide +kernel :
      (run (callStep (nodeStore 8)) (bootKernel bootNodes)
        (makeContainer ++ [(1, .chdir (ofBytes [99]))])).map (fun u =>
          ((u.icache 1).ref, holders (fun _ => Hold.idle) u 1, u.root 0, (u.icache 1).inum)) =
        some (1, 2, some 1, 2))
    simp only [Prod.mk.injEq] at hproj
    exact ⟨u, hu, hproj⟩
  · obtain ⟨v, hv, hproj⟩ := Option.map_eq_some_iff.mp (by decide +kernel :
      (run (callStep (nodeStore 8)) (bootKernel bootNodes)
        (makeContainer ++ [(1, .chdir (ofBytes [99])), (1, .openFile (ofBytes [47, 97]) 0 dotName),
          (1, .close 0), (0, .mkdir (ofBytes [100]) dotName)])).map (fun v =>
          (v.root 0, (v.icache 1).inum)) = some (some 1, 3))
    simp only [Prod.mk.injEq] at hproj
    exact ⟨v, hv, hproj⟩

end Xv6Containers.Fs
