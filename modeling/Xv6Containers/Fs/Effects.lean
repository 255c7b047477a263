import Xv6Containers.Fs.CallSafety

/-!
# What one operation does to the holders of an entry

The operations sorted by what they do to the things that are counted: reference
counts, identities and locks of cache entries, working directories, open files,
roots. Most of them do nothing to these.
-/

namespace Xv6Containers

open Lib.Memory Lib.Strings Lib.Search Lib.Program

namespace Container

/-- The process is at its end. -/
def Ended (x : Proc) : Prop := x.state = .unused ∨ x.state = .zombie

/-- No process comes to its end from one state to the other. -/
def NoneEnds (s t : State) : Prop := ∀ p, Ended (t.proc p) → Ended (s.proc p)

theorem NoneEnds.refl (s : State) : NoneEnds s s := fun _ => id

variable {s : State}

theorem NoneEnds.trans {t u : State} (h₁ : NoneEnds s t) (h₂ : NoneEnds t u) : NoneEnds s u :=
  fun p hp => h₁ p (h₂ p hp)

theorem noneEnds_setProc {q : ProcSlot} {x : Proc} (hx : Ended x → Ended (s.proc q)) :
    NoneEnds s (s.setProc q x) := by
  intro p hp
  by_cases hpq : p = q
  · subst hpq
    exact hx (by simpa [State.setProc] using hp)
  · simpa [State.setProc, Function.update_of_ne hpq] using hp

theorem markKilled_ended {x : Proc} (h : Ended (markKilled x)) : Ended x := by
  unfold markKilled Ended at h
  simp only at h
  split at h
  · simp at h
  · exact h

theorem kill_noneEnds (s : State) (me : ProcSlot) (pid : Int) : NoneEnds s (kill s me pid) := by
  unfold kill
  split
  · exact .refl s
  · split
    · exact .refl s
    · exact noneEnds_setProc markKilled_ended

theorem killLoop_noneEnds (me : ProcSlot) (nm : CString) (skip : ProcSlot → Bool)
    (qs : List ProcSlot) (s : State) : NoneEnds s (killLoop me nm skip qs s) := by
  induction qs generalizing s with
  | nil => exact .refl s
  | cons q qs ih =>
    rw [killLoop]
    split
    · exact (kill_noneEnds s me _).trans (ih _)
    · exact ih s

theorem resetFound_noneEnds {t : State} {nm : CString} (h : resetFound s nm = some t) :
    NoneEnds s t := by
  simp only [resetFound, Option.map_eq_some_iff] at h
  obtain ⟨c, _, rfl⟩ := h
  exact .refl s

theorem charge_noneEnds (s : State) (me : ProcSlot) (tot : Nat) :
    NoneEnds s (charge s me tot).2 := by
  unfold charge
  simp only
  split
  · exact .refl s
  · split
    · split
      · cases hreset : resetFound (killLoop me (s.contName me me) (fun _ => false)
            (List.finRange nproc) s) (s.contName me me) with
        | none => exact .refl s
        | some t => exact (killLoop_noneEnds me _ _ _ s).trans (resetFound_noneEnds hreset)
      · exact .refl s
    · exact .refl s

theorem refund_noneEnds (s : State) (me : ProcSlot) (size : Nat) :
    NoneEnds s (refund s me size) := by
  unfold refund
  split <;> exact .refl s

theorem onTable_noneEnds {t : State} {f : Table → Option Table} (h : onTable s f = some t) :
    NoneEnds s t := by
  simp only [onTable, Option.map_eq_some_iff] at h
  obtain ⟨m, _, rfl⟩ := h
  exact .refl s

/-- No container system call brings a process to its end. -/
theorem exec_noneEnds {t : State} {me : ProcSlot} {call : Call} (h : exec s me call = some t) :
    NoneEnds s t := by
  cases call with
  | kill pid =>
    cases h
    exact kill_noneEnds s me pid
  | cstop nm =>
    simp only [exec, cstop] at h
    split at h
    · split at h
      · exact (killLoop_noneEnds me _ _ _ s).trans (resetFound_noneEnds h)
      · cases h
        exact .refl s
    · exact (killLoop_noneEnds me _ _ _ s).trans (resetFound_noneEnds h)
  | pause nm =>
    cases h
    intro p hp
    simp only [pause] at hp
    split at hp
    · exact hp
    · split at hp
      · simp [Ended] at hp
      · exact hp
  | resume nm =>
    cases h
    intro p hp
    simp only [resume] at hp
    split at hp
    · simp [Ended] at hp
    · exact hp
  | contProcSet vc =>
    simp only [exec, contProcSet, Option.map_eq_some_iff] at h
    obtain ⟨c, _, rfl⟩ := h
    exact noneEnds_setProc id
  | containerReset vc next => exact onTable_noneEnds h
  | setName nm vc => exact onTable_noneEnds h
  | setMaxMem mem vc => exact onTable_noneEnds h
  | setMaxDisk disk vc => exact onTable_noneEnds h
  | setMaxProc procs vc => exact onTable_noneEnds h

end Container

/-- The file is open and refers to entry `i`. -/
def File.Holds (x : File) (i : Slot) : Prop := 0 < x.ref ∧ x.type = .inode ∧ x.ip = i

instance (x : File) (i : Slot) : Decidable (x.Holds i) := by
  unfold File.Holds
  infer_instance

namespace Kernel

variable {S : Type}

/-- The slot has no process, or one that has left its working directory. -/
def Dead (s : Kernel S) (p : ProcSlot) : Prop := Container.Ended (s.cs.proc p)

/-- Two cache entries with the same count, identity and lock; a locked one stays valid. -/
structure SameEntry (x y : Inode Dinode) : Prop where
  ref : y.ref = x.ref
  dev : y.dev = x.dev
  inum : y.inum = x.inum
  locked : y.locked = x.locked
  valid : x.locked = true → x.valid = true → y.valid = true

theorem SameEntry.refl (x : Inode Dinode) : SameEntry x x := ⟨rfl, rfl, rfl, rfl, fun _ => id⟩

/-- Nothing that is counted differs. -/
structure SameHolders (s t : Kernel S) : Prop where
  entry : ∀ i, SameEntry (s.icache i) (t.icache i)
  cwd : t.cwd = s.cwd
  file : ∀ f i, (t.file f).Holds i ↔ (s.file f).Holds i
  root : t.root = s.root
  dead : ∀ p, t.Dead p → s.Dead p

theorem SameHolders.refl (s : Kernel S) : SameHolders s s :=
  ⟨fun _ => .refl _, rfl, fun _ _ => Iff.rfl, rfl, fun _ => id⟩

theorem SameHolders.trans {s t u : Kernel S} (h₁ : SameHolders s t) (h₂ : SameHolders t u) :
    SameHolders s u where
  entry := fun i => by
    have hst := h₁.entry i
    have htu := h₂.entry i
    exact ⟨htu.ref.trans hst.ref, htu.dev.trans hst.dev, htu.inum.trans hst.inum,
      htu.locked.trans hst.locked,
      fun hl hv => htu.valid (hst.locked.trans hl) (hst.valid hl hv)⟩
  cwd := h₂.cwd.trans h₁.cwd
  file := fun f i => (h₂.file f i).trans (h₁.file f i)
  root := h₂.root.trans h₁.root
  dead := fun p hp => h₁.dead p (h₂.dead p hp)

/-- Replacing an entry by one with the same count, identity and lock. -/
theorem sameHolders_setNode (s : Kernel S) {i : Slot} {x : Inode Dinode} {store : S}
    (hx : SameEntry (s.icache i) x) : SameHolders s (s.setNode i x store) where
  entry := fun j => by
    by_cases hj : j = i
    · subst hj
      simpa [setNode] using hx
    · simpa [setNode, Function.update_of_ne hj] using SameEntry.refl (s.icache j)
  cwd := rfl
  file := fun _ _ => Iff.rfl
  root := rfl
  dead := fun _ => id

/-- Replacing a file by one that refers to the same entry. -/
theorem sameHolders_setFile (s : Kernel S) {f : FileSlot} {x : File}
    (hx : ∀ i, x.Holds i ↔ (s.file f).Holds i) : SameHolders s (s.setFile f x) where
  entry := fun _ => .refl _
  cwd := rfl
  file := fun e i => by
    by_cases he : e = f
    · subst he
      simpa [setFile] using hx i
    · simp [setFile, Function.update_of_ne he]
  root := rfl
  dead := fun _ => id

theorem sameHolders_setFd (s : Kernel S) (me : ProcSlot) (fd : Fd) (x : Option FileSlot) :
    SameHolders s (s.setFd me fd x) :=
  ⟨fun _ => .refl _, rfl, fun _ _ => Iff.rfl, rfl, fun _ => id⟩

/-- A change of the container state that brings no process to its end. -/
theorem sameHolders_cs (s : Kernel S) {cs : Container.State}
    (hdead : Container.NoneEnds s.cs cs) : SameHolders s { s with cs := cs } where
  entry := fun _ => .refl _
  cwd := rfl
  file := fun _ _ => Iff.rfl
  root := rfl
  dead := hdead

end Kernel

/-! ## The operations -/

namespace Fs

open Kernel

variable {S : Type}

/-- The operations that leave everything counted alone. -/
def Quiet : Op → Bool
  | .inumOf _ | .fields _ | .addLink _ _ | .initNode _ _ _ | .ialloc _
  | .readDirent _ _ | .writeDirent _ _ _ | .refund _ | .inCont | .rootInum | .argfd _
  | .dupFd _ | .readFd _ _ | .writeFd _ _ | .reap _ | .container _ => true
  | _ => false

/-- What an operation does to the things that are counted. -/
inductive Effect (me : ProcSlot) (s : Kernel S) : (o : Op) → o.Res → Kernel S → Prop
  | quiet {o : Op} {r : o.Res} {t : Kernel S} (hquiet : Quiet o = true) (h : SameHolders s t) :
      Effect me s o r t
  | iget {n : Nat} {i : Slot} {c : Icache Dinode} (h : s.icache.iget 1 n = some (i, c)) :
      Effect me s (.iget n) i { s with icache := c }
  | dupCwd {i : Slot} (h : s.cwd me = some i) :
      Effect me s .dupCwd i { s with icache := s.icache.idup i }
  | ilock {i : Slot} {d : Dinode} {valid : Bool} (h : (s.icache i).locked = false) :
      Effect me s (.ilock i) ()
        (s.setInode i { s.icache i with locked := true, valid := valid, d := d })
  | iunlock {i : Slot} (h : (s.icache i).locked = true) :
      Effect me s (.iunlock i) () (s.setInode i { s.icache i with locked := false })
  | reclaim {i : Slot} {r : Bool} {t : Kernel S} (hfree : (s.icache i).locked = false)
      (h : SameHolders s t) : Effect me s (.reclaim i) r t
  | drop {i : Slot} : Effect me s (.drop i) () { s with icache := s.icache.dropRef i }
  | returnRoot {ip : Slot} {c : Cont} (h : (s.cs.proc me).cont = some c) :
      Effect me s (.returnRoot ip) (s.root c) s
  | setRoot {nm : CString} {ip : Option Slot} {c : Cont} (h : Container.find s.cs.table nm = some c) :
      Effect me s (.setRoot nm ip) () { s with root := Function.update s.root c ip }
  | takeCwd {i : Slot} (h : s.cwd me = some i) : Effect me s .takeCwd i s
  | setCwd {i : Slot} : Effect me s (.setCwd i) () (s.setCwd me (some i))
  | clearCwd : Effect me s .clearCwd () (s.setCwd me none)
  | fileFull {i : Slot} {readable writable : Bool} :
      Effect me s (.fileOpen i readable writable) (none : Option Fd) s
  | fileOpen {i : Slot} {readable writable : Bool} {f : FileSlot} {fd : Fd}
      (h : (s.file f).ref = 0) (hheld : (s.icache i).locked = true) :
      Effect me s (.fileOpen i readable writable) (some fd)
        (((s.setInode i { s.icache i with locked := false }).setFile f
          ⟨1, .inode, readable, writable, i, 0⟩).setFd me fd (some f))
  | closeShared {fd : Fd} {t : Kernel S} (h : SameHolders s t) :
      Effect me s (.closeFd fd) (none : Option Slot) t
  | closeLast {fd : Fd} {f : FileSlot} (h : (s.file f).Holds (s.file f).ip) :
      Effect me s (.closeFd fd) (some (s.file f).ip)
        ((s.setFd me fd none).setFile f { s.file f with ref := 0, type := .none })
  | forkFull : Effect me s .fork (none : Option ProcSlot) s
  | fork {q : ProcSlot} {i : Slot} {t : Kernel S} {child : Proc} {fds : Fd → Option FileSlot}
      (hdead : s.Dead q) (hcwd : t.cwd me = some i) (h : SameHolders s t)
      (hchild : ¬ Container.Ended child) :
      Effect me s .fork (some q)
        { t with
          icache := t.icache.idup i
          cwd := Function.update t.cwd q (some i)
          ofile := Function.update t.ofile q fds
          cs := t.cs.setProc q child }
  | exited : Effect me s .exited ()
      { s with cs := s.cs.setProc me { s.cs.proc me with state := .zombie } }

variable {st : Store S} {me : ProcSlot} {s t : Kernel S}

variable {i : Slot} {fd : Fd}

theorem effect_ilock (h : execIlock st i s = .ok ((), t)) :
    (s.icache i).locked = false ∧ ∃ valid d,
      t = s.setInode i { s.icache i with locked := true, valid := valid, d := d } := by
  unfold execIlock at h
  dsimp only at h
  split at h
  · cases h
  split at h
  · cases h
  next hfree =>
    refine ⟨by simpa using hfree, ?_⟩
    split at h
    · next hvalid =>
      cases h
      exact ⟨(s.icache i).valid, (s.icache i).d, rfl⟩
    · split at h
      · cases h
      · cases h
        exact ⟨true, _, rfl⟩

theorem effect_iunlock (h : execIunlock i s = .ok ((), t)) :
    (s.icache i).locked = true ∧ t = s.setInode i { s.icache i with locked := false } := by
  unfold execIunlock at h
  dsimp only at h
  split at h
  · cases h
  next hheld =>
    cases h
    refine ⟨?_, rfl⟩
    simpa using fun hfree => hheld (Or.inl hfree)

theorem effect_reclaim {r : Bool} (h : execReclaim st i s = .ok (r, t)) :
    Effect me s (.reclaim i) r t := by
  unfold execReclaim at h
  dsimp only at h
  split at h
  · cases h
  next hlocked =>
  refine .reclaim (by simpa using hlocked) ?_
  split at h
  · obtain ⟨⟨store, d⟩, _, h⟩ := except_bind_eq_ok.mp h
    cases h
    apply sameHolders_setNode
    exact ⟨rfl, rfl, rfl, rfl, fun hl => absurd hl hlocked⟩
  · cases h
    exact .refl s

theorem effect_update {d : Dinode} : SameHolders s (execUpdate st i d s) := by
  apply sameHolders_setNode
  exact ⟨rfl, rfl, rfl, rfl, fun _ => id⟩

theorem effect_readDirent {k : Nat} {r : Option Dirent} (h : execReadDirent st i k s = .ok (r, t)) :
    SameHolders s t := by
  obtain ⟨⟨de, store, d⟩, _, h⟩ := except_bind_eq_ok.mp h
  cases h
  apply sameHolders_setNode
  exact ⟨rfl, rfl, rfl, rfl, fun _ => id⟩

theorem effect_writeDirent {k : Nat} {de : Dirent} {r : Written}
    (h : execWriteDirent st me i k de s = .ok (r, t)) : SameHolders s t := by
  obtain ⟨⟨w, store, d⟩, _, h⟩ := except_bind_eq_ok.mp h
  cases h
  refine SameHolders.trans ?_ (sameHolders_cs _ ?_)
  · apply sameHolders_setNode
    exact ⟨rfl, rfl, rfl, rfl, fun _ => id⟩
  split
  · exact .refl _
  · exact Container.charge_noneEnds s.cs me _

/-- A stretch of code that locks an entry, leaves the holders alone and unlocks it again. -/
theorem sameHolders_locked {s₁ s₂ : Kernel S} (hlock : execIlock st i s = .ok ((), s₁))
    (hsame : SameHolders s₁ s₂) (hunlock : execIunlock i s₂ = .ok ((), t)) : SameHolders s t := by
  obtain ⟨hfree, valid, d, rfl⟩ := effect_ilock hlock
  obtain ⟨_, rfl⟩ := effect_iunlock hunlock
  refine ⟨fun j => ?_, hsame.cwd, hsame.file, hsame.root, hsame.dead⟩
  obtain ⟨href, hdev, hinum, hlocked, hvalid⟩ := hsame.entry j
  by_cases hj : j = i
  · subst hj
    simp only [setInode, Function.update_self] at href hdev hinum ⊢
    refine ⟨href, hdev, hinum, hfree.symm, fun hl => ?_⟩
    rw [hfree] at hl
    cases hl
  · simp only [setInode, Function.update_of_ne hj] at href hdev hinum hlocked hvalid ⊢
    exact ⟨href, hdev, hinum, hlocked, hvalid⟩

theorem holds_off {x : File} {off : Nat} (i : Slot) : { x with off := off }.Holds i ↔ x.Holds i :=
  Iff.rfl

theorem effect_readFd {n : Nat} {r : Option Nat} (h : execReadFd st me fd n s = .ok (r, t)) :
    SameHolders s t := by
  obtain ⟨f, _, h⟩ := except_bind_eq_ok.mp h
  dsimp only at h
  split at h
  · cases h
    exact .refl s
  split at h
  · cases h
  obtain ⟨⟨⟨⟩, s₁⟩, hlock, h⟩ := except_bind_eq_ok.mp h
  obtain ⟨⟨w, store, d⟩, _, h⟩ := except_bind_eq_ok.mp h
  obtain ⟨⟨⟨⟩, s₂⟩, hunlock, h⟩ := except_bind_eq_ok.mp h
  cases h
  have hfile : s₁.file f = s.file f := by
    obtain ⟨_, valid, d, rfl⟩ := effect_ilock hlock
    rfl
  refine sameHolders_locked hlock (SameHolders.trans ?_ (sameHolders_setFile _ fun i => ?_)) hunlock
  · apply sameHolders_setNode
    exact ⟨rfl, rfl, rfl, rfl, fun _ => id⟩
  · rw [holds_off]
    simp [setNode, hfile]

theorem effect_writeFd {bs : List Byte} {r : Option Nat}
    (h : execWriteFd st me fd bs s = .ok (r, t)) : SameHolders s t := by
  obtain ⟨f, _, h⟩ := except_bind_eq_ok.mp h
  dsimp only at h
  split at h
  · cases h
    exact .refl s
  split at h
  · cases h
  obtain ⟨⟨⟨⟩, s₁⟩, hlock, h⟩ := except_bind_eq_ok.mp h
  obtain ⟨⟨w, store, d⟩, _, h⟩ := except_bind_eq_ok.mp h
  obtain ⟨⟨⟨⟩, s₂⟩, hunlock, h⟩ := except_bind_eq_ok.mp h
  cases h
  have hfile : s₁.file f = s.file f := by
    obtain ⟨_, valid, d, rfl⟩ := effect_ilock hlock
    rfl
  refine sameHolders_locked hlock ?_ hunlock
  refine SameHolders.trans (SameHolders.trans ?_ (sameHolders_cs _ ?_))
    (sameHolders_setFile _ fun i => ?_)
  · apply sameHolders_setNode
    exact ⟨rfl, rfl, rfl, rfl, fun _ => id⟩
  · split
    · exact .refl _
    · exact Container.charge_noneEnds s₁.cs me _
  · rw [holds_off]
    simp [setNode, hfile]

theorem holds_addRef {x : File} (hx : ¬ x.ref < 1) (i : Slot) :
    { x with ref := x.ref + 1 }.Holds i ↔ x.Holds i := by
  have hpos : 0 < x.ref := by omega
  have hsucc : 0 < x.ref + 1 := by omega
  simp [File.Holds, hpos, hsucc]

theorem effect_dupFd {r : Option Fd} (h : execDupFd me fd s = .ok (r, t)) : SameHolders s t := by
  obtain ⟨f, _, h⟩ := except_bind_eq_ok.mp h
  dsimp only at h
  split at h
  · cases h
    exact .refl s
  · split at h
    · cases h
    next hpos =>
      cases h
      exact (sameHolders_setFd s me _ _).trans (sameHolders_setFile _ (holds_addRef hpos))

theorem dupFiles_sameHolders {fds : List Fd} (h : dupFiles me s fds = .ok t) : SameHolders s t := by
  induction fds generalizing s with
  | nil =>
    cases h
    exact .refl _
  | cons fd fds ih =>
    rw [dupFiles] at h
    split at h
    · exact ih h
    · split at h
      · cases h
      next hpos => exact (sameHolders_setFile s (holds_addRef hpos)).trans (ih h)

theorem effect_fork {r : Option ProcSlot} (h : execFork me s = .ok (r, t)) :
    Effect me s .fork r t := by
  unfold execFork at h
  split at h
  · cases h
    exact .forkFull
  next q hq =>
    obtain ⟨u, hdup, h⟩ := except_bind_eq_ok.mp h
    split at h
    · cases h
    next i hi =>
      cases h
      have hunused := (first_eq_some.mp hq).1
      have hdead : s.Dead q := Or.inl (by simpa using hunused)
      exact .fork hdead hi (dupFiles_sameHolders hdup) (by simp [Container.Ended])

theorem effect_fileOpen {readable writable : Bool} {r : Option Fd}
    (h : execFileOpen me i readable writable s = .ok (r, t)) :
    Effect me s (.fileOpen i readable writable) r t := by
  unfold execFileOpen at h
  split at h
  · cases h
    exact .fileFull
  next f hf =>
    split at h
    · cases h
      exact .fileFull
    · obtain ⟨⟨⟨⟩, u⟩, hunlock, h⟩ := except_bind_eq_ok.mp h
      cases h
      obtain ⟨hheld, rfl⟩ := effect_iunlock hunlock
      exact .fileOpen (by simpa using (first_eq_some.mp hf).1) hheld

theorem effect_closeFd {r : Option Slot} (h : execCloseFd me fd s = .ok (r, t)) :
    Effect me s (.closeFd fd) r t := by
  obtain ⟨f, _, h⟩ := except_bind_eq_ok.mp h
  dsimp only at h
  split at h
  · cases h
  next hpos =>
    have hfile : (s.setFd me fd none).file f = s.file f := rfl
    split at h
    · next hmore =>
      cases h
      refine .closeShared ((sameHolders_setFd s me fd none).trans
        (sameHolders_setFile _ fun i => ?_))
      have hpos : 0 < (s.file f).ref := by omega
      have hshared : 1 < (s.file f).ref := by omega
      simp [File.Holds, hfile, hpos, hshared]
    next hlast =>
      split at h
      · next htype =>
        cases h
        exact .closeLast ⟨by omega, htype, rfl⟩
      next htype =>
        cases h
        refine .closeShared ((sameHolders_setFd s me fd none).trans
          (sameHolders_setFile _ fun i => ?_))
        simp [File.Holds, hfile, htype]

/-- Every successful operation has one of the effects. -/
theorem exec_effect {o : Op} {r : o.Res} (h : execOp st me o s = .ok (r, t)) :
    Effect me s o r t := by
  cases o with
  | iget inum =>
    simp only [execOp] at h
    split at h
    · next i c hi =>
      cases h
      exact .iget hi
    · cases h
  | dupCwd =>
    simp only [execOp] at h
    split at h
    · next i hi =>
      cases h
      exact .dupCwd hi
    · cases h
  | ilock i =>
    obtain ⟨hfree, valid, d, rfl⟩ := effect_ilock h
    exact .ilock hfree
  | iunlock i =>
    obtain ⟨hheld, rfl⟩ := effect_iunlock h
    exact .iunlock hheld
  | reclaim i => exact effect_reclaim h
  | drop i =>
    cases h
    exact .drop
  | inumOf i =>
    cases h
    exact .quiet rfl (.refl s)
  | fields i =>
    cases h
    exact .quiet rfl (.refl s)
  | addLink i n =>
    cases h
    exact .quiet rfl effect_update
  | initNode i major minor =>
    cases h
    exact .quiet rfl effect_update
  | ialloc type =>
    obtain ⟨⟨inum, store⟩, _, h⟩ := except_bind_eq_ok.mp h
    cases h
    exact .quiet rfl ⟨fun _ => .refl _, rfl, fun _ _ => Iff.rfl, rfl, fun _ => id⟩
  | readDirent i k => exact .quiet rfl (effect_readDirent h)
  | writeDirent i k de => exact .quiet rfl (effect_writeDirent h)
  | refund i =>
    cases h
    exact .quiet rfl (sameHolders_cs s (Container.refund_noneEnds s.cs me _))
  | inCont =>
    cases h
    exact .quiet rfl (.refl s)
  | rootInum =>
    simp only [execOp] at h
    split at h
    · cases h
    · split at h <;> cases h <;> exact .quiet rfl (.refl s)
  | returnRoot ip =>
    simp only [execOp] at h
    split at h
    · cases h
    · next c hc =>
      cases h
      exact .returnRoot hc
  | setRoot nm ip =>
    simp only [execOp] at h
    split at h
    · cases h
    · next c hc =>
      cases h
      exact .setRoot hc
  | takeCwd =>
    simp only [execOp] at h
    split at h
    · next i hi =>
      cases h
      exact .takeCwd hi
    · cases h
  | setCwd i =>
    cases h
    exact .setCwd
  | clearCwd =>
    cases h
    exact .clearCwd
  | fileOpen i readable writable => exact effect_fileOpen h
  | argfd fd =>
    cases h
    exact .quiet rfl (.refl s)
  | closeFd fd => exact effect_closeFd h
  | dupFd fd => exact .quiet rfl (effect_dupFd h)
  | readFd fd n => exact .quiet rfl (effect_readFd h)
  | writeFd fd bs => exact .quiet rfl (effect_writeFd h)
  | fork => exact effect_fork h
  | exited =>
    cases h
    exact .exited
  | reap q =>
    simp only [execOp, execReap] at h
    split at h
    · next hzombie =>
      cases h
      refine .quiet rfl (sameHolders_cs s (Container.noneEnds_setProc fun _ => ?_))
      exact Or.inr hzombie
    · cases h
      exact .quiet rfl (.refl s)
  | container call =>
    simp only [execOp, execContainer] at h
    split at h
    · split at h
      · next cs hcs =>
        cases h
        exact .quiet rfl (sameHolders_cs s (Container.exec_noneEnds hcs))
      · cases h
    · cases h
  | panic p => cases h

end Fs

end Xv6Containers
