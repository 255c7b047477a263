import Xv6Containers.Fs.Effects
import Xv6Containers.Lib.Counting

/-!
# Reference counts and their holders

The holders of a cache entry are the working directories, open files and
container roots that refer to it, and the references of running system calls.
Each operation moves a reference from one kind of holder to another, or changes
the count together with the holders. The exceptions are `return cont->root` in
`namex`, which hands out a reference the lookup does not hold, and
`set_root_inode` on a container that has a root already, which forgets one.
-/

namespace Xv6Containers.Fs

open Lib.Memory Lib.Strings Lib.Program Lib.Counting Kernel Function

variable {S : Type} {me : ProcSlot} {s t : Kernel S}

/-! ## Holders -/

/-- The references of one process to entry `i`: those of its running call, and its working
directory unless the call has taken over that reference. -/
def processRefs (h : Hold) (cwd : Option Slot) (i : Slot) : Int :=
  h.refs i + if cwd = some i ∧ h.cwd ≠ .taken then 1 else 0

def fileRefs (x : File) (i : Slot) : Int := if x.Holds i then 1 else 0

def rootRefs (r : Option Slot) (i : Slot) : Int := if r = some i then 1 else 0

/-- The number of holders of entry `i`, when the running calls hold `g`. -/
def holders (g : ProcSlot → Hold) (s : Kernel S) (i : Slot) : Int :=
  ∑ p, processRefs (g p) (s.cwd p) i + ∑ f, fileRefs (s.file f) i + ∑ c, rootRefs (s.root c) i

/-- The operation changes counts and holders alike. -/
def KeepsCount (me : ProcSlot) (o : Op) (s : Kernel S) : Prop :=
  match o with
  | .returnRoot ip => ∀ c, (s.cs.proc me).cont = some c → s.root c = some ip
  | .setRoot nm _ => ∀ c, Container.find s.cs.table nm = some c → s.root c = none
  | _ => True

/-- Each count is the number of holders. -/
def Balance (g : ProcSlot → Hold) (s : Kernel S) : Prop :=
  ∀ i, (s.icache i).ref = holders g s i

theorem processRefs_nonneg (h : Hold) (cwd : Option Slot) (i : Slot) : 0 ≤ processRefs h cwd i := by
  unfold processRefs
  split <;> omega

theorem fileRefs_nonneg (x : File) (i : Slot) : 0 ≤ fileRefs x i := by
  unfold fileRefs
  split <;> omega

theorem rootRefs_nonneg (r : Option Slot) (i : Slot) : 0 ≤ rootRefs r i := by
  unfold rootRefs
  split <;> omega

theorem holders_nonneg (g : ProcSlot → Hold) (s : Kernel S) (i : Slot) : 0 ≤ holders g s i :=
  add_nonneg (add_nonneg (Finset.sum_nonneg fun _ _ => processRefs_nonneg _ _ _)
    (Finset.sum_nonneg fun _ _ => fileRefs_nonneg _ _)) (Finset.sum_nonneg fun _ _ => rootRefs_nonneg _ _)

/-- A container root is a holder. -/
theorem holders_pos_of_root {g : ProcSlot → Hold} {c : Cont} {i : Slot} (h : s.root c = some i) :
    0 < holders g s i := by
  have hle := le_sum_of_nonneg (f := fun c => rootRefs (s.root c) i)
    (fun c => rootRefs_nonneg _ _) c
  rw [rootRefs, if_pos h] at hle
  have hprocs := Finset.sum_nonneg fun p (_ : p ∈ Finset.univ) =>
    processRefs_nonneg (g p) (s.cwd p) i
  have hfiles := Finset.sum_nonneg fun f (_ : f ∈ Finset.univ) => fileRefs_nonneg (s.file f) i
  unfold holders
  omega

theorem holders_same (h : SameHolders s t) (g : ProcSlot → Hold) (i : Slot) :
    holders g t i = holders g s i := by
  simp only [holders, h.cwd, h.root, fileRefs, h.file]

/-- One process changes what it holds. -/
theorem holders_process {g : ProcSlot → Hold} {h : Hold} {p : ProcSlot}
    (hcwd : ∀ q, q ≠ p → t.cwd q = s.cwd q) (hfile : t.file = s.file) (hroot : t.root = s.root)
    (i : Slot) :
    holders (update g p h) t i = holders g s i - processRefs (g p) (s.cwd p) i +
      processRefs h (t.cwd p) i := by
  have hsum := sum_of_eq_off (f := fun q => processRefs (g q) (s.cwd q) i)
    (g := fun q => processRefs (update g p h q) (t.cwd q) i) p
    fun q hq => by simp [update_of_ne hq, hcwd q hq]
  simp only [update_self] at hsum
  simp only [holders, hfile, hroot, hsum]
  omega

theorem after_quiet {o : Op} (hquiet : Quiet o = true) (r : o.Res) (h : Hold) : after o r h = h := by
  cases o <;> first | rfl | simp [Quiet] at hquiet

/-! ## One operation -/

/-- The working directories that were put, and those of slots without a process, are null. -/
def CwdsLeft (g : ProcSlot → Hold) (s : Kernel S) : Prop :=
  ∀ p, ((g p).cwd = .left → s.cwd p = none) ∧ (s.Dead p → s.cwd p = none ∧ (g p).cwd = .kept)

/-- Taking a reference adds one holder. -/
theorem processRefs_take (h : Hold) (cwd : Option Slot) (i j : Slot) :
    processRefs (h.take i) cwd j = processRefs h cwd j + if j = i then 1 else 0 := by
  have hrefs : ((h.take i).refs j : Int) = h.refs j + if j = i then 1 else 0 := by
    rw [Hold.take_refs]
    split
    · next hj => simp [hj]
    · simp
  simp only [processRefs, hrefs, Hold.take_cwd]
  exact Int.add_right_comm _ _ _

theorem processRefs_give {h : Hold} {i : Slot} (hi : 0 < h.refs i) (cwd : Option Slot) (j : Slot) :
    processRefs (h.give i) cwd j = processRefs h cwd j - if j = i then 1 else 0 := by
  have hrefs : ((h.give i).refs j : Int) = h.refs j - if j = i then 1 else 0 := by
    rw [Hold.give_refs]
    split
    · next hj =>
      subst hj
      omega
    · simp
  simp only [processRefs, hrefs, Hold.give_cwd]
  exact Int.add_right_comm _ _ _

theorem processRefs_setLock (h : Hold) (i : Slot) (b : Bool) (cwd : Option Slot) (j : Slot) :
    processRefs (h.setLock i b) cwd j = processRefs h cwd j := rfl

section Balance

variable {g : ProcSlot → Hold}

variable {p : ProcSlot} {i : Slot}

/-- The counts follow the references of one process. -/
theorem Balance.process {h : Hold} (hb : Balance g s) (hcwd : ∀ q, q ≠ p → t.cwd q = s.cwd q)
    (hfile : t.file = s.file) (hroot : t.root = s.root) (hcount : ∀ i, (t.icache i).ref =
      (s.icache i).ref - processRefs (g p) (s.cwd p) i + processRefs h (t.cwd p) i) :
    Balance (update g p h) t := by
  intro i
  have hold := hb i
  have hnew := holders_process (g := g) (h := h) hcwd hfile hroot i
  have hdiff := hcount i
  omega

/-- A process takes a reference and the count goes up. -/
theorem Balance.take (hb : Balance g s) (hcwd : t.cwd = s.cwd) (hfile : t.file = s.file)
    (hroot : t.root = s.root)
    (hcount : ∀ j, (t.icache j).ref = (s.icache j).ref + if j = i then 1 else 0) :
    Balance (update g p ((g p).take i)) t := by
  refine hb.process (fun q _ => congrFun hcwd q) hfile hroot fun j => ?_
  rw [processRefs_take, hcwd, hcount]
  omega

/-- A process gives a reference up and the count goes down. -/
theorem Balance.give (hb : Balance g s) (hi : 0 < (g p).refs i) (hcwd : t.cwd = s.cwd)
    (hfile : t.file = s.file) (hroot : t.root = s.root)
    (hcount : ∀ j, (t.icache j).ref = (s.icache j).ref - if j = i then 1 else 0) :
    Balance (update g p ((g p).give i)) t := by
  refine hb.process (fun q _ => congrFun hcwd q) hfile hroot fun j => ?_
  rw [processRefs_give hi, hcwd, hcount]
  omega

/-- A process gives a reference to a file or a root. -/
theorem Balance.move {h : Hold} (hb : Balance g s) (hi : 0 < (g p).refs i)
    (hrefs : h.refs = ((g p).give i).refs) (huse : h.cwd = (g p).cwd) (hcwd : t.cwd = s.cwd)
    (hcache : ∀ j, (t.icache j).ref = (s.icache j).ref)
    (hrest : ∀ j, ∑ f, fileRefs (t.file f) j + ∑ c, rootRefs (t.root c) j =
      ∑ f, fileRefs (s.file f) j + ∑ c, rootRefs (s.root c) j + if j = i then 1 else 0) :
    Balance (update g p h) t := by
  intro j
  have hold := hb j
  have hgiven := holders_process (s := s) (t := s) (g := g) (h := h) (p := p)
    (fun _ _ => rfl) rfl rfl j
  have hsum := hrest j
  have hsame : processRefs h (s.cwd p) j = processRefs ((g p).give i) (s.cwd p) j := by
    rw [processRefs, processRefs, hrefs, huse, Hold.give_cwd]
  rw [hsame, processRefs_give hi] at hgiven
  simp only [holders, hcwd, hcache] at hold hgiven ⊢
  omega

/-- The other way round: a process takes over the reference of a file. -/
theorem Balance.moveBack (hb : Balance g s) (hcwd : t.cwd = s.cwd) (hcache : t.icache = s.icache)
    (hroot : t.root = s.root) (hrest : ∀ j, ∑ f, fileRefs (t.file f) j =
      ∑ f, fileRefs (s.file f) j - if j = i then 1 else 0) :
    Balance (update g p ((g p).take i)) t := by
  intro j
  have hold := hb j
  have htaken := holders_process (s := s) (t := s) (g := g) (h := (g p).take i) (p := p)
    (fun _ _ => rfl) rfl rfl j
  have hsum := hrest j
  rw [processRefs_take] at htaken
  simp only [holders, hcwd, hcache, hroot] at hold htaken ⊢
  omega

theorem balance_same (hb : Balance g s) (h : SameHolders s t) : Balance g t := by
  intro j
  rw [holders_same h, (h.entry j).ref]
  exact hb j

theorem fileRefs_setFile (s : Kernel S) (f : FileSlot) (x : File) (i : Slot) :
    ∑ e, fileRefs ((s.setFile f x).file e) i =
      ∑ e, fileRefs (s.file e) i - fileRefs (s.file f) i + fileRefs x i :=
  sum_update (fun y => fileRefs y i) s.file f x

/-- The count and the holders change alike. -/
theorem balance_step {o : Op} {r : o.Res} (heffect : Effect me s o r t) (hb : Balance g s)
    (hallowed : Allowed (g me) o) (hleft : CwdsLeft g s) (hkeeps : KeepsCount me o s) :
    Balance (update g me (after o r (g me))) t := by
  cases heffect with
  | quiet hquiet hsame =>
    rw [after_quiet hquiet, update_eq_self]
    exact balance_same hb hsame
  | @iget n i c hget =>
    refine hb.take (i := i) rfl rfl rfl fun j => ?_
    split
    · next hji =>
      subst hji
      exact (Icache.iget_self hget).1
    · next hji => simp [Icache.iget_frame hget hji]
  | @dupCwd i hcwd =>
    refine hb.take (i := i) rfl rfl rfl fun j => ?_
    simp only [Icache.idup, Icache.addRef, update_apply]
    split
    · next hji => rw [hji]
    · simp
  | @ilock i d valid hfree =>
    refine hb.process (fun _ _ => rfl) rfl rfl fun j => ?_
    simp only [after, processRefs_setLock, setInode, update_apply]
    split
    · next hji => simp [hji]
    · simp
  | @iunlock i hheld =>
    refine hb.process (fun _ _ => rfl) rfl rfl fun j => ?_
    simp only [after, processRefs_setLock, setInode, update_apply]
    split
    · next hji => simp [hji]
    · simp
  | reclaim _ hsame =>
    simp only [after, update_eq_self]
    exact balance_same hb hsame
  | @drop i =>
    refine hb.give (i := i) hallowed.1 rfl rfl rfl fun j => ?_
    simp only [Icache.dropRef, update_apply]
    split
    · next hji => rw [hji]
    · simp
  | @returnRoot ip c hcont =>
    have hroot : s.root c = some ip := hkeeps c hcont
    simp only [after, hroot, if_true, update_eq_self]
    exact hb
  | @setRoot nm ip c hfind =>
    have hnull : s.root c = none := hkeeps c hfind
    have hroots (j : Slot) : ∑ e, rootRefs (update s.root c ip e) j =
        ∑ e, rootRefs (s.root e) j + rootRefs ip j := by
      have hsum := sum_update (fun y => rootRefs y j) s.root c ip
      simpa [hnull, rootRefs] using hsum
    cases ip with
    | none =>
      simp only [after, Hold.giveOpt, update_eq_self]
      rw [← hnull, update_eq_self]
      exact hb
    | some i =>
      refine hb.move (i := i) (hallowed i rfl).1 rfl rfl rfl (fun _ => rfl) fun j => ?_
      rw [hroots j]
      simp only [rootRefs, Option.some.injEq, eq_comm (a := i)]
      omega
  | @takeCwd i hcwd =>
    refine hb.process (fun _ _ => rfl) rfl rfl fun j => ?_
    have hkept : (g me).cwd = .kept := hallowed
    simp only [after, processRefs, hcwd, hkept, Hold.useCwd_refs, Hold.useCwd_cwd, Hold.take_refs,
      Option.some.injEq, eq_comm (a := i)]
    split <;> simp_all
  | @setCwd i =>
    refine hb.process (fun p hp => by simp [Kernel.setCwd, update_of_ne hp]) rfl rfl
      fun j => ?_
    obtain ⟨htaken, hi, _⟩ := hallowed
    simp only [after, processRefs, Kernel.setCwd, update_self, htaken, Hold.useCwd_refs,
      Hold.useCwd_cwd, Hold.give_refs, Option.some.injEq, eq_comm (a := i)]
    by_cases hji : j = i
    · subst hji
      simp
      omega
    · simp [hji]
  | clearCwd =>
    refine hb.process (fun p hp => by simp [Kernel.setCwd, update_of_ne hp]) rfl rfl
      fun j => ?_
    have htaken : (g me).cwd = .taken := hallowed
    simp [after, processRefs, Kernel.setCwd, htaken]
  | fileFull =>
    simp only [after, Option.isSome_none, Bool.false_eq_true, if_false, update_eq_self]
    exact hb
  | @fileOpen i readable writable f fd hfree _ =>
    refine hb.move (i := i) hallowed.1 rfl rfl rfl (fun j => ?_) fun j => ?_
    · simp only [setInode, setFile, setFd, update_apply]
      split
      · next hj => rw [hj]
      · rfl
    have hsum := fileRefs_setFile s f ⟨1, .inode, readable, writable, i, 0⟩ j
    have hnot : fileRefs (s.file f) j = 0 := by simp [fileRefs, File.Holds, hfree]
    have hnew : fileRefs ⟨1, .inode, readable, writable, i, 0⟩ j = if j = i then 1 else 0 := by
      simp [fileRefs, File.Holds, eq_comm]
    have hfiles : (((s.setInode i { s.icache i with locked := false }).setFile f
        ⟨1, .inode, readable, writable, i, 0⟩).setFd me fd (some f)).file =
        (s.setFile f ⟨1, .inode, readable, writable, i, 0⟩).file := rfl
    have hroots : (((s.setInode i { s.icache i with locked := false }).setFile f
        ⟨1, .inode, readable, writable, i, 0⟩).setFd me fd (some f)).root = s.root := rfl
    rw [hfiles, hroots]
    omega
  | closeShared hsame =>
    simp only [after, Hold.takeOpt, update_eq_self]
    exact balance_same hb hsame
  | @closeLast fd f hholds =>
    refine hb.moveBack rfl rfl rfl fun j => ?_
    have hsum := fileRefs_setFile (s.setFd me fd none) f
      { s.file f with ref := 0, type := .none } j
    have hfiles : (s.setFd me fd none).file = s.file := rfl
    have hnew : fileRefs { s.file f with ref := 0, type := .none } j = 0 := by
      simp [fileRefs, File.Holds]
    have hold : fileRefs (s.file f) j = if j = (s.file f).ip then 1 else 0 := by
      obtain ⟨hpos, htype, _⟩ := hholds
      simp [fileRefs, File.Holds, hpos, htype, eq_comm]
    rw [hfiles] at hsum
    omega
  | forkFull =>
    simp only [after, update_eq_self]
    exact hb
  | @fork q i u child fds hdead hcwd hsame hchild =>
    obtain ⟨hnone, hkept⟩ := (hleft q).2 hdead
    have hnull : u.cwd q = none := by
      rw [hsame.cwd]
      exact hnone
    have hforked := (balance_same hb hsame).process (h := g q) (p := q)
      (t := { u with
        icache := u.icache.idup i
        cwd := update u.cwd q (some i)
        ofile := update u.ofile q fds
        cs := u.cs.setProc q child })
      (fun p hp => by simp [update_of_ne hp]) rfl rfl
      fun j => by
        simp only [processRefs, hnull, update_self, hkept, Icache.idup, Icache.addRef,
          update_apply, Option.some.injEq, eq_comm (a := i)]
        by_cases hji : j = i
        · subst hji
          simp
          omega
        · simp [hji]
    rw [update_eq_self] at hforked
    simpa only [after, update_eq_self] using hforked
  | exited =>
    refine hb.process (fun _ _ => rfl) rfl rfl fun j => ?_
    have hnone := (hleft me).1 hallowed
    simp [after, processRefs, hnone]

end Balance

/-! ## Working directories and locks -/

theorem after_cwd {o : Op} {r : o.Res} {h : Hold} (hmoves : o ≠ .takeCwd ∧ (∀ i, o ≠ .setCwd i) ∧
    o ≠ .clearCwd ∧ o ≠ .exited) : (after o r h).cwd = h.cwd := by
  obtain ⟨h₁, h₂, h₃, h₄⟩ := hmoves
  cases o with
  | takeCwd => exact absurd rfl h₁
  | setCwd i => exact absurd rfl (h₂ i)
  | clearCwd => exact absurd rfl h₃
  | exited => exact absurd rfl h₄
  | returnRoot ip =>
    simp only [after]
    split <;> rfl
  | setRoot nm ip => cases ip <;> rfl
  | fileOpen i readable writable =>
    simp only [after]
    split <;> rfl
  | closeFd fd =>
    simp only [after]
    cases (r : Option Slot) <;> rfl
  | _ => rfl

variable {g : ProcSlot → Hold}

/-- A step that moves no working directory and ends no process. -/
theorem CwdsLeft.same {h : Hold} (hleft : CwdsLeft g s) (hcwd : t.cwd = s.cwd)
    (hdead : ∀ p, t.Dead p → s.Dead p) (huse : h.cwd = (g me).cwd) :
    CwdsLeft (update g me h) t := by
  intro p
  have huses : (update g me h p).cwd = (g p).cwd := by
    by_cases hp : p = me
    · subst hp
      simpa using huse
    · simp [update_of_ne hp]
  rw [huses, hcwd]
  exact ⟨(hleft p).1, fun hp => (hleft p).2 (hdead p hp)⟩

/-- A process that has its working directory, or has just put it, is alive. -/
theorem CwdsLeft.alive (hleft : CwdsLeft g s) (huse : (g me).cwd ≠ .kept) :
    ¬ s.Dead me := fun hdead => huse ((hleft me).2 hdead).2

theorem cwdsLeft_step {o : Op} {r : o.Res} (heffect : Effect me s o r t) (hleft : CwdsLeft g s)
    (hallowed : Allowed (g me) o) : CwdsLeft (update g me (after o r (g me))) t := by
  cases heffect with
  | quiet hquiet hsame =>
    refine hleft.same hsame.cwd hsame.dead ?_
    rw [after_quiet hquiet]
  | iget hget => exact hleft.same rfl (fun _ => id) rfl
  | dupCwd hcwd => exact hleft.same rfl (fun _ => id) rfl
  | ilock hfree => exact hleft.same rfl (fun _ => id) rfl
  | iunlock hheld => exact hleft.same rfl (fun _ => id) rfl
  | reclaim _ hsame => exact hleft.same hsame.cwd hsame.dead rfl
  | drop => exact hleft.same rfl (fun _ => id) rfl
  | returnRoot hcont => exact hleft.same rfl (fun _ => id) (after_cwd (by simp))
  | setRoot hfind => exact hleft.same rfl (fun _ => id) (after_cwd (by simp))
  | @takeCwd i hcwd =>
    intro p
    by_cases hp : p = me
    · subst hp
      refine ⟨fun huse => ?_, fun hdead => ?_⟩
      · simp [after] at huse
      · have hnone := ((hleft p).2 hdead).1
        simp [hcwd] at hnone
    · simpa [update_of_ne hp] using hleft p
  | setCwd =>
    have halive : ¬ s.Dead me := hleft.alive (by simp [hallowed.1])
    intro p
    by_cases hp : p = me
    · subst hp
      exact ⟨fun huse => by simp [after] at huse, fun hdead => absurd hdead halive⟩
    · simpa [update_of_ne hp, Kernel.setCwd, Dead] using hleft p
  | clearCwd =>
    have htaken : (g me).cwd = .taken := hallowed
    have halive : ¬ s.Dead me := hleft.alive (by simp [htaken])
    intro p
    by_cases hp : p = me
    · subst hp
      exact ⟨fun _ => by simp [Kernel.setCwd], fun hdead => absurd hdead halive⟩
    · simpa [update_of_ne hp, Kernel.setCwd, Dead] using hleft p
  | fileFull => exact hleft.same rfl (fun _ => id) (after_cwd (by simp))
  | fileOpen hfree _ => exact hleft.same rfl (fun _ => id) (after_cwd (by simp))
  | closeShared hsame => exact hleft.same hsame.cwd hsame.dead rfl
  | closeLast hholds => exact hleft.same rfl (fun _ => id) rfl
  | forkFull => exact hleft.same rfl (fun _ => id) rfl
  | @fork q i u child fds hdead hcwd hsame hchild =>
    have hq := (hleft q).2 hdead
    have hsame' := hleft.same hsame.cwd hsame.dead (h := g me) rfl
    rw [update_eq_self] at hsame'
    simp only [after, update_eq_self]
    intro p
    by_cases hp : p = q
    · subst hp
      refine ⟨fun huse => ?_, fun hended => ?_⟩
      · rw [hq.2] at huse
        cases huse
      · simp only [Dead, Container.State.setProc, update_self] at hended
        exact absurd hended hchild
    · simpa [update_of_ne hp, Dead, Container.State.setProc] using hsame' p
  | exited =>
    have hput : (g me).cwd = .left := hallowed
    intro p
    by_cases hp : p = me
    · subst hp
      simp [after, (hleft p).1 hput]
    · simpa [update_of_ne hp, Dead, Container.State.setProc] using hleft p

/-- The locked entries are those that the running calls have locked, each by one call. -/
structure Locks (g : ProcSlot → Hold) (s : Kernel S) : Prop where
  locked : ∀ i, (s.icache i).locked = true ↔ ∃ p, (g p).lock i = true
  one : ∀ i p q, (g p).lock i = true → (g q).lock i = true → p = q

theorem after_lock {o : Op} {r : o.Res} {h : Hold} (hmoves : (∀ i, o ≠ .ilock i) ∧
    (∀ i, o ≠ .iunlock i) ∧ ∀ i readable writable, o ≠ .fileOpen i readable writable) :
    (after o r h).lock = h.lock := by
  obtain ⟨h₁, h₂, h₃⟩ := hmoves
  cases o with
  | ilock i => exact absurd rfl (h₁ i)
  | iunlock i => exact absurd rfl (h₂ i)
  | fileOpen i readable writable => exact absurd rfl (h₃ i readable writable)
  | returnRoot ip =>
    simp only [after]
    split <;> rfl
  | setRoot nm ip => cases ip <;> rfl
  | closeFd fd =>
    simp only [after]
    cases (r : Option Slot) <;> rfl
  | _ => rfl

section Locks

variable {g : ProcSlot → Hold}

theorem Locks.same {h : Hold} (hl : Locks g s)
    (hlocked : ∀ i, (t.icache i).locked = (s.icache i).locked) (hlock : h.lock = (g me).lock) :
    Locks (update g me h) t := by
  have hlocks (p : ProcSlot) : (update g me h p).lock = (g p).lock := by
    by_cases hp : p = me
    · subst hp
      simpa using hlock
    · simp [update_of_ne hp]
  refine ⟨fun i => ?_, fun i p q => ?_⟩
  · simp only [hlocked, hlocks]
    exact hl.locked i
  · simp only [hlocks]
    exact hl.one i p q

/-- A free entry is locked by nobody. -/
theorem Locks.free (hl : Locks g s) {i : Slot} (hi : (s.icache i).locked = false) (p : ProcSlot) :
    (g p).lock i = false := by
  by_contra hp
  have hlocked := (hl.locked i).mpr ⟨p, by simpa using hp⟩
  rw [hi] at hlocked
  cases hlocked

/-- One process locks or unlocks an entry that no other has locked. -/
theorem Locks.setLock (hl : Locks g s) {i : Slot} {b : Bool} {h : Hold}
    (hlock : h.lock = ((g me).setLock i b).lock) (hothers : ∀ p, p ≠ me → (g p).lock i = false)
    (hlocked : ∀ j, (t.icache j).locked = if j = i then b else (s.icache j).locked) :
    Locks (update g me h) t := by
  have hlocks (p : ProcSlot) (j : Slot) : (update g me h p).lock j =
      if p = me ∧ j = i then b else (g p).lock j := by
    by_cases hp : p = me
    · subst hp
      simp [hlock]
    · simp [hp]
  constructor
  · intro j
    simp only [hlocks, hlocked]
    by_cases hj : j = i
    · subst hj
      rw [if_pos rfl]
      constructor
      · intro hb
        exact ⟨me, by simpa using hb⟩
      · rintro ⟨p, hp⟩
        split at hp
        · exact hp
        · next hne =>
          rw [hothers p fun h => hne ⟨h, rfl⟩] at hp
          cases hp
    · simpa [hj] using hl.locked j
  · intro j p q
    simp only [hlocks]
    by_cases hj : j = i
    · subst hj
      intro hp hq
      have hmine (p : ProcSlot) (hp : (if p = me ∧ j = j then b else (g p).lock j) = true) :
          p = me := by
        by_contra hne
        simp [hne, hothers p hne] at hp
      rw [hmine p hp, hmine q hq]
    · simpa [hj] using hl.one j p q

theorem locks_step {o : Op} {r : o.Res} (heffect : Effect me s o r t) (hl : Locks g s)
    (hallowed : Allowed (g me) o) : Locks (update g me (after o r (g me))) t := by
  cases heffect with
  | quiet hquiet hsame =>
    refine hl.same (fun i => (hsame.entry i).locked) ?_
    rw [after_quiet hquiet]
  | @iget n i c hget =>
    refine hl.same (fun j => ?_) rfl
    by_cases hj : j = i
    · subst hj
      exact (Icache.iget_self hget).2.2.2.2
    · exact congrArg Inode.locked (Icache.iget_frame hget hj)
  | dupCwd hcwd =>
    refine hl.same (fun j => ?_) rfl
    simp only [Icache.idup, Icache.addRef, update_apply]
    split
    · next hj => rw [hj]
    · rfl
  | @ilock i d valid hfree =>
    refine hl.setLock (i := i) rfl (fun p _ => hl.free hfree p) fun j => ?_
    simp only [setInode, update_apply]
    split <;> rfl
  | @iunlock i hheld =>
    refine hl.setLock (i := i) rfl (fun p hp => ?_) fun j => ?_
    · by_contra hlock
      exact hp (hl.one i p me (by simpa using hlock) hallowed)
    · simp only [setInode, update_apply]
      split <;> rfl
  | reclaim _ hsame => exact hl.same (fun i => (hsame.entry i).locked) rfl
  | drop =>
    refine hl.same (fun j => ?_) rfl
    simp only [Icache.dropRef, update_apply]
    split
    · next hj => rw [hj]
    · rfl
  | returnRoot hcont => exact hl.same (fun _ => rfl) (after_lock (by simp))
  | setRoot hfind => exact hl.same (fun _ => rfl) (after_lock (by simp))
  | takeCwd hcwd => exact hl.same (fun _ => rfl) rfl
  | setCwd => exact hl.same (fun _ => rfl) rfl
  | clearCwd => exact hl.same (fun _ => rfl) rfl
  | fileFull => exact hl.same (fun _ => rfl) rfl
  | @fileOpen i readable writable f fd _ hheld =>
    refine hl.setLock (i := i) (b := false) rfl (fun p hp => ?_) fun j => ?_
    · by_contra hlock
      exact hp (hl.one i p me (by simpa using hlock) hallowed.2)
    · simp only [setInode, setFile, setFd, update_apply]
      split <;> rfl
  | closeShared hsame => exact hl.same (fun i => (hsame.entry i).locked) rfl
  | closeLast hholds => exact hl.same (fun _ => rfl) rfl
  | forkFull => exact hl.same (fun _ => rfl) rfl
  | @fork q i u child fds hdead hcwd hsame hchild =>
    refine hl.same (fun j => ?_) rfl
    have hentry := (hsame.entry j).locked
    simp only [Icache.idup, Icache.addRef, update_apply]
    split
    · next hj =>
      subst hj
      exact hentry
    · exact hentry
  | exited => exact hl.same (fun _ => rfl) rfl

end Locks

end Xv6Containers.Fs
