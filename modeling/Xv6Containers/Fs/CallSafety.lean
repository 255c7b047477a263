import Xv6Containers.Fs.Discipline

/-!
# The system calls keep the discipline

Every system call, started by a process that holds nothing, ends holding
nothing, if each lookup in it returns an entry it holds.
-/

namespace Xv6Containers.Fs

open Lib.Memory Lib.Strings Lib.Program Lib.Program.Prog

namespace Hold

/-- Of two locked entries the one that was taken first is put. -/
theorem put_first {h : Hold} {i j : Slot} (hi : h.lock i = false) (hij : j ≠ i) :
    (((((h.take i).take j).setLock i true).setLock j true).give i).setLock i false =
      (h.take j).setLock j true := by
  apply ext_apply
  · intro k
    simp only [setLock_refs, take_refs, give_refs]
    grind
  · intro k
    simp only [setLock_lock, take_lock, give_lock]
    grind
  all_goals rfl

/-- Of two locked entries the one that was taken last is put. -/
theorem put_last {h : Hold} {i j : Slot} (hj : h.lock j = false) (hij : j ≠ i) :
    (((((h.take i).take j).setLock i true).setLock j true).give j).setLock j false =
      (h.take i).setLock i true := by
  apply ext_apply
  · intro k
    simp only [setLock_refs, take_refs, give_refs]
    grind
  · intro k
    simp only [setLock_lock, take_lock, give_lock]
    grind
  all_goals rfl

end Hold

section Calls

variable {h : Hold}

/-- A locked entry that was taken is put, or passed on locked. -/
theorem safe_iunlockput_taken {strict : Bool} {i : Slot} {post : Unit → Hold → Prop}
    (hfree : h.lock i = false) (hpost : post () h) :
    (iunlockput i).Safe (discipline strict) post ((h.take i).setLock i true) := by
  rw [safe_iunlockput]
  refine ⟨by simp, by simp, ?_⟩
  simpa [Hold.setLock_self hfree] using hpost

variable {post : Int → Hold → Prop} {path : CString} {name : Name} {dp ip : Slot}

theorem safe_namei {post : Option Slot → Hold → Prop} (hcwd : h.cwd = .kept) (hnone : post none h)
    (hsome : ∀ i, post (some i) (h.take i)) : (namei path).Safe (discipline true) post h := by
  simp only [namei, safe_bind]
  exact safe_namex hcwd (fun _ => hnone) (fun i _ => hsome i) (fun hstrict => by cases hstrict)

theorem safe_nameiparent {post : Option Slot × Name → Hold → Prop} (hcwd : h.cwd = .kept)
    (hnone : ∀ nm, post (none, nm) h) (hsome : ∀ i nm, post (some i, nm) (h.take i)) :
    (nameiparent path name).Safe (discipline true) post h :=
  safe_namex hcwd hnone hsome (fun hstrict => by cases hstrict)

/-- `namei` and `ilock`, the start of most calls. -/
theorem safe_namei_ilock {f : Slot → FsProg Int} (hcwd : h.cwd = .kept) (hnone : post (-1) h)
    (hsome : ∀ i, h.lock i = false → (f i).Safe (discipline true) post ((h.take i).setLock i true)) :
    (do
      match ← namei path with
      | none => return -1
      | some ip => do
          ilock ip
          f ip : FsProg Int).Safe (discipline true) post h := by
  simp only [safe_bind]
  refine safe_namei hcwd hnone fun i => ?_
  simp only [safe_bind, safe_ilock]
  exact ⟨by simp, hsome i⟩

theorem safe_isdiremptyFrom {post : Bool → Hold → Prop} (href : 0 < h.refs dp)
    (hlock : h.lock dp = true) (hpost : ∀ b, post b h) (k n : Nat) :
    (isdiremptyFrom dp k n).Safe (discipline true) post h := by
  induction n generalizing k with
  | zero => exact hpost true
  | succ n ih =>
    simp only [isdiremptyFrom, safe_bind, safe_readDirent]
    refine ⟨⟨href, hlock⟩, fun de => ?_⟩
    cases de with
    | none => exact safe_panic
    | some de =>
      simp only
      split
      · exact hpost false
      · exact ih (k + 1)

theorem safe_isdirempty {post : Bool → Hold → Prop} (href : 0 < h.refs dp)
    (hlock : h.lock dp = true) (hpost : ∀ b, post b h) :
    (isdirempty dp).Safe (discipline true) post h := by
  simp only [isdirempty, safe_bind, safe_fields]
  exact ⟨⟨href, hlock⟩, fun d => safe_isdiremptyFrom href hlock hpost 2 _⟩

/-! ## Links -/

theorem safe_linkBad (hpost : post (-1) h) :
    (linkBad ip).Safe (discipline true) post (h.take ip) := by
  simp only [linkBad, safe_bind, safe_ilock]
  refine ⟨by simp, fun hfree => ?_⟩
  simp only [safe_addLink]
  exact ⟨by simp, safe_iunlockput_taken hfree hpost⟩

theorem safe_sysLink {old new : CString} (hcwd : h.cwd = .kept) (hpost : ∀ r, post r h) :
    (sysLink old new name).Safe (discipline true) post h := by
  refine safe_namei_ilock hcwd (hpost _) fun ip hfree => ?_
  simp only [safe_bind, safe_fields]
  refine ⟨by simp, fun d => ?_⟩
  split
  · simp only [safe_bind]
    exact safe_iunlockput_taken hfree (hpost _)
  simp only [safe_bind, safe_addLink, safe_iunlock]
  refine ⟨by simp, by simp, ?_⟩
  rw [Hold.setLock_setLock, Hold.setLock_self (show (h.take ip).lock ip = false from hfree)]
  refine safe_nameiparent hcwd (fun _ => safe_linkBad (hpost _)) fun dp nm => ?_
  simp only [safe_bind, safe_ilock, safe_inumOf]
  refine ⟨by simp, fun hdp => ⟨Hold.refs_take_pos (by simp), fun n => ?_⟩⟩
  refine safe_dirlink (by simp) (by simp) fun b => ?_
  have hdp : (h.take ip).lock dp = false := hdp
  split
  · simp only [safe_bind]
    refine safe_iunlockput_taken hdp ?_
    simp [hpost]
  · simp only [safe_bind]
    exact safe_iunlockput_taken hdp (safe_linkBad (hpost _))

/-- The end of `sys_unlink`, with the directory and the entry locked. -/
theorem safe_unlinkEntry {k : Nat} {isDir : Bool} (hdp : h.lock dp = false)
    (hip : h.lock ip = false) (hne : ip ≠ dp) (hpost : post 0 h) :
    (unlinkEntry dp ip k isDir).Safe (discipline true) post
      ((((h.take dp).take ip).setLock dp true).setLock ip true) := by
  have hrefs : 0 < ((h.take dp).take ip).refs dp := Hold.refs_take_pos (by simp)
  simp only [unlinkEntry, safe_bind, safe_writeDirent]
  refine ⟨⟨hrefs, by simp⟩, fun b => ?_⟩
  split
  · simp only [safe_bind, safe_refund]
    refine ⟨by simp, ?_⟩
    have hrest : (do
        iunlockput dp
        addLink ip (-1)
        iunlockput ip
        return 0 : FsProg Int).Safe (discipline true) post
          ((((h.take dp).take ip).setLock dp true).setLock ip true) := by
      simp only [safe_bind]
      rw [safe_iunlockput]
      refine ⟨by simp, hrefs, ?_⟩
      rw [Hold.put_first hdp hne]
      simp only [safe_addLink]
      exact ⟨by simp, safe_iunlockput_taken hip hpost⟩
    simp only [safe_bind] at hrest
    split
    · rw [safe_addLink]
      exact ⟨⟨hrefs, by simp⟩, hrest⟩
    · exact hrest
  · exact safe_panic

theorem safe_sysUnlink (hcwd : h.cwd = .kept) (hpost : ∀ r, post r h) :
    (sysUnlink path name).Safe (discipline true) post h := by
  simp only [sysUnlink, safe_bind]
  refine safe_nameiparent hcwd (fun _ => hpost _) fun dp nm => ?_
  simp only [safe_bind, safe_ilock]
  refine ⟨by simp, fun hdp => ?_⟩
  have hdp : h.lock dp = false := hdp
  split
  · simp only [safe_bind]
    exact safe_iunlockput_taken hdp (hpost _)
  simp only [safe_bind]
  refine safe_dirlookup (by simp) (by simp) ?_ fun ip k => ?_
  · simp only [safe_bind]
    exact safe_iunlockput_taken hdp (hpost _)
  simp only [safe_bind, safe_ilock]
  refine ⟨by simp, fun hlock => ?_⟩
  have hne : ip ≠ dp := by
    rintro rfl
    simp at hlock
  have hip : h.lock ip = false := by simpa [hne] using hlock
  simp only [safe_fields]
  refine ⟨by simp, fun d => ?_⟩
  rw [Hold.setLock_take]
  split
  · exact safe_panic
  split
  · simp only [safe_bind]
    refine safe_isdirempty (by simp) (by simp) fun b => ?_
    split
    · exact safe_unlinkEntry hdp hip hne (hpost _)
    · simp only [safe_bind]
      rw [safe_iunlockput]
      refine ⟨by simp, by simp, ?_⟩
      rw [Hold.put_last hip hne]
      exact safe_iunlockput_taken hdp (hpost _)
  · exact safe_unlinkEntry hdp hip hne (hpost _)

/-! ## Creation -/

theorem safe_createDots {post : Unit → Hold → Prop} (hdp : 0 < h.refs dp)
    (hdpLock : h.lock dp = true) (hip : 0 < h.refs ip) (hipLock : h.lock ip = true)
    (hpost : post () h) : (createDots dp ip).Safe (discipline true) post h := by
  simp only [createDots, safe_bind, safe_addLink, safe_inumOf]
  refine ⟨⟨hdp, hdpLock⟩, hip, fun n => safe_dirlink hip hipLock fun b => ?_⟩
  split
  · simp only [safe_bind, safe_inumOf]
    refine ⟨hdp, fun m => safe_dirlink hip hipLock fun b => ?_⟩
    split
    · exact hpost
    · exact safe_panic
  · exact safe_panic

/-- `create` returns its inode locked. -/
theorem safe_create {type : FileType} {major minor : Int} {post : Option Slot → Hold → Prop}
    (htype : type ≠ .free) (hcwd : h.cwd = .kept) (hnone : post none h)
    (hsome : ∀ i, h.lock i = false → post (some i) ((h.take i).setLock i true)) :
    (create path type major minor name).Safe (discipline true) post h := by
  simp only [create, safe_bind]
  refine safe_nameiparent hcwd (fun _ => hnone) fun dp nm => ?_
  simp only [safe_bind, safe_ilock]
  refine ⟨by simp, fun hdp => ?_⟩
  have hdp : h.lock dp = false := hdp
  refine safe_dirlookup (by simp) (by simp) ?_ fun ip k => ?_
  · simp only [safe_bind, safe_ialloc, safe_ilock]
    refine ⟨htype, fun ip => ⟨by simp, fun hlock => ?_⟩⟩
    have hne : ip ≠ dp := by
      rintro rfl
      simp at hlock
    have hip : h.lock ip = false := by simpa [hne] using hlock
    have hrefs : 0 < ((h.take dp).take ip).refs dp := Hold.refs_take_pos (by simp)
    simp only [safe_initNode, Hold.setLock_take]
    refine ⟨by simp, ?_⟩
    have hlink : (do
        let inum ← inumOf ip
        if ← dirlink dp nm inum then do
          iunlockput dp
          return some ip
        else panic .createDirlink : FsProg (Option Slot)).Safe (discipline true) post
          ((((h.take dp).take ip).setLock dp true).setLock ip true) := by
      simp only [safe_bind]
      rw [safe_inumOf]
      refine ⟨by simp, fun n => safe_dirlink hrefs (by simp) fun b => ?_⟩
      split
      · simp only [safe_bind]
        rw [safe_iunlockput]
        refine ⟨by simp, hrefs, ?_⟩
        rw [Hold.put_first hdp hne]
        exact hsome ip hip
      · exact safe_panic
    simp only [safe_bind] at hlink
    split
    · exact safe_createDots hrefs (by simp) (by simp) (by simp) hlink
    · exact hlink
  · simp only [safe_bind, Hold.setLock_take]
    rw [safe_iunlockput]
    refine ⟨by simp, Hold.refs_take_pos (by simp), ?_⟩
    rw [Hold.setLock_give, Hold.take_take_give, Hold.setLock_setLock,
      Hold.setLock_self (show (h.take ip).lock dp = false from hdp), safe_ilock]
    refine ⟨by simp, fun hip => ?_⟩
    simp only [safe_fields]
    refine ⟨by simp, fun d => ?_⟩
    split
    · exact hsome ip hip
    · simp only [safe_bind]
      exact safe_iunlockput_taken hip hnone

theorem safe_openInode {omode : Nat} (hfree : h.lock ip = false) (hpost : ∀ r, post r h) :
    (openInode ip omode).Safe (discipline true) post ((h.take ip).setLock ip true) := by
  simp only [openInode, safe_bind, safe_fileOpen]
  refine ⟨by simp, fun fd => ?_⟩
  cases fd with
  | none =>
    simp only [safe_bind]
    exact safe_iunlockput_taken hfree (hpost _)
  | some fd => simp [Hold.setLock_self hfree, hpost]

theorem safe_sysOpen {omode : Nat} (hcwd : h.cwd = .kept) (hpost : ∀ r, post r h) :
    (sysOpen path omode name).Safe (discipline true) post h := by
  unfold sysOpen
  split
  · simp only [safe_bind]
    exact safe_create (by simp) hcwd (hpost _) fun ip hfree => safe_openInode hfree hpost
  · refine safe_namei_ilock hcwd (hpost _) fun ip hfree => ?_
    simp only [safe_bind, safe_fields]
    refine ⟨by simp, fun d => ?_⟩
    split
    · simp only [safe_bind]
      exact safe_iunlockput_taken hfree (hpost _)
    · exact safe_openInode hfree hpost

/-- `sys_mkdir` and `sys_mknod` put what they create. -/
theorem safe_create_put {type : FileType} {major minor : Int} (htype : type ≠ .free)
    (hcwd : h.cwd = .kept) (hpost : ∀ r, post r h) :
    (do
      match ← create path type major minor name with
      | none => return -1
      | some ip => do
          iunlockput ip
          return 0 : FsProg Int).Safe (discipline true) post h := by
  simp only [safe_bind]
  refine safe_create htype hcwd (hpost _) fun ip hfree => ?_
  simp only [safe_bind]
  exact safe_iunlockput_taken hfree (hpost _)

/-! ## Working directories, files and processes -/

theorem safe_sysChdir (hcwd : h.cwd = .kept) (hpost : ∀ r, post r h) :
    (sysChdir path).Safe (discipline true) post h := by
  refine safe_namei_ilock hcwd (hpost _) fun ip hfree => ?_
  simp only [safe_bind, safe_fields]
  refine ⟨by simp, fun d => ?_⟩
  split
  · simp only [safe_bind]
    exact safe_iunlockput_taken hfree (hpost _)
  simp only [safe_bind, safe_iunlock, safe_takeCwd, safe_iput, safe_setCwd]
  rw [Hold.setLock_setLock, Hold.setLock_self (show (h.take ip).lock ip = false from hfree)]
  refine ⟨by simp, hcwd, fun cwd => ⟨by simp, fun _ => ⟨⟨by simp, by simp, by simpa using hfree⟩, ?_⟩⟩⟩
  simpa [Hold.useCwd_self hcwd] using hpost 0

theorem safe_sysExec (hcwd : h.cwd = .kept) (hpost : ∀ r, post r h) :
    (sysExec path).Safe (discipline true) post h := by
  refine safe_namei_ilock hcwd (hpost _) fun ip hfree => ?_
  simp only [safe_bind]
  exact safe_iunlockput_taken hfree (hpost _)

theorem safe_setRootInode {nm : CString} (hcwd : h.cwd = .kept) (hfree : ∀ i, h.lock i = false)
    (hpost : ∀ r, post r h) : (setRootInode nm).Safe (discipline true) post h := by
  simp only [setRootInode, safe_bind]
  refine safe_namei hcwd ?_ fun i => ?_
  · simpa [Hold.giveOpt] using hpost 0
  · simpa [Hold.giveOpt, hfree i] using hpost 0

@[simp] theorem safe_fileclose {fd : Fd} {post : Unit → Hold → Prop} (hpost : post () h) :
    (fileclose fd).Safe (discipline true) post h := by
  simp only [fileclose, safe_bind, safe_closeFd]
  intro r
  cases r with
  | none => exact hpost
  | some ip => simpa [Hold.takeOpt] using fun _ => hpost

theorem safe_closeAll {post : Unit → Hold → Prop} (hpost : post () h) (fds : List Fd) :
    (closeAll fds).Safe (discipline true) post h := by
  induction fds with
  | nil => exact hpost
  | cons fd fds ih =>
    simp only [closeAll, safe_bind, safe_argfd]
    intro b
    split
    · exact safe_fileclose ih
    · exact ih

theorem safe_exit (hcwd : h.cwd = .kept) (hpost : ∀ r, post r h) :
    Fs.exit.Safe (discipline true) post h := by
  simp only [Fs.exit, safe_bind]
  refine safe_closeAll ?_ _
  simp only [safe_takeCwd, safe_iput, safe_clearCwd, safe_exited, safe_pure]
  refine ⟨hcwd, fun cwd => ⟨by simp, fun _ => ⟨by simp, by simp, ?_⟩⟩⟩
  simpa [Hold.useCwd_self hcwd] using hpost 0

theorem safe_writeChunks {fd : Fd} {post : Bool → Hold → Prop} (hpost : ∀ b, post b h)
    (cs : List (List Byte)) : (writeChunks fd cs).Safe (discipline true) post h := by
  induction cs with
  | nil => exact hpost true
  | cons c cs ih =>
    simp only [writeChunks, safe_bind, safe_writeFd]
    intro r
    cases r with
    | none => exact hpost false
    | some r =>
      simp only
      split
      · exact ih
      · exact safe_panic

/-- The calls on descriptors begin with `argfd`. -/
theorem safe_argfd_then {fd : Fd} {x : FsProg Int} (hpost : ∀ r, post r h)
    (hx : x.Safe (discipline true) post h) :
    (do if ← argfd fd then x else return -1 : FsProg Int).Safe (discipline true) post h := by
  simp only [safe_bind, safe_argfd]
  intro b
  split
  · exact hx
  · exact hpost _

/-- Every system call keeps the discipline and ends as it began. -/
theorem safe_call (call : Call) (hcwd : h.cwd = .kept) (hfree : ∀ i, h.lock i = false)
    (hpost : ∀ r, post r h) : call.prog.Safe (discipline true) post h := by
  cases call with
  | link old new name => exact safe_sysLink hcwd hpost
  | unlink path name => exact safe_sysUnlink hcwd hpost
  | openFile path omode name => exact safe_sysOpen hcwd hpost
  | mkdir path name => exact safe_create_put (by simp) hcwd hpost
  | mknod path major minor name => exact safe_create_put (by simp) hcwd hpost
  | chdir path => exact safe_sysChdir hcwd hpost
  | exec path => exact safe_sysExec hcwd hpost
  | setRootInode nm => exact safe_setRootInode hcwd hfree hpost
  | close fd =>
    refine safe_argfd_then hpost ?_
    simp only [safe_bind]
    exact safe_fileclose (hpost 0)
  | dup fd =>
    refine safe_argfd_then hpost ?_
    simp only [safe_bind, safe_dupFd]
    intro r
    cases r <;> exact hpost _
  | read fd n =>
    refine safe_argfd_then hpost ?_
    simp only [safe_bind, safe_readFd]
    intro r
    cases r <;> exact hpost _
  | write fd bs =>
    refine safe_argfd_then hpost ?_
    simp only [safe_bind]
    refine safe_writeChunks (fun b => ?_) _
    split <;> exact hpost _
  | fork =>
    simp only [Call.prog, Fs.fork, safe_bind, safe_forkProc]
    refine ⟨hcwd, fun r => ?_⟩
    cases r <;> exact hpost _
  | exit => exact safe_exit hcwd hpost
  | wait q =>
    simp only [Call.prog, Fs.wait, safe_bind, safe_reap]
    intro b
    split <;> exact hpost _
  | container call => exact ⟨trivial, fun _ _ => hpost 0⟩

end Calls

end Xv6Containers.Fs
