import Xv6Containers.Fs.Syscalls

/-!
# The discipline of references and locks

What a system call holds while it runs: references to cache entries, sleep
locks, and the reference of its own working directory once `chdir` or `exit`
has taken it over. Every system call of the file system keeps the discipline and
ends holding nothing.

## Implementation notes

`return cont->root` hands out an entry for which the lookup holds no reference,
unless it is the entry the lookup stands on. The strict discipline assumes that
it is; the other one records the exception in the field `stray`, and is only
used for a lookup by itself.
-/

namespace Xv6Containers.Fs

open Lib.Memory Lib.Strings Lib.Program Lib.Program.Prog

/-- The reference of the working directory: with the process, with its running call, or put. -/
inductive CwdUse
  | kept
  | taken
  | left
  deriving DecidableEq

/-- What a running call holds. -/
@[ext]
structure Hold where
  refs : Slot → Nat
  lock : Slot → Bool
  cwd : CwdUse
  stray : Bool

namespace Hold

/-- Between system calls a process holds nothing. -/
def idle : Hold := ⟨fun _ => 0, fun _ => false, .kept, false⟩

def take (h : Hold) (i : Slot) : Hold :=
  { h with refs := Function.update h.refs i (h.refs i + 1) }

def give (h : Hold) (i : Slot) : Hold :=
  { h with refs := Function.update h.refs i (h.refs i - 1) }

def setLock (h : Hold) (i : Slot) (b : Bool) : Hold :=
  { h with lock := Function.update h.lock i b }

def useCwd (h : Hold) (u : CwdUse) : Hold := { h with cwd := u }

def takeOpt (h : Hold) : Option Slot → Hold
  | none => h
  | some i => h.take i

def giveOpt (h : Hold) : Option Slot → Hold
  | none => h
  | some i => h.give i

end Hold

/-- May the call of `o` be made? -/
def Allowed (h : Hold) : Op → Prop
  | .dupCwd => h.cwd = .kept
  | .ilock i => 0 < h.refs i
  | .iunlock i => h.lock i = true
  | .reclaim i => 0 < h.refs i
  | .drop i => 0 < h.refs i ∧ h.lock i = false
  | .inumOf i => 0 < h.refs i
  | .fields i => 0 < h.refs i ∧ h.lock i = true
  | .addLink i _ => 0 < h.refs i ∧ h.lock i = true
  | .initNode i _ _ => 0 < h.refs i ∧ h.lock i = true
  | .ialloc type => type ≠ .free
  | .readDirent i _ => 0 < h.refs i ∧ h.lock i = true
  | .writeDirent i _ _ => 0 < h.refs i ∧ h.lock i = true
  | .refund i => 0 < h.refs i ∧ h.lock i = true
  | .returnRoot ip => 0 < h.refs ip
  | .setRoot _ ip => ∀ i, ip = some i → 0 < h.refs i ∧ h.lock i = false
  | .takeCwd => h.cwd = .kept
  | .setCwd i => h.cwd = .taken ∧ 0 < h.refs i ∧ h.lock i = false
  | .clearCwd => h.cwd = .taken
  | .fileOpen i _ _ => 0 < h.refs i ∧ h.lock i = true
  | .fork => h.cwd = .kept
  | .exited => h.cwd = .left
  | _ => True

/-- What the call may assume of the result. -/
def Returns (strict : Bool) (h : Hold) : (o : Op) → o.Res → Prop
  | .ilock i, _ => h.lock i = false
  | .reclaim i, _ => h.lock i = false
  | .returnRoot ip, r => strict = true → r = some ip
  | _, _ => True

/-- What the call holds afterwards. -/
def after : (o : Op) → o.Res → Hold → Hold
  | .iget _, i, h => h.take i
  | .dupCwd, i, h => h.take i
  | .ilock i, _, h => h.setLock i true
  | .iunlock i, _, h => h.setLock i false
  | .drop i, _, h => h.give i
  | .returnRoot ip, (r : Option Slot), h => if r = some ip then h else { h with stray := true }
  | .setRoot _ ip, _, h => h.giveOpt ip
  | .takeCwd, i, h => (h.take i).useCwd .taken
  | .setCwd i, _, h => (h.give i).useCwd .kept
  | .clearCwd, _, h => h.useCwd .left
  | .exited, _, h => h.useCwd .kept
  | .fileOpen i _ _, (r : Option Fd), h => if r.isSome then (h.give i).setLock i false else h
  | .closeFd _, r, h => h.takeOpt r
  | _, _, h => h

/-- The discipline of references and locks. -/
def discipline (strict : Bool) : Discipline Op.Res Hold where
  pre := fun o h => Allowed h o
  may := fun o h r => Returns strict h o r
  next := after

/-! ## Algebra of holdings -/

namespace Hold

@[simp] theorem take_refs (h : Hold) (i j : Slot) :
    (h.take i).refs j = if j = i then h.refs i + 1 else h.refs j := by
  simp [take, Function.update_apply]

@[simp] theorem take_lock (h : Hold) (i : Slot) : (h.take i).lock = h.lock := rfl

@[simp] theorem take_cwd (h : Hold) (i : Slot) : (h.take i).cwd = h.cwd := rfl

@[simp] theorem take_stray (h : Hold) (i : Slot) : (h.take i).stray = h.stray := rfl

@[simp] theorem give_refs (h : Hold) (i j : Slot) :
    (h.give i).refs j = if j = i then h.refs i - 1 else h.refs j := by
  simp [give, Function.update_apply]

@[simp] theorem give_lock (h : Hold) (i : Slot) : (h.give i).lock = h.lock := rfl

@[simp] theorem give_cwd (h : Hold) (i : Slot) : (h.give i).cwd = h.cwd := rfl

@[simp] theorem give_stray (h : Hold) (i : Slot) : (h.give i).stray = h.stray := rfl

@[simp] theorem setLock_refs (h : Hold) (i : Slot) (b : Bool) : (h.setLock i b).refs = h.refs := rfl

@[simp] theorem setLock_lock (h : Hold) (i j : Slot) (b : Bool) :
    (h.setLock i b).lock j = if j = i then b else h.lock j := by
  simp [setLock, Function.update_apply]

@[simp] theorem setLock_cwd (h : Hold) (i : Slot) (b : Bool) : (h.setLock i b).cwd = h.cwd := rfl

@[simp] theorem setLock_stray (h : Hold) (i : Slot) (b : Bool) :
    (h.setLock i b).stray = h.stray := rfl

variable {h : Hold}

/-- Equality of holdings entry by entry. -/
theorem ext_apply {k : Hold} (hrefs : ∀ i, h.refs i = k.refs i) (hlock : ∀ i, h.lock i = k.lock i)
    (hcwd : h.cwd = k.cwd) (hstray : h.stray = k.stray) : h = k :=
  Hold.ext (funext hrefs) (funext hlock) hcwd hstray

theorem refs_take_pos {i j : Slot} (hi : 0 < h.refs i) : 0 < (h.take j).refs i := by
  rw [take_refs]
  split <;> omega

@[simp] theorem take_give (h : Hold) (i : Slot) : (h.take i).give i = h := by
  apply ext_apply <;> simp +contextual

/-- What is taken can be given back after something else was taken. -/
@[simp] theorem take_take_give (h : Hold) (i j : Slot) : ((h.take i).take j).give i = h.take j := by
  apply ext_apply
  · intro k
    simp only [take_refs, give_refs]
    grind
  all_goals simp

@[simp] theorem setLock_take (h : Hold) (i j : Slot) (b : Bool) :
    (h.setLock i b).take j = (h.take j).setLock i b := rfl

@[simp] theorem setLock_give (h : Hold) (i j : Slot) (b : Bool) :
    (h.setLock i b).give j = (h.give j).setLock i b := rfl

@[simp] theorem setLock_setLock (h : Hold) (i : Slot) (b c : Bool) :
    (h.setLock i b).setLock i c = h.setLock i c := by
  apply ext_apply <;> simp +contextual

@[simp] theorem useCwd_cwd (h : Hold) (u : CwdUse) : (h.useCwd u).cwd = u := rfl

@[simp] theorem useCwd_refs (h : Hold) (u : CwdUse) : (h.useCwd u).refs = h.refs := rfl

@[simp] theorem useCwd_lock (h : Hold) (u : CwdUse) : (h.useCwd u).lock = h.lock := rfl

@[simp] theorem useCwd_give (h : Hold) (u : CwdUse) (i : Slot) :
    (h.useCwd u).give i = (h.give i).useCwd u := rfl

@[simp] theorem useCwd_useCwd (h : Hold) (u v : CwdUse) : (h.useCwd u).useCwd v = h.useCwd v := rfl

theorem useCwd_self {u : CwdUse} (hu : h.cwd = u) : h.useCwd u = h := by
  subst hu
  rfl

/-- Releasing what was free before. -/
theorem setLock_self {i : Slot} {b : Bool} (hi : h.lock i = b) : h.setLock i b = h := by
  apply ext_apply <;> simp +contextual [hi]

end Hold

/-! ## The rules for the primitive operations -/

section Rules

variable {strict : Bool} {h : Hold}

@[simp] theorem safe_iget {n : Nat} {post : Slot → Hold → Prop} :
    (iget n).Safe (discipline strict) post h ↔ ∀ i, post i (h.take i) :=
  ⟨fun hs r => hs.2 r trivial, fun hs => ⟨trivial, fun r _ => hs r⟩⟩

@[simp] theorem safe_dupCwd {post : Slot → Hold → Prop} :
    dupCwd.Safe (discipline strict) post h ↔ h.cwd = .kept ∧ ∀ i, post i (h.take i) :=
  ⟨fun hs => ⟨hs.1, fun r => hs.2 r trivial⟩, fun hs => ⟨hs.1, fun r _ => hs.2 r⟩⟩

variable {post : Unit → Hold → Prop} {i dp : Slot} {fd : Fd} {name : Name}

@[simp] theorem safe_ilock :
    (ilock i).Safe (discipline strict) post h ↔
      0 < h.refs i ∧ (h.lock i = false → post () (h.setLock i true)) :=
  ⟨fun hs => ⟨hs.1, hs.2 ()⟩, fun hs => ⟨hs.1, fun _ => hs.2⟩⟩

@[simp] theorem safe_iunlock :
    (iunlock i).Safe (discipline strict) post h ↔
      h.lock i = true ∧ post () (h.setLock i false) :=
  ⟨fun hs => ⟨hs.1, hs.2 () trivial⟩, fun hs => ⟨hs.1, fun _ _ => hs.2⟩⟩

@[simp] theorem safe_reclaim {post : Bool → Hold → Prop} :
    (reclaim i).Safe (discipline strict) post h ↔
      0 < h.refs i ∧ ∀ b, h.lock i = false → post b h :=
  Iff.rfl

@[simp] theorem safe_drop :
    (drop i).Safe (discipline strict) post h ↔
      (0 < h.refs i ∧ h.lock i = false) ∧ post () (h.give i) :=
  ⟨fun hs => ⟨hs.1, hs.2 () trivial⟩, fun hs => ⟨hs.1, fun _ _ => hs.2⟩⟩

@[simp] theorem safe_inumOf {post : Nat → Hold → Prop} :
    (inumOf i).Safe (discipline strict) post h ↔ 0 < h.refs i ∧ ∀ n, post n h :=
  ⟨fun hs => ⟨hs.1, fun r => hs.2 r trivial⟩, fun hs => ⟨hs.1, fun r _ => hs.2 r⟩⟩

@[simp] theorem safe_fields {post : Dinode → Hold → Prop} :
    (fields i).Safe (discipline strict) post h ↔
      (0 < h.refs i ∧ h.lock i = true) ∧ ∀ d, post d h :=
  ⟨fun hs => ⟨hs.1, fun r => hs.2 r trivial⟩, fun hs => ⟨hs.1, fun r _ => hs.2 r⟩⟩

@[simp] theorem safe_readDirent {k : Nat} {post : Option Dirent → Hold → Prop} :
    (readDirent i k).Safe (discipline strict) post h ↔
      (0 < h.refs i ∧ h.lock i = true) ∧ ∀ de, post de h :=
  ⟨fun hs => ⟨hs.1, fun r => hs.2 r trivial⟩, fun hs => ⟨hs.1, fun r _ => hs.2 r⟩⟩

@[simp] theorem safe_writeDirent {k : Nat} {de : Dirent} {post : Written → Hold → Prop} :
    (writeDirent i k de).Safe (discipline strict) post h ↔
      (0 < h.refs i ∧ h.lock i = true) ∧ ∀ b, post b h :=
  ⟨fun hs => ⟨hs.1, fun r => hs.2 r trivial⟩, fun hs => ⟨hs.1, fun r _ => hs.2 r⟩⟩

@[simp] theorem safe_inCont {post : Bool → Hold → Prop} :
    inCont.Safe (discipline strict) post h ↔ ∀ b, post b h :=
  ⟨fun hs r => hs.2 r trivial, fun hs => ⟨trivial, fun r _ => hs r⟩⟩

@[simp] theorem safe_rootInum {post : Nat → Hold → Prop} :
    rootInum.Safe (discipline strict) post h ↔ ∀ n, post n h :=
  ⟨fun hs r => hs.2 r trivial, fun hs => ⟨trivial, fun r _ => hs r⟩⟩

@[simp] theorem safe_returnRoot {ip : Slot} {post : Option Slot → Hold → Prop} :
    (returnRoot ip).Safe (discipline strict) post h ↔
      0 < h.refs ip ∧ ∀ r, (strict = true → r = some ip) →
        post r (if r = some ip then h else { h with stray := true }) :=
  Iff.rfl

@[simp] theorem safe_panic {α : Type} {p : Panic} {post : α → Hold → Prop} :
    (panic p : FsProg α).Safe (discipline strict) post h := by
  refine ⟨trivial, fun e => ?_⟩
  cases (e : Empty)

@[simp] theorem safe_addLink {n : Int} :
    (addLink i n).Safe (discipline strict) post h ↔
      (0 < h.refs i ∧ h.lock i = true) ∧ post () h :=
  ⟨fun hs => ⟨hs.1, hs.2 () trivial⟩, fun hs => ⟨hs.1, fun _ _ => hs.2⟩⟩

@[simp] theorem safe_initNode {major minor : Int} :
    (initNode i major minor).Safe (discipline strict) post h ↔
      (0 < h.refs i ∧ h.lock i = true) ∧ post () h :=
  ⟨fun hs => ⟨hs.1, hs.2 () trivial⟩, fun hs => ⟨hs.1, fun _ _ => hs.2⟩⟩

@[simp] theorem safe_refund :
    (refund i).Safe (discipline strict) post h ↔
      (0 < h.refs i ∧ h.lock i = true) ∧ post () h :=
  ⟨fun hs => ⟨hs.1, hs.2 () trivial⟩, fun hs => ⟨hs.1, fun _ _ => hs.2⟩⟩

@[simp] theorem safe_ialloc {type : FileType} {post : Slot → Hold → Prop} :
    (ialloc type).Safe (discipline strict) post h ↔ type ≠ .free ∧ ∀ i, post i (h.take i) :=
  ⟨fun hs => ⟨hs.1, fun i => (hs.2 (0 : Nat) trivial).2 i trivial⟩,
    fun hs => ⟨hs.1, fun _ _ => ⟨trivial, fun i _ => hs.2 i⟩⟩⟩

@[simp] theorem safe_setRoot {nm : CString} {ip : Option Slot} :
    (setRoot nm ip).Safe (discipline strict) post h ↔
      (∀ i, ip = some i → 0 < h.refs i ∧ h.lock i = false) ∧ post () (h.giveOpt ip) :=
  ⟨fun hs => ⟨hs.1, hs.2 () trivial⟩, fun hs => ⟨hs.1, fun _ _ => hs.2⟩⟩

@[simp] theorem safe_takeCwd {post : Slot → Hold → Prop} :
    takeCwd.Safe (discipline strict) post h ↔
      h.cwd = .kept ∧ ∀ i, post i ((h.take i).useCwd .taken) :=
  ⟨fun hs => ⟨hs.1, fun r => hs.2 r trivial⟩, fun hs => ⟨hs.1, fun r _ => hs.2 r⟩⟩

@[simp] theorem safe_setCwd :
    (setCwd i).Safe (discipline strict) post h ↔
      (h.cwd = .taken ∧ 0 < h.refs i ∧ h.lock i = false) ∧ post () ((h.give i).useCwd .kept) :=
  ⟨fun hs => ⟨hs.1, hs.2 () trivial⟩, fun hs => ⟨hs.1, fun _ _ => hs.2⟩⟩

@[simp] theorem safe_clearCwd :
    clearCwd.Safe (discipline strict) post h ↔
      h.cwd = .taken ∧ post () (h.useCwd .left) :=
  ⟨fun hs => ⟨hs.1, hs.2 () trivial⟩, fun hs => ⟨hs.1, fun _ _ => hs.2⟩⟩

@[simp] theorem safe_fileOpen {readable writable : Bool} {post : Option Fd → Hold → Prop} :
    (fileOpen i readable writable).Safe (discipline strict) post h ↔
      (0 < h.refs i ∧ h.lock i = true) ∧
        ∀ r, post r (if r.isSome then (h.give i).setLock i false else h) :=
  ⟨fun hs => ⟨hs.1, fun r => hs.2 r trivial⟩, fun hs => ⟨hs.1, fun r _ => hs.2 r⟩⟩

@[simp] theorem safe_argfd {post : Bool → Hold → Prop} :
    (argfd fd).Safe (discipline strict) post h ↔ ∀ b, post b h :=
  ⟨fun hs r => hs.2 r trivial, fun hs => ⟨trivial, fun r _ => hs r⟩⟩

@[simp] theorem safe_closeFd {post : Option Slot → Hold → Prop} :
    (closeFd fd).Safe (discipline strict) post h ↔ ∀ r, post r (h.takeOpt r) :=
  ⟨fun hs r => hs.2 r trivial, fun hs => ⟨trivial, fun r _ => hs r⟩⟩

@[simp] theorem safe_dupFd {post : Option Fd → Hold → Prop} :
    (dupFd fd).Safe (discipline strict) post h ↔ ∀ r, post r h :=
  ⟨fun hs r => hs.2 r trivial, fun hs => ⟨trivial, fun r _ => hs r⟩⟩

@[simp] theorem safe_readFd {n : Nat} {post : Option Nat → Hold → Prop} :
    (readFd fd n).Safe (discipline strict) post h ↔ ∀ r, post r h :=
  ⟨fun hs r => hs.2 r trivial, fun hs => ⟨trivial, fun r _ => hs r⟩⟩

@[simp] theorem safe_writeFd {bs : List Byte} {post : Option Nat → Hold → Prop} :
    (writeFd fd bs).Safe (discipline strict) post h ↔ ∀ r, post r h :=
  ⟨fun hs r => hs.2 r trivial, fun hs => ⟨trivial, fun r _ => hs r⟩⟩

@[simp] theorem safe_forkProc {post : Option ProcSlot → Hold → Prop} :
    forkProc.Safe (discipline strict) post h ↔ h.cwd = .kept ∧ ∀ r, post r h :=
  ⟨fun hs => ⟨hs.1, fun r => hs.2 r trivial⟩, fun hs => ⟨hs.1, fun r _ => hs.2 r⟩⟩

@[simp] theorem safe_exited :
    exited.Safe (discipline strict) post h ↔
      h.cwd = .left ∧ post () (h.useCwd .kept) :=
  ⟨fun hs => ⟨hs.1, hs.2 () trivial⟩, fun hs => ⟨hs.1, fun _ _ => hs.2⟩⟩

@[simp] theorem safe_reap {q : ProcSlot} {post : Bool → Hold → Prop} :
    (reap q).Safe (discipline strict) post h ↔ ∀ b, post b h :=
  ⟨fun hs r => hs.2 r trivial, fun hs => ⟨trivial, fun r _ => hs r⟩⟩

/-! ## The programs keep the discipline -/

@[simp] theorem safe_iput :
    (iput i).Safe (discipline strict) post h ↔
      0 < h.refs i ∧ (h.lock i = false → post () (h.give i)) := by
  simp only [iput, safe_bind, safe_reclaim, safe_drop]
  refine and_congr_right fun hi => ⟨fun hs hfree => (hs true hfree).2, fun hs _ hfree => ?_⟩
  exact ⟨⟨hi, hfree⟩, hs hfree⟩

@[simp] theorem safe_iunlockput :
    (iunlockput i).Safe (discipline strict) post h ↔
      h.lock i = true ∧ 0 < h.refs i ∧ post () ((h.give i).setLock i false) := by
  simp [iunlockput]

@[simp] theorem safe_clamped {cont : Bool} {path : List Byte} {ip : Slot}
    {post : Bool → Hold → Prop} (hip : 0 < h.refs ip) (hpost : ∀ b, post b h) :
    (clamped cont path ip).Safe (discipline strict) post h := by
  unfold clamped
  split
  · simp [hip, hpost]
  · simp [hpost]

theorem safe_dirlookupFrom {post : Option (Slot × Nat) → Hold → Prop} (href : 0 < h.refs dp)
    (hlock : h.lock dp = true) (hnone : post none h)
    (hsome : ∀ ip k, post (some (ip, k)) (h.take ip)) (k n : Nat) :
    (dirlookupFrom dp name k n).Safe (discipline strict) post h := by
  induction n generalizing k with
  | zero => exact hnone
  | succ n ih =>
    simp only [dirlookupFrom, safe_bind, safe_readDirent]
    refine ⟨⟨href, hlock⟩, fun de => ?_⟩
    cases de with
    | none => exact safe_panic
    | some de =>
      simp only
      split
      · exact ih (k + 1)
      · split
        · simpa using fun ip => hsome ip k
        · exact ih (k + 1)

/-- `dirlookup` takes a reference to what it finds. -/
theorem safe_dirlookup {post : Option (Slot × Nat) → Hold → Prop} (href : 0 < h.refs dp)
    (hlock : h.lock dp = true) (hnone : post none h)
    (hsome : ∀ ip k, post (some (ip, k)) (h.take ip)) :
    (dirlookup dp name).Safe (discipline strict) post h := by
  simp only [dirlookup, safe_bind, safe_fields]
  refine ⟨⟨href, hlock⟩, fun d => ?_⟩
  split
  · exact safe_dirlookupFrom href hlock hnone hsome 0 _
  · exact safe_panic

theorem safe_emptyFrom {post : Nat → Hold → Prop} (href : 0 < h.refs dp)
    (hlock : h.lock dp = true) (hpost : ∀ k, post k h) (k n : Nat) :
    (emptyFrom dp k n).Safe (discipline strict) post h := by
  induction n generalizing k with
  | zero => exact hpost k
  | succ n ih =>
    simp only [emptyFrom, safe_bind, safe_readDirent]
    refine ⟨⟨href, hlock⟩, fun de => ?_⟩
    cases de with
    | none => exact safe_panic
    | some de =>
      simp only
      split
      · exact hpost k
      · exact ih (k + 1)

/-- `dirlink` puts what its lookup finds. -/
theorem safe_dirlink {inum : Nat} {post : Bool → Hold → Prop} (href : 0 < h.refs dp)
    (hlock : h.lock dp = true) (hpost : ∀ b, post b h) :
    (dirlink dp name inum).Safe (discipline strict) post h := by
  simp only [dirlink, safe_bind]
  refine safe_dirlookup href hlock ?_ ?_
  · simp only [safe_bind, safe_fields]
    refine ⟨⟨href, hlock⟩, fun d => safe_emptyFrom href hlock (fun k => ?_) 0 _⟩
    simp only [safe_writeDirent]
    refine ⟨⟨href, hlock⟩, fun b => ?_⟩
    split
    · exact hpost true
    · exact safe_panic
  · intro ip k
    simp [hpost]

/-- Each exit of the loop of `namex` keeps the reference it returns and puts the others;
`return cont->root` may keep another one. -/
theorem safe_namexLoop {cont parent : Bool} {post : Option Slot × Name → Hold → Prop}
    (hnone : ∀ nm, post (none, nm) h) (hsome : ∀ i nm, post (some i, nm) (h.take i))
    (hstray : strict = false → ∀ ip r nm, r ≠ some ip →
      post (r, nm) { h.take ip with stray := true })
    (rest : List (Name × List Byte)) (ip : Slot) (name : Name) :
    (namexLoop cont parent ip name rest).Safe (discipline strict) post (h.take ip) := by
  induction rest generalizing ip name with
  | nil =>
    unfold namexLoop
    split
    · simp [hnone]
    · exact hsome ip name
  | cons e rest ih =>
    obtain ⟨nm, path⟩ := e
    simp only [namexLoop, safe_bind, safe_ilock]
    refine ⟨by simp, fun hfree => ?_⟩
    have hfree : h.lock ip = false := hfree
    have hrelease (j : Slot) : (h.take j).setLock ip false = h.take j := Hold.setLock_self hfree
    have hput : h.setLock ip false = h := Hold.setLock_self hfree
    simp only [safe_fields]
    refine ⟨by simp, fun d => ?_⟩
    split
    · simp [hput, hnone]
    simp only [safe_bind]
    refine safe_clamped (by simp) fun b => ?_
    split
    · simp [hrelease, hsome]
    simp only [safe_bind, safe_inumOf]
    refine ⟨by simp, fun n => ?_⟩
    split
    · simp only [safe_bind, safe_iunlock, safe_returnRoot, Hold.setLock_setLock, hrelease]
      refine ⟨by simp, by simp, fun r hr => ?_⟩
      by_cases hri : r = some ip
      · simp [hri, hsome]
      · have hloose : strict = false := by
          cases strict with
          | false => rfl
          | true => exact absurd (hr rfl) hri
        simpa [hri] using hstray hloose ip r nm hri
    split
    · simp [hrelease, hsome]
    simp only [safe_bind]
    refine safe_dirlookup (by simp) (by simp) ?_ fun next k => ?_
    · simp [hput, hnone]
    · simp only [Hold.setLock_take, safe_bind, safe_iunlockput]
      refine ⟨by simp, Hold.refs_take_pos (by simp), ?_⟩
      simpa [hrelease] using ih next nm

/-- The rule of `namex`. -/
theorem safe_namex {path : CString} {parent : Bool} {post : Option Slot × Name → Hold → Prop}
    (hcwd : h.cwd = .kept) (hnone : ∀ nm, post (none, nm) h)
    (hsome : ∀ i nm, post (some i, nm) (h.take i))
    (hstray : strict = false → ∀ ip r nm, r ≠ some ip →
      post (r, nm) { h.take ip with stray := true }) :
    (namex path parent name).Safe (discipline strict) post h := by
  have hrest (ip : Slot) :
      (do
        let cont ← inCont
        if ← clamped cont path.bytes ip then return (some ip, name)
        else namexLoop cont parent ip name (Path.elems path.bytes) :
        FsProg (Option Slot × Name)).Safe (discipline strict) post (h.take ip) := by
    simp only [safe_bind, safe_inCont]
    refine fun cont => safe_clamped (by simp) fun b => ?_
    split
    · exact hsome ip name
    · exact safe_namexLoop hnone hsome hstray _ ip name
  simp only [namex, startInode, safe_bind]
  split
  · simpa only [safe_bind, safe_iget] using hrest
  · simpa only [safe_bind, safe_dupCwd, hcwd, true_and] using hrest

end Rules

end Xv6Containers.Fs
