import Xv6Containers.Fs.Contents
import Xv6Containers.Fs.RefusedWrite

/-!
# Writes through a shared descriptor

Processes that share one open file write to it at its offset, a piece at a time.
Each piece goes to the end of the file as a whole, and the pieces of one call stay
in order, as long as no quota is charged for them. A process outside of containers
should have none, but `writei` looks for a container under the name that it reads
through the null pointer.

## Implementation notes

A run consists of calls of `write` on descriptors of the one file, step by step,
and of arbitrary changes to the containers by others in between. Beside the system
it keeps a record: the pieces handed to `writei` in their order, the calls each
process has made and what they returned.
-/

namespace Xv6Containers

open Lib.Memory Lib.Strings Lib.Program Lib.Runs Function

namespace Fs

variable {sb : Superblock} {f : FileSlot} {s t : Kernel Disk} {p : ProcSlot} {fd : Fd}
  {bs : List Byte}

/-! ## One piece -/

/-- The inode in a cache entry, which `ilock` would load if the copy is not valid. -/
def current (s : Kernel Disk) (i : Slot) : Dinode :=
  if (s.icache i).valid then (s.icache i).d else s.store.inode (s.icache i).inum

/-- The inode of an open file. -/
def fileNode (s : Kernel Disk) (f : FileSlot) : Dinode := current s (s.file f).ip

/-- The contents of an open file. -/
def fileContents (s : Kernel Disk) (f : FileSlot) : List Byte := s.store.contents (fileNode s f)

/-- An ordinary file is open for writing, nobody has its inode locked, and the offset is at
the end. -/
structure AtEnd (f : FileSlot) (s : Kernel Disk) : Prop where
  type : (s.file f).type = .inode
  writable : (s.file f).writable = true
  ref : 1 ≤ (s.icache (s.file f).ip).ref
  unlocked : (s.icache (s.file f).ip).locked = false
  regular : (fileNode s f).type = .file
  sound : s.store.Sound (fileNode s f)
  off : (s.file f).off = (fileNode s f).size

/-- The inode after `ilock`. -/
theorem execIlock_current {i : Slot} {r : Unit} (h : execIlock (diskStore sb) i s = .ok (r, t)) :
    t = s.setInode i { s.icache i with locked := true, valid := true, d := current s i } := by
  unfold execIlock at h
  simp only at h
  split at h
  · cases h
  split at h
  · cases h
  split at h
  · next hvalid =>
    cases h
    simp only [current, hvalid, if_true]
  · next hvalid =>
    split at h
    · cases h
    · cases h
      simp only [current, hvalid]
      rfl

variable (sb) in
theorem execIlock_ok {i : Slot} (href : 1 ≤ (s.icache i).ref) (hlock : (s.icache i).locked = false)
    (htype : (current s i).type ≠ .free) : ∃ t, execIlock (diskStore sb) i s = .ok ((), t) := by
  unfold execIlock
  simp only
  rw [if_neg (by omega), if_neg (by simp [hlock])]
  split
  · exact ⟨_, rfl⟩
  · next hvalid =>
    rw [if_neg]
    · exact ⟨_, rfl⟩
    · intro hfree
      refine htype ?_
      simp only [current, hvalid]
      exact hfree

/-- What one round of `filewrite` leaves. -/
def stored (s : Kernel Disk) (f : FileSlot) (disk : Disk) (d : Dinode) (cs : Container.State)
    (n : Nat) : Kernel Disk :=
  { s with
    store := disk
    icache := update s.icache (s.file f).ip
      { s.icache (s.file f).ip with locked := false, valid := true, d := d }
    file := update s.file f { s.file f with off := (s.file f).off + n }
    cs := cs }

/-- The result of one round of `filewrite`, by how `writei` ended. -/
def pieceResult (bs : List Byte) (w : Written) : Option Nat :=
  if w = .done then some bs.length else none

/-- One round of `filewrite` is `writei` on the inode of the file. -/
theorem execWriteFd_eq (h : AtEnd f s) (hfd : s.ofile p fd = some f) :
    execWriteFd (diskStore sb) p fd bs s =
      (s.store.write sb (s.icache (s.file f).ip).inum (fileNode s f) (s.file f).off bs
        (Container.charge s.cs p bs.length).1).map fun x =>
          (pieceResult bs x.1,
            stored s f x.2.1 x.2.2
              (if x.1 = .refused then s.cs else (Container.charge s.cs p bs.length).2)
              ((pieceResult bs x.1).getD 0)) := by
  have hregular : (current s (s.file f).ip).type ≠ .free := by
    have hfile : (current s (s.file f).ip).type = .file := h.regular
    simp [hfile]
  have href : ¬ (s.icache (s.file f).ip).ref < 1 := by
    have hpos := h.ref
    omega
  obtain ⟨s₁, hlock⟩ := execIlock_ok sb h.ref h.unlocked hregular
  have hs₁ := execIlock_current hlock
  unfold execWriteFd
  rw [show s.fdFile p fd = .ok f by rw [Kernel.fdFile, hfd]]
  change (if (s.file f).writable = false then _ else if (s.file f).type ≠ .inode then _ else _) = _
  rw [if_neg (by simp [h.writable]), if_neg (by simp [h.type]), hlock, hs₁]
  simp only [bind, Except.bind, Kernel.setInode, update_self]
  generalize Container.charge s.cs p bs.length = charged
  simp only [diskStore, fileNode]
  generalize s.store.write sb (s.icache (s.file f).ip).inum (current s (s.file f).ip) (s.file f).off
    bs charged.1 = written
  cases written with
  | error e => rfl
  | ok x =>
    simp only [execIunlock, Kernel.setNode, Kernel.setFile, update_self, href, or_self,
      if_false, Bool.true_eq_false, Kernel.setInode, stored, update_idem, pieceResult]
    rfl

/-- `filewrite` puts a piece that no quota is charged for behind the contents. -/
theorem execWriteFd_append (hsize : sb.size ≤ 2 ^ 32) (h : AtEnd f s) (hfd : s.ofile p fd = some f)
    (hfit : (fileContents s f).length + bs.length ≤ maxFileBytes)
    (hquota : (Container.charge s.cs p bs.length).1 = false) {r : Option Nat}
    (hexec : execWriteFd (diskStore sb) p fd bs s = .ok (r, t)) :
    r = some bs.length ∧ AtEnd f t ∧ fileContents t f = fileContents s f ++ bs ∧
      t.ofile = s.ofile := by
  rw [execWriteFd_eq h hfd, hquota, h.off] at hexec
  obtain ⟨⟨w, disk, d⟩, hwrite, hret⟩ := except_map_eq_ok.mp hexec
  cases hret
  have hfit' : (fileNode s f).size + bs.length ≤ maxFileBytes := by
    simpa [fileContents] using hfit
  obtain ⟨rfl, hsound, htype, hcontents⟩ :=
    Disk.write_append hsize h.sound (by simp [h.regular]) hfit' hwrite
  generalize (if Written.done = .refused then s.cs else (Container.charge s.cs p bs.length).2) = cs
  have hpiece : pieceResult bs .done = some bs.length := if_pos rfl
  rw [hpiece, Option.getD_some]
  have hnode : fileNode (stored s f disk d cs bs.length) f = d := by
    simp [fileNode, current, stored]
  have hnew : fileContents (stored s f disk d cs bs.length) f = fileContents s f ++ bs := by
    rw [fileContents, hnode]
    exact hcontents
  refine ⟨rfl, ?_, hnew, rfl⟩
  have hlen : d.size = (fileNode s f).size + bs.length := by
    have hcount := congrArg List.length hcontents
    simpa using hcount
  refine ⟨?_, ?_, ?_, ?_, ?_, ?_, ?_⟩
  · simpa [stored] using h.type
  · simpa [stored] using h.writable
  · simpa [stored] using h.ref
  · simp [stored]
  · rw [hnode, htype]
    exact h.regular
  · rw [hnode]
    exact hsound
  · rw [hnode, hlen]
    simpa [stored] using h.off

/-- `filewrite` on such a file fails only for lack of blocks. -/
theorem execWriteFd_error (hsize : sb.size ≤ 2 ^ 32) (h : AtEnd f s) (hfd : s.ofile p fd = some f)
    (hfit : (fileContents s f).length + bs.length ≤ maxFileBytes) {e : Halt}
    (hexec : execWriteFd (diskStore sb) p fd bs s = .error e) : e = .panic .ballocOutOfBlocks := by
  have hfit' : (fileNode s f).size + bs.length ≤ maxFileBytes := by
    simpa [fileContents] using hfit
  have hmax : maxFileBytes < 2 ^ 32 := by decide
  have haccepts : Disk.Accepts (fileNode s f) (fileNode s f).size bs.length := by
    unfold Disk.Accepts
    rw [Nat.mod_eq_of_lt (by omega)]
    omega
  rw [execWriteFd_eq h hfd, h.off, Disk.write, if_pos ⟨by simp [h.regular], haccepts⟩] at hexec
  cases hloop : s.store.writeLoop sb bs.length (fileNode s f) (fileNode s f).size bs with
  | error e' =>
    rw [hloop] at hexec
    cases hexec
    exact Disk.writeLoop_error hsize h.sound hfit' hloop
  | ok x =>
    rw [hloop] at hexec
    simp only [bind, Except.bind] at hexec
    split at hexec <;> cases hexec

/-! ## Runs -/

/-- What can happen: a process enters `write`, its call makes a step, or something changes
the containers. -/
inductive WriteEvent
  | start (p : ProcSlot) (fd : Fd) (bs : List Byte)
  | go (p : ProcSlot)
  | containers (cs : Container.State)

/-- The system, the pieces handed to `writei`, and the calls of each process with their
results. -/
structure Writers where
  sys : System Disk
  appended : List (ProcSlot × List Byte)
  calls : ProcSlot → List (List Byte)
  results : ProcSlot → List Int

namespace Writers

/-- The piece that the next step of `p` hands to `writei`. -/
def nextPiece (c : Writers) (p : ProcSlot) : Option (List Byte) :=
  match c.sys.thread p with
  | some (.call (.writeFd _ bs) _) => some bs
  | _ => none

/-- The value that the next step of `p` returns from its call. -/
def nextResult (c : Writers) (p : ProcSlot) : Option Int :=
  match c.sys.thread p with
  | some (.ret r) => some r
  | _ => none

/-- The pieces of one process. -/
def piecesOf (c : Writers) (p : ProcSlot) : List (List Byte) :=
  (c.appended.filter fun x => x.1 = p).map Prod.snd

variable (sb f) in
def step (c : Writers) : WriteEvent → Option Writers
  | .start p fd bs =>
    if c.sys.shared.ofile p fd = some f then
      (systemStep (diskStore sb) c.sys (.start p (.write fd bs))).map fun t =>
        { c with sys := t, calls := update c.calls p (c.calls p ++ [bs]) }
    else none
  | .go p =>
    (systemStep (diskStore sb) c.sys (.go p)).map fun t =>
      { c with
        sys := t
        appended := c.appended ++ ((c.nextPiece p).map fun bs => (p, bs)).toList
        results := update c.results p (c.results p ++ (c.nextResult p).toList) }
  | .containers cs => some { c with sys := { c.sys with shared := { c.sys.shared with cs := cs } } }

/-- The system before the first call. -/
def initial (s : Kernel Disk) : Writers := ⟨⟨s, fun _ => none⟩, [], fun _ => [], fun _ => []⟩

/-- The next piece still fits into the longest file. -/
def Fits (f : FileSlot) (c : Writers) : WriteEvent → Prop
  | .go p =>
    match c.nextPiece p with
    | some bs => (fileContents c.sys.shared f).length + bs.length ≤ maxFileBytes
    | none => True
  | _ => True

/-- The next piece passes no quota. -/
def Uncharged (c : Writers) : WriteEvent → Prop
  | .go p =>
    match c.nextPiece p with
    | some bs => ¬ OverQuota c.sys.shared.cs p bs.length
    | none => True
  | _ => True

instance (f : FileSlot) (c : Writers) (e : WriteEvent) : Decidable (c.Fits f e) := by
  unfold Fits
  split
  · split <;> infer_instance
  · infer_instance

instance (c : Writers) (e : WriteEvent) : Decidable (c.Uncharged e) := by
  unfold Uncharged
  split
  · split <;> infer_instance
  · infer_instance

end Writers

/-- `filewrite` with the pieces that are left, and the value it is to return. -/
def pieces (fd : Fd) (n : Int) (todo : List (List Byte)) : FsProg Int :=
  writeChunks fd todo >>= fun ok => if ok then pure n else pure (-1)

/-- Where a process is in its call, with the pieces and the results that are outstanding. -/
inductive Doing (f : FileSlot) (table : Fd → Option FileSlot) :
    Option (FsProg Int) → List (List Byte) → List Int → Prop
  | idle : Doing f table none [] []
  | entered (fd : Fd) (bs : List Byte) (h : table fd = some f) :
      Doing f table (some (sysWrite fd bs)) (chunks bs) [(bs.length : Int)]
  | writing (fd : Fd) (n : Int) (todo : List (List Byte)) (h : table fd = some f) :
      Doing f table (some (pieces fd n todo)) todo [n]

/-- The file is what was there followed by the pieces, and every process has put in its
pieces so far. -/
structure Kept (f : FileSlot) (old : List Byte) (c : Writers) : Prop where
  atEnd : AtEnd f c.sys.shared
  contents : fileContents c.sys.shared f = old ++ (c.appended.map Prod.snd).flatten
  progress : ∀ p, ∃ todo owed, Doing f (c.sys.shared.ofile p) (c.sys.thread p) todo owed ∧
    c.piecesOf p ++ todo = (c.calls p).flatMap chunks ∧
    c.results p ++ owed = (c.calls p).map fun bs => (bs.length : Int)

variable {old : List Byte} {c d : Writers}

theorem kept_initial (h : AtEnd f s) : Kept f (fileContents s f) (.initial s) where
  atEnd := h
  contents := by simp [Writers.initial]
  progress := fun p => ⟨[], [], .idle, rfl, rfl⟩

theorem kept_start (h : Kept f old c)
    (hstep : c.step sb f (.start p fd bs) = some d) : Kept f old d := by
  simp only [Writers.step] at hstep
  split at hstep
  · next hfd =>
    obtain ⟨u, hu, rfl⟩ := Option.map_eq_some_iff.mp hstep
    cases hp : c.sys.thread p with
    | some x => simp [systemStep, Prog.step, hp] at hu
    | none =>
      simp only [systemStep, Prog.step, hp, Option.some.injEq] at hu
      subst hu
      refine ⟨h.atEnd, h.contents, fun q => ?_⟩
      by_cases hq : q = p
      · subst hq
        obtain ⟨todo, owed, hdoing, hpieces, hresults⟩ := h.progress q
        rw [hp] at hdoing
        cases hdoing
        refine ⟨chunks bs, [(bs.length : Int)], ?_, ?_, ?_⟩
        · simp only [update_self]
          exact .entered fd bs hfd
        · simp only [update_self, List.flatMap_append, ← hpieces]
          simp [Writers.piecesOf]
        · simp only [update_self, List.map_append, ← hresults]
          simp
      · simpa [update_of_ne hq, Writers.piecesOf] using h.progress q
  · cases hstep

theorem sysWrite_eq (fd : Fd) (bs : List Byte) :
    sysWrite fd bs = .call (.argfd fd) fun found : Bool =>
      if found then pieces fd bs.length (chunks bs) else pure (-1) := rfl

theorem pieces_nil (fd : Fd) (n : Int) : pieces fd n [] = .ret n := rfl

theorem pieces_cons (fd : Fd) (n : Int) (bs : List Byte) (todo : List (List Byte)) :
    ∃ next, pieces fd n (bs :: todo) = .call (.writeFd fd bs) next ∧
      next (some bs.length) = pieces fd n todo := by
  refine ⟨_, rfl, ?_⟩
  change Prog.bind (if bs.length = bs.length then writeChunks fd todo else _) _ = _
  rw [if_pos rfl]
  rfl

/-- Other processes are where they were. -/
theorem progress_other {q : ProcSlot} (h : Kept f old c) (hne : q ≠ p)
    (hofile : d.sys.shared.ofile = c.sys.shared.ofile) (hthread : d.sys.thread q = c.sys.thread q)
    (happended : ∃ l, d.appended = c.appended ++ l ∧ ∀ x ∈ l, x.1 = p)
    (hcalls : d.calls q = c.calls q) (hresults : d.results q = c.results q) :
    ∃ todo owed, Doing f (d.sys.shared.ofile q) (d.sys.thread q) todo owed ∧
      d.piecesOf q ++ todo = (d.calls q).flatMap chunks ∧
      d.results q ++ owed = (d.calls q).map fun bs => (bs.length : Int) := by
  obtain ⟨l, hl, hmine⟩ := happended
  have hnone : l.filter (fun x => x.1 = q) = [] := by
    refine List.filter_eq_nil_iff.mpr fun x hx => ?_
    simp [hmine x hx, hne.symm]
  rw [hofile, hthread, hcalls, hresults, Writers.piecesOf, hl, List.filter_append, hnone,
    List.append_nil]
  exact h.progress q

theorem kept_go (hsize : sb.size ≤ 2 ^ 32) (h : Kept f old c) (hfits : c.Fits f (.go p))
    (huncharged : c.Uncharged (.go p)) (hstep : c.step sb f (.go p) = some d) : Kept f old d := by
  obtain ⟨u, hu, rfl⟩ := Option.map_eq_some_iff.mp hstep
  obtain ⟨todo, owed, hdoing, hpieces, hresults⟩ := h.progress p
  have hthread : ∃ x, c.sys.thread p = x := ⟨_, rfl⟩
  obtain ⟨x, hx⟩ := hthread
  rw [hx] at hdoing
  cases hdoing with
  | idle => simp [systemStep, Prog.step, hx] at hu
  | entered fd bs hfd =>
    rw [sysWrite_eq] at hx
    have hfound : (c.sys.shared.ofile p fd).isSome = true := by simp [hfd]
    simp only [systemStep, Prog.step, hx, execOp, hfound, if_true, Option.some.injEq] at hu
    subst hu
    have hpiece : c.nextPiece p = none := by simp [Writers.nextPiece, hx]
    have hresult : c.nextResult p = none := by simp [Writers.nextResult, hx]
    simp only [hpiece, hresult, Option.map_none, Option.toList_none, List.append_nil,
      update_eq_self]
    refine ⟨h.atEnd, h.contents, fun q => ?_⟩
    by_cases hq : q = p
    · subst hq
      refine ⟨_, _, ?_, hpieces, hresults⟩
      simp only [update_self]
      exact .writing fd bs.length (chunks bs) hfd
    · exact progress_other h hq rfl (update_of_ne hq ..)
        ⟨[], (List.append_nil _).symm, by simp⟩ rfl rfl
  | writing fd n todo hfd =>
    cases todo with
    | nil =>
      rw [pieces_nil] at hx
      simp only [systemStep, Prog.step, hx, Option.some.injEq] at hu
      subst hu
      have hpiece : c.nextPiece p = none := by simp [Writers.nextPiece, hx]
      have hresult : c.nextResult p = some n := by simp [Writers.nextResult, hx]
      simp only [hpiece, hresult, Option.map_none, Option.toList_none, List.append_nil,
        Option.toList_some]
      refine ⟨h.atEnd, h.contents, fun q => ?_⟩
      by_cases hq : q = p
      · subst hq
        refine ⟨[], [], ?_, hpieces, ?_⟩
        · simp only [update_self]
          exact .idle
        · simp only [update_self, List.append_nil]
          exact hresults
      · exact progress_other h hq rfl (update_of_ne hq ..)
          ⟨[], (List.append_nil _).symm, by simp⟩ rfl
          (update_of_ne hq ..)
    | cons bs todo =>
      obtain ⟨next, hnext, hrest⟩ := pieces_cons fd n bs todo
      rw [hnext] at hx
      have hpiece : c.nextPiece p = some bs := by simp [Writers.nextPiece, hx]
      have hresult : c.nextResult p = none := by simp [Writers.nextResult, hx]
      simp only [hpiece, hresult, Option.map_some, Option.toList_none, List.append_nil,
        Option.toList_some, update_eq_self]
      simp only [Writers.Fits, hpiece] at hfits
      simp only [Writers.Uncharged, hpiece] at huncharged
      have hmax : maxFileBytes < 2 ^ 32 := by decide
      have hquota : (Container.charge c.sys.shared.cs p bs.length).1 = false := by
        by_contra hfires
        exact huncharged
          ((charge_fires_iff (by omega)).mp (Bool.eq_true_of_not_eq_false hfires))
      simp only [systemStep, Prog.step, hx] at hu
      split at hu
      · next r t hexec =>
        cases hu
        obtain ⟨rfl, hend, hnew, hofile⟩ :=
          execWriteFd_append hsize h.atEnd hfd hfits hquota hexec
        refine ⟨hend, ?_, fun q => ?_⟩
        · rw [hnew, h.contents, List.map_append, List.flatten_append, List.append_assoc]
          simp
        by_cases hq : q = p
        · subst hq
          refine ⟨todo, [n], ?_, ?_, hresults⟩
          · simp only [update_self, hrest, hofile]
            exact .writing fd n todo hfd
          · rw [← hpieces]
            simp [Writers.piecesOf, List.filter_append]
        · exact progress_other h hq hofile (update_of_ne hq ..)
            ⟨[(p, bs)], rfl, by simp⟩ rfl rfl
      · cases hu

theorem kept_step (hsize : sb.size ≤ 2 ^ 32) (c : Writers) (e : WriteEvent) (d : Writers)
    (h : Kept f old c) (hc : c.Fits f e ∧ c.Uncharged e) (hstep : c.step sb f e = some d) :
    Kept f old d := by
  cases e with
  | start p fd bs => exact kept_start h hstep
  | go p => exact kept_go hsize h hc.1 hc.2 hstep
  | containers cs =>
    cases hstep
    exact ⟨⟨h.atEnd.type, h.atEnd.writable, h.atEnd.ref, h.atEnd.unlocked, h.atEnd.regular,
      h.atEnd.sound, h.atEnd.off⟩, h.contents, h.progress⟩

/-- Nothing is lost: the file is what was there followed by all pieces, the offset is at its
end, each process has put in the pieces of its calls in order, all of them once no call runs, each
call that has returned has returned its length, and a call that cannot go on has run out of
blocks. -/
structure Lossless (sb : Superblock) (f : FileSlot) (old : List Byte) (c : Writers) : Prop where
  contents : fileContents c.sys.shared f = old ++ (c.appended.map Prod.snd).flatten
  off : (c.sys.shared.file f).off = (fileContents c.sys.shared f).length
  inOrder : ∀ p, c.piecesOf p <+: (c.calls p).flatMap chunks
  complete : ∀ p, c.sys.thread p = none → c.piecesOf p = (c.calls p).flatMap chunks
  returned : ∀ p, c.results p <+: (c.calls p).map fun bs => (bs.length : Int)
  finished : ∀ p, c.sys.thread p = none → c.results p = (c.calls p).map fun bs => (bs.length : Int)
  stuck : ∀ p o next e, c.sys.thread p = some (.call o next) → c.Fits f (.go p) →
    execOp (diskStore sb) p o c.sys.shared = .error e → e = .panic .ballocOutOfBlocks

theorem stuck_of_kept (hsize : sb.size ≤ 2 ^ 32) (h : Kept f old c) {o : Op}
    {next : o.Res → FsProg Int} {e : Halt} (hthread : c.sys.thread p = some (.call o next))
    (hfits : c.Fits f (.go p)) (hexec : execOp (diskStore sb) p o c.sys.shared = .error e) :
    e = .panic .ballocOutOfBlocks := by
  obtain ⟨todo, owed, hdoing, -, -⟩ := h.progress p
  generalize hx : c.sys.thread p = x at hdoing
  cases hdoing with
  | idle =>
    rw [hx] at hthread
    cases hthread
  | entered fd bs hfd =>
    rw [hx, sysWrite_eq] at hthread
    cases hthread
    cases hexec
  | writing fd n todo hfd =>
    cases todo with
    | nil =>
      rw [hx, pieces_nil] at hthread
      cases hthread
    | cons bs todo =>
      obtain ⟨next', hnext, -⟩ := pieces_cons fd n bs todo
      rw [hnext] at hx
      rw [hx] at hthread
      cases hthread
      have hpiece : c.nextPiece p = some bs := by simp [Writers.nextPiece, hx]
      simp only [Writers.Fits, hpiece] at hfits
      exact execWriteFd_error hsize h.atEnd hfd hfits hexec

theorem lossless_of_kept (hsize : sb.size ≤ 2 ^ 32) (h : Kept f old c) : Lossless sb f old c where
  contents := h.contents
  off := by
    rw [h.atEnd.off]
    simp [fileContents]
  inOrder := fun p => by
    obtain ⟨todo, owed, -, hpieces, -⟩ := h.progress p
    exact ⟨todo, hpieces⟩
  complete := fun p hp => by
    obtain ⟨todo, owed, hdoing, hpieces, -⟩ := h.progress p
    rw [hp] at hdoing
    cases hdoing
    simpa using hpieces
  returned := fun p => by
    obtain ⟨todo, owed, -, -, hresults⟩ := h.progress p
    exact ⟨owed, hresults⟩
  finished := fun p hp => by
    obtain ⟨todo, owed, hdoing, -, hresults⟩ := h.progress p
    rw [hp] at hdoing
    cases hdoing
    simpa using hresults
  stuck := fun p o next e hthread hfits hexec => stuck_of_kept hsize h hthread hfits hexec

/-- Two processes share an empty file. -/
def sharedFile (cs : Container.State) : Kernel Disk where
  store := ⟨fun _ => newDinode .file, fun b => b = 0, fun _ _ => 0, []⟩
  icache := fun _ => ⟨1, 1, 1, false, true, newDinode .file⟩
  file := fun _ => ⟨2, .inode, true, true, 0, 0⟩
  cwd := fun _ => none
  ofile := fun p fd => if p.val < 2 ∧ fd = 0 then some 0 else none
  root := fun _ => none
  cs := cs
  lowInum := fun _ => 0

theorem sharedFile_atEnd (cs : Container.State) : AtEnd 0 (sharedFile cs) := by
  have haddr : ∀ bn, (sharedFile cs).store.addrOf (newDinode .file) bn = 0 := fun bn => by
    simp [Disk.addrOf, newDinode]
  refine ⟨rfl, rfl, Int.le_refl 1, rfl, rfl, ⟨?_, ?_, ?_, rfl⟩, rfl⟩
  · exact fun bn _ hne => absurd (haddr bn) hne
  · exact fun bn _ _ _ hne => absurd (haddr bn) hne
  · exact fun hne => absurd rfl hne

/-- No process has a container, and none of them has a name of one at address 28. -/
def noContainers : Container.State where
  proc := fun _ => ⟨.running, 1, false, none⟩
  table := Container.containerInit fun _ => 0
  low := fun _ => Container.emptyName

/-- A process without a container that has the name of an almost full one at address 28. -/
def nameInReach : Container.State where
  proc := fun _ => ⟨.running, 1, false, none⟩
  table := almostFull.table
  low := fun _ => Container.Processes.demoName

end Fs

end Xv6Containers
