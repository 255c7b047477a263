import Xv6Containers.Container.Quota
import Xv6Containers.Fs.Store
import Xv6Containers.Lib.Program

/-!
# The kernel under the file-system code

The state that file-system system calls share: the disk, the inode cache, the
file table, the working directories and descriptors of the processes, the root
directories of the containers. The primitive operations are the critical
sections and lock-protected stretches of `fs.c`, `file.c` and `proc.c` out of
which the system calls are composed.

## Implementation notes

`iput` is two operations, `reclaim` and `drop`, as its test and its decrement
are; `reclaim` says whether it freed the inode, which `iput` ignores. At the end
of `sys_open` the new file takes over the reference, the inode is unlocked and
the fields of the file are set; nobody else can see the file before the call
returns, so `fileOpen` does all of it in one operation. `returnRoot ip` is the statement
`return cont->root` of `namex`; its argument says which entry the lookup still
holds there. Pipes are left out.
-/

namespace Xv6Containers

open Lib.Memory Lib.Strings Lib.Search Lib.Program

/-- `f->type`, without pipes. -/
inductive FdType
  | none
  | inode
  deriving DecidableEq

/-- `struct file`. -/
structure File where
  ref : Int
  type : FdType
  readable : Bool
  writable : Bool
  ip : Slot
  off : Nat
  deriving DecidableEq

instance : NeZero nfile := ⟨by decide⟩

instance : NeZero nofile := ⟨by decide⟩

/-- An index into `ftable.file`. -/
abbrev FileSlot := Fin nfile

/-- A file descriptor in range. -/
abbrev Fd := Fin nofile

structure Kernel (S : Type) where
  store : S
  icache : Icache Dinode
  file : FileSlot → File
  cwd : ProcSlot → Option Slot
  ofile : ProcSlot → Fd → Option FileSlot
  root : Cont → Option Slot
  cs : Container.State
  /-- The word that `cont->root->inum` reads for a null `root`, in the memory of each process. -/
  lowInum : ProcSlot → Nat

/-- The primitive operations of the running process. -/
inductive Op
  | iget (inum : Nat)
  | dupCwd
  | ilock (i : Slot)
  | iunlock (i : Slot)
  | reclaim (i : Slot)
  | drop (i : Slot)
  | inumOf (i : Slot)
  | fields (i : Slot)
  | addLink (i : Slot) (n : Int)
  | initNode (i : Slot) (major minor : Int)
  | ialloc (type : FileType)
  | readDirent (i : Slot) (k : Nat)
  | writeDirent (i : Slot) (k : Nat) (de : Dirent)
  | refund (i : Slot)
  | inCont
  | rootInum
  | returnRoot (ip : Slot)
  | setRoot (nm : CString) (ip : Option Slot)
  | takeCwd
  | setCwd (i : Slot)
  | clearCwd
  | fileOpen (i : Slot) (readable writable : Bool)
  | argfd (fd : Fd)
  | closeFd (fd : Fd)
  | dupFd (fd : Fd)
  | readFd (fd : Fd) (n : Nat)
  | writeFd (fd : Fd) (bs : List Byte)
  | fork
  | exited
  | reap (q : ProcSlot)
  | container (call : Container.Call)
  | panic (p : Panic)

/-- What each operation returns. -/
def Op.Res : Op → Type
  | .iget _ => Slot
  | .dupCwd => Slot
  | .inumOf _ => Nat
  | .fields _ => Dinode
  | .reclaim _ => Bool
  | .ialloc _ => Nat
  | .readDirent _ _ => Option Dirent
  | .writeDirent _ _ _ => Written
  | .inCont => Bool
  | .rootInum => Nat
  | .returnRoot _ => Option Slot
  | .takeCwd => Slot
  | .fileOpen _ _ _ => Option Fd
  | .argfd _ => Bool
  | .closeFd _ => Option Slot
  | .dupFd _ => Option Fd
  | .readFd _ _ => Option Nat
  | .writeFd _ _ => Option Nat
  | .fork => Option ProcSlot
  | .reap _ => Bool
  | .panic _ => Empty
  | _ => Unit

/-- A program of the file-system code. -/
abbrev FsProg := Prog Op.Res

/-- The value that a `short` keeps of an `int`. -/
def toShort (v : Int) : Int := (v + 32768) % 65536 - 32768

namespace Kernel

variable {S : Type}

def setInode (s : Kernel S) (i : Slot) (x : Inode Dinode) : Kernel S :=
  { s with icache := Function.update s.icache i x }

/-- A cache entry and the disk change together. -/
def setNode (s : Kernel S) (i : Slot) (x : Inode Dinode) (store : S) : Kernel S :=
  { s with store := store, icache := Function.update s.icache i x }

def setFile (s : Kernel S) (f : FileSlot) (x : File) : Kernel S :=
  { s with file := Function.update s.file f x }

def setFd (s : Kernel S) (me : ProcSlot) (fd : Fd) (x : Option FileSlot) : Kernel S :=
  { s with ofile := Function.update s.ofile me (Function.update (s.ofile me) fd x) }

def setCwd (s : Kernel S) (me : ProcSlot) (x : Option Slot) : Kernel S :=
  { s with cwd := Function.update s.cwd me x }

/-- The file that a descriptor of `me` stands for. -/
def fdFile (s : Kernel S) (me : ProcSlot) (fd : Fd) : Except Halt FileSlot :=
  match s.ofile me fd with
  | some f => .ok f
  | none => .error .undefined

end Kernel

variable {S : Type} (st : Store S) (me : ProcSlot)

/-- `ilock` after its checks. The sleep lock blocks; an invalid copy is loaded. -/
def execIlock (i : Slot) (s : Kernel S) : Except Halt (Unit × Kernel S) :=
  let x := s.icache i
  if x.ref < 1 then .error (.panic .ilock)
  else if x.locked then .error .blocked
  else if x.valid then .ok ((), s.setInode i { x with locked := true })
  else
    let d := st.load s.store x.inum
    if d.type = .free then .error (.panic .ilockNoType)
    else .ok ((), s.setInode i { x with locked := true, valid := true, d := d })

def execIunlock (i : Slot) (s : Kernel S) : Except Halt (Unit × Kernel S) :=
  let x := s.icache i
  if x.locked = false ∨ x.ref < 1 then .error (.panic .iunlock)
  else .ok ((), s.setInode i { x with locked := false })

/-- `iput` up to `releasesleep`. -/
def execReclaim (i : Slot) (s : Kernel S) : Except Halt (Bool × Kernel S) :=
  let x := s.icache i
  if x.locked then .error .blocked
  else if x.valid = true ∧ x.d.nlink = 0 ∧ x.ref = 1 then do
    let (store, d) ← st.itrunc s.store x.inum x.d
    let d := { d with type := .free }
    let store := st.iupdate store x.inum d
    return (true, s.setNode i { x with d := d, valid := false } store)
  else .ok (false, s)

/-- A change of the cached copy, written through by `iupdate`. -/
def execUpdate (i : Slot) (d : Dinode) (s : Kernel S) : Kernel S :=
  s.setNode i { s.icache i with d := d } (st.iupdate s.store (s.icache i).inum d)

def execReadDirent (i : Slot) (k : Nat) (s : Kernel S) :
    Except Halt (Option Dirent × Kernel S) := do
  let x := s.icache i
  let (de, store, d) ← st.readDirent s.store x.inum x.d k
  return (de, s.setNode i { x with d := d } store)

/-- `writei` of one directory entry, with the accounting for the running process. -/
def execWriteDirent (i : Slot) (k : Nat) (de : Dirent) (s : Kernel S) :
    Except Halt (Written × Kernel S) := do
  let x := s.icache i
  let (fires, cs) := Container.charge s.cs me direntSize
  let (w, store, d) ← st.writeDirent s.store x.inum x.d k de fires
  let cs := if w = .refused then s.cs else cs
  return (w, { s.setNode i { x with d := d } store with cs := cs })

/-- `filealloc` and `fdalloc`, then `iunlock` and the fields that `sys_open` sets. Without a
free descriptor the file is closed again. -/
def execFileOpen (i : Slot) (readable writable : Bool) (s : Kernel S) :
    Except Halt (Option Fd × Kernel S) :=
  match first fun f => (s.file f).ref = 0 with
  | none => .ok (none, s)
  | some f =>
    match first fun fd => (s.ofile me fd).isNone with
    | none => .ok (none, s)
    | some fd => do
        let (_, s) ← execIunlock i s
        return (some fd, (s.setFile f ⟨1, .inode, readable, writable, i, 0⟩).setFd me fd (some f))

/-- `sys_close` up to the `iput` of `fileclose`; the result is the inode to put. -/
def execCloseFd (fd : Fd) (s : Kernel S) : Except Halt (Option Slot × Kernel S) := do
  let f ← s.fdFile me fd
  let x := s.file f
  let s := s.setFd me fd none
  if x.ref < 1 then .error (.panic .fileclose)
  else if 0 < x.ref - 1 then return (none, s.setFile f { x with ref := x.ref - 1 })
  else
    return (if x.type = .inode then some x.ip else none,
      s.setFile f { x with ref := 0, type := .none })

/-- `sys_dup`: the next free descriptor for the same file. -/
def execDupFd (fd : Fd) (s : Kernel S) : Except Halt (Option Fd × Kernel S) := do
  let f ← s.fdFile me fd
  match first fun fd' => (s.ofile me fd').isNone with
  | none => return (none, s)
  | some fd' =>
    if (s.file f).ref < 1 then .error (.panic .filedup)
    else
      return (some fd', (s.setFd me fd' (some f)).setFile f
        { s.file f with ref := (s.file f).ref + 1 })

/-- `fileread` of an inode: `ilock`, `readi`, `iunlock`. -/
def execReadFd (fd : Fd) (n : Nat) (s : Kernel S) : Except Halt (Option Nat × Kernel S) := do
  let f ← s.fdFile me fd
  let x := s.file f
  if x.readable = false then return (none, s)
  else if x.type ≠ .inode then .error (.panic .fileread)
  else
    let (_, s) ← execIlock st x.ip s
    let (r, store, d) ← st.readData s.store (s.icache x.ip).inum (s.icache x.ip).d x.off n
    let s := s.setNode x.ip { s.icache x.ip with d := d } store
    let s := s.setFile f { x with off := x.off + r.getD 0 }
    let (_, s) ← execIunlock x.ip s
    return (r, s)

/-- One round of the loop of `filewrite`: `ilock`, `writei`, `iunlock`. -/
def execWriteFd (fd : Fd) (bs : List Byte) (s : Kernel S) :
    Except Halt (Option Nat × Kernel S) := do
  let f ← s.fdFile me fd
  let x := s.file f
  if x.writable = false then return (none, s)
  else if x.type ≠ .inode then .error (.panic .filewrite)
  else
    let (_, s) ← execIlock st x.ip s
    let (fires, cs) := Container.charge s.cs me bs.length
    let (w, store, d) ←
      st.writeData s.store (s.icache x.ip).inum (s.icache x.ip).d x.off bs fires
    let cs := if w = .refused then s.cs else cs
    let s := { s.setNode x.ip { s.icache x.ip with d := d } store with cs := cs }
    let r := if w = .done then some bs.length else none
    let s := s.setFile f { x with off := x.off + r.getD 0 }
    let (_, s) ← execIunlock x.ip s
    return (r, s)

/-- The loop of `fork` over the descriptors: one more reference to each open file. -/
def dupFiles (s : Kernel S) : List Fd → Except Halt (Kernel S)
  | [] => .ok s
  | fd :: fds =>
    match s.ofile me fd with
    | none => dupFiles s fds
    | some f =>
      if (s.file f).ref < 1 then .error (.panic .filedup)
      else dupFiles (s.setFile f { s.file f with ref := (s.file f).ref + 1 }) fds

/-- `fork`, as far as files are concerned: the child is the first unused process slot. -/
def execFork (s : Kernel S) : Except Halt (Option ProcSlot × Kernel S) :=
  match first fun q => (s.cs.proc q).state = .unused with
  | none => .ok (none, s)
  | some q => do
      let s ← dupFiles me s (List.finRange nofile)
      match s.cwd me with
      | none => .error .undefined
      | some i =>
        let child : Proc := ⟨.runnable, (s.cs.proc q).pid, false, (s.cs.proc me).cont⟩
        return (some q,
          { s with
            icache := s.icache.idup i
            cwd := Function.update s.cwd q (some i)
            ofile := Function.update s.ofile q fun fd => (s.ofile me fd).or (s.ofile q fd)
            cs := s.cs.setProc q child })

/-- The end of `wait` for the child `q`, if it is a zombie. -/
def execReap (q : ProcSlot) (s : Kernel S) : Bool × Kernel S :=
  let x := s.cs.proc q
  if x.state = .zombie then
    let x := { x with state := .unused, pid := 0, killed := false }
    (true, { s with cs := s.cs.setProc q x })
  else (false, s)

/-- A name that does not fit its array would overwrite the root. -/
def nameFits : Container.Call → Bool
  | .setName nm _ => decide (strlen nm < Container.nameSize)
  | _ => true

/-- A container system call. -/
def execContainer (call : Container.Call) (s : Kernel S) : Except Halt (Unit × Kernel S) :=
  if nameFits call then
    match Container.exec s.cs me call with
    | some cs => .ok ((), { s with cs := cs })
    | none => .error .undefined
  else .error .undefined

/-- One primitive operation of process `me`. -/
def execOp : (o : Op) → Kernel S → Except Halt (o.Res × Kernel S)
  | .iget inum, s =>
    match s.icache.iget 1 inum with
    | some (i, c) => .ok (i, { s with icache := c })
    | none => .error (.panic .igetNoInodes)
  | .dupCwd, s =>
    match s.cwd me with
    | some i => .ok (i, { s with icache := s.icache.idup i })
    | none => .error .undefined
  | .ilock i, s => execIlock st i s
  | .iunlock i, s => execIunlock i s
  | .reclaim i, s => execReclaim st i s
  | .drop i, s => .ok ((), { s with icache := s.icache.dropRef i })
  | .inumOf i, s => .ok ((s.icache i).inum, s)
  | .fields i, s => .ok ((s.icache i).d, s)
  | .addLink i n, s =>
    let d := (s.icache i).d
    .ok ((), execUpdate st i { d with nlink := toShort (d.nlink + n) } s)
  | .initNode i major minor, s =>
    .ok ((), execUpdate st i { (s.icache i).d with major := major, minor := minor, nlink := 1 } s)
  | .ialloc type, s => do
      let (inum, store) ← st.ialloc s.store type
      return (inum, { s with store := store })
  | .readDirent i k, s => execReadDirent st i k s
  | .writeDirent i k de, s => execWriteDirent st me i k de s
  | .refund i, s => .ok ((), { s with cs := Container.refund s.cs me (s.icache i).d.size })
  | .inCont, s => .ok ((s.cs.proc me).cont.isSome, s)
  | .rootInum, s =>
    match (s.cs.proc me).cont with
    | none => .error .undefined
    | some c =>
      match s.root c with
      | some r => .ok ((s.icache r).inum, s)
      | none => .ok (s.lowInum me, s)
  | .returnRoot _, s =>
    match (s.cs.proc me).cont with
    | none => .error .undefined
    | some c => .ok (s.root c, s)
  | .setRoot nm ip, s =>
    match Container.find s.cs.table nm with
    | none => .error .undefined
    | some c => .ok ((), { s with root := Function.update s.root c ip })
  | .takeCwd, s =>
    match s.cwd me with
    | some i => .ok (i, s)
    | none => .error .undefined
  | .setCwd i, s => .ok ((), s.setCwd me (some i))
  | .clearCwd, s => .ok ((), s.setCwd me none)
  | .fileOpen i r w, s => execFileOpen me i r w s
  | .argfd fd, s => .ok ((s.ofile me fd).isSome, s)
  | .closeFd fd, s => execCloseFd me fd s
  | .dupFd fd, s => execDupFd me fd s
  | .readFd fd n, s => execReadFd st me fd n s
  | .writeFd fd bs, s => execWriteFd st me fd bs s
  | .fork, s => execFork me s
  | .exited, s =>
    .ok ((), { s with cs := s.cs.setProc me { s.cs.proc me with state := .zombie } })
  | .reap q, s => .ok (execReap q s)
  | .container call, s => execContainer me call s
  | .panic p, _ => .error (.panic p)

end Xv6Containers
