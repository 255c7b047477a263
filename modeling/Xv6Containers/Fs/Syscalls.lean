import Xv6Containers.Fs.Lookup

/-!
# The system calls of the file system

The calls of `sysfile.c`, and `exec`, `fork`, `exit`, `wait` and
`set_root_inode` as far as inodes and files are concerned.

## Implementation notes

`begin_op` and `end_op` are left out: transactions are the subject of the log. A
path arrives as the string that `argstr` fetched, with the contents of the
uninitialised buffer `name` where the call has one. There is one device, so
`sys_link` does not compare devices. `exec` only reads the file it finds. Which
zombies are children of the caller of `wait` is left open.
-/

namespace Xv6Containers.Fs

open Lib.Memory Lib.Strings Lib.Program

/-! ## Primitive operations -/

def addLink (i : Slot) (n : Int) : FsProg Unit := Prog.op (Op.addLink i n)

def initNode (i : Slot) (major minor : Int) : FsProg Unit := Prog.op (Op.initNode i major minor)

def refund (i : Slot) : FsProg Unit := Prog.op (Op.refund i)

def setRoot (nm : CString) (ip : Option Slot) : FsProg Unit := Prog.op (Op.setRoot nm ip)

def takeCwd : FsProg Slot := Prog.op Op.takeCwd

def setCwd (i : Slot) : FsProg Unit := Prog.op (Op.setCwd i)

def clearCwd : FsProg Unit := Prog.op Op.clearCwd

def fileOpen (i : Slot) (readable writable : Bool) : FsProg (Option Fd) :=
  Prog.op (Op.fileOpen i readable writable)

def argfd (fd : Fd) : FsProg Bool := Prog.op (Op.argfd fd)

def closeFd (fd : Fd) : FsProg (Option Slot) := Prog.op (Op.closeFd fd)

def dupFd (fd : Fd) : FsProg (Option Fd) := Prog.op (Op.dupFd fd)

def readFd (fd : Fd) (n : Nat) : FsProg (Option Nat) := Prog.op (Op.readFd fd n)

def writeFd (fd : Fd) (bs : List Byte) : FsProg (Option Nat) := Prog.op (Op.writeFd fd bs)

def forkProc : FsProg (Option ProcSlot) := Prog.op Op.fork

def exited : FsProg Unit := Prog.op Op.exited

def reap (q : ProcSlot) : FsProg Bool := Prog.op (Op.reap q)

/-- `ialloc`. -/
def ialloc (type : FileType) : FsProg Slot := do
  let inum ← (Prog.op (Op.ialloc type) : FsProg Nat)
  iget inum

/-! ## Links -/

/-- The label `bad` of `sys_link`. -/
def linkBad (ip : Slot) : FsProg Int := do
  ilock ip
  addLink ip (-1)
  iunlockput ip
  return -1

def sysLink (old new : CString) (name : Name) : FsProg Int := do
  match ← namei old with
  | none => return -1
  | some ip => do
      ilock ip
      let d ← fields ip
      if d.type = .dir then do
        iunlockput ip
        return -1
      else do
        addLink ip 1
        iunlock ip
        match ← nameiparent new name with
        | (none, _) => linkBad ip
        | (some dp, name) => do
            ilock dp
            let inum ← inumOf ip
            if ← dirlink dp name inum then do
              iunlockput dp
              iput ip
              return 0
            else do
              iunlockput dp
              linkBad ip

/-- The loop of `isdirempty` over `n` entries from `k` on. -/
def isdiremptyFrom (dp : Slot) : Nat → Nat → FsProg Bool
  | _, 0 => return true
  | k, n + 1 => do
      match ← readDirent dp k with
      | none => panic .isdiremptyReadi
      | some de => if de.inum ≠ 0 then return false else isdiremptyFrom dp (k + 1) n

/-- `isdirempty`: the entries from the third on. -/
def isdirempty (dp : Slot) : FsProg Bool := do
  let d ← fields dp
  isdiremptyFrom dp 2 (d.direntCount - 2)

/-- The entry that `memset` makes. -/
def zeroDirent : Dirent := ⟨0, .empty⟩

/-- `sys_unlink` once the entry is known to be removable. -/
def unlinkEntry (dp ip : Slot) (k : Nat) (isDir : Bool) : FsProg Int := do
  if (← writeDirent dp k zeroDirent) = .done then do
    refund ip
    (if isDir then addLink dp (-1) else pure ())
    iunlockput dp
    addLink ip (-1)
    iunlockput ip
    return 0
  else panic .unlinkWritei

def sysUnlink (path : CString) (name : Name) : FsProg Int := do
  match ← nameiparent path name with
  | (none, _) => return -1
  | (some dp, name) => do
      ilock dp
      if namecmp name dotName = 0 ∨ namecmp name dotDotName = 0 then do
        iunlockput dp
        return -1
      else do
        match ← dirlookup dp name with
        | none => do
            iunlockput dp
            return -1
        | some (ip, k) => do
            ilock ip
            let d ← fields ip
            if d.nlink < 1 then panic .unlinkNlink
            else if d.type = .dir then do
              if ← isdirempty ip then unlinkEntry dp ip k true
              else do
                iunlockput ip
                iunlockput dp
                return -1
            else unlinkEntry dp ip k false

/-! ## Creation -/

/-- The entries `.` and `..` of a new directory. -/
def createDots (dp ip : Slot) : FsProg Unit := do
  addLink dp 1
  let inum ← inumOf ip
  if ← dirlink ip dotName inum then do
    let parent ← inumOf dp
    if ← dirlink ip dotDotName parent then return ()
    else panic .createDots
  else panic .createDots

def create (path : CString) (type : FileType) (major minor : Int) (name : Name) :
    FsProg (Option Slot) := do
  match ← nameiparent path name with
  | (none, _) => return none
  | (some dp, name) => do
      ilock dp
      match ← dirlookup dp name with
      | some (ip, _) => do
          iunlockput dp
          ilock ip
          let d ← fields ip
          if type = .file ∧ d.type = .file then return some ip
          else do
            iunlockput ip
            return none
      | none => do
          let ip ← ialloc type
          ilock ip
          initNode ip major minor
          (if type = .dir then createDots dp ip else pure ())
          let inum ← inumOf ip
          if ← dirlink dp name inum then do
            iunlockput dp
            return some ip
          else panic .createDirlink

/-- `O_WRONLY`. -/
def oWronly : Nat := 0x001

/-- `O_RDWR`. -/
def oRdwr : Nat := 0x002

/-- `O_CREATE`. -/
def oCreate : Nat := 0x200

/-- `sys_open` once the inode is locked. -/
def openInode (ip : Slot) (omode : Nat) : FsProg Int := do
  let readable := decide (omode &&& oWronly = 0)
  let writable := decide (omode &&& oWronly ≠ 0 ∨ omode &&& oRdwr ≠ 0)
  match ← fileOpen ip readable writable with
  | none => do
      iunlockput ip
      return -1
  | some fd => return fd

def sysOpen (path : CString) (omode : Nat) (name : Name) : FsProg Int := do
  if omode &&& oCreate ≠ 0 then do
    match ← create path .file 0 0 name with
    | none => return -1
    | some ip => openInode ip omode
  else do
    match ← namei path with
    | none => return -1
    | some ip => do
        ilock ip
        let d ← fields ip
        if d.type = .dir ∧ omode ≠ 0 then do
          iunlockput ip
          return -1
        else openInode ip omode

def sysMkdir (path : CString) (name : Name) : FsProg Int := do
  match ← create path .dir 0 0 name with
  | none => return -1
  | some ip => do
      iunlockput ip
      return 0

def sysMknod (path : CString) (major minor : Int) (name : Name) : FsProg Int := do
  match ← create path .dev (toShort major) (toShort minor) name with
  | none => return -1
  | some ip => do
      iunlockput ip
      return 0

/-! ## Working directories and programs -/

def sysChdir (path : CString) : FsProg Int := do
  match ← namei path with
  | none => return -1
  | some ip => do
      ilock ip
      let d ← fields ip
      if d.type ≠ .dir then do
        iunlockput ip
        return -1
      else do
        iunlock ip
        let cwd ← takeCwd
        iput cwd
        setCwd ip
        return 0

/-- `exec`. -/
def sysExec (path : CString) : FsProg Int := do
  match ← namei path with
  | none => return -1
  | some ip => do
      ilock ip
      iunlockput ip
      return 0

/-- `set_root_inode`. -/
def setRootInode (nm : CString) : FsProg Int := do
  let ip ← namei nm
  setRoot nm ip
  return 0

/-! ## Files -/

/-- `fileclose` for a descriptor that is in use. -/
def fileclose (fd : Fd) : FsProg Unit := do
  match ← closeFd fd with
  | none => return ()
  | some ip => iput ip

def sysClose (fd : Fd) : FsProg Int := do
  if ← argfd fd then do
    fileclose fd
    return 0
  else return -1

def sysDup (fd : Fd) : FsProg Int := do
  if ← argfd fd then do
    match ← dupFd fd with
    | none => return -1
    | some fd' => return fd'
  else return -1

def sysRead (fd : Fd) (n : Nat) : FsProg Int := do
  if ← argfd fd then do
    match ← readFd fd n with
    | none => return -1
    | some r => return r
  else return -1

/-- The variable `max` of `filewrite`. -/
def filewriteMax : Nat := (logSize - 1 - 1 - 2) / 2 * 512

/-- The pieces that `filewrite` passes to `writei`, at most `n` of them. -/
def chunksUpTo : Nat → List Byte → List (List Byte)
  | 0, _ => []
  | n + 1, bs =>
    if bs = [] then [] else bs.take filewriteMax :: chunksUpTo n (bs.drop filewriteMax)

def chunks (bs : List Byte) : List (List Byte) := chunksUpTo bs.length bs

/-- The loop of `filewrite`: whether every piece was written. -/
def writeChunks (fd : Fd) : List (List Byte) → FsProg Bool
  | [] => return true
  | c :: cs => do
      match ← writeFd fd c with
      | none => return false
      | some r => if r = c.length then writeChunks fd cs else panic .shortFilewrite

def sysWrite (fd : Fd) (bs : List Byte) : FsProg Int := do
  if ← argfd fd then do
    if ← writeChunks fd (chunks bs) then return bs.length
    else return -1
  else return -1

/-! ## Processes -/

def fork : FsProg Int := do
  match ← forkProc with
  | none => return -1
  | some q => return q

/-- The loop of `exit` over the descriptors. -/
def closeAll : List Fd → FsProg Unit
  | [] => return ()
  | fd :: fds => do
      let isOpen ← argfd fd
      (if isOpen then fileclose fd else pure ())
      closeAll fds

def exit : FsProg Int := do
  closeAll (List.finRange nofile)
  let cwd ← takeCwd
  iput cwd
  clearCwd
  exited
  return 0

def wait (q : ProcSlot) : FsProg Int := do
  if ← reap q then return q else return -1

/-- The system calls with their arguments. -/
inductive Call
  | link (old new : CString) (name : Name)
  | unlink (path : CString) (name : Name)
  | openFile (path : CString) (omode : Nat) (name : Name)
  | mkdir (path : CString) (name : Name)
  | mknod (path : CString) (major minor : Int) (name : Name)
  | chdir (path : CString)
  | exec (path : CString)
  | setRootInode (nm : CString)
  | close (fd : Fd)
  | dup (fd : Fd)
  | read (fd : Fd) (n : Nat)
  | write (fd : Fd) (bs : List Byte)
  | fork
  | exit
  | wait (q : ProcSlot)
  | container (call : Container.Call)

/-- The program of a system call. -/
def Call.prog : Call → FsProg Int
  | .link old new name => sysLink old new name
  | .unlink path name => sysUnlink path name
  | .openFile path omode name => sysOpen path omode name
  | .mkdir path name => sysMkdir path name
  | .mknod path major minor name => sysMknod path major minor name
  | .chdir path => sysChdir path
  | .exec path => sysExec path
  | .setRootInode nm => Fs.setRootInode nm
  | .close fd => sysClose fd
  | .dup fd => sysDup fd
  | .read fd n => sysRead fd n
  | .write fd bs => sysWrite fd bs
  | .fork => Fs.fork
  | .exit => Fs.exit
  | .wait q => Fs.wait q
  | .container call => do
      (Prog.op (Op.container call) : FsProg Unit)
      return 0

/-- The processes with their running calls, over the kernel they share. -/
abbrev System (S : Type) := Prog.Config Op.Res (Kernel S) ProcSlot

/-- A process enters a system call, or its running call makes one operation. -/
def systemStep {S : Type} (st : Store S) (c : System S) (e : Prog.Event Call ProcSlot) :
    Option (System S) :=
  Prog.step (execOp st) Call.prog c e

/-- One system call from beginning to end. -/
def callStep {S : Type} (st : Store S) (s : Kernel S) (e : ProcSlot × Call) : Option (Kernel S) :=
  match e.2.prog.run (execOp st e.1) s with
  | .ok (_, t) => some t
  | .error _ => none

end Xv6Containers.Fs
