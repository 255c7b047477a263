import Xv6Containers.Fs.Kernel

/-!
# Directories and path lookup

`iput`, `iunlockput`, `dirlookup`, `dirlink` and `namex`, as programs over the
primitive operations.

## Implementation notes

The loops over a directory read `dp->size` once; the directory is locked, so it
does not change. Entries are numbered by their position, `off / sizeof(de)`.
`namex` leaves the caller's buffer `name` as it was on some exits, so the buffer
is an argument and a result.
-/

namespace Xv6Containers.Fs

open Lib.Memory Lib.Strings Lib.Program

/-! ## Primitive operations -/

def iget (inum : Nat) : FsProg Slot := Prog.op (Op.iget inum)

def dupCwd : FsProg Slot := Prog.op Op.dupCwd

def ilock (i : Slot) : FsProg Unit := Prog.op (Op.ilock i)

def iunlock (i : Slot) : FsProg Unit := Prog.op (Op.iunlock i)

def reclaim (i : Slot) : FsProg Bool := Prog.op (Op.reclaim i)

def drop (i : Slot) : FsProg Unit := Prog.op (Op.drop i)

def inumOf (i : Slot) : FsProg Nat := Prog.op (Op.inumOf i)

def fields (i : Slot) : FsProg Dinode := Prog.op (Op.fields i)

def readDirent (i : Slot) (k : Nat) : FsProg (Option Dirent) := Prog.op (Op.readDirent i k)

def writeDirent (i : Slot) (k : Nat) (de : Dirent) : FsProg Written := Prog.op (Op.writeDirent i k de)

def inCont : FsProg Bool := Prog.op Op.inCont

def rootInum : FsProg Nat := Prog.op Op.rootInum

def returnRoot (ip : Slot) : FsProg (Option Slot) := Prog.op (Op.returnRoot ip)

def panic {α : Type} (p : Panic) : FsProg α := Prog.call (Op.panic p) fun e => nomatch (e : Empty)

/-! ## Inodes -/

def iput (i : Slot) : FsProg Unit := do
  let _ ← reclaim i
  drop i

def iunlockput (i : Slot) : FsProg Unit := do
  iunlock i
  iput i

/-! ## Directories -/

/-- The loop of `dirlookup` over `n` entries from `k` on. -/
def dirlookupFrom (dp : Slot) (name : Name) : Nat → Nat → FsProg (Option (Slot × Nat))
  | _, 0 => return none
  | k, n + 1 => do
      match ← readDirent dp k with
      | none => panic .dirlookupRead
      | some de =>
        if de.inum = 0 then dirlookupFrom dp name (k + 1) n
        else if namecmp name de.name = 0 then do
          let i ← iget de.inum
          return some (i, k)
        else dirlookupFrom dp name (k + 1) n

/-- `dirlookup`, with the position of the entry. -/
def dirlookup (dp : Slot) (name : Name) : FsProg (Option (Slot × Nat)) := do
  let d ← fields dp
  if d.type = .dir then dirlookupFrom dp name 0 d.direntCount
  else panic .dirlookupNotDir

/-- The loop of `dirlink` over `n` entries from `k` on: the first empty entry, or the end. -/
def emptyFrom (dp : Slot) : Nat → Nat → FsProg Nat
  | k, 0 => return k
  | k, n + 1 => do
      match ← readDirent dp k with
      | none => panic .dirlinkRead
      | some de => if de.inum = 0 then return k else emptyFrom dp (k + 1) n

/-- `dirlink`. The inode number is stored in a `ushort`. -/
def dirlink (dp : Slot) (name : Name) (inum : Nat) : FsProg Bool := do
  match ← dirlookup dp name with
  | some (ip, _) => do
      iput ip
      return false
  | none => do
      let d ← fields dp
      let k ← emptyFrom dp 0 d.direntCount
      if (← writeDirent dp k ⟨inum % 65536, name⟩) = .done then return true
      else panic .dirlink

/-! ## Paths -/

/-- `strncmp(path, "..", 2) == 0 && cont != NULL && cont->root->inum == ip->inum`. -/
def clamped (cont : Bool) (path : List Byte) (ip : Slot) : FsProg Bool :=
  if Path.StartsDotDot path ∧ cont = true then do
    let r ← rootInum
    let n ← inumOf ip
    return decide (r = n)
  else return false

/-- The loop of `namex`, for the calls of `skipelem` that remain. -/
def namexLoop (cont nameiparent : Bool) :
    Slot → Name → List (Name × List Byte) → FsProg (Option Slot × Name)
  | ip, name, [] =>
    if nameiparent then do
      iput ip
      return (none, name)
    else return (some ip, name)
  | ip, _, (name, path) :: rest => do
      ilock ip
      let d ← fields ip
      if d.type ≠ .dir then do
        iunlockput ip
        return (none, name)
      else if ← clamped cont path ip then do
        iunlock ip
        return (some ip, name)
      else do
        let inum ← inumOf ip
        if cont = true ∧ inum = rootIno then do
          iunlock ip
          let root ← returnRoot ip
          return (root, name)
        else if nameiparent = true ∧ path = [] then do
          iunlock ip
          return (some ip, name)
        else do
          match ← dirlookup ip name with
          | none => do
              iunlockput ip
              return (none, name)
          | some (next, _) => do
              iunlockput ip
              namexLoop cont nameiparent next name rest

/-- The start of `namex`: the root directory or the working directory. -/
def startInode (path : List Byte) : FsProg Slot :=
  if path.head? = some Path.slash then iget rootIno else dupCwd

/-- `namex`. -/
def namex (path : CString) (nameiparent : Bool) (name : Name) : FsProg (Option Slot × Name) := do
  let ip ← startInode path.bytes
  let cont ← inCont
  if ← clamped cont path.bytes ip then return (some ip, name)
  else namexLoop cont nameiparent ip name (Path.elems path.bytes)

/-- `namei`, whose buffer is never read. -/
def namei (path : CString) : FsProg (Option Slot) := do
  let (ip, _) ← namex path false .empty
  return ip

/-- `nameiparent`. -/
def nameiparent (path : CString) (name : Name) : FsProg (Option Slot × Name) :=
  namex path true name

end Xv6Containers.Fs
