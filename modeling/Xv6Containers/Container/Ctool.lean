import Xv6Containers.Container.ProcessCount
import Xv6Containers.Lib.Program

/-!
# The commands `ctool start` and `ctool stop`

A command is the sequence of system calls that `ctool.c` makes. The calls are
atomic; the commands of several processes interleave between them.

## Implementation notes

The processes that run `ctool` belong to no container when they start. What a
command finds in the file system is part of its input: the pointer that `namei`
returns for the directory, and the sizes that `add_file_size` reads. Stores to
`containers[-1]` lie in front of the table and are left out, and so are the kills of
`cstop` and the `exit` of `ctool` itself, which change no name. A directory name that
does not fit into `c_name[16]` of `attach_vc` ends the modelled run.

`claim` is an auxiliary variable: it says which slot a `start` works with that has
got past its checks, and how far it has come.
-/

namespace Xv6Containers.Container.Ctool

open Lib.Memory Lib.Strings Lib.Program

/-- The offset of `root`. -/
def rootOffset : Nat := 60

/-- The length of the array `c_name` of `attach_vc`. -/
def cNameSize : Nat := 16

/-! ## System calls -/

inductive Op
  | isFull
  /-- The test `find(dir) == 0` of a `start` that was given slot `i`. -/
  | check (dir : CString) (i : Cont)
  | setMax (f : Field) (v : Int) (i : Cont)
  | setName (dir : CString) (i : Cont)
  | setRootInode (dir : CString) (root : UInt32)
  | find (nm : CString)
  | getCurrDisk (z : Cont)
  | setCurrDisk (size : Int) (z : Cont)
  /-- The `cstop` of `add_file_size`. -/
  | cstop (nm : CString)
  /-- The `cstop` of `ctool stop`. -/
  | stop (nm : CString)
  | contProcSet (i : Cont)
  /-- `fork`, and whether there is room for the child. -/
  | fork (room : Bool)
  | overflow

def Op.Res : Op → Type
  | .isFull | .find _ => Option Cont
  | .check _ _ | .fork _ => Bool
  | .getCurrDisk _ => Int
  | .overflow => Empty
  | _ => Unit

abbrev CtoolProg := Prog Op.Res

def isFull : CtoolProg (Option Cont) := Prog.op Op.isFull

def check (dir : CString) (i : Cont) : CtoolProg Bool := Prog.op (Op.check dir i)

def setMax (f : Field) (v : Int) (i : Cont) : CtoolProg Unit := Prog.op (Op.setMax f v i)

def setName (dir : CString) (i : Cont) : CtoolProg Unit := Prog.op (Op.setName dir i)

def setRootInode (dir : CString) (root : UInt32) : CtoolProg Unit := Prog.op (Op.setRootInode dir root)

def find (nm : CString) : CtoolProg (Option Cont) := Prog.op (Op.find nm)

def getCurrDisk (z : Cont) : CtoolProg Int := Prog.op (Op.getCurrDisk z)

def setCurrDisk (size : Int) (z : Cont) : CtoolProg Unit := Prog.op (Op.setCurrDisk size z)

def cstop (nm : CString) : CtoolProg Unit := Prog.op (Op.cstop nm)

def contProcSet (i : Cont) : CtoolProg Unit := Prog.op (Op.contProcSet i)

def fork (room : Bool) : CtoolProg Bool := Prog.op (Op.fork room)

def overflow {α : Type} : CtoolProg α := Prog.call Op.overflow Empty.elim

/-! ## The commands -/

/-- The arguments of `start`, and what it finds in the file system. -/
structure Args where
  dir : CString
  maxProc : Int
  maxMem : Int
  maxDisk : Int
  root : UInt32
  sizes : List Nat
  room : Bool

/-- The charge of one file in `add_file_size`. -/
def addSize (c_name : CString) (size : Nat) : CtoolProg Unit := do
  if c_name = emptyName then return ()
  else do
    match ← find c_name with
    | none => return ()
    | some z => do
        let before ← getCurrDisk z
        setCurrDisk size z
        let after ← getCurrDisk z
        if before = after then cstop c_name else return ()

def addFileSize (c_name : CString) : List Nat → CtoolProg Unit
  | [] => return ()
  | size :: rest => do
      addSize c_name size
      addFileSize c_name rest

def attachVc (x : Args) (i : Cont) : CtoolProg Int := do
  if cNameSize ≤ strlen x.dir then overflow
  else do
    addFileSize x.dir x.sizes
    contProcSet i
    let _ ← fork x.room
    return 0

/-- A limit that is stored only if it is given. -/
def setMaxGiven (f : Field) (v : Int) (i : Cont) : CtoolProg Unit :=
  if v ≠ 0 then setMax f v i else return ()

def start (x : Args) : CtoolProg Int := do
  match ← isFull with
  | none => return 0
  | some i => do
      if ← check x.dir i then return 0
      else do
        setMaxGiven .maxProc x.maxProc i
        setMaxGiven .maxMem x.maxMem i
        setMaxGiven .maxDisk x.maxDisk i
        setName x.dir i
        setRootInode x.dir x.root
        attachVc x i

inductive Command
  | start (x : Args)
  | stop (nm : CString)

def code : Command → CtoolProg Int
  | .start x => start x
  | .stop nm => do
      Prog.op (Op.stop nm)
      return 0

/-! ## The machine -/

/-- How far a `start` has come that got past its checks. -/
inductive Stage
  | chosen
  | named
  | attached
  deriving DecidableEq

structure Claim where
  slot : Cont
  dir : CString
  stage : Stage
  deriving DecidableEq

/-- The container table, the containers of the processes that run `ctool` and of the children
they started, and the claims. -/
structure State (P : Type) where
  table : Table
  cont : P → Option Cont
  child : P → Option Cont
  claim : P → Option Claim

variable {P : Type} [DecidableEq P]

def State.setStage (s : State P) (p : P) (stage : Stage) : P → Option Claim :=
  Function.update s.claim p ((s.claim p).map fun c => { c with stage := stage })

/-- `container_reset(find(nm))`. -/
def resetNamed (m : Table) (nm : CString) : Table :=
  match Container.find m nm with
  | none => m
  | some c => reset m c

/-- What `sys_fork` does to the table, and whether it goes on to `fork`. -/
def chargeFork (m : Table) (cont : Option Cont) : Table × Bool :=
  match cont.bind fun c => Container.find m (name m c) with
  | none => (m, true)
  | some x =>
    let m' := setCurrProc m 1 x
    if intField m' x .currProc = intField m x .currProc then (reset m x, false) else (m', true)

def execOp (p : P) : (o : Op) → State P → Except Unit (o.Res × State P)
  | .isFull, s => .ok (Container.isFull s.table, s)
  | .check dir i, s =>
    if Container.find s.table dir = some 0 then .ok (true, s)
    else .ok (false, { s with claim := Function.update s.claim p (some ⟨i, dir, .chosen⟩) })
  | .setMax f v i, s =>
    .ok ((), { s with table := writeWord s.table (address i f.offset) (word v) })
  | .setName dir i, s =>
    .ok ((), { s with
      table := blit s.table (address i nameOffset) (toBytes dir)
      claim := s.setStage p .named })
  | .setRootInode dir root, s =>
    match Container.find s.table dir with
    | none => .ok ((), s)
    | some c => .ok ((), { s with table := writeWord s.table (address c rootOffset) root.toNat })
  | .find nm, s => .ok (Container.find s.table nm, s)
  | .getCurrDisk z, s => .ok (intField s.table z .currDisk, s)
  | .setCurrDisk size z, s => .ok ((), { s with table := Container.setCurrDisk s.table size z })
  | .cstop nm, s => .ok ((), { s with table := resetNamed s.table nm })
  | .stop nm, s => .ok ((), { s with table := resetNamed s.table nm })
  | .contProcSet i, s =>
    .ok ((), { s with
      cont := Function.update s.cont p (some i)
      claim := s.setStage p .attached })
  | .fork room, s =>
    let (m, goes) := chargeFork s.table (s.cont p)
    -- The last call of the command ends its claim; the child is in its parent's container.
    .ok (goes && room, { s with
      table := m
      child := if goes && room then Function.update s.child p (s.cont p) else s.child
      claim := Function.update s.claim p none })
  | .overflow, _ => .error ()

end Xv6Containers.Container.Ctool
