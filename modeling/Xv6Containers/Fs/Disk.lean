import Xv6Containers.Fs.Nodes

/-!
# The disk in blocks

The disk below the inode cache with its free map, its block addresses and the
contents of its blocks: `balloc`, `bfree`, `bmap`, `itrunc`, `readi` and `writei`
of `fs.c`.

## Implementation notes

The inodes and the free map are values of their own and not bytes of blocks;
boot block, superblock and log are not represented. The entries of an indirect
block are words of its data. Every block passed to `log_write` is recorded, the
latest first. Devices have no driver here.
-/

namespace Xv6Containers

open Lib.Memory Lib.Program

structure Disk where
  inode : Nat → Dinode
  used : Nat → Bool
  data : Nat → Mem
  logged : List Nat

namespace Disk

variable (sb : Superblock)

def logWrite (s : Disk) (b : Nat) : Disk := { s with logged := b :: s.logged }

def setUsed (s : Disk) (b : Nat) (u : Bool) : Disk :=
  { s with used := Function.update s.used b u }.logWrite (sb.bblock b)

def setData (s : Disk) (b : Nat) (m : Mem) : Disk :=
  { s with data := Function.update s.data b m }.logWrite b

/-- `iupdate`. -/
def iupdate (s : Disk) (n : Nat) (d : Dinode) : Disk :=
  { s with inode := Function.update s.inode n d }.logWrite (sb.iblock n)

/-- The loop of `ialloc`. -/
def ialloc (s : Disk) (type : FileType) : Except Halt (Nat × Disk) :=
  match (List.range' 1 (sb.ninodes - 1)).find? fun n => (s.inode n).type = .free with
  | some n => .ok (n, s.iupdate sb n (newDinode type))
  | none => .error (.panic .iallocNoInodes)

/-- `balloc`. -/
def balloc (s : Disk) : Except Halt (Nat × Disk) :=
  match (List.range sb.size).find? fun b => s.used b = false with
  | some b => .ok (b, (s.setUsed sb b true).setData b fun _ => 0)
  | none => .error (.panic .ballocOutOfBlocks)

/-- `bfree`. -/
def bfree (s : Disk) (b : Nat) : Except Halt Disk :=
  if s.used b = false then .error (.panic .bfreeFree) else .ok (s.setUsed sb b false)

/-- The block in `ip->addrs[k]`, allocated if there is none. -/
def addrSlot (s : Disk) (d : Dinode) (k : Nat) : Except Halt (Nat × Disk × Dinode) :=
  if d.addrs k = 0 then do
    let (b, s) ← s.balloc sb
    return (b, s, { d with addrs := Function.update d.addrs k b })
  else .ok (d.addrs k, s, d)

/-- Entry `j` of the indirect block `b`. -/
def entry (s : Disk) (b j : Nat) : Nat := readWord (s.data b) (4 * j)

/-- `bmap`. -/
def bmap (s : Disk) (d : Dinode) (bn : Nat) : Except Halt (Nat × Disk × Dinode) :=
  if bn < ndirect then s.addrSlot sb d bn
  else if bn - ndirect < nindirect then do
    let (ind, s, d) ← s.addrSlot sb d ndirect
    if s.entry ind (bn - ndirect) = 0 then do
      let (b, s) ← s.balloc sb
      return (b, s.setData ind (writeWord (s.data ind) (4 * (bn - ndirect)) b), d)
    else return (s.entry ind (bn - ndirect), s, d)
  else .error (.panic .bmapOutOfRange)

/-- The loops of `itrunc`, over addresses of which the zero ones are skipped. -/
def bfreeAll (s : Disk) : List Nat → Except Halt Disk
  | [] => .ok s
  | b :: bs => if b = 0 then s.bfreeAll bs else do
      let s ← s.bfree sb b
      s.bfreeAll bs

/-- The part of `itrunc` that frees the indirect block and what it lists. -/
def freeIndirect (s : Disk) (ind : Nat) : Except Halt Disk :=
  if ind = 0 then .ok s else do
    let s ← s.bfreeAll sb ((List.range nindirect).map (s.entry ind))
    s.bfree sb ind

/-- `itrunc`. -/
def itrunc (s : Disk) (n : Nat) (d : Dinode) : Except Halt (Disk × Dinode) := do
  let s ← s.bfreeAll sb ((List.range ndirect).map d.addrs)
  let s ← s.freeIndirect sb (d.addrs ndirect)
  let d := { d with size := 0, addrs := fun k => if k ≤ ndirect then 0 else d.addrs k }
  return (s.iupdate sb n d, d)

/-- The loop of `readi` for `n` bytes at `off`, for at most `rounds` rounds. -/
def readLoop : Nat → Disk → Dinode → Nat → Nat → Except Halt (List Byte × Disk × Dinode)
  | 0, s, d, _, _ => .ok ([], s, d)
  | rounds + 1, s, d, off, n =>
    if n = 0 then .ok ([], s, d) else do
      let (b, s, d) ← s.bmap sb d (off / bsize)
      let m := min n (bsize - off % bsize)
      let bs := (List.range m).map fun i => s.data b (off % bsize + i)
      let (rest, s, d) ← readLoop rounds s d (off + m) (n - m)
      return (bs ++ rest, s, d)

/-- `readi`. -/
def readi (s : Disk) (d : Dinode) (off n : Nat) : Except Halt (Option (List Byte) × Disk × Dinode) :=
  if d.type = .dev ∨ d.size < off ∨ (off + n) % 2 ^ 32 < off then .ok (none, s, d)
  else do
    let n := if d.size < (off + n) % 2 ^ 32 then d.size - off else n
    let (bs, s, d) ← s.readLoop sb n d off n
    return (some bs, s, d)

/-- The loop of `writei`, for at most `rounds` rounds. -/
def writeLoop : Nat → Disk → Dinode → Nat → List Byte → Except Halt (Disk × Dinode)
  | 0, s, d, _, _ => .ok (s, d)
  | rounds + 1, s, d, off, bs =>
    if bs = [] then .ok (s, d) else do
      let (b, s, d) ← s.bmap sb d (off / bsize)
      let m := min bs.length (bsize - off % bsize)
      let s := s.setData b (blit (s.data b) (off % bsize) (bs.take m))
      writeLoop rounds s d (off + m) (bs.drop m)

/-- The checks of `writei` on offset and length. -/
def Accepts (d : Dinode) (off n : Nat) : Prop :=
  ¬ (d.size < off ∨ (off + n) % 2 ^ 32 < off) ∧ ¬ maxFileBytes < (off + n) % 2 ^ 32

instance (d : Dinode) (off n : Nat) : Decidable (Accepts d off n) := by
  unfold Accepts
  infer_instance

/-- The end of `writei`: a longer file gets its size and is written through. -/
def grow (s : Disk) (n : Nat) (d : Dinode) (off len : Nat) : Disk × Dinode :=
  if 0 < len ∧ d.size < off + len then
    let d := { d with size := off + len }
    (s.iupdate sb n d, d)
  else (s, d)

/-- `writei`, without drivers and accounting. -/
def write (s : Disk) (n : Nat) (d : Dinode) (off : Nat) (bs : List Byte) (fires : Bool) :
    Except Halt (Written × Disk × Dinode) :=
  if d.type ≠ .dev ∧ Accepts d off bs.length then do
    let (s, d) ← s.writeLoop sb bs.length d off bs
    if fires then return (.quota, s, d)
    else return (.done, s.grow sb n d off bs.length)
  else .ok (.refused, s, d)

end Disk

/-- The bytes of a directory entry. -/
def Dirent.toBytes (de : Dirent) : List Byte :=
  [UInt8.ofNat de.inum, UInt8.ofNat (de.inum / 256)] ++ de.name.bytes ++
    List.replicate (dirsiz - de.name.bytes.length) 0

def Dirent.ofBytes (bs : List Byte) : Dirent :=
  ⟨(bs.getD 0 0).toNat + 256 * (bs.getD 1 0).toNat, Name.ofBytes (bs.drop 2)⟩

namespace Disk

variable (sb : Superblock)

/-- `readi` of entry `k`, which fails unless it reads a whole entry. -/
def readDirent (s : Disk) (d : Dinode) (k : Nat) : Except Halt (Option Dirent × Disk × Dinode) := do
  let (r, s, d) ← s.readi sb d (k * direntSize) direntSize
  match r with
  | some bs => return (if bs.length = direntSize then some (.ofBytes bs) else none, s, d)
  | none => return (none, s, d)

def readData (s : Disk) (d : Dinode) (off n : Nat) : Except Halt (Option Nat × Disk × Dinode) := do
  let (r, s, d) ← s.readi sb d off n
  return (r.map List.length, s, d)

end Disk

/-- The disk in blocks. -/
def diskStore (sb : Superblock) : Store Disk where
  load := fun s n => s.inode n
  iupdate := fun s n d => s.iupdate sb n d
  ialloc := Disk.ialloc sb
  itrunc := fun s n d => s.itrunc sb n d
  readDirent := fun s _ d k => s.readDirent sb d k
  writeDirent := fun s n d k de fires => s.write sb n d (k * direntSize) de.toBytes fires
  readData := fun s _ d off n => s.readData sb d off n
  writeData := fun s n d off bs fires => s.write sb n d off bs fires

end Xv6Containers
