import Xv6Containers.Fs.Syscalls

/-!
# A disk of inodes and directory entries

The disk as the directory code sees it: each inode with the list of its
directory entries. Blocks are not represented, so a write never runs out of
space, and the contents of files are not represented either.

## Implementation notes

A write that is stopped by the quota has stored its bytes but not the new size,
so an entry appended that way is not part of the directory. Devices have no
driver here.
-/

namespace Xv6Containers

open Lib.Memory Lib.Strings Lib.Program

/-- An inode on disk with its directory entries. -/
structure Node where
  d : Dinode
  ents : List Dirent

/-- The inodes by number. -/
abbrev Nodes := Nat → Node

/-- What `ialloc` makes of a free inode. -/
def newDinode (type : FileType) : Dinode := ⟨type, 0, 0, 0, 0, fun _ => 0⟩

/-- The longest file in bytes. -/
def maxFileBytes : Nat := maxFile * bsize

namespace Nodes

/-- The loop of `ialloc`. -/
def ialloc (ninodes : Nat) (s : Nodes) (type : FileType) : Except Halt (Nat × Nodes) :=
  match (List.range' 1 (ninodes - 1)).find? fun n => (s n).d.type = .free with
  | some n => .ok (n, Function.update s n ⟨newDinode type, []⟩)
  | none => .error (.panic .iallocNoInodes)

/-- `itrunc`. -/
def itrunc (s : Nodes) (n : Nat) (d : Dinode) : Nodes × Dinode :=
  let d := { d with size := 0 }
  (Function.update s n ⟨d, []⟩, d)

/-- `readi` of entry `k`, which fails unless it reads a whole entry. -/
def readDirent (s : Nodes) (n : Nat) (d : Dinode) (k : Nat) : Option Dirent :=
  if (k + 1) * direntSize ≤ d.size then (s n).ents[k]? else none

/-- `writei` of entry `k`. -/
def writeDirent (s : Nodes) (n : Nat) (d : Dinode) (k : Nat) (de : Dirent) (fires : Bool) :
    Written × Nodes × Dinode :=
  if d.size < k * direntSize ∨ maxFileBytes < (k + 1) * direntSize then (.refused, s, d)
  else if (k + 1) * direntSize ≤ d.size then
    (if fires then .quota else .done,
      Function.update s n { s n with ents := (s n).ents.set k de }, d)
  else if fires then (.quota, s, d)
  else
    let d := { d with size := (k + 1) * direntSize }
    (.done, Function.update s n ⟨d, (s n).ents ++ [de]⟩, d)

/-- `readi` of file contents: how many bytes are read. -/
def readData (d : Dinode) (off n : Nat) : Option Nat :=
  if d.type = .dev ∨ d.size < off then none else some (min n (d.size - off))

/-- `writei` of file contents: the size it leaves. -/
def writeData (s : Nodes) (n : Nat) (d : Dinode) (off len : Nat) (fires : Bool) :
    Written × Nodes × Dinode :=
  if d.type = .dev ∨ d.size < off ∨ maxFileBytes < off + len then (.refused, s, d)
  else if fires then (.quota, s, d)
  else if d.size < off + len then
    let d := { d with size := off + len }
    (.done, Function.update s n { s n with d := d }, d)
  else (.done, s, d)

end Nodes

/-- The disk of inodes and directory entries, with `ninodes` inodes. -/
def nodeStore (ninodes : Nat) : Store Nodes where
  load := fun s n => (s n).d
  iupdate := fun s n d => Function.update s n { s n with d := d }
  ialloc := Nodes.ialloc ninodes
  itrunc := fun s n d => .ok (s.itrunc n d)
  readDirent := fun s n d k => .ok (s.readDirent n d k, s, d)
  writeDirent := fun s n d k de fires => .ok (s.writeDirent n d k de fires)
  readData := fun s _ d off n => .ok (Nodes.readData d off n, s, d)
  writeData := fun s n d off bs fires => .ok (s.writeData n d off bs.length fires)

/-! ## The state after boot -/

/-- The root directory that `mkfs` makes, and free inodes. -/
def bootNodes : Nodes :=
  Function.update (fun _ => ⟨newDinode .free, []⟩) rootIno
    ⟨{ newDinode .dir with nlink := 1, size := 2 * direntSize },
      [⟨rootIno, dotName⟩, ⟨rootIno, dotDotName⟩]⟩

/-- A cache entry that was never used. -/
def emptyEntry : Inode Dinode := ⟨0, 0, 0, false, false, newDinode .free⟩

/-- One process, in the root directory, and no container. -/
def bootKernel {S : Type} (store : S) : Kernel S where
  store := store
  icache := Function.update (fun _ => emptyEntry) 0
    { emptyEntry with dev := 1, inum := rootIno, ref := 1 }
  file := fun _ => ⟨0, .none, false, false, 0, 0⟩
  cwd := Function.update (fun _ => none) 0 (some 0)
  ofile := fun _ _ => none
  root := fun _ => none
  cs :=
    { proc := Function.update (fun _ => ⟨.unused, 0, false, none⟩) 0 ⟨.runnable, 1, false, none⟩
      table := fun _ => 0
      low := fun _ => ofBytes [] }
  lowInum := fun _ => 0

end Xv6Containers
