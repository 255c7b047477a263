import Xv6Containers.Fs.Path
import Xv6Containers.Inode.Cache

/-!
# What the file-system code needs of the disk

`Store` lists the functions of `fs.c` that reach the disk below the inode
cache: `iupdate`, the load in `ilock`, `ialloc`, `itrunc`, and `readi` and
`writei` for directory entries and for file contents. The code above is written
against it, and runs over every implementation.

## Implementation notes

The functions take the inode number and the cached copy of the inode, since
`bmap` and `itrunc` change that copy. There is one device, so it is not named.
-/

namespace Xv6Containers

open Lib.Memory

/-- The panics of the file system. -/
inductive Panic
  | igetNoInodes
  | ilock
  | ilockNoType
  | iunlock
  | iallocNoInodes
  | ballocOutOfBlocks
  | bfreeFree
  | bmapOutOfRange
  | dirlookupNotDir
  | dirlookupRead
  | dirlinkRead
  | dirlink
  | unlinkNlink
  | unlinkWritei
  | isdiremptyReadi
  | createDots
  | createDirlink
  | filedup
  | fileclose
  | fileread
  | filewrite
  | shortFilewrite
  deriving DecidableEq

/-- Why a call does not return. `blocked` waits for a sleep lock that is taken; `undefined`
uses a null pointer or an index outside an array. -/
inductive Halt
  | panic (p : Panic)
  | blocked
  | undefined
  deriving DecidableEq

/-- `struct dirent`. -/
structure Dirent where
  inum : Nat
  name : Name
  deriving DecidableEq

/-- How a `writei` ended: refused by the checks of its arguments, stopped by the quota, or
done. -/
inductive Written
  | refused
  | quota
  | done
  deriving DecidableEq

/-- The disk below the inode cache. The flag of the two writes says that the quota check at
the end of `writei` fires. -/
structure Store (S : Type) where
  load : S → Nat → Dinode
  iupdate : S → Nat → Dinode → S
  ialloc : S → FileType → Except Halt (Nat × S)
  itrunc : S → Nat → Dinode → Except Halt (S × Dinode)
  readDirent : S → Nat → Dinode → Nat → Except Halt (Option Dirent × S × Dinode)
  writeDirent : S → Nat → Dinode → Nat → Dirent → Bool → Except Halt (Written × S × Dinode)
  readData : S → Nat → Dinode → Nat → Nat → Except Halt (Option Nat × S × Dinode)
  writeData : S → Nat → Dinode → Nat → List Byte → Bool → Except Halt (Written × S × Dinode)

/-- The number of entries that a loop over the directory visits. -/
def Dinode.direntCount (d : Dinode) : Nat := (d.size + direntSize - 1) / direntSize

end Xv6Containers
