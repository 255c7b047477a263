import Mathlib

/-!
# Kernel constants

The values of `param.h`, `fs.h`, `stat.h` and `container.c`, and the disk
layout that `mkfs.c` computes from them.
-/

namespace Xv6Containers

instance neZero_one : NeZero 1 := ⟨by decide⟩

instance neZero_two : NeZero 2 := ⟨by decide⟩

instance neZero_three : NeZero 3 := ⟨by decide⟩

instance neZero_seven : NeZero 7 := ⟨by decide⟩

/-- `NPROC`: slots of the process table. -/
def nproc : Nat := 64

/-- `NOFILE`: open files of one process. -/
def nofile : Nat := 16

/-- `NFILE`: open files of the system. -/
def nfile : Nat := 100

/-- `NINODE`: entries of the inode cache. -/
def ninode : Nat := 50

/-- `NDEV`: major device numbers. -/
def ndev : Nat := 10

/-- `ROOTINO`: the inode number of the root directory. -/
def rootIno : Nat := 1

/-- `MAXOPBLOCKS`: blocks that one file-system operation may write. -/
def maxOpBlocks : Nat := 10

/-- `LOGSIZE`: data blocks of the log. -/
def logSize : Nat := maxOpBlocks * 3

/-- `FSSIZE`: blocks of the image that `mkfs` builds. -/
def fsSize : Nat := 20000

/-- `BSIZE`: bytes of a block. -/
def bsize : Nat := 512

/-- `NDIRECT`: direct block addresses of an inode. -/
def ndirect : Nat := 12

/-- `NINDIRECT`: addresses held by one indirect block. -/
def nindirect : Nat := 128

/-- `MAXFILE`: blocks of the longest file. -/
def maxFile : Nat := ndirect + nindirect

/-- `IPB`: inodes of one block. -/
def ipb : Nat := 8

/-- `BPB`: bits of one free-map block. -/
def bpb : Nat := bsize * 8

/-- `DIRSIZ`: bytes of a directory entry's name. -/
def dirsiz : Nat := 14

/-- `sizeof(struct dirent)`. -/
def direntSize : Nat := 16

/-- `MAX_CONTAINERS`: records of the container table. -/
def maxContainers : Nat := 4

/-- `NINODES` of `mkfs.c`: inodes of the image. -/
def mkfsInodes : Nat := 200

/-- `struct superblock`, as far as the kernel reads it. -/
structure Superblock where
  size : Nat
  ninodes : Nat
  nlog : Nat
  logstart : Nat
  inodestart : Nat
  bmapstart : Nat

namespace Superblock

/-- `IBLOCK`: the block that holds inode `i`. -/
def iblock (sb : Superblock) (i : Nat) : Nat := i / ipb + sb.inodestart

/-- `BBLOCK`: the free-map block that holds the bit of block `b`. -/
def bblock (sb : Superblock) (b : Nat) : Nat := b / bpb + sb.bmapstart

end Superblock

/-- The superblock that `mkfs` writes: boot block, superblock, `nlog = LOGSIZE` log
blocks, `NINODES / IPB + 1` inode blocks, `FSSIZE / BPB + 1` free-map blocks. -/
def mkfsSuperblock : Superblock where
  size := fsSize
  ninodes := mkfsInodes
  nlog := logSize
  logstart := 2
  inodestart := 2 + logSize
  bmapstart := 2 + logSize + (mkfsInodes / ipb + 1)

end Xv6Containers
