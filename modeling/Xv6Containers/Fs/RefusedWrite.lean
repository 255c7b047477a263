import Xv6Containers.Container.ProcessCount
import Xv6Containers.Fs.Disk

/-!
# Writes that are refused

`writei` as a whole: drivers, the checks of its arguments, the loop over the
blocks, the system-wide counter `disk_used` and the quota of the container. A
call that returns `-1` has changed nothing, except where the quota check fires,
which comes after everything was stored and counted.

## Implementation notes

A driver is given by the value its `write` returns. `n` is the length of the
source buffer, and an `int` counter wraps around.
-/

namespace Xv6Containers

open Lib.Memory Lib.Strings Lib.Program

namespace Fs

/-- What `writei` reads and writes: the disk, the cached inode, the containers and
`disk_used`. -/
structure Target where
  disk : Disk
  d : Dinode
  cs : Container.State
  diskUsed : Int

/-- `set_os`. -/
def setOs (diskUsed os : Int) : Int := toSigned (Container.word (diskUsed + os))

variable (sb : Superblock) (devsw : Nat → Option (List Byte → Int)) (me : ProcSlot)

/-- `writei` for a device. -/
def devWrite (major : Int) (bs : List Byte) : Int :=
  if major < 0 ∨ ndev ≤ major then -1
  else match devsw major.toNat with
    | none => -1
    | some w => w bs

/-- `writei` for inode `inum`. -/
def writei (inum off : Nat) (bs : List Byte) (s : Target) : Except Halt (Int × Target) :=
  if s.d.type = .dev then .ok (devWrite devsw s.d.major bs, s)
  else if ¬ Disk.Accepts s.d off bs.length then .ok (-1, s)
  else do
    let (disk, d) ← s.disk.writeLoop sb bs.length s.d off bs
    let diskUsed := setOs s.diskUsed bs.length
    let (fires, cs) := Container.charge s.cs me bs.length
    if fires then return (-1, ⟨disk, d, cs, diskUsed⟩)
    else
      let (disk, d) := disk.grow sb inum d off bs.length
      return (bs.length, ⟨disk, d, cs, diskUsed⟩)

/-- What `readi` reads of the whole file. -/
def contents (s : Target) : Except Halt (Option (List Byte)) :=
  (s.disk.readi sb s.d 0 s.d.size).map Prod.fst

/-- The file with its inode, the free map and `disk_used` are as they were. -/
structure LeftAlone (inum : Nat) (s t : Target) : Prop where
  contents : contents sb t = contents sb s
  size : t.d.size = s.d.size
  used : t.disk.used = s.disk.used
  cached : t.d = s.d
  onDisk : t.disk.inode inum = s.disk.inode inum
  diskUsed : t.diskUsed = s.diskUsed

/-- The bytes would take the container of the running process past its quota. -/
def OverQuota (cs : Container.State) (me : ProcSlot) (n : Nat) : Prop :=
  0 < n ∧ ∃ x, Container.find cs.table (cs.contName me me) = some x ∧
    Container.intField cs.table x .maxDisk < (Container.intField cs.table x .currDisk + n).tdiv 1024

instance (cs : Container.State) (me : ProcSlot) (n : Nat) : Decidable (OverQuota cs me n) := by
  unfold OverQuota
  infer_instance

variable {sb devsw me}

theorem LeftAlone.refl (inum : Nat) (s : Target) : LeftAlone sb inum s s :=
  ⟨rfl, rfl, rfl, rfl, rfl, rfl⟩

/-- `set_curr_disk` leaves the counter as it was exactly when the quota stops it. -/
theorem setCurrDisk_kept_iff {m : Container.Table} {x : Cont} {n : Nat} (hpos : 0 < n)
    (hn : n < 2 ^ 32) :
    Container.intField m x .currDisk = Container.intField (Container.setCurrDisk m n x) x .currDisk ↔
      Container.intField m x .maxDisk < (Container.intField m x .currDisk + n).tdiv 1024 := by
  unfold Container.setCurrDisk
  split
  · next hover => exact ⟨fun _ => hover, fun _ => rfl⟩
  · next hover =>
    have hrange := Container.intField_range m x .currDisk
    have hchanged : Container.intField m x .currDisk ≠
        toSigned (Container.word (Container.intField m x .currDisk + n)) := by
      unfold toSigned Container.word
      split <;> omega
    refine ⟨fun heq => absurd (heq.trans ?_) hchanged, fun h => absurd h hover⟩
    rw [Container.intField, Container.field_writeWord_self]

/-- The quota check fires exactly when the bytes pass the quota. -/
theorem charge_fires_iff {cs : Container.State} {n : Nat} (hn : n < 2 ^ 32) :
    (Container.charge cs me n).1 = true ↔ OverQuota cs me n := by
  unfold Container.charge OverQuota
  dsimp only
  cases hfind : Container.find cs.table (cs.contName me me) with
  | none => simp
  | some x =>
    by_cases hpos : n > 0
    · simp only [hpos, if_true, Option.some.injEq, exists_eq_left', ← setCurrDisk_kept_iff hpos hn]
      split
      · next heq => exact ⟨fun _ => ⟨trivial, heq⟩, fun _ => rfl⟩
      · next hne => exact ⟨(fun h => nomatch h), fun h => absurd h.2 hne⟩
    · have hzero : n = 0 := by omega
      simp [hzero]

/-- A counted write changes `disk_used`. -/
theorem setOs_ne (u : Int) {n : Nat} (hpos : 0 < n) (hn : n < 2 ^ 32) : setOs u n ≠ u := by
  unfold setOs toSigned Container.word
  split <;> omega

/-- A process of a container that has one byte left of its quota of no kilobytes. -/
def almostFull : Container.State where
  proc := Function.update (fun _ => ⟨.unused, 0, false, none⟩) 0 ⟨.running, 1, false, some 0⟩
  table :=
    writeWord (writeWord (blit (Container.containerInit fun _ => 0) (Container.address 0
      Container.nameOffset) (toBytes Container.Processes.demoName))
      (Container.address 0 Container.Field.maxDisk.offset) 0)
      (Container.address 0 Container.Field.currDisk.offset) 1023
  low := fun _ => Container.emptyName

/-- A disk of four blocks with one inode, which is cached. -/
def oneInode (d : Dinode) : Target where
  disk := ⟨fun _ => d, fun b => b = 0 ∨ b = d.addrs 0, fun _ _ => 97, []⟩
  d := d
  cs := almostFull
  diskUsed := 0

def fourBlocks : Superblock := ⟨4, 2, 0, 0, 0, 0⟩

/-- An empty file. -/
def emptyFile : Target := oneInode { newDinode .file with nlink := 1 }

/-- A file of one byte. -/
def oneByteFile : Target :=
  oneInode { newDinode .file with nlink := 1, size := 1, addrs := Function.update (fun _ => 0) 0 1 }

end Fs

end Xv6Containers
