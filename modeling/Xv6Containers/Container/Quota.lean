import Xv6Containers.Container.Process

/-!
# The disk quota of a container

The accounting that `writei` and `sys_unlink` do for the container of the running
process. A write that would pass the quota stops the container.

## Implementation notes

The accounting goes by name: a process without a container is charged to the
container whose name happens to stand at the offset of `name` in its memory.
`set_curr_disk` for the index `-1` writes in front of the table, which is not
modelled. The system-wide counter `disk_used` is left out.
-/

namespace Xv6Containers

open Lib.Memory Lib.Strings

namespace Container

/-- An `int` field of a record. -/
def intField (m : Table) (c : Cont) (f : Field) : Int := toSigned (field m c f)

/-- `set_curr_disk`. -/
def setCurrDisk (m : Table) (disk : Int) (c : Cont) : Table :=
  if (intField m c .currDisk + disk).tdiv 1024 > intField m c .maxDisk then m
  else writeWord m (address c Field.currDisk.offset) (word (intField m c .currDisk + disk))

/-- The end of `writei`: charge `tot` bytes to the container of `me`. The flag says that the
quota check fired, in which case the container is stopped. -/
def charge (s : State) (me : ProcSlot) (tot : Nat) : Bool × State :=
  let nm := s.contName me me
  match find s.table nm with
  | none => (false, s)
  | some x =>
    if tot > 0 then
      let m := setCurrDisk s.table tot x
      if intField s.table x .currDisk = intField m x .currDisk then
        (true, (resetFound (killLoop me nm (fun _ => false) (List.finRange nproc) s) nm).getD s)
      else (false, { s with table := m })
    else (false, s)

/-- The accounting of `sys_unlink` for a file of `size` bytes. -/
def refund (s : State) (me : ProcSlot) (size : Nat) : State :=
  match find s.table (s.contName me me) with
  | none => s
  | some x => { s with table := setCurrDisk s.table (-size) x }

end Container

end Xv6Containers
