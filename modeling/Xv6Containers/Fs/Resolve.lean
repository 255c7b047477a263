import Xv6Containers.Fs.Path

/-!
# Path lookup on a tree

What `namex` computes when nobody else changes the directories: a function of the
tree, of the working directory and of the container of the caller. Inodes are
given by their numbers; reference counts and locks are left out here.

## Implementation notes

`cont->root` may be null. Then `cont->root->inum` reads a word of the process's
own memory, `low`, and `return cont->root` returns null.
-/

namespace Xv6Containers.Resolve

open Lib.Memory Xv6Containers.Path

/-- What a lookup asks of the file system: which inodes are directories, and `dirlookup`. -/
structure Tree where
  isDir : Nat → Bool
  entry : Nat → Name → Option Nat

/-- What a lookup asks of the container of the caller. -/
structure Jail where
  root : Option Nat
  low : Nat

/-- `cont->root->inum`. -/
def Jail.rootInum (j : Jail) : Nat := j.root.getD j.low

/-- `strncmp(path, "..", 2) == 0 && cont != NULL && cont->root->inum == ip->inum`. -/
def Clamped (cont : Option Jail) (path : List Byte) (ip : Nat) : Prop :=
  StartsDotDot path ∧ ∃ j ∈ cont, j.rootInum = ip

instance (cont : Option Jail) (path : List Byte) (ip : Nat) : Decidable (Clamped cont path ip) :=
  match cont with
  | none => isFalse (by simp [Clamped])
  | some j => decidable_of_iff (StartsDotDot path ∧ j.rootInum = ip) (by simp [Clamped])

variable (T : Tree) (cont : Option Jail)

/-- The loop of `namex`, for the calls of `skipelem` that remain. -/
def namexLoop (nameiparent : Bool) : Nat → Name → List (Name × List Byte) → Option Nat × Name
  | ip, name, [] => if nameiparent then (none, name) else (some ip, name)
  | ip, _, (name, path) :: rest =>
    if T.isDir ip = false then (none, name)
    else if Clamped cont path ip then (some ip, name)
    else if cont.isSome ∧ ip = rootIno then (cont.bind (·.root), name)
    else if nameiparent = true ∧ path = [] then (some ip, name)
    else
      match T.entry ip name with
      | none => (none, name)
      | some next => namexLoop nameiparent next name rest

/-- Where `namex` starts. -/
def start (cwd : Nat) (path : List Byte) : Nat := if path.head? = some slash then rootIno else cwd

/-- `namex`. The buffer `name` stays as it was until the first element is taken. -/
def namex (cwd : Nat) (path : List Byte) (nameiparent : Bool) (name : Name) : Option Nat × Name :=
  if Clamped cont path (start cwd path) then (some (start cwd path), name)
  else namexLoop T cont nameiparent (start cwd path) name (elems path)

/-- `namei`, whose buffer is never read. -/
def namei (cwd : Nat) (path : List Byte) : Option Nat :=
  (namex T cont cwd path false (Name.ofBytes [])).1

def nameiparent (cwd : Nat) (path : List Byte) (name : Name) : Option Nat × Name :=
  namex T cont cwd path true name

variable {T cont}

variable {ip : Nat}

theorem not_clamped_none {path : List Byte} : ¬ Clamped none path ip := by
  simp [Clamped]

theorem not_root_none : ¬ ((none : Option Jail).isSome = true ∧ ip = rootIno) :=
  fun h => by simp at h

theorem clamped_some_iff {j : Jail} {path : List Byte} :
    Clamped (some j) path ip ↔ StartsDotDot path ∧ j.rootInum = ip := by
  simp [Clamped]

theorem not_startsDotDot_nil : ¬ StartsDotDot [] := by decide

theorem not_clamped_nil : ¬ Clamped cont [] ip := fun h => not_startsDotDot_nil h.1

section Element

variable {parent : Bool} {ip : Nat} {name name' : Name} {path : List Byte}
  {rest : List (Name × List Byte)}

theorem namexLoop_of_not_dir (hdir : T.isDir ip = false) :
    namexLoop T cont parent ip name' ((name, path) :: rest) = (none, name) := by
  rw [namexLoop, if_pos hdir]

theorem namexLoop_of_clamped (hdir : T.isDir ip = true) (hclamped : Clamped cont path ip) :
    namexLoop T cont parent ip name' ((name, path) :: rest) = (some ip, name) := by
  rw [namexLoop, if_neg (by simp [hdir]), if_pos hclamped]

/-- Neither of the container's exits is taken. -/
theorem namexLoop_of_open (hdir : T.isDir ip = true) (hclear : ¬ Clamped cont path ip)
    (hroot : cont.isSome = true → ip ≠ rootIno) :
    namexLoop T cont parent ip name' ((name, path) :: rest) =
      if parent = true ∧ path = [] then (some ip, name)
      else
        match T.entry ip name with
        | none => (none, name)
        | some next => namexLoop T cont parent next name rest := by
  rw [namexLoop, if_neg (by simp [hdir]), if_neg hclear, if_neg fun h => hroot h.1 h.2]

/-- Outside of containers there are no such exits. -/
theorem namexLoop_none (hdir : T.isDir ip = true) :
    namexLoop T none parent ip name' ((name, path) :: rest) =
      if parent = true ∧ path = [] then (some ip, name)
      else
        match T.entry ip name with
        | none => (none, name)
        | some next => namexLoop T none parent next name rest :=
  namexLoop_of_open hdir not_clamped_none fun h hip => not_root_none ⟨h, hip⟩

end Element

end Xv6Containers.Resolve
