import Xv6Containers.Param
import Xv6Containers.Lib.CString

/-!
# Path names

Names of directory entries and the division of a path into elements, as
`skipelem` makes it. With each element comes the text that remains behind it:
`namex` looks at that text, not only at the elements.
-/

namespace Xv6Containers

open Lib.Memory Lib.Strings

/-- The string in a `char name[DIRSIZ]`: it ends at a zero byte or at the end of the array. -/
@[ext]
structure Name where
  bytes : List Byte
  no_nul : (0 : Byte) ∉ bytes
  short : bytes.length ≤ dirsiz

namespace Name

/-- What `DIRSIZ` bytes of memory hold. -/
def ofBytes (bs : List Byte) : Name where
  bytes := (bs.takeWhile (· ≠ 0)).take dirsiz
  no_nul := fun h => by simpa using List.mem_takeWhile_imp (List.mem_of_mem_take h)
  short := List.length_take_le _ _

instance : DecidableEq Name := fun s t =>
  decidable_of_iff (s.bytes = t.bytes) Name.ext_iff.symm

def empty : Name := ⟨[], nul_not_mem_nil, Nat.zero_le dirsiz⟩

end Name

/-- `.` -/
def dotName : Name := Name.ofBytes [46]

/-- `..` -/
def dotDotName : Name := Name.ofBytes [46, 46]

/-- `namecmp`. -/
def namecmp (s t : Name) : Int := strncmp dirsiz s.bytes t.bytes

namespace Path

def slash : Byte := 47

/-- `skipelem`: the first element and the text behind it, without the slashes that separate
them. -/
def skipelem (path : List Byte) : Option (Name × List Byte) :=
  let s := path.dropWhile (· = slash)
  if s = [] then none
  else some (Name.ofBytes (s.takeWhile (· ≠ slash)),
    (s.dropWhile (· ≠ slash)).dropWhile (· = slash))

/-- The calls of `skipelem` that a loop makes, at most `n` of them. -/
def elemsUpTo : Nat → List Byte → List (Name × List Byte)
  | 0, _ => []
  | n + 1, path =>
    match skipelem path with
    | none => []
    | some (name, rest) => (name, rest) :: elemsUpTo n rest

/-- The elements of a path, each with the text behind it. -/
def elems (path : List Byte) : List (Name × List Byte) := elemsUpTo path.length path

/-- `strncmp(path, "..", 2) == 0`. -/
def StartsDotDot (path : List Byte) : Prop := strncmp 2 path [46, 46] = 0

instance (path : List Byte) : Decidable (StartsDotDot path) := by
  unfold StartsDotDot
  infer_instance

theorem dropWhile_length_le (p : Byte → Bool) (l : List Byte) : (l.dropWhile p).length ≤ l.length :=
  (List.dropWhile_suffix p).length_le

/-- Each element shortens the text. -/
theorem skipelem_length {path rest : List Byte} {name : Name}
    (h : skipelem path = some (name, rest)) : rest.length < path.length := by
  unfold skipelem at h
  dsimp only at h
  split at h
  · cases h
  next hne =>
    cases h
    obtain ⟨c, cs, hcs⟩ := List.exists_cons_of_ne_nil hne
    have hc : c ≠ slash := by
      have hhead := List.head_dropWhile_not (fun b => decide (b = slash)) hne
      simpa [hcs] using hhead
    have hle := dropWhile_length_le (fun b => decide (b = slash)) path
    rw [hcs] at hle ⊢
    have hdrop : (c :: cs).dropWhile (fun b => decide (b ≠ slash)) =
        cs.dropWhile (fun b => decide (b ≠ slash)) := by
      simp [hc]
    rw [hdrop]
    have h₁ := dropWhile_length_le (fun b => decide (b = slash))
      (cs.dropWhile (fun b => decide (b ≠ slash)))
    have h₂ := dropWhile_length_le (fun b => decide (b ≠ slash)) cs
    simp only [List.length_cons] at hle
    omega

/-- The bound on the number of calls does not cut a path short. -/
theorem elemsUpTo_eq {n m : Nat} {path : List Byte} (hn : path.length ≤ n)
    (hm : path.length ≤ m) : elemsUpTo n path = elemsUpTo m path := by
  induction n generalizing m path with
  | zero =>
    have hnil : path = [] := List.eq_nil_of_length_eq_zero (by omega)
    subst hnil
    cases m <;> rfl
  | succ n ih =>
    cases m with
    | zero =>
      have hnil : path = [] := List.eq_nil_of_length_eq_zero (by omega)
      subst hnil
      rfl
    | succ m =>
      rw [elemsUpTo, elemsUpTo]
      cases hs : skipelem path with
      | none => rfl
      | some nr =>
        obtain ⟨name, rest⟩ := nr
        have hlt := skipelem_length hs
        simp only
        rw [ih (by omega) (by omega : rest.length ≤ m)]

/-- The elements of a path are its first one and those of the text behind it. -/
theorem elems_eq (path : List Byte) :
    elems path =
      match skipelem path with
      | none => []
      | some (name, rest) => (name, rest) :: elems rest := by
  cases path with
  | nil => rfl
  | cons b bs =>
    rw [elems, List.length_cons, elemsUpTo]
    cases hs : skipelem (b :: bs) with
    | none => rfl
    | some nr =>
      obtain ⟨name, rest⟩ := nr
      have hlt := skipelem_length hs
      simp only [List.length_cons] at hlt
      simp only
      rw [elems, elemsUpTo_eq (by omega) le_rfl]

end Path

end Xv6Containers
