import Xv6Containers.Fs.Path

/-!
# The elements of a path

`skipelem` scans memory for the first element of a path and copies it to an array of
`DIRSIZ` bytes. On a string its loops end, and calling it again on what it returns
visits the longest runs of characters other than slashes, one after the other. What it
leaves in the array and where it points to are what `Path.elems` says of the string.

## Implementation notes

The loops and the calls are counted down. For strings the counts are never used up, so
nothing depends on them. The array is a memory of its own: `name` is a local variable
wherever `skipelem` is called from, and no path lies in it.
-/

namespace Xv6Containers.Path

open Lib.Memory

/-! ## `skipelem` on memory -/

/-- The loops `while(test(*path)) path++`. -/
def scan (test : Byte → Bool) (mem : Mem) : Nat → Nat → Option Nat
  | 0, _ => none
  | fuel + 1, path => if test (mem path) then scan test mem fuel (path + 1) else some path

/-- The bytes of memory from `a` on. -/
def bytesAt (mem : Mem) : Nat → Nat → List Byte
  | _, 0 => []
  | a, n + 1 => mem a :: bytesAt mem (a + 1) n

/-- The element is copied to `name`: its first `DIRSIZ` bytes, or all of it and a zero. -/
def copyElem (elem : List Byte) (name : Mem) : Mem :=
  if dirsiz ≤ elem.length then blit name 0 (elem.take dirsiz)
  else blit (blit name 0 elem) elem.length [0]

/-- `skipelem`: the pointer that it returns, which may be null, and the array `name`. -/
def skipelemAt (mem : Mem) (fuel path : Nat) (name : Mem) : Option (Option Nat × Mem) := do
  let path ← scan (· = slash) mem fuel path
  if mem path = 0 then
    return (none, name)
  let s := path
  let path ← scan (fun c => c ≠ slash ∧ c ≠ 0) mem fuel path
  let name := copyElem (bytesAt mem s (path - s)) name
  let path ← scan (· = slash) mem fuel path
  return (some path, name)

/-- `while((path = skipelem(path, name)) != 0)`: the array and the pointer after each call that
does not return null. -/
def elemsAt (mem : Mem) (fuel : Nat) : Nat → Nat → Mem → Option (List (Mem × Nat))
  | 0, _, _ => none
  | n + 1, path, name =>
    match skipelemAt mem fuel path name with
    | none => none
    | some (none, _) => some []
    | some (some path, name) => (elemsAt mem fuel n path name).map ((name, path) :: ·)

/-! ## What the elements are -/

/-- A text and the zero behind it are in memory at `path`. -/
def Holds (mem : Mem) : Nat → List Byte → Prop
  | path, [] => mem path = 0
  | path, c :: text => mem path = c ∧ c ≠ 0 ∧ Holds mem (path + 1) text

instance : (mem : Mem) → (path : Nat) → (text : List Byte) → Decidable (Holds mem path text)
  | mem, path, [] => inferInstanceAs (Decidable (mem path = 0))
  | mem, path, _ :: text =>
    have := instDecidableHolds mem (path + 1) text
    inferInstanceAs (Decidable (_ ∧ _ ∧ _))

/-- The array after each of the elements. -/
def copies : List (List Byte) → Mem → List Mem
  | [], _ => []
  | elem :: elems, name => copyElem elem name :: copies elems (copyElem elem name)

/-- The longest runs of characters other than slashes: what stands between two slashes or the ends
of the text, if it is not empty. -/
def runs (text : List Byte) : List (List Byte) := (text.splitOn slash).filter (· ≠ [])

/-- The text with one slash where several follow each other, and none at its end. -/
def squeeze : List Byte → List Byte
  | [] => []
  | c :: text =>
    if c = slash ∧ ((squeeze text).head? = none ∨ (squeeze text).head? = some slash) then squeeze text
    else c :: squeeze text

/-- The array holds the first `DIRSIZ` bytes of the element, with a zero behind a shorter one. -/
def Copied (name : Mem) (elem : List Byte) : Prop :=
  bytesAt name 0 (min elem.length dirsiz) = elem.take dirsiz ∧
    (elem.length < dirsiz → name elem.length = 0)

/-! ## The first element of a path -/

/-- A path with at least one component: slashes, the component, slashes, and the rest. -/
structure Splits (path a b c rest : List Byte) : Prop where
  eq : path = a ++ (b ++ (c ++ rest))
  before : ∀ x ∈ a, x = slash
  component : ∀ x ∈ b, x ≠ slash
  nonempty : b ≠ []
  behind : ∀ x ∈ c, x = slash
  separated : rest ≠ [] → c ≠ []
  clean : ∀ x ∈ rest.head?, x ≠ slash

variable {p : Byte → Bool} {path rest : List Byte}

theorem dropWhile_of_head {l : List Byte} (h : ∀ x ∈ l.head?, p x = false) : l.dropWhile p = l := by
  cases l with
  | nil => rfl
  | cons x l => simp [h x rfl]

theorem head_dropWhile {l : List Byte} : ∀ x ∈ (l.dropWhile p).head?, p x = false := by
  intro x hx
  induction l with
  | nil => simp at hx
  | cons y l ih =>
    cases hy : p y with
    | true => exact ih (by simpa [hy] using hx)
    | false =>
      obtain rfl : y = x := by simpa [hy] using hx
      exact hy

variable {a b c : List Byte}

/-- The element ends at a slash or with the path. -/
theorem Splits.stop (h : Splits path a b c rest) : ∀ x ∈ (c ++ rest).head?, x = slash := by
  cases c with
  | nil =>
    cases hrest : rest with
    | nil => simp
    | cons y r => exact absurd rfl (h.separated (by simp [hrest]))
  | cons y c => simp [h.behind y (by simp)]

theorem Splits.skipelem (h : Splits path a b c rest) :
    skipelem path = some (Name.ofBytes b, rest) := by
  obtain ⟨x, b', hb⟩ := List.exists_cons_of_ne_nil h.nonempty
  have hx : x ≠ slash := h.component x (by simp [hb])
  have hfirst : path.dropWhile (· = slash) = b ++ (c ++ rest) := by
    rw [h.eq, List.dropWhile_append_of_pos (by simpa using h.before), hb]
    exact dropWhile_of_head (by simp [hx])
  have hstop : ∀ x ∈ (c ++ rest).head?, decide (x ≠ slash) = false := by
    simpa using h.stop
  have htake : (b ++ (c ++ rest)).takeWhile (· ≠ slash) = b := by
    rw [List.takeWhile_append_of_pos (by simpa using h.component)]
    cases hcr : c ++ rest with
    | nil => simp
    | cons y r => simpa [hcr] using hstop
  have hdrop : (b ++ (c ++ rest)).dropWhile (· ≠ slash) = c ++ rest := by
    rw [List.dropWhile_append_of_pos (by simpa using h.component), dropWhile_of_head hstop]
  have hlast : (c ++ rest).dropWhile (· = slash) = rest := by
    rw [List.dropWhile_append_of_pos (by simpa using h.behind)]
    exact dropWhile_of_head (by simpa using h.clean)
  simp only [Path.skipelem]
  rw [hfirst, if_neg (by simp [hb]), htake, hdrop, hlast]

theorem exists_splits {name : Name} (h : skipelem path = some (name, rest)) :
    ∃ a b c, Splits path a b c rest ∧ name = Name.ofBytes b := by
  simp only [skipelem] at h
  split at h
  · cases h
  next hne =>
    cases h
    have hhead : ∀ x ∈ (path.dropWhile (· = slash)).head?, x ≠ slash :=
      fun x hx => by simpa using head_dropWhile x hx
    refine ⟨path.takeWhile (· = slash), _,
      ((path.dropWhile (· = slash)).dropWhile (· ≠ slash)).takeWhile (· = slash), ?_, rfl⟩
    refine ⟨?_, ?_, ?_, ?_, ?_, ?_, ?_⟩
    · rw [List.takeWhile_append_dropWhile, List.takeWhile_append_dropWhile,
        List.takeWhile_append_dropWhile]
    · exact fun x hx => by simpa using List.mem_takeWhile_imp hx
    · exact fun x hx => by simpa using List.mem_takeWhile_imp hx
    · obtain ⟨x, l, hl⟩ := List.exists_cons_of_ne_nil hne
      rw [hl] at hhead ⊢
      simp [hhead x rfl]
    · exact fun x hx => by simpa using List.mem_takeWhile_imp hx
    · intro hrest hnil
      -- without separating slashes the rest would begin with a slash
      have hsame := List.takeWhile_append_dropWhile (p := fun x => decide (x = slash))
        (l := (path.dropWhile (· = slash)).dropWhile (· ≠ slash))
      rw [hnil, List.nil_append] at hsame
      obtain ⟨x, l, hl⟩ := List.exists_cons_of_ne_nil hrest
      have hslash : x = slash := by
        have hx := head_dropWhile (p := fun x => decide (x ≠ slash))
          (l := path.dropWhile (· = slash)) x (by rw [← hsame, hl]; rfl)
        simpa using hx
      have hclean := head_dropWhile (p := fun x => decide (x = slash)) x (by rw [hl]; rfl)
      simp [hslash] at hclean
    · exact fun x hx => by simpa using head_dropWhile x hx

theorem skipelem_eq_none_iff : skipelem path = none ↔ ∀ x ∈ path, x = slash := by
  simp [skipelem, List.dropWhile_eq_nil_iff]

theorem elems_of_skipelem {name : Name} (h : skipelem path = some (name, rest)) :
    elems path = (name, rest) :: elems rest := by
  rw [elems_eq, h]

theorem elems_of_slashes (h : ∀ x ∈ path, x = slash) : elems path = [] := by
  rw [elems_eq, skipelem_eq_none_iff.mpr h]

/-! ## The runs of a text -/

theorem runs_slash (text : List Byte) : runs (slash :: text) = runs text := by
  rw [runs, List.splitOn, List.splitOnP_cons_eq_if_modifyHead, if_pos (by simp)]
  exact List.filter_cons_of_neg (by simp)

theorem runs_slashes (h : ∀ x ∈ a, x = slash) (text : List Byte) : runs (a ++ text) = runs text := by
  induction a with
  | nil => rfl
  | cons x a ih =>
    rw [h x (by simp), List.cons_append, runs_slash]
    exact ih fun y hy => h y (by simp [hy])

/-- The text begins with an element, which ends at a slash or with the text. -/
theorem runs_component (hb : ∀ x ∈ b, x ≠ slash) (hne : b ≠ []) (h : ∀ x ∈ rest.head?, x = slash) :
    runs (b ++ rest) = b :: runs rest := by
  cases rest with
  | nil =>
    rw [List.append_nil, runs, List.splitOn, List.splitOnP_eq_singleton (by simpa using hb)]
    exact List.filter_cons_of_pos (by simpa using hne)
  | cons x rest =>
    rw [h x rfl, runs_slash, runs, List.splitOn,
      List.splitOnP_append_cons_of_forall_mem (by simpa using hb) _ (by simp)]
    exact List.filter_cons_of_pos (by simpa using hne)

theorem Splits.runs (h : Splits path a b c rest) : runs path = b :: runs rest := by
  rw [h.eq, runs_slashes h.before, runs_component h.component h.nonempty h.stop,
    runs_slashes h.behind]

/-- The text begins with `c`: its first run, and those behind it. -/
theorem runs_cons {c : Byte} (hc : c ≠ slash) (text : List Byte) :
    runs (c :: text) = (c :: text.takeWhile (· ≠ slash)) :: runs (text.dropWhile (· ≠ slash)) := by
  rw [← runs_component _ (List.cons_ne_nil c _), List.cons_append, List.takeWhile_append_dropWhile]
  · exact fun x hx => by simpa using head_dropWhile x hx
  · intro x hx
    rcases List.mem_cons.mp hx with rfl | hx
    · exact hc
    · simpa using List.mem_takeWhile_imp hx

/-- Slashes that `squeeze` removes separate nothing. The first run and what is behind it stay the
same as well, which is what the induction needs. -/
theorem runs_squeeze_aux (text : List Byte) :
    runs (squeeze text) = runs text ∧
      (squeeze text).takeWhile (· ≠ slash) = text.takeWhile (· ≠ slash) ∧
      runs ((squeeze text).dropWhile (· ≠ slash)) = runs (text.dropWhile (· ≠ slash)) := by
  induction text with
  | nil => exact ⟨rfl, rfl, rfl⟩
  | cons c text ih =>
    obtain ⟨hruns, htake, hdrop⟩ := ih
    by_cases hc : c = slash
    · subst hc
      have hsame : runs (squeeze (slash :: text)) = runs (slash :: text) := by
        rw [runs_slash, squeeze, ← hruns]
        split
        · rfl
        · exact runs_slash _
      have hhead : ∀ x ∈ (squeeze (slash :: text)).head?, decide (x ≠ slash) = false := by
        intro x hx
        rw [squeeze] at hx
        split at hx
        · next h =>
          rcases h.2 with hnone | hslash
          · rw [hnone] at hx
            cases hx
          · rw [hslash] at hx
            cases hx
            simp
        · cases hx
          simp
      refine ⟨hsame, ?_, ?_⟩
      · cases hsq : squeeze (slash :: text) with
        | nil => simp
        | cons x l =>
          rw [hsq] at hhead
          rw [List.takeWhile_cons_of_neg (by rw [hhead x rfl]; simp),
            List.takeWhile_cons_of_neg (by simp)]
      · rw [dropWhile_of_head hhead, List.dropWhile_cons_of_neg (by simp), hsame]
    · have hsq : squeeze (c :: text) = c :: squeeze text := by
        rw [squeeze, if_neg fun h => hc h.1]
      rw [hsq]
      refine ⟨?_, ?_, ?_⟩
      · rw [runs_cons hc, runs_cons hc, htake, hdrop]
      · rw [List.takeWhile_cons_of_pos (by simpa using hc),
          List.takeWhile_cons_of_pos (by simpa using hc), htake]
      · rw [List.dropWhile_cons_of_pos (by simpa using hc),
          List.dropWhile_cons_of_pos (by simpa using hc), hdrop]

theorem runs_squeeze (text : List Byte) : runs (squeeze text) = runs text := (runs_squeeze_aux text).1

/-! ## The loops -/

variable {mem : Mem} {fuel pos : Nat} {text : List Byte}

theorem Holds.append (h : Holds mem pos (a ++ text)) : Holds mem (pos + a.length) text := by
  induction a generalizing pos with
  | nil => exact h
  | cons x a ih =>
    have hrest := ih h.2.2
    rwa [Nat.add_assoc, Nat.add_comm 1, ← List.length_cons] at hrest

theorem Holds.bytesAt (h : Holds mem pos (a ++ text)) : bytesAt mem pos a.length = a := by
  induction a generalizing pos with
  | nil => rfl
  | cons x a ih => rw [List.length_cons, Path.bytesAt, h.1, ih h.2.2]

theorem Holds.ne_zero (h : Holds mem pos (a ++ text)) : ∀ x ∈ a, x ≠ 0 := by
  induction a generalizing pos with
  | nil => simp
  | cons x a ih =>
    intro y hy
    rcases List.mem_cons.mp hy with rfl | hy
    · exact h.2.1
    · exact ih h.2.2 y hy

/-- The byte at the pointer is the first one of the text, or zero. -/
theorem Holds.byte (h : Holds mem pos text) : mem pos = text.head?.getD 0 := by
  cases text with
  | nil => exact h
  | cons x text => exact h.1

theorem Holds.byte_eq_zero_iff (h : Holds mem pos text) : mem pos = 0 ↔ text = [] := by
  cases text with
  | nil => exact iff_of_true h rfl
  | cons x text => simpa [h.1] using h.2.1

/-- A loop passes the bytes that meet its test, and stops where one does not. -/
theorem scan_eq {test : Byte → Bool} (h : Holds mem pos (a ++ text)) (ha : ∀ x ∈ a, test x = true)
    (hstop : test (text.head?.getD 0) = false) (hfuel : a.length < fuel) :
    scan test mem fuel pos = some (pos + a.length) := by
  induction a generalizing pos fuel with
  | nil =>
    obtain ⟨fuel, rfl⟩ := Nat.exists_eq_succ_of_ne_zero (Nat.ne_of_gt hfuel)
    rw [scan, h.byte]
    simp only [List.nil_append, hstop]
    rfl
  | cons x a ih =>
    obtain ⟨fuel, rfl⟩ := Nat.exists_eq_succ_of_ne_zero (by omega : fuel ≠ 0)
    simp only [List.length_cons] at hfuel ⊢
    rw [scan, h.1, if_pos (ha x (by simp)), ih h.2.2 (fun y hy => ha y (by simp [hy])) (by omega)]
    congr 1
    omega

/-- A path without an element. -/
theorem skipelemAt_of_slashes (h : Holds mem pos text) (hall : ∀ x ∈ text, x = slash)
    (hfuel : text.length < fuel) (name : Mem) : skipelemAt mem fuel pos name = some (none, name) := by
  have h' : Holds mem pos (text ++ []) := by rwa [List.append_nil]
  have hend : mem (pos + text.length) = 0 := h'.append
  have hscan : scan (· = slash) mem fuel pos = some (pos + text.length) :=
    scan_eq h' (by simpa using hall) (by decide) hfuel
  simp only [skipelemAt, hscan, Option.bind_eq_bind, Option.bind_some, hend, if_true]
  rfl

/-- A path with an element. -/
theorem skipelemAt_of_splits (h : Holds mem pos path) (hs : Splits path a b c rest)
    (hfuel : path.length < fuel) (name : Mem) :
    skipelemAt mem fuel pos name =
      some (some (pos + a.length + b.length + c.length), copyElem b name) := by
  obtain ⟨x, b', hb⟩ := List.exists_cons_of_ne_nil hs.nonempty
  have hx : x ≠ slash := hs.component x (by simp [hb])
  rw [hs.eq] at h hfuel
  have hb₁ := h.append
  have hc₁ := hb₁.append
  simp only [List.length_append] at hfuel
  have hscan₁ : scan (· = slash) mem fuel pos = some (pos + a.length) := by
    apply scan_eq h (by simpa using hs.before) _ (by omega)
    simp [hb, hx]
  have hscan₂ : scan (fun c => c ≠ slash ∧ c ≠ 0) mem fuel (pos + a.length) =
      some (pos + a.length + b.length) := by
    apply scan_eq hb₁ _ _ (by omega)
    · exact fun y hy => by simpa using ⟨hs.component y hy, hb₁.ne_zero y hy⟩
    · cases hhead : (c ++ rest).head? with
      | none => simp
      | some y => simp [hs.stop y hhead]
  have hscan₃ : scan (· = slash) mem fuel (pos + a.length + b.length) =
      some (pos + a.length + b.length + c.length) := by
    apply scan_eq hc₁ (by simpa using hs.behind) _ (by omega)
    cases hhead : rest.head? with
    | none => decide
    | some y => simpa using hs.clean y hhead
  have hne : mem (pos + a.length) ≠ 0 := by
    rw [Ne, hb₁.byte_eq_zero_iff]
    simp [hb]
  simp only [skipelemAt, hscan₁, hscan₂, hscan₃, Option.bind_eq_bind, Option.bind_some, hne, if_false,
    Nat.add_sub_cancel_left, hb₁.bytesAt]
  rfl

/-! ## The array -/

theorem bytesAt_eq {bs : List Byte} (h : ∀ i < bs.length, mem (pos + i) = bs.getD i 0) :
    bytesAt mem pos bs.length = bs := by
  induction bs generalizing pos with
  | nil => rfl
  | cons x bs ih =>
    rw [List.length_cons, bytesAt, ih fun i hi => ?_]
    · exact congrArg (· :: bs) (h 0 (by simp))
    · have hnext := h (i + 1) (by simpa using hi)
      rwa [Nat.add_comm i, ← Nat.add_assoc, Nat.add_comm 1 i] at hnext

theorem bytesAt_add (mem : Mem) (pos n k : Nat) :
    bytesAt mem pos (n + k) = bytesAt mem pos n ++ bytesAt mem (pos + n) k := by
  induction n generalizing pos with
  | zero => rw [Nat.zero_add]; rfl
  | succ n ih => rw [Nat.succ_add, bytesAt, ih, Nat.add_assoc, Nat.add_comm 1]; rfl

theorem copied_copyElem (elem : List Byte) (name : Mem) : Copied (copyElem elem name) elem := by
  unfold copyElem
  split
  · next hlong =>
    have hlen : min elem.length dirsiz = (elem.take dirsiz).length := by
      rw [List.length_take, Nat.min_comm]
    refine ⟨?_, fun hshort => absurd hlong (Nat.not_le.mpr hshort)⟩
    rw [hlen]
    exact bytesAt_eq fun i hi => blit_inside name 0 _ hi
  · next hshort =>
    rw [Nat.not_le] at hshort
    refine ⟨?_, fun _ => blit_inside _ elem.length [0] Nat.one_pos⟩
    rw [Nat.min_eq_left hshort.le, List.take_of_length_le hshort.le]
    apply bytesAt_eq
    intro i hi
    rw [blit_of_lt _ _ (by omega)]
    exact blit_inside name 0 elem hi

theorem copied_copies (elems : List (List Byte)) (name : Mem) :
    List.Forall₂ Copied (copies elems name) elems := by
  induction elems generalizing name with
  | nil => exact .nil
  | cons elem elems ih => exact .cons (copied_copyElem elem name) (ih _)

/-- The array is the name that the rest of the file system reads in it. -/
theorem Copied.ofBytes {name : Mem} {elem : List Byte} (h : Copied name elem) (hne : ∀ x ∈ elem, x ≠ 0) :
    Name.ofBytes (bytesAt name 0 dirsiz) = Name.ofBytes elem := by
  have hall : ∀ x ∈ elem, decide (x ≠ 0) = true := by simpa using hne
  apply Name.ext
  simp only [Name.ofBytes]
  rw [List.takeWhile_eq_self_iff.mpr hall]
  obtain ⟨hbytes, hzero⟩ := h
  rcases Nat.lt_or_ge elem.length dirsiz with hshort | hlong
  · obtain ⟨k, hk⟩ := Nat.exists_eq_add_of_lt hshort
    rw [Nat.min_eq_left hshort.le, List.take_of_length_le hshort.le] at hbytes
    rw [hk, Nat.add_assoc, bytesAt_add, hbytes, Nat.add_comm k, ← Nat.succ_eq_one_add, bytesAt,
      Nat.zero_add, hzero hshort, List.takeWhile_append_of_pos hall]
    simp
  · rw [Nat.min_eq_right hlong] at hbytes
    rw [hbytes, List.takeWhile_eq_self_iff.mpr fun x hx => hall x (List.mem_of_mem_take hx),
      List.take_take, Nat.min_self]

/-! ## All elements -/

theorem elems_eq_cons {elem : Name × List Byte} {after : List (Name × List Byte)}
    (h : elems path = elem :: after) : skipelem path = some elem ∧ elems elem.2 = after := by
  cases hskip : skipelem path with
  | none =>
    rw [elems_eq, hskip] at h
    cases h
  | some first =>
    rw [elems_of_skipelem hskip] at h
    cases h
    exact ⟨rfl, rfl⟩

theorem Splits.suffix (h : Splits path a b c rest) : rest <:+ path := by
  rw [h.eq, ← List.append_assoc, ← List.append_assoc]
  exact List.suffix_append _ rest

/-- What is behind an element: it has no leading slash, and the elements after this one. -/
theorem elems_behind {before after : List (Name × List Byte)} {elem : Name × List Byte}
    (h : elems path = before ++ elem :: after) :
    elem.2 <:+ path ∧ (∀ x ∈ elem.2.head?, x ≠ slash) ∧ elems elem.2 = after := by
  induction before generalizing path with
  | nil =>
    obtain ⟨hskip, hafter⟩ := elems_eq_cons h
    obtain ⟨a, b, c, hs, -⟩ := exists_splits hskip
    exact ⟨hs.suffix, hs.clean, hafter⟩
  | cons first before ih =>
    obtain ⟨hskip, hrest⟩ := elems_eq_cons h
    obtain ⟨a, b, c, hs, -⟩ := exists_splits hskip
    obtain ⟨hsuffix, hbehind⟩ := ih hrest
    exact ⟨hsuffix.trans hs.suffix, hbehind⟩

theorem elems_eq_nil_iff (h : ∀ x ∈ path.head?, x ≠ slash) : elems path = [] ↔ path = [] := by
  constructor
  · intro hnil
    cases path with
    | nil => rfl
    | cons x path =>
      cases hskip : skipelem (x :: path) with
      | none => exact absurd (skipelem_eq_none_iff.mp hskip x (by simp)) (h x rfl)
      | some e =>
        rw [elems_of_skipelem hskip] at hnil
        cases hnil
  · rintro rfl
    rfl

/-- The loop over a string: the array after each call depends on the runs only, and the pointer is
to what `elems` has behind the element. -/
theorem elemsAt_spec (h : Holds mem pos path) (name : Mem) :
    ∃ calls, (∀ fuel n, path.length < fuel → path.length < n →
        elemsAt mem fuel n pos name = some calls) ∧
      calls.map Prod.fst = copies (runs path) name ∧
      List.Forall₂ (fun call elem => Name.ofBytes (bytesAt call.1 0 dirsiz) = elem.1 ∧
        Holds mem call.2 elem.2) calls (elems path) := by
  induction hlen : path.length using Nat.strong_induction_on generalizing path pos name with
  | _ m ih =>
    cases hskip : skipelem path with
    | none =>
      have hslash := skipelem_eq_none_iff.mp hskip
      have hruns := runs_slashes hslash []
      rw [List.append_nil] at hruns
      refine ⟨[], fun fuel n hfuel hn => ?_, ?_, ?_⟩
      · obtain ⟨n, rfl⟩ := Nat.exists_eq_succ_of_ne_zero (by omega : n ≠ 0)
        rw [elemsAt, skipelemAt_of_slashes h hslash (by omega)]
      · rw [hruns]
        rfl
      · rw [elems_of_slashes hslash]
        exact .nil
    | some elem =>
      obtain ⟨first, rest⟩ := elem
      obtain ⟨a, b, c, hs, rfl⟩ := exists_splits hskip
      have hlt := skipelem_length hskip
      have h' := h
      rw [hs.eq] at h'
      have hb := h'.append
      obtain ⟨calls, hcalls, hnames, hrests⟩ :=
        ih rest.length (hlen ▸ hlt) hb.append.append (copyElem b name) rfl
      refine ⟨(copyElem b name, pos + a.length + b.length + c.length) :: calls,
        fun fuel n hfuel hn => ?_, ?_, ?_⟩
      · obtain ⟨n, rfl⟩ := Nat.exists_eq_succ_of_ne_zero (by omega : n ≠ 0)
        rw [elemsAt, skipelemAt_of_splits h hs (by omega)]
        simp only
        rw [hcalls fuel n (by omega) (by omega)]
        rfl
      · rw [hs.runs, copies, List.map_cons, hnames]
      · rw [elems_of_skipelem hskip]
        exact .cons ⟨(copied_copyElem b name).ofBytes hb.ne_zero, hb.append.append⟩ hrests

/-- A list of pairs, divided at one of them. -/
theorem forall₂_append_cons {α β : Type} {R : α → β → Prop} {x : α} {before after : List α}
    {l : List β} (h : List.Forall₂ R (before ++ x :: after) l) :
    ∃ before' y after', l = before' ++ y :: after' ∧ R x y ∧ List.Forall₂ R after after' := by
  induction before generalizing l with
  | nil =>
    obtain ⟨y, after', hxy, hrest, rfl⟩ := List.forall₂_cons_left_iff.mp h
    exact ⟨[], y, after', rfl, hxy, hrest⟩
  | cons z before ih =>
    obtain ⟨w, l, _, hrest, rfl⟩ := List.forall₂_cons_left_iff.mp h
    obtain ⟨before', y, after', rfl, hxy, hafter⟩ := ih hrest
    exact ⟨w :: before', y, after', rfl, hxy, hafter⟩

/-- A string in memory is split into its runs. The calls of `skipelem` come to an end; the array
holds the runs one after the other, each cut off after `DIRSIZ` bytes or with a zero behind it; the
pointer is to a rest of the path that does not begin with a slash and is empty exactly after the last
run; and a path that is the same but for the numbers of slashes that follow each other or end it
leaves the same in the array. -/
theorem path_split_into_runs (h : Holds mem pos text) (name : Mem) :
    ∃ calls, (∀ fuel, text.length < fuel → elemsAt mem fuel fuel pos name = some calls) ∧
      List.Forall₂ (fun call run => Copied call.1 run) calls (runs text) ∧
      (∀ before call after, calls = before ++ call :: after →
        ∃ rest, rest <:+ text ∧ Holds mem call.2 rest ∧ mem call.2 ≠ slash ∧
          (mem call.2 = 0 ↔ after = [])) ∧
      ∀ mem' pos' text', Holds mem' pos' text' → squeeze text' = squeeze text →
        ∃ calls', (∀ fuel, text'.length < fuel → elemsAt mem' fuel fuel pos' name = some calls') ∧
          calls'.map Prod.fst = calls.map Prod.fst := by
  obtain ⟨calls, hcalls, hnames, hrests⟩ := elemsAt_spec h name
  refine ⟨calls, fun fuel hfuel => hcalls fuel fuel hfuel hfuel, ?_, ?_, ?_⟩
  · rw [← List.forall₂_map_left_iff, hnames]
    exact copied_copies (runs text) name
  · rintro before call after rfl
    obtain ⟨before', elem, after', helems, ⟨-, hrest⟩, hafter⟩ := forall₂_append_cons hrests
    obtain ⟨hsuffix, hclean, hbehind⟩ := elems_behind helems
    refine ⟨elem.2, hsuffix, hrest, ?_, ?_⟩
    · rw [hrest.byte]
      cases hhead : elem.2.head? with
      | none => decide
      | some x => exact hclean x hhead
    · rw [hrest.byte_eq_zero_iff, ← elems_eq_nil_iff hclean, hbehind,
        ← List.length_eq_zero_iff, ← hafter.length_eq, List.length_eq_zero_iff]
  · intro mem' pos' text' h' hsame
    obtain ⟨calls', hcalls', hnames', -⟩ := elemsAt_spec h' name
    refine ⟨calls', fun fuel hfuel => hcalls' fuel fuel hfuel hfuel, ?_⟩
    rw [hnames, hnames', ← runs_squeeze text', hsame, runs_squeeze]

/-- `/a//bb` -/
def doubleSlash : Mem := fun i => [47, 97, 47, 47, 98, 98].getD i 0

theorem doubleSlash_split : Holds doubleSlash 0 [47, 97, 47, 47, 98, 98] ∧
    ∃ calls, elemsAt doubleSlash 7 7 0 (fun _ => 0) = some calls ∧
      List.Forall₂ (fun call run => Copied call.1 run) calls [[97], [98, 98]] := by
  have hholds : Holds doubleSlash 0 [47, 97, 47, 47, 98, 98] := by decide +kernel
  obtain ⟨calls, hcalls, hcopied, -⟩ := path_split_into_runs hholds fun _ => 0
  exact ⟨hholds, calls, hcalls 7 (by decide), hcopied⟩

end Xv6Containers.Path
