import Xv6Containers.Fs.Elements
import Xv6Containers.Fs.OrdinaryLookup

/-!
# What `nameiparent` returns

`unlink`, `create` and `link` change the entry that `nameiparent` names: the last
component, in the directory that the rest of the path leads to. Outside of
containers that is what they get. In a container both exits of `namex` may be
taken in the middle of the path, and return with an earlier component in the
buffer or, from the check before the loop, with the buffer as it was.
-/

namespace Xv6Containers.Path

open Lib.Memory

/-- A path without its last component. -/
def parentPath (path : List Byte) : List Byte :=
  (path.rdropWhile (· = slash)).rdropWhile (· ≠ slash)

/-- The last component of a path. -/
def lastName (path : List Byte) : Option Name := (elems path).getLast?.map Prod.fst

variable {p : Byte → Bool} {path rest : List Byte} {a b c x : List Byte}

/-! ## Without the last component -/

theorem rdropWhile_append_of_exists {y : List Byte} (h : ∃ b ∈ y, p b = false) :
    (x ++ y).rdropWhile p = x ++ y.rdropWhile p := by
  have hne : (y.reverse.dropWhile p).isEmpty = false := by
    obtain ⟨b, hb, hp⟩ := h
    rw [List.isEmpty_eq_false_iff, Ne, List.dropWhile_eq_nil_iff]
    intro hall
    rw [hall b (List.mem_reverse.mpr hb)] at hp
    cases hp
  rw [List.rdropWhile, List.reverse_append, List.dropWhile_append, hne, List.rdropWhile]
  simp

theorem rdropWhile_append_of_all {y : List Byte} (h : ∀ b ∈ y, p b = true) :
    (x ++ y).rdropWhile p = x.rdropWhile p := by
  rw [List.rdropWhile, List.reverse_append,
    List.dropWhile_append_of_pos (by simpa using h), List.rdropWhile]

theorem rdropWhile_of_all_not (h : ∀ b ∈ x, p b = false) : x.rdropWhile p = x := by
  rw [List.rdropWhile_eq_self_iff]
  intro hne
  simp [h _ (List.getLast_mem hne)]

/-- The only component is removed and the slashes before it stay. -/
theorem Splits.parentPath_last (h : Splits path a b c []) : parentPath path = a := by
  obtain ⟨x, hx⟩ := List.exists_mem_of_ne_nil b h.nonempty
  have hslashes : path.rdropWhile (· = slash) = a ++ b := by
    rw [h.eq, List.append_nil, ← List.append_assoc,
      rdropWhile_append_of_all (by simpa using h.behind),
      rdropWhile_append_of_exists ⟨x, hx, by simpa using h.component x hx⟩,
      rdropWhile_of_all_not (by simpa using h.component)]
  rw [parentPath, hslashes, rdropWhile_append_of_all (by simpa using h.component),
    rdropWhile_of_all_not (by simpa using h.before)]

/-- An earlier component stays. -/
theorem Splits.parentPath (h : Splits path a b c rest) (hrest : rest ≠ []) :
    Path.parentPath path = a ++ (b ++ (c ++ Path.parentPath rest)) := by
  obtain ⟨y, r, hr⟩ := List.exists_cons_of_ne_nil hrest
  have hy : y ≠ slash := h.clean y (by simp [hr])
  obtain ⟨z, hz⟩ := List.exists_mem_of_ne_nil c (h.separated hrest)
  have hslashes : path.rdropWhile (· = slash) =
      (a ++ (b ++ c)) ++ rest.rdropWhile (· = slash) := by
    rw [h.eq, ← List.append_assoc b, ← List.append_assoc a,
      rdropWhile_append_of_exists ⟨y, by simp [hr], by simpa using hy⟩]
  have hfront : (a ++ (b ++ c)).rdropWhile (· ≠ slash) = a ++ (b ++ c) := by
    rw [← List.append_assoc, rdropWhile_append_of_exists ⟨z, hz, by simpa using h.behind z hz⟩,
      rdropWhile_of_all_not (by simpa using h.behind)]
  rw [Path.parentPath, hslashes, Path.parentPath]
  -- the rest may have one component or more
  by_cases hone : ∀ x ∈ rest.rdropWhile (· = slash), x ≠ slash
  · rw [rdropWhile_append_of_all (by simpa using hone), hfront,
      List.rdropWhile_eq_nil_iff.mpr (by simpa using hone)]
    simp
  · simp only [not_forall, not_not] at hone
    obtain ⟨x, hx, hslash⟩ := hone
    rw [rdropWhile_append_of_exists ⟨x, hx, by simpa using hslash⟩]
    simp

theorem parentPath_isPrefix (path : List Byte) : parentPath path <+: path :=
  (List.rdropWhile_prefix _ _).trans (List.rdropWhile_prefix _ _)

theorem startsDotDot_of_parent (h : StartsDotDot (parentPath path)) : StartsDotDot path := by
  obtain ⟨r, hr⟩ := Resolve.startsDotDot_iff.mp h
  obtain ⟨t, ht⟩ := parentPath_isPrefix path
  rw [← ht, hr]
  exact Resolve.startsDotDot_iff.mpr ⟨r ++ t, rfl⟩

theorem parentPath_head (h : ∀ x ∈ rest.head?, x ≠ slash) :
    ∀ x ∈ (parentPath rest).head?, x ≠ slash := by
  intro x hx
  obtain ⟨t, ht⟩ := parentPath_isPrefix rest
  refine h x ?_
  rw [← ht, List.head?_append, Option.mem_def.mp hx]
  rfl

theorem Splits.parent (h : Splits path a b c rest) (hrest : rest ≠ []) :
    Splits (Path.parentPath path) a b c (Path.parentPath rest) where
  eq := h.parentPath hrest
  before := h.before
  component := h.component
  nonempty := h.nonempty
  behind := h.behind
  separated := fun _ => h.separated hrest
  clean := parentPath_head h.clean

/-- What is left behind a component begins with the next one, without slashes. -/
theorem Splits.rest_splits (h : Splits path a b c rest) (hrest : rest ≠ []) :
    ∃ b' c' rest', Splits rest [] b' c' rest' := by
  obtain ⟨y, r, hr⟩ := List.exists_cons_of_ne_nil hrest
  have hy : y ≠ slash := h.clean y (by simp [hr])
  have hskip : Path.skipelem rest ≠ none := by
    rw [Ne, skipelem_eq_none_iff]
    exact fun hall => hy (hall y (by simp [hr]))
  obtain ⟨⟨name, rest'⟩, hnr⟩ := Option.ne_none_iff_exists'.mp hskip
  obtain ⟨a', b', c', h', -⟩ := exists_splits hnr
  cases a' with
  | nil => exact ⟨b', c', rest', h'⟩
  | cons x a' =>
    have hx : x = y := by
      have heq := h'.eq
      rw [hr, List.cons_append, List.cons_eq_cons] at heq
      exact heq.1.symm
    exact absurd (h'.before x (by simp)) (hx ▸ hy)

theorem Splits.rest_elems (h : Splits path a b c rest) (hrest : rest ≠ []) : elems rest ≠ [] := by
  obtain ⟨b', c', rest', h'⟩ := h.rest_splits hrest
  rw [elems_of_skipelem h'.skipelem]
  exact List.cons_ne_nil _ _

/-- The first two bytes are all that the check looks at. -/
theorem startsDotDot_append {y z : List Byte} (h : 2 ≤ x.length) :
    StartsDotDot (x ++ y) ↔ StartsDotDot (x ++ z) := by
  rcases x with _ | ⟨a, _ | ⟨b, x⟩⟩
  · simp at h
  · simp at h
  · simp [Resolve.startsDotDot_iff]

/-- Removing a component that is not the first does not change the check. -/
theorem Splits.startsDotDot_parent (h : Splits path a b c rest) (hrest : rest ≠ []) :
    StartsDotDot (Path.parentPath path) ↔ StartsDotDot path := by
  have hlen : 2 ≤ (a ++ b ++ c).length := by
    have hb := List.length_pos_iff.mpr h.nonempty
    have hc := List.length_pos_iff.mpr (h.separated hrest)
    simp only [List.length_append]
    omega
  rw [h.parentPath hrest, h.eq]
  simp only [← List.append_assoc]
  exact startsDotDot_append hlen

theorem Splits.start_parent (h : Splits path a b c rest) (cwd : Nat) :
    Resolve.start cwd (Path.parentPath path) = Resolve.start cwd path := by
  have hhead : (Path.parentPath path).head? = some slash ↔ path.head? = some slash := by
    obtain ⟨x, b', hb⟩ := List.exists_cons_of_ne_nil h.nonempty
    have hx : x ≠ slash := h.component x (by simp [hb])
    by_cases hrest : rest = []
    · subst hrest
      rw [h.parentPath_last, h.eq]
      cases a with
      | nil => simp [hb, hx]
      | cons y a => simp
    · rw [h.parentPath hrest, h.eq]
      cases a with
      | nil => simp [hb]
      | cons y a => simp
  simp only [Resolve.start, hhead]

end Xv6Containers.Path

namespace Xv6Containers.Resolve

open Lib.Memory Xv6Containers.Path

/-! ## Both lookups together -/

/-- The buffer holds the last component, and the inode is what `namei` finds for the path
without it. -/
def ParentRight (T : Tree) (cont : Option Jail) (cwd : Nat) (path : List Byte) : Prop :=
  ∀ name dp nm, nameiparent T cont cwd path name = (some dp, nm) →
    lastName path = some nm ∧ namei T cont cwd (parentPath path) = some dp

/-- Where the lookup of a path with the last component `last` may leave through an exit of
the container: with `last` in the buffer, and in the directory that the path without its last
component leads to. -/
def ExitsRight (T : Tree) (cont : Option Jail) (last : Name) :
    Nat → List (Name × List Byte) → Prop
  | _, [] => True
  | ip, (name, path) :: rest =>
    if T.isDir ip = false then True
    else if Clamped cont path ip then
      name = last ∧ (rest.length = 1 →
        if ip = rootIno then cont.bind (·.root) = some ip else T.entry ip name = some ip)
    else if cont.isSome ∧ ip = rootIno then
      cont.bind (·.root) = none ∨
        (name = last ∧ (path = [] → cont.bind (·.root) = some rootIno))
    else if path = [] then True
    else
      match T.entry ip name with
      | none => True
      | some next => ExitsRight T cont last next rest

section Loop

variable {T : Tree} {cont : Option Jail}

/-- What is asked of the results of `nameiparent` and of `namei` on the parent path. -/
def Agree (last : Name) (r : Option Nat × Name) (s : Option Nat) : Prop :=
  ∀ dp nm, r = (some dp, nm) → nm = last ∧ s = some dp

variable {last : Name} {ip : Nat} {path : List Byte}

theorem agree_none {name : Name} {s : Option Nat} : Agree last (none, name) s :=
  fun dp nm h => by simp at h

theorem agree_some_iff {name : Name} {s : Option Nat} :
    Agree last (some ip, name) s ↔ name = last ∧ s = some ip := by
  constructor
  · exact fun h => h ip name rfl
  · rintro h dp nm heq
    cases heq
    exact h

/-- The last element. -/
theorem loop_last_iff {name buf : Name} :
    Agree name (namexLoop T cont true ip buf [(name, [])]) (some ip) ↔
      ExitsRight T cont name ip [(name, [])] := by
  rw [namexLoop, ExitsRight, if_neg not_clamped_nil, if_neg not_clamped_nil]
  split
  · exact iff_of_true agree_none trivial
  split
  · next hroot =>
    cases hr : cont.bind (·.root) with
    | none => exact iff_of_true agree_none (Or.inl rfl)
    | some r =>
      rw [agree_some_iff, hroot.2]
      simp [eq_comm]
  · rw [if_pos ⟨rfl, rfl⟩, if_pos rfl, agree_some_iff]
    simp

/-- What `namei` on the parent path finds where `nameiparent` has taken the first exit. With
two components or more ahead it takes the same exit; with one it goes on. -/
theorem clamped_parent_iff {a b c rest : List Byte} {buf : Name} (h : Splits path a b c rest)
    (hrest : rest ≠ []) (hdir : T.isDir ip = true) (hclamped : Clamped cont rest ip) :
    (namexLoop T cont false ip buf (elems (parentPath path))).1 = some ip ↔
      ((elems rest).length = 1 → if ip = rootIno then cont.bind (·.root) = some ip
        else T.entry ip (Name.ofBytes b) = some ip) := by
  rw [elems_of_skipelem (h.parent hrest).skipelem]
  obtain ⟨b', c', rest', h'⟩ := h.rest_splits hrest
  have helems := elems_of_skipelem h'.skipelem
  by_cases hmore : rest' = []
  · subst hmore
    have hone : (elems rest).length = 1 := by
      rw [helems]
      rfl
    have hcont : cont.isSome = true := by
      obtain ⟨-, j, hj, -⟩ := hclamped
      rw [Option.mem_def.mp hj]
      rfl
    rw [h'.parentPath_last, namexLoop, if_neg (by simp [hdir]), if_neg not_clamped_nil,
      if_neg not_parent]
    simp only [hone, true_imp_iff, hcont, true_and]
    split
    · rfl
    · cases T.entry ip (Name.ofBytes b) with
      | none => simp
      | some next => simp [elems_of_slashes, namexLoop]
  · have hsame := (h'.startsDotDot_parent hmore).mpr hclamped.1
    have hlen : (elems rest).length ≠ 1 := by
      have hpos := List.length_pos_iff.mpr (h'.rest_elems hmore)
      rw [helems, List.length_cons]
      omega
    rw [namexLoop_of_clamped hdir ⟨hsame, hclamped.2⟩]
    simp [hlen]

/-- The name of the last component, seen from the first. -/
theorem lastName_rest {a b c rest : List Byte} (h : Splits path a b c rest) (hrest : rest ≠ []) :
    lastName rest = lastName path := by
  rw [lastName, lastName, elems_of_skipelem h.skipelem,
    List.getLast?_cons_of_ne_nil (h.rest_elems hrest)]

theorem loop_iff (buf buf' : Name) (hlast : lastName path = some last) :
    Agree last (namexLoop T cont true ip buf (elems path))
        (namexLoop T cont false ip buf' (elems (parentPath path))).1 ↔
      ExitsRight T cont last ip (elems path) := by
  -- on the length of the text that is left
  generalize hlen : path.length = k
  induction k using Nat.strong_induction_on generalizing path ip buf buf' with
  | _ k ih =>
    cases hskip : skipelem path with
    | none =>
      rw [lastName, elems_of_slashes (skipelem_eq_none_iff.mp hskip)] at hlast
      simp at hlast
    | some nr =>
      obtain ⟨name, rest⟩ := nr
      obtain ⟨a, b, c, h, rfl⟩ := exists_splits hskip
      have helems := elems_of_skipelem hskip
      by_cases hrest : rest = []
      · subst hrest
        obtain rfl : Name.ofBytes b = last := by
          simpa [lastName, helems, elems_of_slashes] using hlast
        rw [h.parentPath_last, elems_of_slashes h.before, helems]
        exact loop_last_iff
      · have hnext : lastName rest = some last := (lastName_rest h hrest).trans hlast
        rw [helems]
        cases hdir : T.isDir ip with
        | false =>
          rw [namexLoop_of_not_dir hdir, ExitsRight, if_pos hdir]
          exact iff_of_true agree_none trivial
        | true =>
          rw [ExitsRight, if_neg (by simp [hdir])]
          by_cases hclamped : Clamped cont rest ip
          · rw [namexLoop_of_clamped hdir hclamped, if_pos hclamped, agree_some_iff,
              clamped_parent_iff h hrest hdir hclamped]
          · have hclear : ¬ Clamped cont (parentPath rest) ip :=
              fun hc => hclamped ⟨startsDotDot_of_parent hc.1, hc.2⟩
            rw [if_neg hclamped, elems_of_skipelem (h.parent hrest).skipelem]
            by_cases hreal : cont.isSome = true ∧ ip = rootIno
            · rw [if_pos hreal, namexLoop, if_neg (by simp [hdir]), if_neg hclamped,
                if_pos hreal, namexLoop, if_neg (by simp [hdir]), if_neg hclear, if_pos hreal]
              cases cont.bind (·.root) with
              | none => exact iff_of_true agree_none (Or.inl rfl)
              | some r => simp [agree_some_iff, hrest]
            · have hopen : cont.isSome = true → ip ≠ rootIno := fun hc hip => hreal ⟨hc, hip⟩
              rw [if_neg hreal, if_neg hrest, namexLoop_of_open hdir hclamped hopen,
                if_neg (fun hp => hrest hp.2), namexLoop_of_open hdir hclear hopen,
                if_neg not_parent]
              cases T.entry ip (Name.ofBytes b) with
              | none => exact iff_of_true agree_none trivial
              | some next =>
                exact ih rest.length (hlen ▸ skipelem_length hskip) _ _ hnext rfl

/-- `namei` on the parent path starts in the same directory and enters the loop. -/
theorem namei_parentPath {cwd : Nat} {a b c rest : List Byte} (h : Splits path a b c rest)
    (hclear : ¬ Clamped cont path (start cwd path)) :
    namei T cont cwd (parentPath path) =
      (namexLoop T cont false (start cwd path) (Name.ofBytes []) (elems (parentPath path))).1 := by
  rw [namei, namex, h.start_parent, if_neg]
  exact fun hc => hclear ⟨startsDotDot_of_parent hc.1, hc.2⟩

/-- A path that has a last component has a first one. -/
theorem exists_splits_of_lastName (h : lastName path = some last) :
    ∃ a b c rest, Splits path a b c rest := by
  cases hskip : skipelem path with
  | none =>
    rw [lastName, elems_of_slashes (skipelem_eq_none_iff.mp hskip)] at h
    simp at h
  | some nr =>
    obtain ⟨a, b, c, hsplits, -⟩ := exists_splits hskip
    exact ⟨a, b, c, nr.2, hsplits⟩

end Loop

/-- When the exits of the container are right, the lookup is. -/
theorem parentRight_of_exits {T : Tree} {cont : Option Jail} {cwd : Nat} {path : List Byte}
    (hclear : ¬ Clamped cont path (start cwd path))
    (hexits : ∀ last, lastName path = some last →
      ExitsRight T cont last (start cwd path) (elems path)) : ParentRight T cont cwd path := by
  intro name dp nm hresult
  rw [nameiparent, namex, if_neg hclear] at hresult
  cases hlast : lastName path with
  | none =>
    have hnil : elems path = [] := by simpa [lastName] using hlast
    simp [hnil, namexLoop] at hresult
  | some last =>
    obtain ⟨a, b, c, rest, hsplits⟩ := exists_splits_of_lastName hlast
    obtain ⟨hname, hdp⟩ := (loop_iff name (Name.ofBytes []) hlast).mpr
      (hexits last hlast) dp nm hresult
    rw [namei_parentPath hsplits hclear]
    exact ⟨congrArg some hname.symm, hdp⟩

/-- For every tree, every process and every path: `nameiparent` names the entry that the path
denotes exactly when the check before the loop does not return and the loop leaves, if it
leaves through an exit of the container, with the last component and in its directory. -/
theorem parent_right_iff (T : Tree) (cont : Option Jail) (cwd : Nat) (path : List Byte) :
    ParentRight T cont cwd path ↔
      ¬ Clamped cont path (start cwd path) ∧
        ∀ last, lastName path = some last →
          ExitsRight T cont last (start cwd path) (elems path) := by
  constructor
  · intro h
    have hclear : ¬ Clamped cont path (start cwd path) := by
      intro hclamped
      -- the buffer is returned as it was, whatever it was
      have hbuf : ∀ name, lastName path = some name := by
        intro name
        refine (h name (start cwd path) name ?_).1
        rw [nameiparent, namex, if_pos hclamped]
      have hboth := (hbuf dotName).symm.trans (hbuf dotDotName)
      exact absurd (Option.some.inj hboth) (by decide)
    refine ⟨hclear, fun last hlast => ?_⟩
    obtain ⟨a, b, c, rest, hsplits⟩ := exists_splits_of_lastName hlast
    rw [← loop_iff dotName (Name.ofBytes []) hlast,
      ← namei_parentPath hsplits hclear]
    intro dp nm hresult
    obtain ⟨hname, hdp⟩ := h dotName dp nm (by rw [nameiparent, namex, if_neg hclear, hresult])
    exact ⟨Option.some.inj (hname.symm.trans hlast), hdp⟩
  · rintro ⟨hclear, hexits⟩
    exact parentRight_of_exits hclear hexits

/-- In the root `/c` of its container a process that looks up the parent of `a/../b` is told
`a`, and one that looks up the parent of `..` finds its buffer as it was. -/
theorem parent_of_shorter_path :
    nameiparent sampleTree.toTree (some ⟨some 2, 0⟩) 2 [97, 47, 46, 46, 47, 98]
        (Name.ofBytes []) = (some 2, Name.ofBytes [97]) ∧
      lastName [97, 47, 46, 46, 47, 98] = some (Name.ofBytes [98]) ∧
      nameiparent sampleTree.toTree (some ⟨some 2, 0⟩) 2 [46, 46] (Name.ofBytes []) =
        (some 2, Name.ofBytes []) ∧
      ¬ ParentRight sampleTree.toTree (some ⟨some 2, 0⟩) 2 [97, 47, 46, 46, 47, 98] := by
  refine ⟨by decide, by decide, by decide, fun h => ?_⟩
  exact absurd (h (Name.ofBytes []) 2 (Name.ofBytes [97]) (by decide)).1 (by decide)

end Xv6Containers.Resolve
