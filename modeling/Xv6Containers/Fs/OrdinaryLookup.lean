import Xv6Containers.Fs.Resolve

/-!
# Lookups that stay below the container's root

A relative path without `..` never leaves the directory it starts in, so a
container has no reason to treat it differently. The code compares only two bytes
of the text ahead with `..`, so it also stops at names that merely begin with two
dots, when it stands at the container's root.
-/

namespace Xv6Containers.Resolve

open Lib.Memory Xv6Containers.Path

/-- A tree of directories. Every directory below another one is deeper; files may have
several names. -/
structure DirTree extends Tree where
  depth : Nat → Nat
  root_dir : isDir rootIno = true
  root_depth : depth rootIno = 0
  dot : ∀ d, isDir d = true → entry d dotName = some d
  child : ∀ d n m, isDir d = true → n ≠ dotName → n ≠ dotDotName → entry d n = some m →
    isDir m = true → depth d < depth m

/-- The directories of the subtree of `R`. -/
inductive Under (T : DirTree) (R : Nat) : Nat → Prop
  | top : T.isDir R = true → Under T R R
  | step {d m : Nat} {n : Name} : Under T R d → n ≠ dotName → n ≠ dotDotName →
      T.entry d n = some m → T.isDir m = true → Under T R m

/-- The lookup meets no text that begins with `..` while it stays where it started. -/
def NoDotsAhead : List (Name × List Byte) → Prop
  | [] => True
  | (name, path) :: rest => ¬ StartsDotDot path ∧ (name = dotName → NoDotsAhead rest)

/-- The path has no component `..`. -/
def Plain (path : List Byte) : Prop := ∀ e ∈ elems path, e.1 ≠ dotDotName

theorem startsDotDot_iff {path : List Byte} : StartsDotDot path ↔ ∃ r, path = 46 :: 46 :: r := by
  constructor
  · intro h
    rcases path with _ | ⟨a, _ | ⟨b, r⟩⟩
    · exact absurd h (by decide)
    · by_cases ha : a = 46
      · subst ha
        exact absurd h (by decide)
      · exact absurd h (by simpa [StartsDotDot, Lib.Strings.strncmp, ha] using
          Lib.Strings.toNat_sub_ne_zero ha)
    · by_cases ha : a = 46
      · by_cases hb : b = 46
        · exact ⟨r, by rw [ha, hb]⟩
        · exact absurd h (by simpa [StartsDotDot, Lib.Strings.strncmp, ha, hb] using
            Lib.Strings.toNat_sub_ne_zero hb)
      · exact absurd h (by simpa [StartsDotDot, Lib.Strings.strncmp, ha] using
          Lib.Strings.toNat_sub_ne_zero ha)
  · rintro ⟨r, rfl⟩
    simp [StartsDotDot, Lib.Strings.strncmp]

/-- A text that begins with two dots begins with a component other than `.`. -/
theorem skipelem_of_startsDotDot {path : List Byte} (h : StartsDotDot path) :
    ∃ name rest, skipelem path = some (name, rest) ∧ name ≠ dotName := by
  obtain ⟨r, rfl⟩ := startsDotDot_iff.mp h
  refine ⟨Name.ofBytes ((46 :: 46 :: r).takeWhile (· ≠ slash)),
    ((46 :: 46 :: r).dropWhile (· ≠ slash)).dropWhile (· = slash), ?_, ?_⟩
  · rw [skipelem, List.dropWhile_cons_of_neg (by decide), if_neg (by simp)]
  · intro hdot
    have hbytes := congrArg (fun n => n.bytes.length) hdot
    simp [Name.ofBytes, dotName, slash, dirsiz] at hbytes

section

variable {T : DirTree} {R low : Nat}

theorem Under.isDir {D : Nat} (h : Under T R D) : T.isDir D = true := by
  cases h with
  | top hR => exact hR
  | step _ _ _ _ hm => exact hm

theorem Under.top_dir {D : Nat} (h : Under T R D) : T.isDir R = true := by
  induction h with
  | top hR => exact hR
  | step _ _ _ _ _ ih => exact ih

theorem Under.deeper {D : Nat} (h : Under T R D) : D = R ∨ T.depth R < T.depth D := by
  induction h with
  | top _ => exact Or.inl rfl
  | step hd hdot hdots hentry hm ih =>
    have hlt := T.child _ _ _ hd.isDir hdot hdots hentry hm
    rcases ih with rfl | hR
    · exact Or.inr hlt
    · exact Or.inr (hR.trans hlt)

/-- The lookup has left `R` downwards. -/
def Beyond (T : DirTree) (R ip : Nat) : Prop := T.isDir ip = true → T.depth R < T.depth ip

variable {ip : Nat} {name : Name} {path : List Byte}

theorem Beyond.ne (h : Beyond T R ip) (hR : T.isDir R = true) : ip ≠ R := by
  rintro rfl
  exact lt_irrefl _ (h hR)

/-- A step by a name other than `..`. -/
theorem step_down {next : Nat} (hip : T.isDir ip = true) (hname : name ≠ dotDotName)
    (hnext : T.entry ip name = some next) :
    (name = dotName ∧ next = ip) ∨ (name ≠ dotName ∧ Beyond T ip next) := by
  by_cases hdot : name = dotName
  · rw [hdot, T.dot ip hip] at hnext
    exact Or.inl ⟨hdot, (Option.some.inj hnext).symm⟩
  · exact Or.inr ⟨hdot, T.child ip name next hip hdot hname hnext⟩

theorem Beyond.trans {next : Nat} (hip : T.isDir ip = true) (h : Beyond T R ip)
    (hnext : Beyond T ip next) : Beyond T R next := fun hdir => (h hip).trans (hnext hdir)

theorem Beyond.ne_root (h : Beyond T R ip) : ip ≠ rootIno := by
  rintro rfl
  have hlt := h T.root_dir
  rw [T.root_depth] at hlt
  exact absurd hlt (Nat.not_lt_zero _)

/-- Both lookups go the same way, below `R` or at `R` with no dots ahead. -/
theorem namexLoop_undisturbed {parent : Bool} {es : List (Name × List Byte)}
    (hR : T.isDir R = true) (hroot : ip ≠ rootIno) (hplain : ∀ e ∈ es, e.1 ≠ dotDotName)
    (hpos : Beyond T R ip ∨ (ip = R ∧ NoDotsAhead es)) :
    namexLoop T.toTree (some ⟨some R, low⟩) parent ip name es =
      namexLoop T.toTree none parent ip name es := by
  induction es generalizing ip name with
  | nil => rfl
  | cons e rest ih =>
    obtain ⟨name, path⟩ := e
    have hclear : ¬ Clamped (some ⟨some R, low⟩) path ip := by
      rw [clamped_some_iff]
      rintro ⟨hdots, rfl : R = ip⟩
      rcases hpos with hbeyond | ⟨-, hahead⟩
      · exact hbeyond.ne hR rfl
      · exact hahead.1 hdots
    cases hip : T.isDir ip with
    | false => rw [namexLoop_of_not_dir hip, namexLoop_of_not_dir hip]
    | true =>
      rw [namexLoop_of_open hip hclear fun _ => hroot, namexLoop_none hip]
      split
      · rfl
      cases hentry : T.entry ip name with
      | none => rfl
      | some next =>
        have hrest : ∀ e ∈ rest, e.1 ≠ dotDotName :=
          fun e he => hplain e (List.mem_cons_of_mem _ he)
        rcases step_down hip (hplain _ (List.mem_cons_self ..)) hentry with
          ⟨hdot, rfl⟩ | ⟨-, hnext⟩
        · exact ih hroot hrest (hpos.imp id fun h => ⟨h.1, h.2.2 hdot⟩)
        · refine ih hnext.ne_root hrest (Or.inl ?_)
          rcases hpos with hbeyond | ⟨rfl, -⟩
          · exact hbeyond.trans hip hnext
          · exact hnext

/-- `namei` goes on to the end of the path. -/
theorem not_parent : ¬ (false = true ∧ path = []) := fun h => by simp at h

/-- A lookup that has left `R` downwards does not come back. -/
theorem namexLoop_beyond {es : List (Name × List Byte)} (hR : T.isDir R = true)
    (hplain : ∀ e ∈ es, e.1 ≠ dotDotName) (hip : Beyond T R ip) :
    (namexLoop T.toTree none false ip name es).1 ≠ some R := by
  induction es generalizing ip name with
  | nil => exact fun h => hip.ne hR (Option.some.inj h)
  | cons e rest ih =>
    obtain ⟨name, path⟩ := e
    cases hdir : T.isDir ip with
    | false =>
      rw [namexLoop_of_not_dir hdir]
      simp
    | true =>
      rw [namexLoop_none hdir, if_neg not_parent]
      cases hentry : T.entry ip name with
      | none => simp
      | some next =>
        have hrest : ∀ e ∈ rest, e.1 ≠ dotDotName :=
          fun e he => hplain e (List.mem_cons_of_mem _ he)
        rcases step_down hdir (hplain _ (List.mem_cons_self ..)) hentry with
          ⟨-, rfl⟩ | ⟨-, hnext⟩
        · exact ih hrest hip
        · exact ih hrest (hip.trans hdir hnext)

/-- Without a container a first component other than `.` leads away from `R`. -/
theorem namexLoop_leaves {name' : Name} {rest : List (Name × List Byte)} (hR : T.isDir R = true)
    (hplain : ∀ e ∈ (name, path) :: rest, e.1 ≠ dotDotName) (hname : name ≠ dotName) :
    (namexLoop T.toTree none false R name' ((name, path) :: rest)).1 ≠ some R := by
  rw [namexLoop_none hR, if_neg not_parent]
  cases hentry : T.entry R name with
  | none => simp
  | some next =>
    rcases step_down hR (hplain _ (List.mem_cons_self ..)) hentry with ⟨hdot, -⟩ | ⟨-, hnext⟩
    · exact absurd hdot hname
    · exact namexLoop_beyond hR (fun e he => hplain e (List.mem_cons_of_mem _ he)) hnext

theorem plain_rest {rest : List Byte} (h : Plain path) (hskip : skipelem path = some (name, rest)) :
    name ≠ dotDotName ∧ Plain rest := by
  have helems := elems_eq path
  rw [hskip] at helems
  constructor
  · exact h (name, rest) (helems ▸ List.mem_cons_self ..)
  · exact fun e he => h e (helems ▸ List.mem_cons_of_mem _ he)

/-- Without a container, two dots ahead lead away from `R`. -/
theorem namexLoop_dots (hR : T.isDir R = true) (hplain : Plain path) (hdots : StartsDotDot path) :
    (namexLoop T.toTree none false R name (elems path)).1 ≠ some R := by
  obtain ⟨first, rest, hskip, hfirst⟩ := skipelem_of_startsDotDot hdots
  have helems := elems_eq path
  rw [hskip] at helems
  have hall := hplain
  rw [Plain, helems] at hall
  rw [helems]
  exact namexLoop_leaves hR hall hfirst

/-- With dots ahead at `R` the container's lookup stops at `R` and the other one goes on. -/
theorem namexLoop_disturbed (low : Nat) (name : Name) (hR : T.isDir R = true)
    (hroot : R ≠ rootIno) (hplain : Plain path) (hahead : ¬ NoDotsAhead (elems path)) :
    (namexLoop T.toTree (some ⟨some R, low⟩) false R name (elems path)).1 = some R ∧
      (namexLoop T.toTree none false R name (elems path)).1 ≠ some R := by
  -- on the length of the text that is left
  generalize hlen : path.length = k
  induction k using Nat.strong_induction_on generalizing path name with
  | _ k ih =>
    rw [elems_eq path] at hahead ⊢
    cases hskip : skipelem path with
    | none => simp [hskip, NoDotsAhead] at hahead
    | some nr =>
      obtain ⟨first, rest⟩ := nr
      obtain ⟨hfirst, hrest⟩ := plain_rest hplain hskip
      simp only [hskip] at hahead ⊢
      by_cases hdots : StartsDotDot rest
      · constructor
        · rw [namexLoop_of_clamped hR (clamped_some_iff.mpr ⟨hdots, rfl⟩)]
        · by_cases hdot : first = dotName
          · rw [namexLoop_none hR, if_neg not_parent, hdot, T.dot R hR]
            exact namexLoop_dots hR hrest hdots
          · refine namexLoop_leaves hR ?_ hdot
            intro e he
            rcases List.mem_cons.mp he with rfl | he
            · exact hfirst
            · exact hrest e he
      · have hdot : first = dotName := by
          by_contra hne
          exact hahead ⟨hdots, fun h => absurd h hne⟩
        have hnext : ¬ NoDotsAhead (elems rest) := fun h => hahead ⟨hdots, fun _ => h⟩
        subst hdot
        have hlt := skipelem_length hskip
        have hclear : ¬ Clamped (some ⟨some R, low⟩) rest R :=
          fun h => hdots (clamped_some_iff.mp h).1
        rw [namexLoop_none hR, namexLoop_of_open hR hclear fun _ => hroot, if_neg not_parent,
          T.dot R hR]
        exact ih rest.length (hlen ▸ hlt) _ hrest hnext rfl

end

/-- The same inode, and the same name, with the container and without it. -/
def SameLookup (T : Tree) (cont : Option Jail) (cwd : Nat) (path : List Byte) : Prop :=
  namei T cont cwd path = namei T none cwd path ∧
    ∀ name, nameiparent T cont cwd path name = nameiparent T none cwd path name

/-- In a container with root `R`, from a directory in its subtree, a relative path without
`..` is looked up as outside of containers exactly when the lookup does not meet a name that
begins with two dots while it stands at `R`. -/
theorem ordinary_lookup_iff (T : DirTree) (R low D : Nat) (hD : Under T R D) (hroot : D ≠ rootIno)
    (path : List Byte) (hrel : path.head? ≠ some slash) (hplain : Plain path) :
    SameLookup T.toTree (some ⟨some R, low⟩) D path ↔
      (D = R → ¬ StartsDotDot path ∧ NoDotsAhead (elems path)) := by
  have hR := hD.top_dir
  have hstart : start D path = D := if_neg hrel
  constructor
  · rintro ⟨hnamei, -⟩ rfl
    rw [namei, namei, namex, namex, hstart, if_neg not_clamped_none] at hnamei
    constructor
    · intro hdots
      have hclamped : Clamped (some ⟨some D, low⟩) path D := clamped_some_iff.mpr ⟨hdots, rfl⟩
      rw [if_pos hclamped] at hnamei
      exact namexLoop_dots hR hplain hdots hnamei.symm
    · by_contra hahead
      obtain ⟨hstop, hgo⟩ := namexLoop_disturbed low (Name.ofBytes []) hR hroot hplain hahead
      split at hnamei
      · exact hgo hnamei.symm
      · exact hgo (hnamei.symm.trans hstop)
  · intro hclear
    have hsame : ∀ parent name, namex T.toTree (some ⟨some R, low⟩) D path parent name =
        namex T.toTree none D path parent name := by
      intro parent name
      have hfirst : ¬ Clamped (some ⟨some R, low⟩) path D := by
        rw [clamped_some_iff]
        rintro ⟨hdots, rfl : R = D⟩
        exact (hclear rfl).1 hdots
      rw [namex, namex, hstart, if_neg hfirst, if_neg not_clamped_none]
      refine namexLoop_undisturbed hR hroot hplain ?_
      rcases hD.deeper with rfl | hdeep
      · exact Or.inr ⟨rfl, (hclear rfl).2⟩
      · exact Or.inl fun _ => hdeep
    exact ⟨congrArg Prod.fst (hsame false _), fun name => hsame true name⟩

/-! ## A small tree -/

/-- The entries besides `.` and `..`: `/c`, and in it `a`, `b` and `..x`. -/
def sampleEntries : Nat → List (Name × Nat)
  | 1 => [(.ofBytes [99], 2)]
  | 2 => [(.ofBytes [97], 3), (.ofBytes [98], 4), (.ofBytes [46, 46, 120], 5)]
  | _ => []

def sampleParent : Nat → Nat
  | 3 | 4 | 5 => 2
  | _ => 1

def sampleDepth (d : Nat) : Nat := if d = 1 then 0 else if d = 2 then 1 else 2

theorem sampleEntries_deeper :
    ∀ d ∈ [1, 2, 3, 4, 5], ∀ x ∈ sampleEntries d, sampleDepth d < sampleDepth x.2 := by
  decide

/-- Two levels of directories below the root. Inode 2 is the root of a container. -/
def sampleTree : DirTree where
  isDir := fun d => decide (d ∈ [1, 2, 3, 4, 5])
  entry := fun d n =>
    if n = dotName then some d
    else if n = dotDotName then some (sampleParent d)
    else ((sampleEntries d).find? (·.1 = n)).map Prod.snd
  depth := sampleDepth
  root_dir := by decide
  root_depth := by decide
  dot := fun _ _ => if_pos rfl
  child := by
    intro d n m hd hdot hdots hentry _
    rw [if_neg hdot, if_neg hdots] at hentry
    obtain ⟨x, hx, rfl⟩ := Option.map_eq_some_iff.mp hentry
    exact sampleEntries_deeper d (of_decide_eq_true hd) x (List.mem_of_find?_eq_some hx)

/-- From the container's root, `a/.` is looked up as anywhere else. -/
theorem ordinary_lookup_a :
    namei sampleTree.toTree (some ⟨some 2, 0⟩) 2 [97, 47, 46] = some 3 ∧
      SameLookup sampleTree.toTree (some ⟨some 2, 0⟩) 2 [97, 47, 46] :=
  ⟨by decide, (ordinary_lookup_iff sampleTree 2 0 2 (.top (by decide)) (by decide) [97, 47, 46]
    (by decide) (by unfold Plain; decide)).mpr fun _ =>
      ⟨by decide, by decide, (fun h => absurd h (by decide))⟩⟩

/-- The container's root has an entry `..x`, which its processes cannot look up there: they
get the root itself. -/
theorem dots_disturb_lookup :
    Under sampleTree 2 2 ∧ Plain [46, 46, 120] ∧
      namei sampleTree.toTree none 2 [46, 46, 120] = some 5 ∧
      namei sampleTree.toTree (some ⟨some 2, 0⟩) 2 [46, 46, 120] = some 2 ∧
      ¬ SameLookup sampleTree.toTree (some ⟨some 2, 0⟩) 2 [46, 46, 120] :=
  ⟨.top (by decide), by unfold Plain; decide, by decide, by decide,
    fun h => absurd h.1 (by decide)⟩

end Xv6Containers.Resolve
