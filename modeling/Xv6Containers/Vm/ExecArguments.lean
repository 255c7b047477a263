import Xv6Containers.Vm.ExecOutcome

/-!
# The arguments of a new image

What a program finds on its stack when it starts. The words at the stack pointer
lead to the strings, nothing overlaps, and everything lies on the stack page.
-/

namespace Xv6Containers.Vm

open Lib.Memory Lib.Program Prog

variable {k : KernelImage} {m : Machine} {argv : List (List Byte)} {mem : Mem} {sz esp : Nat}

/-- Two areas, each an address and a length, do not overlap. -/
def Apart (x y : Nat × Nat) : Prop := x.1 + x.2 ≤ y.1 ∨ y.1 + y.2 ≤ x.1

/-- The pointers in the array that the third word leads to. -/
def argPtrs (mem : Mem) (esp argc : Nat) : List Nat :=
  (List.range argc).map fun i => readWord mem (readWord mem (esp + 8) + 4 * i)

/-- The areas of the strings at these addresses. -/
def stringAreas (ptrs : List Nat) (argv : List (List Byte)) : List (Nat × Nat) :=
  List.zipWith (fun ptr arg => (ptr, arg.length + 1)) ptrs argv

/-- The three words, the array of pointers, and the strings. -/
def areas (mem : Mem) (esp : Nat) (argv : List (List Byte)) : List (Nat × Nat) :=
  (esp, 12) :: (readWord mem (esp + 8), 4 * (argv.length + 1)) ::
    stringAreas (argPtrs mem esp argv.length) argv

/-- The stack below `sz` decodes to `argv`. -/
structure Decodes (mem : Mem) (sz esp : Nat) (argv : List (List Byte)) : Prop where
  ret : readWord mem esp = 0xffffffff
  argc : readWord mem (esp + 4) = argv.length
  null : readWord mem (readWord mem (esp + 8) + 4 * argv.length) = 0
  aligned : ∀ ptr ∈ argPtrs mem esp argv.length, ptr % 4 = 0
  strings : ∀ x ∈ (argPtrs mem esp argv.length).zip argv, ∀ i < x.2.length + 1,
    mem (x.1 + i) = (x.2 ++ [0]).getD i 0
  disjoint : (areas mem esp argv).Pairwise Apart
  inside : ∀ area ∈ areas mem esp argv, sz - pgsize ≤ area.1 ∧ area.1 + area.2 ≤ sz

/-! ## Reading the stack back -/

section Strings

variable {last sp : Nat} {ptrs : List Nat}

theorem Strings.aligned (h : Strings mem last sp ptrs argv) (ptr : Nat) (hptr : ptr ∈ ptrs) :
    ptr % 4 = 0 := by
  refine h.climb (P := fun _ ptrs _ => ∀ ptr ∈ ptrs, ptr % 4 = 0) (fun _ _ _ h => nomatch h) ?_ ptr
    hptr
  intro sp ptr ptrs arg argv h4 _ _ _ ih x hx
  rcases List.mem_cons.mp hx with rfl | hx
  · exact h4
  · exact ih x hx

theorem Strings.bytes (h : Strings mem last sp ptrs argv) (x : Nat × List Byte)
    (hx : x ∈ ptrs.zip argv) (i : Nat) (hi : i < x.2.length + 1) :
    mem (x.1 + i) = (x.2 ++ [0]).getD i 0 := by
  refine h.climb (P := fun _ ptrs argv => ∀ x ∈ ptrs.zip argv, ∀ i < x.2.length + 1,
    mem (x.1 + i) = (x.2 ++ [0]).getD i 0) (fun _ _ _ h => nomatch h) ?_ x hx i hi
  intro sp ptr ptrs arg argv _ _ hbytes _ ih x hx
  rcases List.mem_cons.mp hx with rfl | hx
  · exact hbytes
  · exact ih x hx

theorem Strings.between (h : Strings mem last sp ptrs argv) (area : Nat × Nat)
    (harea : area ∈ stringAreas ptrs argv) : last ≤ area.1 ∧ area.1 + area.2 ≤ sp := by
  refine h.climb (P := fun sp ptrs argv => ∀ area ∈ stringAreas ptrs argv,
    last ≤ area.1 ∧ area.1 + area.2 ≤ sp) (fun _ _ _ h => nomatch h) ?_ area harea
  intro sp ptr ptrs arg argv _ hle _ hrest ih area harea
  rcases List.mem_cons.mp harea with rfl | harea
  · exact ⟨hrest.last_le, hle⟩
  · have hbelow := ih area harea
    omega

theorem Strings.apart (h : Strings mem last sp ptrs argv) :
    (stringAreas ptrs argv).Pairwise Apart := by
  refine h.climb (P := fun _ ptrs argv => (stringAreas ptrs argv).Pairwise Apart)
    (fun _ _ => .nil) ?_
  intro sp ptr ptrs arg argv _ _ _ hrest ih
  refine .cons (fun area harea => ?_) ih
  exact .inr (hrest.between area harea).2

end Strings

variable {ptrs : List Nat}

/-- The words at the stack pointer. -/
theorem ArgumentStack.word (h : ArgumentStack mem sz esp argv ptrs) (hsz : sz < 2 ^ 32) {i : Nat}
    (hi : i < ptrs.length + 4) :
    readWord mem (esp + 4 * i) =
      ([0xffffffff, ptrs.length, esp + 12] ++ ptrs ++ [0]).getD i 0 % 2 ^ 32 := by
  have hsize := h.size
  have hlength := h.strings.length_eq
  unfold argumentsSize at hsize
  have harray : uint ((esp + 4 * (ptrs.length + 4) : Nat) - (ptrs.length + 1) * 4) = esp + 12 := by
    apply uint_eq
    · omega
    · omega
  rw [h.words i hi, ustack, harray]

theorem ArgumentStack.array (h : ArgumentStack mem sz esp argv ptrs) (hsz : sz < 2 ^ 32) :
    readWord mem (esp + 8) = esp + 12 := by
  have hsize := h.size
  have hlength := h.strings.length_eq
  unfold argumentsSize at hsize
  have hword := h.word hsz (show 2 < ptrs.length + 4 by omega)
  exact hword.trans (Nat.mod_eq_of_lt (show esp + 12 < 2 ^ 32 by omega))

/-- The array holds the addresses that `exec` has recorded. -/
theorem ArgumentStack.argPtrs_eq (h : ArgumentStack mem sz esp argv ptrs) (hsz : sz < 2 ^ 32) :
    argPtrs mem esp argv.length = ptrs := by
  have hlength := h.strings.length_eq
  apply List.ext_getElem
  · rw [argPtrs, List.length_map, List.length_range, hlength]
  · intro i hi hi'
    have hword := h.word hsz (show i + 3 < ptrs.length + 4 by omega)
    have hget : ([0xffffffff, ptrs.length, esp + 12] ++ ptrs ++ [0]).getD (i + 3) 0 = ptrs[i] := by
      simp [List.getD_eq_getElem?_getD, List.getElem?_append, hi']
    have harea : (ptrs[i], (argv[i]).length + 1) ∈ stringAreas ptrs argv := by
      have hat : i < (stringAreas ptrs argv).length := by
        rw [stringAreas, List.length_zipWith]
        omega
      have hmem := List.getElem_mem hat
      simp only [stringAreas, List.getElem_zipWith] at hmem
      exact hmem
    have hbelow := (h.strings.between _ harea).2
    dsimp only at hbelow
    rw [hget, Nat.mod_eq_of_lt (by omega)] at hword
    simp only [argPtrs, List.getElem_map, List.getElem_range, h.array hsz]
    rw [← hword]
    congr 1
    omega

/-- What `exec` pushes is what the program decodes. -/
theorem ArgumentStack.decodes (h : ArgumentStack mem sz esp argv ptrs) (hsz : sz < 2 ^ 32) :
    Decodes mem sz esp argv := by
  have hsize := h.size
  have hinside := h.inside
  have hlength := h.strings.length_eq
  have harray := h.array hsz
  have hptrs := h.argPtrs_eq hsz
  unfold argumentsSize at hsize
  have hbelow (area : Nat × Nat) (harea : area ∈ stringAreas ptrs argv) :
      esp + 4 * (ptrs.length + 4) ≤ area.1 ∧ area.1 + area.2 ≤ sz := h.strings.between area harea
  constructor
  · exact h.word hsz (show 0 < ptrs.length + 4 by omega)
  · rw [← hlength]
    exact (h.word hsz (show 1 < ptrs.length + 4 by omega)).trans
      (Nat.mod_eq_of_lt (show ptrs.length < 2 ^ 32 by omega))
  · have hword := h.word hsz (show ptrs.length + 3 < ptrs.length + 4 by omega)
    have hget : ([0xffffffff, ptrs.length, esp + 12] ++ ptrs ++ [0]).getD (ptrs.length + 3) 0 = 0 := by
      simp [List.getD_eq_getElem?_getD]
    rw [hget, Nat.zero_mod] at hword
    rw [harray, ← hword, ← hlength]
    congr 1
    omega
  · rw [hptrs]
    exact h.strings.aligned
  · rw [hptrs]
    exact h.strings.bytes
  · rw [areas, hptrs, harray]
    refine .cons ?_ (.cons ?_ h.strings.apart)
    · intro area harea
      rcases List.mem_cons.mp harea with rfl | harea
      · exact .inl (Nat.le_refl _)
      · have hle := (hbelow area harea).1
        exact .inl (by dsimp only; omega)
    · intro area harea
      have hle := (hbelow area harea).1
      exact .inl (by dsimp only; omega)
  · rw [areas, hptrs, harray]
    intro area harea
    rcases List.mem_cons.mp harea with rfl | harea
    · dsimp only
      omega
    rcases List.mem_cons.mp harea with rfl | harea
    · dsimp only
      omega
    · have hle := hbelow area harea
      omega

/-! ## The new program -/

/-- The last page below `sz` is for the user, and the page below it is not. -/
def HasStackPage (d : PageDir) (sz : Nat) : Prop :=
  (∀ v, sz - pgsize ≤ v → v < sz → UserAt d v) ∧
    ∀ v, sz - 2 * pgsize ≤ v → v < sz - pgsize → ¬ UserAt d v

theorem StackImage.hasStackPage {total : Multiset Nat} {d : PageDir} (h : StackImage total d sz) :
    HasStackPage d sz := by
  have hroom := h.room
  have hlt := h.lt
  constructor
  · intro v hv hv'
    rw [h.userAt_iff (by omega)]
    omega
  · intro v hv hv'
    rw [h.userAt_iff (by omega)]
    omega

/-- What the caller sees of its memory after a call that failed. -/
def SameImage (m t : Machine) : Prop :=
  t.caller = m.caller ∧ ∀ v < kernbase, (m.caller.pgdir.pte v).isSome →
    userMem t m.caller.pgdir v = userMem m m.caller.pgdir v

theorem Working.sameImage {calls : List FsCall} {t : Machine} (hsane : Sane k m)
    (h : Working m.free m calls 0 t) : SameImage m t := by
  refine ⟨h.caller, fun v hv hsome => ?_⟩
  obtain ⟨x, hx⟩ := Option.isSome_iff_exists.mp hsome
  have hcustody : Custody k (m.caller.pgdir.pages + m.free) := by
    rw [add_comm]
    exact hsane
  have hpage : x.page ∈ m.caller.pgdir.pages := by
    rw [← pages_eq_pte hv hx]
    simp
  exact userMem_kept hcustody h hx hpage

/-- When `exec` succeeds, the new program decodes its arguments from the stack page; when they are
shorter than the image but do not fit, `exec` fails and the caller keeps its image. -/
theorem exec_arguments (hsane : Sane k m) (hargs : ∀ arg ∈ argv, arg.length < 2 ^ 32)
    (path file : List Byte) :
    (∀ t, (execFile k path file argv).run (Machine.step k) m = .ok (0, t) →
      Decodes (userMem t t.caller.pgdir) t.caller.sz t.caller.esp argv ∧
        HasStackPage t.caller.pgdir t.caller.sz) ∧
    ((argv.map fun arg => arg.length + 1).sum < imageSize file → pgsize < argumentsSize argv →
      ∃ t, (execFile k path file argv).run (Machine.step k) m = .ok (-1, t) ∧ SameImage m t) := by
  obtain ⟨hok, herror⟩ := yields_iff.mp (execFile_yields hsane hargs path file)
  constructor
  · intro t ht
    rcases hok _ ht with ⟨hr, -⟩ | ⟨-, hnew, -⟩
    · dsimp only at hr
      omega
    · obtain ⟨ptrs, hstack⟩ := hnew.arguments
      exact ⟨hstack.decodes hnew.image.lt, hnew.image.hasStackPage⟩
  · intro hshort hbig
    generalize (execFile k path file argv).run (Machine.step k) m = x at hok herror ⊢
    cases x with
    | error e =>
      obtain ⟨-, -, hlong⟩ := herror e rfl
      simp only [devSize, devspace, maxarg] at hlong
      omega
    | ok x =>
      obtain ⟨r, t⟩ := x
      rcases hok _ rfl with ⟨hr, hwork⟩ | ⟨-, -, hfits⟩
      · dsimp only at hr hwork
        exact ⟨t, by rw [hr], hwork.sameImage hsane⟩
      · omega

/-- Two short arguments are found again, and one that is longer than a page is refused. -/
theorem exec_arguments_bareElf :
    (∃ cnt t, Sane smallKernel (roomy cnt) ∧
      (execFile smallKernel [] bareElf [[97], [98, 99]]).run (Machine.step smallKernel) (roomy cnt) =
        .ok (0, t) ∧ Decodes (userMem t t.caller.pgdir) t.caller.sz t.caller.esp [[97], [98, 99]]) ∧
    ∃ cnt arg t, pgsize < arg.length ∧ arg.length + 1 < imageSize bareElf ∧
      (execFile smallKernel [] bareElf [arg]).run (Machine.step smallKernel) (roomy cnt) =
        .ok (-1, t) ∧ SameImage (roomy cnt) t := by
  constructor
  · have hcount : ([[97], [98, 99]] : List (List Byte)).length ≤ maxarg := by decide
    obtain ⟨cnt, hcnt, t, hrun⟩ := bareElf_execs [] hcount (by decide)
    have hsane := roomy_sane hcnt
    have hargs : ∀ arg ∈ ([[97], [98, 99]] : List (List Byte)), arg.length < 2 ^ 32 := by decide
    exact ⟨cnt, t, hsane, hrun, ((exec_arguments hsane hargs [] bareElf).1 t hrun).1⟩
  · have hlong (n : Nat) : ∃ arg : List Byte, arg.length = n := ⟨_, List.length_replicate (a := 97)⟩
    obtain ⟨arg, harg⟩ := hlong 5000
    have hsize : imageSize bareElf = 8192 := by decide
    have hargs : ∀ x ∈ [arg], x.length < 2 ^ 32 := by
      intro x hx
      rw [List.mem_singleton.mp hx, harg]
      omega
    have hsum : ([arg].map fun x => x.length + 1).sum < imageSize bareElf := by
      rw [List.map_singleton, List.sum_singleton, harg, hsize]
      omega
    have hbig : pgsize < argumentsSize [arg] := by
      simp only [argumentsSize, stringsSize, argSize, List.map_singleton, List.sum_singleton, harg,
        pgsize]
      omega
    obtain ⟨cnt, hcnt, -⟩ := roomy_setupkvm
    obtain ⟨t, hrun, hsame⟩ := (exec_arguments (roomy_sane hcnt) hargs [] bareElf).2 hsum hbig
    refine ⟨cnt, arg, t, ?_, ?_, hrun, hsame⟩
    · rw [harg]
      decide
    · rw [harg, hsize]
      omega

end Xv6Containers.Vm
