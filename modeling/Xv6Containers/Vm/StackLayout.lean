import Xv6Containers.Vm.Loader

/-!
# The argument stack

What `exec` pushes on the user stack. As long as everything fits into the one stack
page, every string and the words below them are where `exec` records them; the first
piece that does not fit runs into the guard page, or around the end of the address
space, and `copyout` fails.

## Implementation notes

Stack pointers are natural numbers here: as long as a piece fits, nothing wraps
around.
-/

namespace Xv6Containers.Vm

open Lib.Memory Lib.Program Prog

variable {k : KernelImage} {total held : Multiset Nat} {m₀ m : Machine} {calls : List FsCall}
  {d : PageDir} {sz va v : Nat} {p : List Byte}

/-- An image with a stack page and a guard page below it. -/
structure StackImage (total : Multiset Nat) (d : PageDir) (sz : Nat) : Prop where
  guarded : Guarded total d sz (sz - 2 * pgsize)
  aligned : sz % pgsize = 0
  room : 2 * pgsize ≤ sz

/-- The user pages are those below the size except for the guard page. -/
theorem StackImage.userAt_iff (hs : StackImage total d sz) (hv : v < 2 ^ 32) :
    UserAt d v ↔ v < sz ∧ ¬ (sz - 2 * pgsize ≤ v ∧ v < sz - pgsize) := by
  have haligned := hs.aligned
  have hroom := hs.room
  have hsz := hs.guarded.fits.1
  have hpage : SamePage v (sz - 2 * pgsize) ↔ sz - 2 * pgsize ≤ v ∧ v < sz - pgsize := by
    simp only [SamePage, pgsize] at *
    omega
  have hbelow : v / pgsize * pgsize < sz ↔ v < sz := by
    simp only [pgsize] at *
    omega
  constructor
  · rintro ⟨x, hx, huser⟩
    obtain ⟨hlow, hnot⟩ := (hs.guarded.access v hv x hx).mp huser
    have hmapped := (hs.guarded.fits.2 v hlow).mp (by simp [hx])
    exact ⟨hbelow.mp hmapped, fun h => hnot (hpage.mpr h)⟩
  · rintro ⟨hlt, hnot⟩
    have hlow : v < kernbase := by omega
    obtain ⟨x, hx⟩ := Option.isSome_iff_exists.mp ((hs.guarded.fits.2 v hlow).mpr (hbelow.mpr hlt))
    exact ⟨x, hx, (hs.guarded.access v hv x hx).mpr ⟨hlow, fun h => hnot (hpage.mp h)⟩⟩

theorem StackImage.lt (hs : StackImage total d sz) : sz < 2 ^ 32 := by
  have hsz := hs.guarded.fits.1
  simp only [kernbase] at hsz
  omega

theorem StackImage.inMemory (hc : Custody k total) (hs : StackImage total d sz) : InMemory d := by
  intro v hv x hx huser
  have hlow := ((hs.guarded.access v hv x hx).mp huser).1
  exact (hc.frames _ (hs.guarded.user v hlow x hx)).2.2

/-! ## One piece -/

theorem good_of_placed (hc : Custody k total) (hs : StackImage total d sz) (heq : held = d.pages)
    (hwork : Working total m₀ calls held m) {st : Store} (h : st.Placed d) : st.Good total := by
  obtain ⟨x, hx, huser⟩ := h.user
  have hlow := ((hs.guarded.access _ h.lt x hx).mp huser).1
  constructor
  · exact hlow
  · rw [h.dir]
    refine ⟨x, hx, huser, hs.guarded.user _ hlow x hx,
      not_isTable heq (hwork.nodup hc) hlow hx, ?_⟩
    rw [h.dst, kaddr, hx, pteAddr]
  · exact h.length

theorem Working.applied (hwork : Working total m₀ calls held m) {stores : List Store}
    (h : ∀ st ∈ stores, st.Good total) : Working total m₀ calls held
      { m with mem := applied m.mem stores, stores := m.stores ++ stores } := by
  induction stores generalizing m with
  | nil =>
    have hsame : { m with mem := Vm.applied m.mem [], stores := m.stores ++ [] } = m := by
      simp [Vm.applied]
    rw [hsame]
    exact hwork
  | cons st stores ih =>
    have hrest := ih (hwork.store (h st (List.mem_cons_self ..)))
      fun st' hst' => h st' (List.mem_cons_of_mem _ hst')
    simp only [List.append_assoc, List.singleton_append] at hrest
    exact hrest

/-- A piece that lies on the stack page. -/
theorem copyout_inside (hc : Custody k total) (hs : StackImage total d sz) (hp : p ≠ [])
    (hlo : sz - pgsize ≤ va) (hhi : va + p.length ≤ sz) (m : Machine) :
    (copyout d va p).run (Machine.step k) m = .ok (0, m.copied d va p) := by
  have hlen : 0 < p.length := List.length_pos_iff.mpr hp
  have haligned := hs.aligned
  have hroom := hs.room
  have hlt := hs.lt
  have huser : UserAt d va := (hs.userAt_iff (by omega)).mpr (by omega)
  have hchunk : chunk va p.length = p.length := by
    unfold chunk
    simp only [pgsize] at *
    omega
  obtain ⟨rounds, hrounds⟩ := Nat.exists_eq_succ_of_ne_zero (Nat.pos_iff_ne_zero.mp hlen)
  unfold copyout
  rw [hrounds, (round_user rounds hp (hs.inMemory hc) (by omega) huser m).1, hchunk, List.drop_length,
    List.take_length, copyoutLoop_nil]
  rfl

/-- A piece with a byte that is not on a user page. -/
theorem copyout_outside (hc : Custody k total) (hs : StackImage total d sz) (heq : held = d.pages)
    (hwork : Working total m₀ calls held m) (hva : va < 2 ^ 32)
    (hout : ∃ i < p.length, ¬ UserAt d (uint (va + i))) :
    Yields (fun e => e = .wild ∧ ¬ Tabled d va p.length)
      (fun r => r.1 = -1 ∧ Working total m₀ calls held r.2)
      ((copyout d va p).run (Machine.step k) m) := by
  apply (copyoutLoop_spec (hs.inMemory hc) hva (Nat.le_refl _) m).mono fun _ h => h
  rintro ⟨r, t⟩ ⟨j, stores, hcopies⟩
  dsimp only at hcopies ⊢
  constructor
  · rcases hcopies.result with ⟨-, hall⟩ | ⟨hr, -⟩
    · obtain ⟨i, hi, hnot⟩ := hout
      exact absurd (hcopies.user i (by omega)) hnot
    · exact hr
  · rw [hcopies.state]
    exact hwork.applied fun st hst => good_of_placed hc hs heq hwork (hcopies.placed st hst)

/-! ## Memory as the user sees it -/

def userMem (m : Machine) (d : PageDir) : Mem := fun v => m.mem (kaddr d v)

/-- On the stack page the kernel address follows the user address. -/
theorem kaddr_stack (hs : StackImage total d sz) (hlo : sz - pgsize ≤ v) (hhi : v < sz) :
    kaddr d v = kaddr d (sz - pgsize) + (v - (sz - pgsize)) := by
  have haligned := hs.aligned
  have hroom := hs.room
  have hsame : SamePage v (sz - pgsize) := by
    simp only [SamePage, pgsize] at *
    omega
  unfold kaddr
  rw [pte_eq_of_samePage hsame]
  simp only [pgsize] at *
  omega

/-- A store on the stack page, as the user sees it. -/
theorem userMem_copied (hs : StackImage total d sz) (hlo : sz - pgsize ≤ va) (hhi : va < sz)
    (hv : sz - pgsize ≤ v) (hvsz : v < sz) (m : Machine) :
    userMem (m.copied d va p) d v = blit (userMem m d) va p v := by
  unfold userMem Machine.copied blit
  dsimp only
  rw [kaddr_stack hs hv hvsz, kaddr_stack hs hlo hhi]
  have hle : kaddr d (sz - pgsize) + (va - (sz - pgsize)) ≤
      kaddr d (sz - pgsize) + (v - (sz - pgsize)) ↔ va ≤ v := by omega
  have hsub : kaddr d (sz - pgsize) + (v - (sz - pgsize)) -
      (kaddr d (sz - pgsize) + (va - (sz - pgsize))) = v - va := by omega
  simp only [hle, hsub]

/-! ## Strings -/

/-- What a string takes on the stack, with its terminating zero and the padding. -/
def argSize (arg : List Byte) : Nat := (arg.length + 1 + 3) / 4 * 4

/-- What all strings take. -/
def stringsSize (argv : List (List Byte)) : Nat := (argv.map argSize).sum

/-- The length of the region for devices at the top of the address space. -/
def devSize : Nat := 2 ^ 32 - devspace

/-- The new stack pointer for a string. -/
def pushed (sp : Nat) (arg : List Byte) : Nat := uint (sp - (arg.length + 1)) / 4 * 4

section Push

variable {sp : Nat} {arg : List Byte}

theorem pushed_inside (h4 : sp % 4 = 0) (hle : arg.length + 1 ≤ sp) (hsp : sp < 2 ^ 32) :
    pushed sp arg + argSize arg = sp := by
  have huint : uint (sp - (arg.length + 1)) = sp - (arg.length + 1) := by
    apply uint_eq (by omega)
    omega
  unfold pushed argSize
  rw [huint]
  omega

/-- A string that fits. -/
theorem push_inside (hc : Custody k total) (hs : StackImage total d sz) (h4 : sp % 4 = 0)
    (hhi : sp ≤ sz) (hfit : sz - pgsize + argSize arg ≤ sp) (m : Machine) :
    (copyout d (pushed sp arg) (arg ++ [0])).run (Machine.step k) m =
      .ok (0, m.copied d (pushed sp arg) (arg ++ [0])) := by
  have hlt := hs.lt
  have hsize : arg.length + 1 ≤ argSize arg := by
    unfold argSize
    omega
  have hnew : pushed sp arg + argSize arg = sp := pushed_inside h4 (by omega) (by omega)
  have hlen : (arg ++ [0]).length = arg.length + 1 := List.length_append
  apply copyout_inside hc hs (by simp)
  · omega
  · omega

/-- A string that does not fit runs into the guard page or past the end of the address space. -/
theorem push_outside (hc : Custody k total) (hs : StackImage total d sz) (heq : held = d.pages)
    (hwork : Working total m₀ calls held m) (h4 : sp % 4 = 0) (hlo : sz - pgsize ≤ sp)
    (hhi : sp ≤ sz) (harg : arg.length < 2 ^ 32) (hfit : sp < sz - pgsize + argSize arg) :
    Yields (fun e => e = .wild ∧ sp + devSize < arg.length + 4)
      (fun r => r.1 = -1 ∧ Working total m₀ calls held r.2)
      ((copyout d (pushed sp arg) (arg ++ [0])).run (Machine.step k) m) := by
  have hlt := hs.lt
  have haligned := hs.aligned
  have hroom := hs.room
  have hlen : (arg ++ [0]).length = arg.length + 1 := List.length_append
  by_cases hwrap : arg.length + 1 ≤ sp
  · -- The string reaches down into the guard page.
    have hnew := pushed_inside h4 hwrap (by omega)
    have hle : pushed sp arg + (arg.length + 1) ≤ sp := by
      unfold argSize at hnew
      omega
    have hguard : pushed sp arg + 4 ≤ sz - pgsize ∧
        sz - pgsize - 4 - pushed sp arg < arg.length + 1 := by
      have h4' : pushed sp arg % 4 = 0 := Nat.mul_mod_left ..
      unfold argSize at hnew hfit
      simp only [pgsize] at *
      omega
    have hout : ∃ i : Nat, i < (arg ++ [0]).length ∧ ¬ UserAt d (uint (pushed sp arg + i)) := by
      refine ⟨sz - pgsize - 4 - pushed sp arg, by omega, ?_⟩
      have haddr : uint (pushed sp arg + (sz - pgsize - 4 - pushed sp arg : Nat)) =
          sz - pgsize - 4 := by
        apply uint_eq (by omega)
        omega
      rw [haddr, hs.userAt_iff (by omega)]
      simp only [pgsize] at *
      omega
    apply (copyout_outside hc hs heq hwork (by omega) hout).mono
    · rintro e ⟨-, hnot⟩
      refine absurd (fun i hi _ => ?_) hnot
      have haddr : uint (pushed sp arg + i) = pushed sp arg + i := by
        apply uint_eq (by omega)
        omega
      rw [haddr]
      exact hs.guarded.fits.table_isSome (by omega)
    · exact fun _ h => h
  · -- The string reaches past address 0 and covers the last page of the address space.
    have huint : uint (sp - (arg.length + 1)) = 2 ^ 32 + sp - (arg.length + 1) := by
      simp only [uint] at *
      omega
    have hnew : pushed sp arg ≤ 2 ^ 32 + sp - (arg.length + 1) ∧
        2 ^ 32 + sp - (arg.length + 1) < pushed sp arg + 4 := by
      unfold pushed
      rw [huint]
      omega
    have hnew32 : pushed sp arg < 2 ^ 32 := by omega
    have hout : ∃ i : Nat, i < (arg ++ [0]).length ∧ ¬ UserAt d (uint (pushed sp arg + i)) := by
      have hsp : pgsize ≤ sp := by omega
      refine ⟨2 ^ 32 - 1 - pushed sp arg, ?_, ?_⟩
      · simp only [pgsize] at hsp
        omega
      · have haddr : uint (pushed sp arg + (2 ^ 32 - 1 - pushed sp arg : Nat)) = 2 ^ 32 - 1 := by
          apply uint_eq (by omega)
          omega
        rw [haddr, hs.userAt_iff (by omega)]
        omega
    apply (copyout_outside hc hs heq hwork hnew32 hout).mono
    · rintro e ⟨he, hnot⟩
      refine ⟨he, ?_⟩
      by_contra hshort
      apply hnot
      have hdev : devspace ≤ pushed sp arg := by
        simp only [devSize, devspace] at *
        omega
      have huser : ¬ UserAt d (pushed sp arg) := by
        rw [hs.userAt_iff hnew32]
        have hsz := hs.guarded.fits.1
        simp only [devspace, kernbase] at *
        omega
      exact tabled_of_stop hnew32 (hs.guarded.devices _ hnew32 hdev) huser
    · exact fun _ h => h

end Push

/-- The strings lie at their pointers, each below the one before it, down to `last`. -/
def Strings (mem : Mem) (last : Nat) : Nat → List Nat → List (List Byte) → Prop
  | sp, [], [] => last ≤ sp
  | sp, ptr :: ptrs, arg :: argv =>
    ptr % 4 = 0 ∧ ptr + (arg.length + 1) ≤ sp ∧
      (∀ i < arg.length + 1, mem (ptr + i) = (arg ++ [0]).getD i 0) ∧ Strings mem last ptr ptrs argv
  | _, _, _ => False

variable {mem : Mem} {last sp : Nat} {ptrs : List Nat} {argv : List (List Byte)} {arg : List Byte}

/-- Induction over the strings, from the lowest one up. -/
theorem Strings.climb {P : Nat → List Nat → List (List Byte) → Prop}
    (hnil : ∀ sp, last ≤ sp → P sp [] [])
    (hcons : ∀ sp ptr ptrs arg argv, ptr % 4 = 0 → ptr + (arg.length + 1) ≤ sp →
      (∀ i < arg.length + 1, mem (ptr + i) = (arg ++ [0]).getD i 0) →
      Strings mem last ptr ptrs argv → P ptr ptrs argv → P sp (ptr :: ptrs) (arg :: argv))
    (h : Strings mem last sp ptrs argv) : P sp ptrs argv := by
  induction ptrs generalizing sp argv with
  | nil =>
    cases argv with
    | nil => exact hnil sp h
    | cons arg argv => exact h.elim
  | cons ptr ptrs ih =>
    cases argv with
    | nil => exact h.elim
    | cons arg argv =>
      obtain ⟨h4, hle, hbytes, hrest⟩ := h
      exact hcons sp ptr ptrs arg argv h4 hle hbytes hrest (ih hrest)

theorem Strings.last_le (h : Strings mem last sp ptrs argv) : last ≤ sp := by
  refine h.climb (P := fun sp _ _ => last ≤ sp) (fun _ h => h) ?_
  intro sp ptr ptrs arg argv _ hle _ _ ih
  omega

theorem Strings.length_eq (h : Strings mem last sp ptrs argv) : ptrs.length = argv.length := by
  refine h.climb (P := fun _ ptrs argv => ptrs.length = argv.length) (fun _ _ => rfl) ?_
  intro sp ptr ptrs arg argv _ _ _ _ ih
  rw [List.length_cons, List.length_cons, ih]

/-- Strings stay where memory between `last` and the first stack pointer does. -/
theorem Strings.congr {mem' : Mem} (h : Strings mem last sp ptrs argv) {low : Nat}
    (hlow : low ≤ last) (hmem : ∀ v, last ≤ v → v < sp → mem' v = mem v) :
    Strings mem' low sp ptrs argv := by
  refine h.climb (P := fun sp ptrs argv => (∀ v, last ≤ v → v < sp → mem' v = mem v) →
    Strings mem' low sp ptrs argv) (fun sp hle _ => Nat.le_trans hlow hle) ?_ hmem
  intro sp ptr ptrs arg argv h4 hle hbytes hrest ih hmem
  have hlast := hrest.last_le
  refine ⟨h4, hle, fun i hi => ?_, ih fun v hv hv' => hmem v hv (by omega)⟩
  rw [hmem _ (by omega) (by omega)]
  exact hbytes i hi

/-- What `exec` has after the loop over the arguments. -/
structure StringsPushed (d : PageDir) (sz sp argc : Nat) (argv : List (List Byte)) (m t : Machine)
    (last : Nat) (ptrs : List Nat) : Prop where
  count : argc + argv.length ≤ maxarg
  size : last + stringsSize argv = sp
  inside : sz - pgsize ≤ last
  strings : Strings (userMem t d) last sp ptrs argv
  above : ∀ v, sp ≤ v → v < sz → userMem t d v = userMem m d v

/-- Why the loop over the arguments fails. -/
def TooMuch (sz sp argc : Nat) (argv : List (List Byte)) : Prop :=
  maxarg < argc + argv.length ∨ sp < sz - pgsize + stringsSize argv

/-- When a missing page table can be met: a string is longer than the region for devices. -/
def Overlong (sp argc : Nat) (argv : List (List Byte)) : Prop :=
  (∃ arg ∈ argv, devSize < arg.length) ∧
    sp + devSize < (argv.map fun arg => arg.length + 1).sum + 4 * (maxarg - argc)

theorem stringsSize_cons (arg : List Byte) (argv : List (List Byte)) :
    stringsSize (arg :: argv) = argSize arg + stringsSize argv := rfl

theorem lt_argSize (arg : List Byte) : arg.length < argSize arg ∧ argSize arg ≤ arg.length + 4 := by
  unfold argSize
  omega

/-- The first string is the one that is too long. -/
theorem Overlong.head {argc : Nat} (h : sp + devSize < arg.length + 4) (hsp : pgsize ≤ sp)
    (hargc : argc < maxarg) : Overlong sp argc (arg :: argv) := by
  constructor
  · refine ⟨arg, List.mem_cons_self .., ?_⟩
    simp only [pgsize] at hsp
    omega
  · rw [List.map_cons, List.sum_cons]
    omega

theorem Overlong.tail {new argc : Nat} (h : Overlong new (argc + 1) argv)
    (hnew : new + argSize arg = sp) (hargc : argc < maxarg) : Overlong sp argc (arg :: argv) := by
  obtain ⟨⟨arg', hmem, hlong⟩, hsum⟩ := h
  have hsize := (lt_argSize arg).2
  constructor
  · exact ⟨arg', List.mem_cons_of_mem _ hmem, hlong⟩
  · rw [List.map_cons, List.sum_cons]
    omega

/-- A string was pushed, and the others below it. -/
theorem StringsPushed.cons {argc : Nat} {t : Machine} (hs : StackImage total d sz)
    (hnew : pushed sp arg + argSize arg = sp) (hhi : sp ≤ sz)
    (h : StringsPushed d sz (pushed sp arg) (argc + 1) argv
      (m.copied d (pushed sp arg) (arg ++ [0])) t last ptrs) :
    StringsPushed d sz sp argc (arg :: argv) m t last (pushed sp arg :: ptrs) := by
  have hsize := (lt_argSize arg).1
  have hlast := h.strings.last_le
  have hinside := h.inside
  have hlen : (arg ++ [0]).length = arg.length + 1 := List.length_append
  have hseen : ∀ v, pushed sp arg ≤ v → v < sz → userMem t d v =
      blit (userMem m d) (pushed sp arg) (arg ++ [0]) v := by
    intro v hv hvsz
    rw [h.above v hv hvsz]
    exact userMem_copied hs (by omega) (by omega) (by omega) hvsz m
  constructor
  · have hcount := h.count
    rw [List.length_cons]
    omega
  · rw [stringsSize_cons, ← hnew, ← h.size]
    omega
  · exact h.inside
  · refine ⟨Nat.mul_mod_left .., by omega, fun i hi => ?_, h.strings⟩
    rw [hseen _ (by omega) (by omega), blit_inside _ _ _ (by omega)]
  · intro v hv hvsz
    rw [hseen v (by omega) hvsz, blit_of_ge _ _ (by omega)]

theorem pushStrings_yields (hc : Custody k total) (hs : StackImage total d sz)
    (heq : held = d.pages) (hargs : ∀ arg ∈ argv, arg.length < 2 ^ 32) {argc : Nat}
    (hargc : argc ≤ maxarg) (h4 : sp % 4 = 0) (hlo : sz - pgsize ≤ sp) (hhi : sp ≤ sz)
    (hwork : Working total m₀ calls held m) :
    Yields (fun e => e = .wild ∧ Overlong sp argc argv)
      (fun r => Working total m₀ calls held r.2 ∧ match r.1 with
        | none => TooMuch sz sp argc argv
        | some (last, ptrs) => StringsPushed d sz sp argc argv m r.2 last ptrs)
      ((pushStrings d argv argc sp).run (Machine.step k) m) := by
  have hlt := hs.lt
  have hroom := hs.room
  induction argv generalizing sp argc m with
  | nil => exact ⟨hwork, ⟨hargc, rfl, hlo, Nat.le_refl sp, fun _ _ _ => rfl⟩⟩
  | cons arg argv ih =>
    unfold pushStrings
    split
    · next hmax =>
      refine ⟨hwork, .inl ?_⟩
      rw [List.length_cons]
      omega
    next hmax =>
    change Yields _ _ ((copyout d (pushed sp arg) (arg ++ [0]) >>= _).run _ m)
    have hsize := lt_argSize arg
    by_cases hfit : sz - pgsize + argSize arg ≤ sp
    · have hnew : pushed sp arg + argSize arg = sp := pushed_inside h4 (by omega) (by omega)
      have hgood : Store.Good total ⟨d, pushed sp arg, kaddr d (pushed sp arg), arg ++ [0]⟩ := by
        have hlen : (arg ++ [0]).length = arg.length + 1 := List.length_append
        have haligned := hs.aligned
        apply good_of_placed hc hs heq hwork
        refine ⟨rfl, by dsimp only; omega, ?_, rfl, ?_⟩
        · exact (hs.userAt_iff (by dsimp only; omega)).mpr (by dsimp only; omega)
        · dsimp only
          simp only [pgsize] at *
          omega
      rw [run_bind_of_ok (push_inside hc hs h4 hhi hfit m)]
      change Yields _ _ ((pushStrings d argv (argc + 1) (pushed sp arg) >>= _).run _ _)
      have h4' : pushed sp arg % 4 = 0 := Nat.mul_mod_left ..
      have hrest := ih (fun a ha => hargs a (List.mem_cons_of_mem _ ha)) (by omega : argc + 1 ≤ maxarg)
        h4' (by omega) (by omega) (hwork.store hgood)
      refine yields_run_bind (hrest.mono (fun e he => ⟨he.1, he.2.tail hnew (by omega)⟩)
        fun _ h => h) ?_
      rintro r t ⟨hwork', hr⟩
      cases r with
      | none =>
        refine ⟨hwork', ?_⟩
        unfold TooMuch at hr ⊢
        rw [stringsSize_cons, List.length_cons]
        dsimp only at hr
        omega
      | some x =>
        obtain ⟨last, ptrs⟩ := x
        exact ⟨hwork', hr.cons hs hnew hhi⟩
    · have hpage : pgsize ≤ sp := by omega
      refine yields_run_bind ((push_outside hc hs heq hwork h4 hlo hhi
        (hargs arg (List.mem_cons_self ..)) (by omega)).mono
        (fun e he => ⟨he.1, .head he.2 hpage (by omega)⟩) fun _ h => h) ?_
      rintro r t ⟨hr, hwork'⟩
      dsimp only at hr
      subst hr
      refine ⟨hwork', .inr ?_⟩
      rw [stringsSize_cons]
      omega

/-! ## The words below the strings -/

/-- What all arguments take. -/
def argumentsSize (argv : List (List Byte)) : Nat := stringsSize argv + 4 * (argv.length + 4)

theorem ustack_length (sp : Nat) (ptrs : List Nat) :
    ((ustack sp ptrs).flatMap wordBytes).length = 4 * (ptrs.length + 4) := by
  have hwords (vs : List Nat) : (vs.flatMap wordBytes).length = 4 * vs.length := by
    induction vs with
    | nil => rfl
    | cons v vs ih =>
      rw [List.flatMap_cons, List.length_append, wordBytes_length, ih, List.length_cons]
      omega
  rw [hwords, ustack]
  simp only [List.length_append, List.length_cons, List.length_nil]
  omega

/-- The stack as `exec` leaves it: the words at the stack pointer, and the strings they lead to. -/
structure ArgumentStack (mem : Mem) (sz sp : Nat) (argv : List (List Byte)) (ptrs : List Nat) :
    Prop where
  size : sp + argumentsSize argv = sz
  inside : sz - pgsize ≤ sp
  words : ∀ i < ptrs.length + 4, readWord mem (sp + 4 * i) =
    (ustack (sp + 4 * (ptrs.length + 4)) ptrs).getD i 0 % 2 ^ 32
  strings : Strings mem (sp + 4 * (ptrs.length + 4)) sz ptrs argv

/-- The words fit below the strings. -/
theorem words_inside (hc : Custody k total) (hs : StackImage total d sz) (heq : held = d.pages)
    {t : Machine} (h : StringsPushed d sz sz 0 argv m t last ptrs)
    (hsp : sp + 4 * (ptrs.length + 4) = last) (hfit : sz - pgsize ≤ sp)
    (hwork : Working total m₀ calls held t) :
    (copyout d sp ((ustack last ptrs).flatMap wordBytes)).run (Machine.step k) t =
        .ok (0, t.copied d sp ((ustack last ptrs).flatMap wordBytes)) ∧
      Working total m₀ calls held (t.copied d sp ((ustack last ptrs).flatMap wordBytes)) ∧
      ArgumentStack (userMem (t.copied d sp ((ustack last ptrs).flatMap wordBytes)) d) sz sp argv
        ptrs := by
  have hlen := ustack_length last ptrs
  have hsize := h.size
  have hcount := h.strings.length_eq
  have hlast := h.strings.last_le
  have hroom := hs.room
  have hlt := hs.lt
  have haligned := hs.aligned
  have hne : (ustack last ptrs).flatMap wordBytes ≠ [] := by
    intro hnil
    rw [hnil, List.length_nil] at hlen
    omega
  have hseen : ∀ v, sp ≤ v → v < sz →
      userMem (t.copied d sp ((ustack last ptrs).flatMap wordBytes)) d v =
        writeWords (userMem t d) sp (ustack last ptrs) v := by
    intro v hv hvsz
    rw [← blit_words]
    exact userMem_copied hs hfit (by omega) (by omega) hvsz t
  have hwords : (ustack last ptrs).length = ptrs.length + 4 := by
    unfold ustack
    simp only [List.length_append, List.length_cons, List.length_nil]
    omega
  have hgood : Store.Good total ⟨d, sp, kaddr d sp, (ustack last ptrs).flatMap wordBytes⟩ := by
    apply good_of_placed hc hs heq hwork
    refine ⟨rfl, by dsimp only; omega, ?_, rfl, ?_⟩
    · exact (hs.userAt_iff (by dsimp only; omega)).mpr (by dsimp only; omega)
    · dsimp only
      rw [hlen]
      simp only [pgsize] at *
      omega
  refine ⟨copyout_inside hc hs hne hfit (by omega) t, hwork.store hgood, ?_⟩
  · constructor
    · unfold argumentsSize
      omega
    · exact hfit
    · intro i hi
      rw [hsp, ← readWord_writeWords (userMem t d) sp _ i (by omega)]
      apply readWord_congr
      intro x hx hx'
      exact hseen x (by omega) (by omega)
    · rw [hsp]
      apply h.strings.congr (Nat.le_refl _)
      intro v hv hv'
      rw [hseen v (by omega) hv', writeWords_frame _ _ _ _ (by omega)]

/-- They do not fit. -/
theorem words_outside (hc : Custody k total) (hs : StackImage total d sz) (heq : held = d.pages)
    (hlo : sz - 2 * pgsize ≤ sp) (hhi : sp < sz - pgsize) (hp : p ≠ [])
    (hwork : Working total m₀ calls held m) :
    Yields (fun _ => False) (fun r => r.1 = -1 ∧ Working total m₀ calls held r.2)
      ((copyout d sp p).run (Machine.step k) m) := by
  have hlt := hs.lt
  have huser : ¬ UserAt d sp := by
    rw [hs.userAt_iff (by omega)]
    omega
  have hout : ∃ i : Nat, i < p.length ∧ ¬ UserAt d (uint (sp + i)) := by
    refine ⟨0, List.length_pos_iff.mpr hp, ?_⟩
    rwa [uint_eq (by omega) (by omega : sp < 2 ^ 32)]
  apply (copyout_outside hc hs heq hwork (by omega) hout).mono
  · rintro e ⟨-, hnot⟩
    exact hnot (tabled_of_stop (by omega) (hs.guarded.fits.table_isSome (by omega)) huser)
  · exact fun _ h => h

theorem pushArguments_yields (hc : Custody k total) (hs : StackImage total d sz)
    (heq : held = d.pages) (hargs : ∀ arg ∈ argv, arg.length < 2 ^ 32)
    (hwork : Working total m₀ calls held m) :
    Yields (fun e => e = .wild ∧ Overlong sz 0 argv)
      (fun r => Working total m₀ calls held r.2 ∧ match r.1 with
        | none => maxarg < argv.length ∨ pgsize < argumentsSize argv
        | some sp => argv.length ≤ maxarg ∧
            ∃ ptrs, ArgumentStack (userMem r.2 d) sz sp argv ptrs)
      ((pushArguments d argv sz).run (Machine.step k) m) := by
  have hlt := hs.lt
  have hroom := hs.room
  have haligned := hs.aligned
  have h4 : sz % 4 = 0 := by
    simp only [pgsize] at haligned
    omega
  unfold pushArguments
  refine yields_run_bind (pushStrings_yields hc hs heq hargs (Nat.zero_le _) h4 (by omega)
    (Nat.le_refl _) hwork) ?_
  rintro r t ⟨hwork', hr⟩
  cases r with
  | none =>
    refine ⟨hwork', ?_⟩
    unfold TooMuch at hr
    unfold argumentsSize
    dsimp only at hr
    omega
  | some x =>
    obtain ⟨last, ptrs⟩ := x
    dsimp only at hr ⊢
    have hcount := hr.count
    have hlength := hr.strings.length_eq
    have hinside := hr.inside
    have hsize := hr.size
    obtain ⟨sp, hsp⟩ : ∃ sp, sp + 4 * (ptrs.length + 4) = last := by
      refine ⟨last - 4 * (ptrs.length + 4), Nat.sub_add_cancel ?_⟩
      simp only [pgsize, maxarg] at *
      omega
    have huint : uint (last - (3 + ptrs.length + 1) * 4) = sp := by
      apply uint_eq
      · omega
      · omega
    rw [huint]
    by_cases hfit : sz - pgsize ≤ sp
    · obtain ⟨hrun, hwork₂, hstack⟩ := words_inside hc hs heq hr hsp hfit hwork'
      rw [run_bind_of_ok hrun]
      exact ⟨hwork₂, by omega, ptrs, hstack⟩
    · have hne : (ustack last ptrs).flatMap wordBytes ≠ [] := by
        intro hnil
        have hlen := ustack_length last ptrs
        rw [hnil, List.length_nil] at hlen
        omega
      have hlow : sz - 2 * pgsize ≤ sp := by
        have hwide : 4 * (ptrs.length + 4) ≤ pgsize := by
          simp only [pgsize, maxarg] at hcount ⊢
          omega
        omega
      refine yields_run_bind ((words_outside hc hs heq hlow (by omega) hne hwork').mono
        (fun _ h => h.elim) fun _ h => h) ?_
      rintro r u ⟨hminus, hwork₂⟩
      dsimp only at hminus
      subst hminus
      refine ⟨hwork₂, .inr ?_⟩
      unfold argumentsSize
      omega

end Xv6Containers.Vm
