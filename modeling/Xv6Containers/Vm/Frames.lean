import Xv6Containers.Vm.Custody

/-!
# Page frames and what they hold

`allocuvm` clears each page before it maps it and `copyuvm` copies each page of the
parent. Here both are programs with their calls of `memset` and `memmove`, over a
machine that has the free list and the contents of every page. Without these calls they are
the programs of `Vm.PageTable`.

## Implementation notes

Physical memory is a page of bytes for each page number; `P2V` is the kernel's name for
the same bytes. What `walkpgdir` writes to page-table pages is in the page directory.
-/

namespace Xv6Containers.Vm

open Lib.Memory Lib.Program Prog

/-- The bytes of a page. -/
abbrev Page := Fin pgsize → Byte

/-- The operations on whole pages. -/
inductive FrameOp
  | vm (o : Op 0)
  | memset (page : Nat) (b : Byte)
  | memmove (dst src : Nat)

def FrameOp.Res : FrameOp → Type
  | .vm o => o.Res
  | _ => Unit

abbrev FrameProg := Prog FrameOp.Res

def FrameOp.ofVm (o : Op 0) (r : (FrameOp.vm o).Res) : o.Res := r

/-- The free list and what the pages hold. -/
structure Frames where
  free : List Nat
  mem : Nat → Page

namespace Frames

/-! ## The programs -/

variable {α β : Type}

def vm (x : VmProg 0 α) : FrameProg α := x.embed FrameOp.vm FrameOp.ofVm

def memset (page : Nat) (b : Byte) : FrameProg Unit := Prog.op (FrameOp.memset page b)

def memmove (dst src : Nat) : FrameProg Unit := Prog.op (FrameOp.memmove dst src)

/-- The loop of `allocuvm`, which takes at most the given number of rounds. -/
def allocLoop (oldsz newsz : Nat) : Nat → PageDir → Nat → FrameProg (PageDir × Nat)
  | 0, d, _ => return (d, newsz)
  | k + 1, d, a =>
    if a < newsz then do
      match ← vm (kalloc .other) with
      | none => do
          let (d, _) ← vm (deallocuvm d newsz oldsz)
          return (d, 0)
      | some mem => do
          memset mem 0
          let (d, ok) ← vm (mappages .other d a pgsize ⟨mem, true, true⟩)
          if ok then allocLoop oldsz newsz k d (uint (a + pgsize))
          else do
            let (d, _) ← vm (deallocuvm d newsz oldsz)
            vm (kfree mem)
            return (d, 0)
    else return (d, newsz)

/-- `allocuvm`. -/
def allocuvm (d : PageDir) (oldsz newsz : Nat) : FrameProg (PageDir × Nat) :=
  if kernbase ≤ newsz then return (d, 0)
  else if newsz < oldsz then return (d, oldsz)
  else allocLoop oldsz newsz (newsz / pgsize + 1) d (pgroundup oldsz)

/-- The loop of `copyuvm`, which takes at most the given number of rounds. -/
def copyLoop (pgdir : PageDir) (sz : Nat) : Nat → PageDir → Nat → FrameProg (Option PageDir)
  | 0, d, _ => return some d
  | k + 1, d, i =>
    if i < sz then
      match pgdir.table (pdx i) with
      | none => vm (panic .copyNoPte)
      | some t =>
        match t.pte (ptx i) with
        | none => vm (panic .copyNotPresent)
        | some x => do
            match ← vm (kalloc .other) with
            | none => do
                vm (freevm d)
                return none
            | some mem => do
                memmove mem x.page
                let (d, ok) ← vm (mappages .copyTable d i pgsize { x with page := mem })
                if ok then copyLoop pgdir sz k d (uint (i + pgsize))
                else do
                  vm (freevm d)
                  return none
    else return some d

/-- `copyuvm`. -/
def copyuvm (k : KernelImage) (pgdir : PageDir) (sz : Nat) : FrameProg (Option PageDir) := do
  match ← vm (setupkvm k) with
  | none => return none
  | some d => copyLoop pgdir sz (sz / pgsize + 1) d 0

/-! ## Without the contents -/

/-- The program without its calls of `memset` and `memmove`. -/
def erase : FrameProg α → VmProg 0 α
  | .ret a => .ret a
  | .call (.vm o) next => .call o fun r => erase (next r)
  | .call (.memset _ _) next => erase (next ())
  | .call (.memmove _ _) next => erase (next ())

@[simp] theorem erase_pure (a : α) : erase (pure a) = pure a := rfl

@[simp] theorem erase_bind (x : FrameProg α) (f : α → FrameProg β) :
    erase (x >>= f) = erase x >>= fun a => erase (f a) := by
  change erase (x.bind f) = (erase x).bind fun a => erase (f a)
  induction x with
  | ret a => rfl
  | call o next ih =>
    cases o with
    | vm o => exact congrArg (Prog.call o) (funext fun r => ih r)
    | memset page b => exact ih ()
    | memmove dst src => exact ih ()

@[simp] theorem erase_vm (x : VmProg 0 α) : erase (vm x) = x := by
  induction x with
  | ret a => rfl
  | call o next ih => exact congrArg (Prog.call o) (funext fun r => ih r)

@[simp] theorem erase_memset (page : Nat) (b : Byte) : erase (memset page b) = pure () := rfl

@[simp] theorem erase_memmove (dst src : Nat) : erase (memmove dst src) = pure () := rfl

theorem erase_allocLoop (oldsz newsz k : Nat) (d : PageDir) (a : Nat) :
    erase (allocLoop oldsz newsz k d a) = Vm.allocLoop oldsz newsz k d a := by
  induction k generalizing d a with
  | zero => rfl
  | succ k ih =>
    unfold allocLoop Vm.allocLoop
    split
    · rw [erase_bind, erase_vm]
      congr 1
      funext r
      cases r with
      | none => simp
      | some mem =>
        rw [erase_bind, erase_memset]
        change erase _ = _
        rw [erase_bind, erase_vm]
        congr 1
        funext x
        obtain ⟨d', ok⟩ := x
        cases ok with
        | false => simp
        | true => exact ih d' _
    · rfl

/-- `allocuvm` without `memset` is the program on page tables. -/
theorem erase_allocuvm (d : PageDir) (oldsz newsz : Nat) :
    erase (allocuvm d oldsz newsz) = Vm.allocuvm d oldsz newsz := by
  unfold allocuvm Vm.allocuvm
  rw [apply_ite erase, apply_ite erase, erase_allocLoop]
  rfl

theorem erase_copyLoop (pgdir : PageDir) (sz k : Nat) (d : PageDir) (i : Nat) :
    erase (copyLoop pgdir sz k d i) = Vm.copyLoop pgdir sz k d i := by
  induction k generalizing d i with
  | zero => rfl
  | succ k ih =>
    unfold copyLoop Vm.copyLoop
    split
    · cases pgdir.table (pdx i) with
      | none => exact erase_vm _
      | some t =>
        dsimp only
        cases t.pte (ptx i) with
        | none => exact erase_vm _
        | some x =>
          rw [erase_bind, erase_vm]
          congr 1
          funext r
          cases r with
          | none => simp
          | some mem =>
            rw [erase_bind, erase_memmove]
            change erase _ = _
            rw [erase_bind, erase_vm]
            congr 1
            funext y
            obtain ⟨d', ok⟩ := y
            cases ok with
            | false => simp
            | true => exact ih d' _
    · rfl

/-- `copyuvm` without `memmove` is the program on page tables. -/
theorem erase_copyuvm (k : KernelImage) (pgdir : PageDir) (sz : Nat) :
    erase (copyuvm k pgdir sz) = Vm.copyuvm k pgdir sz := by
  unfold copyuvm Vm.copyuvm
  rw [erase_bind, erase_vm]
  congr 1
  funext r
  cases r with
  | none => rfl
  | some d => exact erase_copyLoop ..

/-! ## The machine -/

/-- Fill a page with one byte. -/
def fill (m : Frames) (page : Nat) (b : Byte) : Frames :=
  { m with mem := Function.update m.mem page fun _ => b }

/-- `kfree` of a page of the allocator. -/
def putBack (m : Frames) (page : Nat) : Frames := { m with free := page :: m.free }.fill page 1

def vmStep (k : KernelImage) : (o : Op 0) → Frames → Except Stop (o.Res × Frames)
  | .kalloc _, m =>
    match m.free with
    | [] => .ok (none, m)
    | page :: rest => .ok (some page, { m with free := rest })
  | .kfree page, m =>
    if page < k.first ∨ physTop / pgsize ≤ page then .error (.panic .kfree)
    else .ok ((), m.putBack page)
  | .panic p, _ => .error (.panic p)
  | _, _ => .error .impossible

def step (k : KernelImage) : (o : FrameOp) → Frames → Except Stop (o.Res × Frames)
  | .vm o, m => m.vmStep k o
  | .memset page b, m => .ok ((), m.fill page b)
  | .memmove dst src, m => .ok ((), { m with mem := Function.update m.mem dst (m.mem src) })

variable {k : KernelImage} {m : Frames}

theorem run_vm (x : VmProg 0 α) (m : Frames) : (vm x).run (step k) m = x.run (vmStep k) m := by
  rw [vm, run_embed]
  congr 1
  funext o s
  change (s.vmStep k o).map _ = _
  cases s.vmStep k o with
  | error e => rfl
  | ok r => rfl

theorem run_kalloc_nil (site : Site) (h : m.free = []) :
    (vm (Vm.kalloc site)).run (step k) m = .ok (none, m) := by
  rw [run_vm]
  refine (run_op (vmStep k) (Op.kalloc site) m).trans ?_
  simp only [vmStep, h]
  rfl

theorem run_kalloc_cons (site : Site) {page : Nat} {rest : List Nat} (h : m.free = page :: rest) :
    (vm (Vm.kalloc site)).run (step k) m = .ok (some page, { m with free := rest }) := by
  rw [run_vm]
  refine (run_op (vmStep k) (Op.kalloc site) m).trans ?_
  simp only [vmStep, h]
  rfl

/-- The given pages were taken from the free list, and no other page was written. -/
structure Took (used : List Nat) (m m' : Frames) : Prop where
  free : m.free = used ++ m'.free
  mem : ∀ page, page ∉ used → m'.mem page = m.mem page

theorem Took.refl (m : Frames) : Took [] m m := ⟨rfl, fun _ _ => rfl⟩

theorem Took.trans {used used' : List Nat} {m₁ m₂ : Frames} (h : Took used m m₁)
    (h' : Took used' m₁ m₂) : Took (used ++ used') m m₂ := by
  constructor
  · rw [h.free, h'.free, List.append_assoc]
  · intro page hpage
    rw [List.mem_append, not_or] at hpage
    rw [h'.mem page hpage.2, h.mem page hpage.1]

/-- A page is taken and written, and more pages are taken. -/
theorem took_page {page : Nat} {rest taken : List Nat} {m' : Frames} {x : Page}
    (hpage : m.free = page :: rest) (hrest : rest = taken ++ m'.free)
    (hmem : m'.mem = Function.update m.mem page x) : Took (page :: taken) m m' := by
  constructor
  · rw [hpage, hrest, List.cons_append]
  · intro other hother
    rw [hmem, Function.update_of_ne (List.ne_of_not_mem_cons hother)]

/-- What is still free was not taken. -/
theorem Took.not_mem {used : List Nat} {m' : Frames} {page : Nat} (h : Took used m m')
    (hnodup : m.free.Nodup) (hpage : page ∈ m'.free) : page ∉ used := by
  rw [h.free] at hnodup
  exact fun hused => (List.nodup_append.mp hnodup).2.2 page hused page hpage rfl

/-- A program that only maps takes pages and writes none. -/
theorem maps_yields {D : Discipline (Op.Res (n := 0)) Unit} {E : Stop → Prop}
    (hmay : ∀ site r, D.may (.kalloc site) () r) (hE : D.pre (.panic .remap) () → E (.panic .remap))
    {x : VmProg 0 α} {post : α → Unit → Prop} (honly : x.Only Op.Maps) (hsafe : x.Safe D post ())
    (m : Frames) :
    Yields E (fun r => post r.1 () ∧ ∃ used, m.free = used ++ r.2.free ∧ r.2.mem = m.mem)
      (x.run (vmStep k) m) := by
  refine (Safe.yields (E := E) (I := fun _ s => ∃ used, m.free = used ++ s.free ∧ s.mem = m.mem) ?_
    honly hsafe ⟨[], rfl, rfl⟩).mono (fun _ h => h) fun r ⟨_, hpost, hused⟩ => ⟨hpost, hused⟩
  rintro o ⟨⟩ s ho ⟨used, hfree, hmem⟩ hpre
  cases o with
  | kalloc site =>
    cases hs : s.free with
    | nil =>
      simp only [vmStep, hs]
      exact ⟨hmay site none, used, hfree, hmem⟩
    | cons page rest =>
      simp only [vmStep, hs]
      refine ⟨hmay site (some page), used ++ [page], ?_, hmem⟩
      rw [hfree, hs, List.append_assoc, List.singleton_append]
  | panic p =>
    cases ho
    exact hE hpre
  | _ => exact ho.elim

/-- Mapping one page that is not mapped. -/
theorem mapPage_yields (site : Site) {d : PageDir} {a : Nat} (ha : a < 2 ^ 32)
    (hnone : d.pte a = none) (y : Pte) (m : Frames) :
    Yields (fun _ => False) (fun r =>
      (∀ v < 2 ^ 32, r.1.1.pte v = if r.1.2 = true ∧ SamePage v a then some y else d.pte v) ∧
        ∃ used, m.free = used ++ r.2.free ∧ r.2.mem = m.mem)
      ((vm (mapPage site d a y)).run (step k) m) := by
  rw [run_vm]
  exact maps_yields (fun _ _ => trivial) (fun h => nomatch h) (mapPage_maps site d a y)
    (mapPage_fits site ha hnone y) m

end Frames

end Xv6Containers.Vm
