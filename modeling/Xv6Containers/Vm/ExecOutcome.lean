import Xv6Containers.Vm.StackLayout

/-!
# exec from its call to its end

Either `exec` fails and only pages that were free have changed, or the caller has
the new image and the pages of the old one are free. In both cases it has closed
the file and its transaction, and it has stored no byte outside of user pages that
it allocated itself.

## Implementation notes

The pages of the machine are accounted for twice: while the image is built, the
pages that were free at the call are the new image and what is still free; once the
caller has the new image, the old image and what is still free take that place.
-/

namespace Xv6Containers.Vm

open Lib.Memory Lib.Program Prog

variable {k : KernelImage} {total held : Multiset Nat} {m₀ m t : Machine} {calls : List FsCall}
  {d : PageDir} {sz : Nat} {path file : List Byte} {argv : List (List Byte)}

/-- Every page is free once or part of the caller's image once. -/
def Sane (k : KernelImage) (m : Machine) : Prop :=
  Custody k (m.free + m.caller.pgdir.pages)

theorem Sane.free (h : Sane k m) : Custody k m.free := h.le (Multiset.le_add_right _ _)

/-! ## The end of a failed call -/

/-- The pages of an image that may not be there yet. -/
def imagePages : Option PageDir → Multiset Nat
  | none => 0
  | some d => d.pages

theorem bad_yields (hc : Custody k total) {pgdir : Option PageDir}
    (hd : ∀ d, pgdir = some d → Sourced (· ∈ total) d) (ip : Bool)
    (hwork : Working total m₀ calls (imagePages pgdir) m) :
    Yields (fun _ => False) (fun r => r.1 = -1 ∧
        Working total m₀ (calls ++ if ip then [.iunlockput, .endOp] else []) 0 r.2)
      ((bad pgdir ip).run (Machine.step k) m) := by
  have hend {t : Machine} (ht : Working total m₀ calls 0 t) :
      Yields (fun _ => False) (fun r => r.1 = -1 ∧
          Working total m₀ (calls ++ if ip then [.iunlockput, .endOp] else []) 0 r.2)
        ((if ip then do
            iunlockput
            endOp
            return -1
          else return -1 : ExecProg Int).run (Machine.step k) t) := by
    cases ip with
    | false =>
      rw [if_neg Bool.false_ne_true, if_neg Bool.false_ne_true, List.append_nil]
      exact ⟨rfl, ht⟩
    | true =>
      rw [if_pos rfl, if_pos rfl, run_bind_of_ok (t.run_iunlockput),
        run_bind_of_ok (Machine.run_endOp _)]
      have hboth := (ht.call .iunlockput).call .endOp
      rw [List.append_assoc] at hboth
      exact ⟨rfl, hboth⟩
  unfold bad
  cases pgdir with
  | none => exact hend hwork
  | some d =>
    apply yields_run_bind (freevm_yields hc (hd d rfl) hwork)
    exact fun _ t ht => hend ht

/-! ## The new image takes the place of the old one -/

/-- What is on a page does not change while other pages are given away. -/
theorem userMem_kept {rest : Multiset Nat} (hc : Custody k (held + rest)) {held' : Multiset Nat}
    (hwork : Working rest m calls held' t) {v : Nat} {x : Pte} (hx : d.pte v = some x)
    (hpage : x.page ∈ held) : userMem t d v = userMem m d v := by
  apply hwork.mem
  intro page hrest hin
  have hne : page ≠ x.page := by
    rintro rfl
    exact Multiset.disjoint_left.mp (Multiset.nodup_add.mp hc.nodup).2.2 hpage hrest
  have hframe := hc.frames page (Multiset.mem_add.mpr (.inr hrest))
  have hframe' := hc.frames x.page (Multiset.mem_add.mpr (.inl hpage))
  unfold InPage at hin
  rw [kaddr, hx, pteAddr, p2v_eq hframe.2.2, p2v_eq hframe'.2.2] at hin
  simp only [pgsize] at hin
  omega

/-- The caller after `exec` has given it the new image. -/
structure Committed (total : Multiset Nat) (m₀ : Machine) (calls : List FsCall) (c : Caller)
    (m t : Machine) : Prop where
  caller : t.caller = c
  calls : t.calls = m₀.calls ++ calls
  stores : ∃ new, t.stores = m₀.stores ++ new ∧ ∀ st ∈ new, st.Good total
  pages : t.free + c.pgdir.pages = total + m₀.caller.pgdir.pages
  user : ∀ v < kernbase, (c.pgdir.pte v).isSome → userMem t c.pgdir v = userMem m c.pgdir v

theorem commit_yields (hc : Custody k (total + m₀.caller.pgdir.pages)) (heq : held = d.pages)
    (hwork : Working total m₀ calls held m) (path : List Byte) (entry sz sp : Nat) :
    Yields (fun _ => False) (fun r => r.1 = 0 ∧ Committed total m₀ calls
        ⟨d, sz, (lastElement path path).take 15, entry, sp⟩ m r.2)
      ((commit path entry d sz sp).run (Machine.step k) m) := by
  obtain ⟨old, hold⟩ : ∃ old, m.caller.pgdir = old := ⟨_, rfl⟩
  have hpages := hwork.pages
  rw [← hwork.caller, hold] at hc
  -- The machine when the old image is freed.
  obtain ⟨u, hu⟩ : ∃ u : Machine, u = { m with
    caller := ⟨d, sz, (lastElement path path).take 15, entry, sp⟩ } := ⟨_, rfl⟩
  have hfree : u.free = m.free := by rw [hu]
  have hboth : Custody k (held + (old.pages + u.free)) := by
    rw [hfree, add_left_comm, hpages, add_comm]
    exact hc
  have hsource : Sourced (· ∈ old.pages + (u.free : Multiset Nat)) old := by
    intro v hv x hx
    rw [← pages_eq_pte hv hx]
    simp
  have hrun : (commit path entry d sz sp).run (Machine.step k) m =
      (vm (freevm old) >>= fun _ => pure 0 : ExecProg Int).run (Machine.step k) u := by
    have hswap (m : Machine) : (vm (swap d sz)).run (Machine.step k) m =
        .ok (m.caller.pgdir, { m with caller := { m.caller with pgdir := d, sz := sz } }) := by
      rw [Machine.run_vm]
      exact run_op _ (Op.swap d sz) m
    unfold commit
    rw [run_bind_of_ok (Machine.run_setName ..), run_bind_of_ok (hswap _),
      run_bind_of_ok (Machine.run_setFrame ..), hu, ← hold]
  rw [hrun]
  apply yields_run_bind ((freevm_yields (hboth.le (Multiset.le_add_left _ _)) hsource
    (Working.start u old.pages)).and (vm_stores (freevm old) u))
  rintro _ t ⟨ht, hstores⟩
  refine ⟨rfl, ?_⟩
  constructor
  · rw [ht.caller, hu]
  · rw [ht.calls, List.append_nil, hu]
    exact hwork.calls
  · rw [show t.stores = m.stores by rw [hstores, hu]]
    exact hwork.stores
  · have hend := ht.pages
    rw [zero_add] at hend
    rw [hend, ← hwork.caller, hold, ← hpages, heq, hfree, add_comm, add_comm old.pages, add_assoc]
  · intro v hv hsome
    obtain ⟨x, hx⟩ := Option.isSome_iff_exists.mp hsome
    have hpage : x.page ∈ held := by
      rw [heq, ← pages_eq_pte hv hx]
      simp
    rw [userMem_kept hboth ht hx hpage, hu]
    rfl

/-! ## The stack and the arguments -/

/-- The arguments stay where the user sees the same memory. -/
theorem ArgumentStack.congr {mem mem' : Mem} {sp : Nat} {ptrs : List Nat}
    (h : ArgumentStack mem sz sp argv ptrs) (hmem : ∀ v, sp ≤ v → v < sz → mem' v = mem v) :
    ArgumentStack mem' sz sp argv ptrs := by
  have hsize := h.size
  have hlength := h.strings.length_eq
  unfold argumentsSize at hsize
  constructor
  · exact h.size
  · exact h.inside
  · intro i hi
    rw [← h.words i hi]
    apply readWord_congr
    intro a ha ha'
    exact hmem a (by omega) (by omega)
  · apply h.strings.congr (Nat.le_refl _)
    intro v hv hv'
    exact hmem v (by omega) hv'

/-- What a successful `exec` leaves. -/
structure Replaced (total : Multiset Nat) (m₀ : Machine) (calls : List FsCall)
    (argv : List (List Byte)) (t : Machine) : Prop where
  calls : t.calls = m₀.calls ++ calls
  stores : ∃ new, t.stores = m₀.stores ++ new ∧ ∀ st ∈ new, st.Good total
  pages : t.free + t.caller.pgdir.pages = total + m₀.caller.pgdir.pages
  image : StackImage total t.caller.pgdir t.caller.sz
  arguments : ∃ ptrs, ArgumentStack (userMem t t.caller.pgdir) t.caller.sz t.caller.esp argv ptrs

/-- How `exec` ends once the image has the given size. -/
def Ends (total : Multiset Nat) (m₀ : Machine) (calls : List FsCall) (argv : List (List Byte))
    (r : Int) (t : Machine) : Prop :=
  r = -1 ∧ Working total m₀ calls 0 t ∨
    r = 0 ∧ Replaced total m₀ calls argv t ∧ argumentsSize argv ≤ pgsize

theorem Committed.replaced {c : Caller} (h : Committed total m₀ calls c m t)
    (himage : StackImage total c.pgdir c.sz) {ptrs : List Nat}
    (hstack : ArgumentStack (userMem m c.pgdir) c.sz c.esp argv ptrs) :
    Replaced total m₀ calls argv t := by
  have hcaller := h.caller
  subst hcaller
  refine ⟨h.calls, h.stores, h.pages, himage, ptrs, ?_⟩
  apply hstack.congr
  intro v hv hv'
  have hinside := hstack.inside
  have hlow : v < kernbase := Nat.lt_trans hv' himage.guarded.fits.1
  apply h.user v hlow
  rw [himage.guarded.fits.2 v hlow]
  simp only [pgsize]
  omega

/-- Where the stack of an image with segments of the given size begins. -/
def stackTop (sz : Nat) : Nat := pgroundup sz + 2 * pgsize

/-- The stack pages follow on a page boundary. -/
theorem allocStack_yields (hc : Custody k total) (hfit : Fits d sz) (himage : Image (· ∈ total) d)
    (hwork : Working total m₀ calls d.pages m) {top : Nat} (htop : top = stackTop sz) :
    Yields (fun _ => False) (fun r => Working total m₀ calls r.1.1.pages r.2 ∧
        Image (· ∈ total) r.1.1 ∧ (r.1.2 ≠ 0 → r.1.2 = top ∧ Fits r.1.1 r.1.2))
      ((vm (allocuvm d (pgroundup sz) top)).run (Machine.step k) m) := by
  have hsz := hfit.1
  unfold stackTop at htop
  by_cases hfull : pgroundup sz < kernbase
  · have hround : Fits d (pgroundup sz) := by
      refine ⟨hfull, fun v hv => (hfit.2 v hv).trans ?_⟩
      rw [pgroundup_eq (Nat.le_of_lt hsz)]
      simp only [pgsize]
      omega
    apply (allocuvm_yields hc ⟨hround, himage⟩ top hwork).mono fun _ h => h
    rintro r ⟨hwork', himage', hr⟩
    refine ⟨hwork', himage', fun hne => ?_⟩
    obtain ⟨hmax, hfit'⟩ := hr hne
    exact ⟨by omega, hfit'⟩
  · have hrun : (vm (allocuvm d (pgroundup sz) top)).run (Machine.step k) m = .ok ((d, 0), m) := by
      rw [Machine.run_vm, allocuvm, if_pos (by omega)]
      rfl
    rw [hrun]
    exact ⟨hwork, himage, fun hne => absurd rfl hne⟩

theorem stackTop_aligned (sz : Nat) : stackTop sz % pgsize = 0 ∧ 2 * pgsize ≤ stackTop sz := by
  rw [stackTop, pgroundup, Nat.add_mod, Nat.mul_mod_left, Nat.mul_mod_left]
  exact ⟨rfl, Nat.le_add_left _ _⟩

section Stack

variable (hc : Custody k (total + m₀.caller.pgdir.pages))
  (hargs : ∀ arg ∈ argv, arg.length < 2 ^ 32)

include hc

theorem closed_bad (hd : Sourced (· ∈ total) d) (ht : Working total m₀ calls d.pages t) :
    Yields (fun _ => False) (fun r => r.1 = -1 ∧ Ends total m₀ calls argv r.1 r.2)
      ((bad (some d) false).run (Machine.step k) t) := by
  have hctotal : Custody k total := hc.le (Multiset.le_add_right _ _)
  apply (bad_yields hctotal (fun _ h => (Option.some.inj h) ▸ hd) false ht).mono fun _ h => h
  rintro r ⟨hr, hend⟩
  rw [if_neg Bool.false_ne_true, List.append_nil] at hend
  exact ⟨hr, .inl ⟨hr, hend⟩⟩

include hargs

/-- With the stack pages there, `exec` fails only if the arguments do not fit. -/
theorem fillStack_yields (hd : Loading total d sz) (htop : ∃ x, sz = stackTop x)
    (hwork : Working total m₀ calls d.pages m) (path : List Byte) (entry : Nat) :
    Yields (fun e => e = .wild ∧ Overlong sz 0 argv)
      (fun r => Ends total m₀ calls argv r.1 r.2 ∧
        (r.1 = -1 → maxarg < argv.length ∨ pgsize < argumentsSize argv))
      ((fillStack path entry argv d sz).run (Machine.step k) m) := by
  have hctotal : Custody k total := hc.le (Multiset.le_add_right _ _)
  obtain ⟨haligned, hroom⟩ : sz % pgsize = 0 ∧ 2 * pgsize ≤ sz := by
    obtain ⟨x, rfl⟩ := htop
    exact stackTop_aligned x
  have hguard : sz - 2 * pgsize < sz := by
    simp only [pgsize] at hroom ⊢
    omega
  unfold fillStack
  refine yields_run_bind ((clearpteu_yields hctotal hd hguard hwork).mono (fun _ h => h.elim)
    fun _ h => h) ?_
  rintro d₂ t₂ ⟨hwork₂, hguarded⟩
  dsimp only at hwork₂ hguarded
  have hstack : StackImage total d₂ sz := ⟨hguarded, haligned, hroom⟩
  refine yields_run_bind (pushArguments_yields hctotal hstack rfl hargs hwork₂) ?_
  rintro r t₃ ⟨hwork₃, hr⟩
  cases r with
  | none =>
    apply (closed_bad hc hguarded.user hwork₃).mono fun _ h => h.elim
    exact fun x hx => ⟨hx.2, fun _ => hr⟩
  | some sp =>
    obtain ⟨-, ptrs, hargv⟩ := hr
    apply (commit_yields hc rfl hwork₃ path entry sz sp).mono fun _ h => h.elim
    rintro ⟨r, t⟩ ⟨hr, hcommit⟩
    dsimp only at hr
    refine ⟨.inr ⟨hr, hcommit.replaced hstack hargv, ?_⟩, fun hminus => by omega⟩
    have hsize := hargv.size
    have hinside := hargv.inside
    omega

theorem buildStack_yields (hfit : Fits d sz) (himage : Image (· ∈ total) d)
    (hwork : Working total m₀ calls d.pages m) (path : List Byte) (entry : Nat) :
    Yields (fun e => e = .wild ∧ Overlong (stackTop sz) 0 argv)
      (fun r => Ends total m₀ calls argv r.1 r.2)
      ((buildStack path entry argv d sz).run (Machine.step k) m) := by
  have hctotal : Custody k total := hc.le (Multiset.le_add_right _ _)
  have htop : uint (pgroundup sz + 2 * pgsize) = stackTop sz := stackTop_eq hfit.1
  unfold buildStack
  dsimp only
  generalize uint (pgroundup sz + 2 * pgsize) = top at htop ⊢
  refine yields_run_bind ((allocStack_yields hctotal hfit himage hwork htop).mono
    (fun _ h => h.elim) fun _ h => h) ?_
  rintro ⟨d₁, sz₁⟩ t₁ ⟨hwork₁, himage₁, hr⟩
  dsimp only at hwork₁ himage₁ hr ⊢
  split
  · apply (closed_bad hc himage₁.user hwork₁).mono fun _ h => h.elim
    exact fun x hx => hx.2
  · next hne =>
    obtain ⟨hsz₁, hfit₁⟩ := hr hne
    rw [htop] at hsz₁
    rw [← hsz₁]
    apply (fillStack_yields hc hargs ⟨hfit₁, himage₁⟩ ⟨sz, hsz₁⟩ hwork₁ path entry).mono
      fun _ h => h
    exact fun x hx => hx.1

end Stack

/-! ## The whole call -/

/-- The size of the image that `exec` builds from a file. -/
def imageSize (file : List Byte) : Nat :=
  match readi file 0 elfhdrSize with
  | none => 0
  | some bs =>
    stackTop (segmentsSize file (Elfhdr.ofBytes bs).phnum (Elfhdr.ofBytes bs).phoff 0)

theorem loadFile_yields (hc : Custody k (total + m₀.caller.pgdir.pages))
    (hargs : ∀ arg ∈ argv, arg.length < 2 ^ 32) (hwork : Working total m₀ calls 0 m)
    (path file : List Byte) :
    Yields (fun e => e = .wild ∧ Overlong (imageSize file) 0 argv)
      (fun r => Ends total m₀ (calls ++ [.iunlockput, .endOp]) argv r.1 r.2)
      ((loadFile k path file argv).run (Machine.step k) m) := by
  have hctotal : Custody k total := hc.le (Multiset.le_add_right _ _)
  have hbad {pgdir : Option PageDir} (hd : ∀ d, pgdir = some d → Sourced (· ∈ total) d) {t : Machine}
      (ht : Working total m₀ calls (imagePages pgdir) t) {E : Stop → Prop} :
      Yields E (fun r => Ends total m₀ (calls ++ [.iunlockput, .endOp]) argv r.1 r.2)
        ((bad pgdir true).run (Machine.step k) t) := by
    apply (bad_yields hctotal hd true ht).mono fun _ h => h.elim
    rintro r ⟨hr, hend⟩
    exact .inl ⟨hr, hend⟩
  have hnone (d : PageDir) (h : none = some d) : Sourced (· ∈ total) d := nomatch h
  unfold loadFile imageSize
  cases readi file 0 elfhdrSize with
  | none => exact hbad hnone hwork
  | some bs =>
  dsimp only
  split
  · exact hbad hnone hwork
  split
  · exact hbad hnone hwork
  refine yields_run_bind ((setupkvm_yields hctotal hwork).mono (fun _ h => h.elim) fun _ h => h) ?_
  intro r t₁ hr
  cases r with
  | none => exact hbad hnone hr
  | some d =>
    obtain ⟨hload, hwork₁⟩ := hr
    refine yields_run_bind ((loadProgram_yields hctotal hload _ _ hwork₁).mono
      (fun _ h => h.elim) fun _ h => h) ?_
    rintro ⟨d₂, sz⟩ t₂ ⟨hwork₂, himage, hsz⟩
    dsimp only at hwork₂ himage hsz ⊢
    cases sz with
    | none => exact hbad (fun _ h => (Option.some.inj h) ▸ himage.user) hwork₂
    | some sz =>
      have hsize := hsz sz rfl
      dsimp only
      rw [run_bind_of_ok t₂.run_iunlockput, run_bind_of_ok (Machine.run_endOp _), ← hsize.2]
      have hclosed := (hwork₂.call .iunlockput).call .endOp
      rw [List.append_assoc] at hclosed
      exact buildStack_yields hc hargs hsize.1 himage hclosed path _

/-- The calls of the file system that `exec` makes. -/
def execCalls (found : Bool) : List FsCall :=
  if found then [.beginOp, .namei, .ilock, .iunlockput, .endOp] else [.beginOp, .namei, .endOp]

theorem execFile_yields (hsane : Sane k m) (hargs : ∀ arg ∈ argv, arg.length < 2 ^ 32)
    (path file : List Byte) :
    Yields (fun e => e = .wild ∧ Overlong (imageSize file) 0 argv)
      (fun r => Ends m.free m (execCalls m.found) argv r.1 r.2)
      ((execFile k path file argv).run (Machine.step k) m) := by
  have hopen := (((Working.refl m).call .beginOp).call .namei)
  unfold execFile execCalls
  rw [run_bind_of_ok m.run_beginOp, run_bind_of_ok (Machine.run_namei _)]
  change Yields _ _ ((if m.found then _ else _ : ExecProg Int).run _ _)
  cases m.found with
  | false =>
    rw [if_neg Bool.false_ne_true, if_neg Bool.false_ne_true, run_bind_of_ok (Machine.run_endOp _)]
    exact .inl ⟨rfl, hopen.call .endOp⟩
  | true =>
    rw [if_pos rfl, if_pos rfl, run_bind_of_ok (Machine.run_ilock _)]
    exact loadFile_yields hsane hargs (hopen.call .ilock) path file

/-! ## A file without segments -/

/-- An ELF header with no program headers. -/
def bareElf : List Byte := [0x7F, 0x45, 0x4C, 0x46] ++ List.replicate 48 0

theorem argSize_le_stringsSize {arg : List Byte} (h : arg ∈ argv) : argSize arg ≤ stringsSize argv :=
  List.le_sum_of_mem (List.mem_map.mpr ⟨arg, h, rfl⟩)

theorem roomy_sane {cnt : Nat} (hcnt : cnt ≤ 2048) : Sane smallKernel (roomy cnt) := by
  have hc := roomy_custody hcnt
  have hold : (roomy cnt).caller.pgdir.pages = {329} := pages_empty 329
  unfold Sane
  rw [hold, add_comm, Multiset.singleton_add]
  constructor
  · refine Multiset.nodup_cons.mpr ⟨fun hmem => ?_, hc.nodup⟩
    obtain ⟨i, -, hi⟩ := List.mem_map.mp (Multiset.mem_coe.mp hmem)
    omega
  · intro page hpage
    rcases Multiset.mem_cons.mp hpage with rfl | hpage
    · change 0 < 329 ∧ 272 ≤ 329 ∧ 329 < 57344
      omega
    · exact hc.frames page hpage

/-- With enough memory `exec` of the bare header gets to the arguments. -/
theorem bareElf_reaches_stack (path : List Byte) (argv : List (List Byte)) :
    ∃ cnt ≤ 2048, ∃ d m, ∃ calls, Loading (roomy cnt).free d (2 * pgsize) ∧
      Working (roomy cnt).free (roomy cnt) calls d.pages m ∧
      (execFile smallKernel path bareElf argv).run (Machine.step smallKernel) (roomy cnt) =
        (fillStack path 0 argv d (2 * pgsize)).run (Machine.step smallKernel) m := by
  obtain ⟨cnt, hcnt, d, -, hsetup⟩ := roomy_setupkvm
  have hc := (roomy_sane hcnt).free
  have hopen := ((((Working.refl (roomy cnt)).call .beginOp).call .namei).call .ilock)
  obtain ⟨m₁, hrun₁, hm₁⟩ := hsetup ((((roomy cnt).call .beginOp).call .namei).call .ilock) rfl
  have hspec₁ := setupkvm_yields hc hopen
  rw [hrun₁] at hspec₁
  obtain ⟨hload, hwork₁⟩ := hspec₁
  have hclosed := (hwork₁.call .iunlockput).call .endOp
  obtain ⟨d₂, m₂, hrun₂, -⟩ := allocuvm_six (k := smallKernel) (Nat.le_refl _) hload.fits
    (show ((m₁.call .iunlockput).call .endOp).free.length = 6 from hm₁)
  have hspec₂ := allocuvm_yields hc hload (2 * pgsize) hclosed
  rw [hrun₂] at hspec₂
  obtain ⟨hwork₂, himage₂, hsz₂⟩ := hspec₂
  have hne : 2 * pgsize ≠ 0 := by decide
  refine ⟨cnt, hcnt, d₂, m₂, _, ⟨(hsz₂ hne).2, himage₂⟩, hwork₂, ?_⟩
  have hread : readi bareElf 0 elfhdrSize = some bareElf := by decide
  have hlen : bareElf.length = elfhdrSize := by decide
  have hmagic : (Elfhdr.ofBytes bareElf).magic = elfMagic := by decide
  have hphnum : (Elfhdr.ofBytes bareElf).phnum = 0 := by decide
  have hentry : (Elfhdr.ofBytes bareElf).entry = 0 := by decide
  have hsegments : (loadProgram bareElf 0 (Elfhdr.ofBytes bareElf).phoff d 0).run
      (Machine.step smallKernel) m₁ = .ok ((d, some 0), m₁) := rfl
  have hround : pgroundup 0 = 0 := by decide
  have hsum : uint (((0 : Nat) : Int) + 2 * pgsize) = 2 * pgsize := by decide
  unfold execFile
  rw [run_bind_of_ok (Machine.run_beginOp _), run_bind_of_ok (Machine.run_namei _)]
  change ((if true = true then _ else _ : ExecProg Int).run _ _) = _
  rw [if_pos rfl, run_bind_of_ok (Machine.run_ilock _)]
  unfold loadFile
  rw [hread]
  dsimp only
  rw [if_neg (not_not.mpr hlen), if_neg (not_not.mpr hmagic), run_bind_of_ok hrun₁]
  dsimp only
  rw [hphnum, hentry, run_bind_of_ok hsegments]
  dsimp only
  rw [run_bind_of_ok m₁.run_iunlockput, run_bind_of_ok (Machine.run_endOp _)]
  unfold buildStack
  dsimp only
  rw [hround, hsum, run_bind_of_ok hrun₂]
  dsimp only
  rw [if_neg hne]

/-- There it succeeds if the arguments fit. -/
theorem bareElf_execs (path : List Byte) (hcount : argv.length ≤ maxarg)
    (hfits : argumentsSize argv ≤ pgsize) : ∃ cnt ≤ 2048, ∃ t,
      (execFile smallKernel path bareElf argv).run (Machine.step smallKernel) (roomy cnt) =
        .ok (0, t) := by
  obtain ⟨cnt, hcnt, d, m, calls, hload, hwork, hrun⟩ := bareElf_reaches_stack path argv
  have hargs : ∀ arg ∈ argv, arg.length < pgsize := by
    intro arg harg
    have hsize := (lt_argSize arg).1
    have hle := argSize_le_stringsSize harg
    unfold argumentsSize at hfits
    omega
  have hwide : ∀ arg ∈ argv, arg.length < 2 ^ 32 := by
    intro arg harg
    have hlt := hargs arg harg
    simp only [pgsize] at hlt
    omega
  have htop : 2 * pgsize = stackTop 0 := by decide
  have hfill := yields_iff.mp (fillStack_yields (roomy_sane hcnt) hwide hload ⟨0, htop⟩ hwork path 0)
  rw [← hrun] at hfill
  refine ⟨cnt, hcnt, ?_⟩
  generalize (execFile smallKernel path bareElf argv).run (Machine.step smallKernel) (roomy cnt) =
    x at hfill ⊢
  cases x with
  | error e =>
    obtain ⟨-, ⟨arg, harg, hlong⟩, -⟩ := hfill.2 e rfl
    have hlt := hargs arg harg
    simp only [pgsize, devSize, devspace] at hlt hlong
    omega
  | ok x =>
    obtain ⟨r, t⟩ := x
    obtain ⟨hends, hreason⟩ := hfill.1 _ rfl
    rcases hends with ⟨hminus, -⟩ | ⟨hzero, -⟩
    · have hbig := hreason hminus
      omega
    · dsimp only at hzero
      exact ⟨t, by rw [hzero]⟩

/-! ## Every file -/

/-- What `exec` may do to the machine, whatever the file holds and wherever memory runs out. -/
structure Tolerated (k : KernelImage) (m : Machine) (r : Int) (t : Machine) : Prop where
  result : r = 0 ∨ r = -1
  stores : ∃ new, t.stores = m.stores ++ new ∧ ∀ st ∈ new, st.Good m.free
  calls : t.calls = m.calls ++ execCalls m.found
  sane : Sane k t
  failed : r = -1 → t.caller = m.caller ∧
    ∀ a, (∀ page ∈ m.free, ¬ InPage page a) → t.mem a = m.mem a

theorem Ends.tolerated (hsane : Sane k m) {r : Int}
    (h : Ends m.free m (execCalls m.found) argv r t) : Tolerated k m r t := by
  rcases h with ⟨rfl, hwork⟩ | ⟨rfl, hnew, -⟩
  · have hpages := hwork.pages
    rw [zero_add] at hpages
    refine ⟨.inr rfl, hwork.stores, hwork.calls, ?_, fun _ => ⟨hwork.caller, fun a ha => hwork.mem a ha⟩⟩
    unfold Sane
    rw [hpages, hwork.caller]
    exact hsane
  · refine ⟨.inl rfl, hnew.stores, hnew.calls, ?_, fun h => by omega⟩
    unfold Sane
    rw [hnew.pages]
    exact hsane

/-- `exec` ends without a panic for every file, unless `copyout` meets a missing page table for an
argument that is longer than the region for devices. -/
theorem exec_tolerates_every_file (hsane : Sane k m) (hargs : ∀ arg ∈ argv, arg.length < 2 ^ 32)
    (path file : List Byte) :
    Yields (fun e => e = .wild ∧ ∃ arg ∈ argv, devSize < arg.length)
      (fun r => Tolerated k m r.1 r.2) ((execFile k path file argv).run (Machine.step k) m) := by
  apply (execFile_yields hsane hargs path file).mono
  · exact fun e he => ⟨he.1, he.2.1⟩
  · exact fun r hr => hr.tolerated hsane

theorem exec_tolerates_bareElf : ∃ cnt t, Sane smallKernel (roomy cnt) ∧
    (execFile smallKernel [] bareElf []).run (Machine.step smallKernel) (roomy cnt) = .ok (0, t) ∧
      Tolerated smallKernel (roomy cnt) 0 t := by
  have hcount : ([] : List (List Byte)).length ≤ maxarg := Nat.zero_le _
  obtain ⟨cnt, hcnt, t, hrun⟩ := bareElf_execs [] hcount (by decide)
  have hall := exec_tolerates_every_file (roomy_sane hcnt)
    (fun arg (h : arg ∈ ([] : List (List Byte))) => nomatch h) [] bareElf
  rw [hrun] at hall
  exact ⟨cnt, t, roomy_sane hcnt, hrun, hall⟩

end Xv6Containers.Vm
