import Xv6Containers.Vm.Growth
import Xv6Containers.Vm.Supply

/-!
# The address space of a child

`copyuvm` builds the kernel half of the new directory with `setupkvm` and copies the user pages
one by one. What it returns maps a copy of each page of the parent with the same flags, on
pages that were free, and nothing else below the kernel; the kernel half is what `kmap` says.
-/

namespace Xv6Containers.Vm

open Lib.Memory Lib.Program Prog

variable {n : Nat} {kern : KernelImage}

namespace Frames

/-! ## The copy -/

/-- A directory that is returned was built without freeing a page. -/
theorem setupLoop_took (ms : List Kmap) (d : PageDir) (m : Frames) :
    Yields (fun _ => True) (fun r => r.1.isSome → ∃ used, m.free = used ++ r.2.free ∧ r.2.mem = m.mem)
      ((setupLoop ms d).run (vmStep kern) m) := by
  induction ms generalizing d m with
  | nil => exact fun _ => ⟨[], rfl, rfl⟩
  | cons range ms ih =>
    let any : Discipline (Op.Res (n := 0)) Unit := ⟨fun _ _ => True, fun _ _ _ => True, fun _ _ g => g⟩
    unfold setupLoop
    refine yields_run_bind (maps_yields (D := any) (fun _ _ => trivial) (fun _ => trivial)
      (mapLoop_maps ..) ((ends_true _).safe (mapLoop_maps ..) fun _ _ => trivial) m) ?_
    rintro ⟨d', ok⟩ m' ⟨-, used, hfree, hmem⟩
    dsimp only at hfree hmem ⊢
    cases ok with
    | true =>
      refine (ih d' m').mono (fun _ h => h) fun r hr hsome => ?_
      obtain ⟨used', hfree', hmem'⟩ := hr hsome
      exact ⟨used ++ used', by rw [hfree, hfree', List.append_assoc], hmem'.trans hmem⟩
    | false =>
      refine yields_run_bind (Q := fun _ => True)
        (yields_iff.mpr ⟨fun _ _ => trivial, fun _ _ => trivial⟩) fun _ t _ => ?_
      exact fun hsome => absurd hsome (by simp)

theorem setupkvm_took (kern : KernelImage) (m : Frames) :
    Yields (fun _ => True) (fun r => r.1.isSome → ∃ used, m.free = used ++ r.2.free ∧ r.2.mem = m.mem)
      ((vm (setupkvm kern)).run (step kern) m) := by
  rw [run_vm]
  unfold setupkvm
  cases hfree : m.free with
  | nil =>
    have hkalloc := run_kalloc_nil (k := kern) .other hfree
    rw [run_vm] at hkalloc
    rw [run_bind_of_ok hkalloc]
    exact fun hsome => absurd hsome (by simp)
  | cons page rest =>
    have hkalloc := run_kalloc_cons (k := kern) .other hfree
    rw [run_vm] at hkalloc
    rw [run_bind_of_ok hkalloc]
    refine (setupLoop_took ..).mono (fun _ h => h) fun r hr hsome => ?_
    obtain ⟨used, hrest, hmem⟩ := hr hsome
    refine ⟨page :: used, ?_, hmem⟩
    rw [List.cons_append]
    exact congrArg _ hrest

/-- Below `i` each page of the parent has its copy, on a page that was taken from the free list. -/
structure Copied (used : List Nat) (i : Nat) (pgdir d₀ d : PageDir) (m₀ m : Frames) : Prop
    extends Took used m₀ m where
  others : ∀ v < 2 ^ 32, i ≤ v → d.pte v = d₀.pte v
  copied : ∀ v < i, ∃ x, pgdir.pte v = some x ∧ ∃ page ∈ used,
    d.pte v = some { x with page := page } ∧ m.mem page = m₀.mem x.page

variable {pgdir d₀ d : PageDir} {m₀ m : Frames} {used : List Nat} {sz i : Nat}

/-- One more page. -/
theorem Copied.next (h : Copied used i pgdir d₀ d m₀ m) (hnodup : m₀.free.Nodup)
    (hi : i % pgsize = 0) (hlt : i < kernbase) {x : Pte} (hx : pgdir.pte i = some x)
    (hheld : x.page ∉ m₀.free) {page : Nat} {rest taken : List Nat} (hpage : m.free = page :: rest)
    {d' : PageDir}
    (hpte : ∀ v < 2 ^ 32, d'.pte v = if SamePage v i then some { x with page := page } else d.pte v)
    {m' : Frames} (hrest : rest = taken ++ m'.free)
    (hmem : m'.mem = Function.update m.mem page (m.mem x.page)) :
    Copied (used ++ page :: taken) (i + pgsize) pgdir d₀ d' m₀ m' := by
  have hfresh : page ∉ used := h.not_mem hnodup (hpage ▸ List.mem_cons_self ..)
  have hsource : m.mem x.page = m₀.mem x.page := by
    apply h.mem
    intro hused
    rw [h.free] at hheld
    exact hheld (List.mem_append_left _ hused)
  constructor
  · exact h.toTook.trans (took_page hpage hrest hmem)
  · intro v hv hle
    rw [hpte v hv, if_neg fun hsame => absurd ((samePage_iff_mem hi).mp hsame) (by omega)]
    exact h.others v hv (by omega)
  · intro v hv
    have h32 : v < 2 ^ 32 := by
      simp only [kernbase, pgsize] at *
      omega
    rcases Nat.lt_or_ge v i with hvi | hvi
    · obtain ⟨y, hy, old, hused, hold, hcopy⟩ := h.copied v hvi
      have hother : ¬ SamePage v i := fun hsame => absurd ((samePage_iff_mem hi).mp hsame) (by omega)
      have hne : old ≠ page := fun heq => hfresh (heq ▸ hused)
      refine ⟨y, hy, old, List.mem_append_left _ hused, ?_, ?_⟩
      · rw [hpte v h32, if_neg hother, hold]
      · rw [hmem, Function.update_of_ne hne, hcopy]
    · have hsame : SamePage v i := (samePage_iff_mem hi).mpr ⟨hvi, hv⟩
      refine ⟨x, (pte_eq_of_samePage hsame).trans hx, page,
        List.mem_append_right _ (List.mem_cons_self ..), ?_, ?_⟩
      · rw [hpte v h32, if_pos hsame]
      · rw [hmem, Function.update_self, hsource]

/-- The loop of `copyuvm`, when it returns a directory, has copied all pages. -/
theorem copyLoop_yields (hfits : Fits pgdir sz) (hm : Backed kern pgdir m₀)
    (huser : ∀ v < kernbase, d₀.pte v = none) {k : Nat} (h : Copied used i pgdir d₀ d m₀ m)
    (hi : i % pgsize = 0) (htop : i ≤ pgroundup sz) (hk : sz < i + k * pgsize) :
    Yields (fun _ => True) (fun r => ∀ d', r.1 = some d' →
      ∃ used, Copied used (pgroundup sz) pgdir d₀ d' m₀ r.2)
      ((copyLoop pgdir sz k d i).run (step kern) m) := by
  have hround : pgroundup sz = (sz + (pgsize - 1)) / pgsize * pgsize :=
    pgroundup_eq (Nat.le_of_lt hfits.1)
  have hdone {d : PageDir} {m : Frames} {i : Nat} {used : List Nat}
      (h : Copied used i pgdir d₀ d m₀ m) (hi : i % pgsize = 0) (htop : i ≤ pgroundup sz)
      (hle : sz ≤ i) (d' : PageDir) (hd : some d = some d') :
      ∃ used, Copied used (pgroundup sz) pgdir d₀ d' m₀ m := by
    have hend : i = pgroundup sz := by
      rw [hround] at htop ⊢
      simp only [pgsize] at *
      omega
    cases hd
    rw [hend] at h
    exact ⟨used, h⟩
  -- A child that could not be built is given up.
  have hbad (d : PageDir) (m : Frames) :
      Yields (fun _ => True) (fun r => ∀ d', r.1 = some d' →
        ∃ used, Copied used (pgroundup sz) pgdir d₀ d' m₀ r.2)
        ((vm (freevm d) >>= fun _ => (pure none : FrameProg (Option PageDir))).run (step kern) m) := by
    refine yields_run_bind (Q := fun _ => True)
      (yields_iff.mpr ⟨fun _ _ => trivial, fun _ _ => trivial⟩) fun _ t _ => ?_
    rintro d' ⟨⟩
  induction k generalizing i d m used with
  | zero =>
    rw [Nat.zero_mul, Nat.add_zero] at hk
    exact hdone h hi htop (Nat.le_of_lt hk)
  | succ k ih =>
    unfold copyLoop
    split
    · next hlt =>
      have hbelow : i < kernbase := Nat.lt_trans hlt hfits.1
      have h32 := lt_of_user hbelow
      have hnext : (i + pgsize) % pgsize = 0 ∧ i + pgsize ≤ pgroundup sz ∧
          sz < i + pgsize + k * pgsize := by
        rw [hround]
        simp only [pgsize] at *
        omega
      split
      · exact trivial
      · next t htable =>
        split
        · exact trivial
        · next x hsome =>
          have hx : pgdir.pte i = some x := by
            rw [PageDir.pte, htable]
            exact hsome
          cases hfree : m.free with
          | nil =>
            rw [run_bind_of_ok (run_kalloc_nil .other hfree)]
            exact hbad d m
          | cons page rest =>
            rw [run_bind_of_ok (run_kalloc_cons .other hfree)]
            have hmove : (memmove page x.page).run (step kern) { m with free := rest } =
                .ok ((), ⟨rest, Function.update m.mem page (m.mem x.page)⟩) := rfl
            dsimp only
            rw [run_bind_of_ok hmove, mappages_page .copyTable d hi hbelow]
            have hnone : d.pte i = none := by
              rw [h.others i h32 (Nat.le_refl i)]
              exact huser i hbelow
            refine yields_run_bind ((mapPage_yields .copyTable h32 hnone _ _).mono
              (fun _ h => h.elim) fun _ h => h) ?_
            rintro ⟨d', ok⟩ m' ⟨hpte, taken, hrest, hmem⟩
            dsimp only at hpte hrest hmem ⊢
            cases ok with
            | true =>
              rw [if_pos rfl, uint_nextPage (Nat.le_of_lt hfits.1) hlt]
              have hheld := (hm.user i hbelow x hx).2
              have hcopied := h.next hm.nodup hi hbelow hx hheld hfree
                (by simpa using hpte) hrest hmem
              exact ih hcopied hnext.1 hnext.2.1 hnext.2.2
            | false => exact hbad d' m'
    · next hlt => exact hdone h hi htop (Nat.le_of_not_lt hlt)

theorem copyuvm_copied (hfits : Fits pgdir sz) (hm : Backed kern pgdir m) {m' : Frames}
    (hrun : (copyuvm kern pgdir sz).run (step kern) m = .ok (some d, m')) :
    ∃ d₀ used, Copied used (pgroundup sz) pgdir d₀ d m m' ∧
      ∀ v < 2 ^ 32, d₀.pte v = kernelPte kern.kmap v := by
  unfold copyuvm at hrun
  rw [run_bind, except_bind_eq_ok] at hrun
  obtain ⟨⟨r, m₁⟩, hsetup, hrest⟩ := hrun
  cases r with
  | none => cases hrest
  | some d₀ =>
    have htook := setupkvm_took kern m
    rw [hsetup] at htook
    obtain ⟨used, hfree, hmem⟩ := htook rfl
    rw [run_vm] at hsetup
    have hkernel := (setupkvm_ends kern).run_ok hsetup d₀ rfl
    have huser (v : Nat) (hv : v < kernbase) : d₀.pte v = none := by
      rw [hkernel v (lt_of_user hv)]
      exact kernelPte_of_lt (kmap_ascending kern) hv
    have hstart : Copied used 0 pgdir d₀ d₀ m m₁ :=
      ⟨⟨hfree, fun page _ => congrFun hmem page⟩, fun _ _ _ => rfl, fun v hv => absurd hv (by simp)⟩
    have hrounds : sz < 0 + (sz / pgsize + 1) * pgsize := by
      simp only [pgsize]
      omega
    have hloop := copyLoop_yields hfits hm huser hstart (Nat.zero_mod _) (Nat.zero_le _) hrounds
    dsimp only at hrest
    rw [hrest] at hloop
    obtain ⟨used', hcopied⟩ := hloop d rfl
    exact ⟨d₀, used', hcopied, hkernel⟩

/-- What `copyuvm` returns is a copy: the pages of the parent with their contents and flags on pages
of its own, nothing else below the kernel, and the kernel half that `kmap` describes. Nothing that
was in use is written. -/
theorem copyuvm_copies (kern : KernelImage) (pgdir : PageDir) (sz : Nat) (m : Frames)
    (hfits : Fits pgdir sz) (hm : Backed kern pgdir m) (d : PageDir) (m' : Frames)
    (hrun : (copyuvm kern pgdir sz).run (step kern) m = .ok (some d, m')) :
    (∀ v < pgroundup sz, ∃ x y, pgdir.pte v = some x ∧ d.pte v = some y ∧
      y = { x with page := y.page } ∧ m'.mem y.page = m.mem x.page) ∧
    (∀ v w x y, v < kernbase → w < kernbase → pgdir.pte v = some x → d.pte w = some y →
      x.page ≠ y.page) ∧
    (∀ v < kernbase, pgroundup sz ≤ v → d.pte v = none) ∧
    (∀ v < 2 ^ 32, kernbase ≤ v → d.pte v = kernelPte kern.kmap v) ∧
    ∀ page, page ∉ m.free → m'.mem page = m.mem page := by
  obtain ⟨d₀, used, hcopied, hkernel⟩ := copyuvm_copied hfits hm hrun
  have htop : pgroundup sz ≤ kernbase := by
    have hsz := hfits.1
    rw [pgroundup_eq (Nat.le_of_lt hsz)]
    simp only [pgsize, kernbase] at *
    omega
  have htaken : ∀ page ∈ used, page ∈ m.free := by
    intro page hpage
    rw [hcopied.free]
    exact List.mem_append_left _ hpage
  have habove : ∀ v < kernbase, pgroundup sz ≤ v → d.pte v = none := by
    intro v hv hle
    have h32 : v < 2 ^ 32 := by
      simp only [kernbase] at hv
      omega
    rw [hcopied.others v h32 hle, hkernel v h32]
    exact kernelPte_of_lt (kmap_ascending kern) hv
  refine ⟨?_, ?_, habove, ?_, ?_⟩
  · intro v hv
    obtain ⟨x, hx, page, -, hpte, hcopy⟩ := hcopied.copied v hv
    exact ⟨x, _, hx, hpte, rfl, hcopy⟩
  · intro v w x y hv hw hx hy heq
    rcases Nat.lt_or_ge w (pgroundup sz) with hlt | hge
    · obtain ⟨z, -, page, hused, hpte, -⟩ := hcopied.copied w hlt
      rw [hpte] at hy
      cases hy
      exact (hm.user v hv x hx).2 (heq ▸ htaken page hused)
    · rw [habove w hw hge] at hy
      cases hy
  · intro v hv hle
    rw [hcopied.others v hv (by omega), hkernel v hv]
  · intro page hpage
    exact hcopied.mem page fun hused => hpage (htaken page hused)

/-- A parent with one page of user memory. -/
def onePage : PageDir := ((PageDir.empty 300).addTable 0 301).setPte 0 (some ⟨302, true, true⟩)

theorem pte_onePage {v : Nat} (hv : v < 2 ^ 32) :
    onePage.pte v = if SamePage v 0 then some ⟨302, true, true⟩ else none := by
  rw [onePage, pte_setPte (by simp [PageDir.addTable]) hv (by decide),
    pte_addTable (by simp [PageDir.empty])]
  rfl

theorem copyuvm_copies_one_page :
    ∃ d m m', Fits onePage 1 ∧ Backed smallKernel onePage m ∧
      (copyuvm smallKernel onePage 1).run (step smallKernel) m = .ok (some d, m') ∧
      ∃ x y, onePage.pte 0 = some x ∧ d.pte 0 = some y ∧ m'.mem y.page = m.mem x.page := by
  have hkalloc (site : Site) (s : Frames) (page : Nat) (rest : List Nat) (hs : s.free = page :: rest) :
      ∃ t, vmStep smallKernel (.kalloc site) s = .ok (some page, t) ∧ t.free = rest ∧ True := by
    refine ⟨{ s with free := rest }, ?_, rfl, trivial⟩
    simp only [vmStep, hs]
  -- The pages of the kernel half come first in the free list, those of the copy behind them.
  obtain ⟨count, hcount, d₀, hvacant, -, hsetup⟩ := @setupkvm_supplied 0 Frames Stop
    (vmStep smallKernel) Frames.free (fun _ _ => True) (fun _ => trivial) (fun _ _ _ _ _ => trivial)
    hkalloc smallKernel fun i => 1000 + i
  have hfits : Fits onePage 1 := by
    refine ⟨by decide, fun v hv => ?_⟩
    rw [pte_onePage (lt_of_user hv)]
    by_cases hsame : SamePage v 0
    · rw [if_pos hsame]
      simp only [SamePage, pgsize, Option.isSome_some, true_iff] at *
      omega
    · rw [if_neg hsame]
      simp only [SamePage, pgsize, Option.isSome_none, Bool.false_eq_true, false_iff] at *
      omega
  let m : Frames := ⟨(List.range count).map (fun i => 1000 + i) ++ [303, 304], fun _ _ => 7⟩
  have hmem (page : Nat) (hpage : page ∈ m.free) : 302 < page ∧ page < 3000 := by
    rcases List.mem_append.mp hpage with hmap | hlast
    · obtain ⟨i, hi, rfl⟩ := List.mem_map.mp hmap
      rw [List.mem_range] at hi
      simp only [nentries] at hcount
      omega
    · simp only [List.mem_cons, List.not_mem_nil, or_false] at hlast
      omega
  have hm : Backed smallKernel onePage m := by
    have hpte {v : Nat} (hv : v < kernbase) {x : Pte} (hx : onePage.pte v = some x) :
        SamePage v 0 ∧ x.page = 302 := by
      rw [pte_onePage (lt_of_user hv)] at hx
      split at hx
      · next hsame =>
        cases hx
        exact ⟨hsame, rfl⟩
      · cases hx
    constructor
    · apply List.nodup_append.mpr
      refine ⟨List.nodup_range.map fun i j hij => by omega, by decide, ?_⟩
      intro page hpage other hother
      obtain ⟨i, -, rfl⟩ := List.mem_map.mp hpage
      simp only [List.mem_cons, List.not_mem_nil, or_false] at hother
      omega
    · intro page hpage
      have hrange := hmem page hpage
      simp only [Frame, smallKernel, physTop, pgsize]
      omega
    · intro v hv x hx
      rw [(hpte hv hx).2]
      exact ⟨by simp only [Frame]; decide, fun hfree => absurd (hmem 302 hfree).1 (by decide)⟩
    · intro v w x y hv hw hx hy _
      exact (hpte hv hx).1.trans (hpte hw hy).1.symm
  obtain ⟨t, hrun₀, hfree, -⟩ := hsetup m [303, 304] rfl
  have hnone : d₀.pte 0 = none := by
    rw [PageDir.pte, hvacant (pdx 0) (.inl (by decide))]
    rfl
  obtain ⟨d, m', hmap, -⟩ := mapPage_supplied hkalloc .copyTable (by decide) hnone ⟨303, true, true⟩
    (s := ⟨[304], Function.update t.mem 303 (t.mem 302)⟩) (Nat.succ_pos 0)
  have hrun : (copyuvm smallKernel onePage 1).run (step smallKernel) m = .ok (some d, m') := by
    rw [← run_vm] at hrun₀ hmap
    obtain ⟨table, htable, hentry⟩ : ∃ table, onePage.table (pdx 0) = some table ∧
        table.pte (ptx 0) = some ⟨302, true, true⟩ := ⟨_, rfl, rfl⟩
    have hmove : (memmove 303 302).run (step smallKernel) { t with free := [304] } =
        .ok ((), ⟨[304], Function.update t.mem 303 (t.mem 302)⟩) := rfl
    rw [copyuvm, run_bind_of_ok hrun₀]
    change (copyLoop onePage 1 (0 + 1) d₀ 0).run (step smallKernel) t = _
    unfold copyLoop
    rw [if_pos (by decide), htable]
    dsimp only
    rw [hentry]
    dsimp only
    rw [run_bind_of_ok (run_kalloc_cons .other hfree)]
    dsimp only
    rw [run_bind_of_ok hmove, mappages_page .copyTable d₀ (by decide) (by decide), run_bind_of_ok hmap]
    rfl
  obtain ⟨hcopy, -⟩ := copyuvm_copies smallKernel onePage 1 m hfits hm d m' hrun
  obtain ⟨x, y, hx, hy, -, hsame⟩ := hcopy 0 (by decide)
  exact ⟨d, m, m', hfits, hm, hrun, x, y, hx, hy, hsame⟩

end Frames

end Xv6Containers.Vm
