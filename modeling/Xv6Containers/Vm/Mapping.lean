import Xv6Containers.Vm.PageTable

/-!
# What the loops of the page tables map

The effect of adding a page-table page and of writing an entry on what a page
directory maps, and what `mappages` on one page and `deallocuvm` leave mapped.
-/

namespace Xv6Containers.Vm

open Lib.Program Prog

variable {n : Nat} {d : PageDir} {a v : Nat}

/-! ## Addresses -/

theorem uint_eq {x : Int} {y : Nat} (h : x = y) (hy : y < 2 ^ 32) : uint x = y := by
  rw [uint, h, Int.emod_eq_of_lt (Int.natCast_nonneg y) (by exact_mod_cast hy), Int.toNat_natCast]

theorem lt_of_user (hv : v < kernbase) : v < 2 ^ 32 := Nat.lt_trans hv (by decide)

theorem pgroundup_eq {sz : Nat} (h : sz ≤ kernbase) :
    pgroundup sz = (sz + (pgsize - 1)) / pgsize * pgsize := by
  rw [pgroundup, uint_eq (y := sz + (pgsize - 1))]
  · simp only [pgsize]
    omega
  · simp only [pgsize, kernbase] at *
    omega

theorem pgroundup_le_iff {sz : Nat} (hsz : sz ≤ kernbase) (v : Nat) :
    pgroundup sz ≤ v ↔ sz ≤ v / pgsize * pgsize := by
  rw [pgroundup_eq hsz]
  simp only [pgsize]
  omega

theorem pgroundup_mod (sz : Nat) : pgroundup sz % pgsize = 0 := Nat.mul_mod_left ..

/-! ## Entries -/

/-- Two virtual addresses of one page. -/
def SamePage (v a : Nat) : Prop := v / pgsize = a / pgsize

instance : Decidable (SamePage v a) := inferInstanceAs (Decidable (_ = _))

theorem samePage_iff (hv : v < 2 ^ 32) (ha : a < 2 ^ 32) :
    SamePage v a ↔ pdx v = pdx a ∧ ptx v = ptx a := by
  simp only [SamePage, pdx, ptx, pgsize, nentries]
  omega

theorem SamePage.of_pdx_ptx (h : SamePage v a) : pdx v = pdx a ∧ ptx v = ptx a := by
  simp only [SamePage, pdx, ptx, pgsize, nentries] at *
  omega

/-- A new page-table page maps nothing. -/
theorem pte_addTable (h : d.table (pdx a) = none) (page v : Nat) :
    (d.addTable a page).pte v = d.pte v := by
  unfold PageDir.pte PageDir.addTable
  dsimp only
  rcases eq_or_ne (pdx v) (pdx a) with hv | hv
  · simp [hv, h]
  · rw [Function.update_of_ne hv]

theorem table_setPte_isSome (x : Option Pte) (i : Nat) :
    ((d.setPte a x).table i).isSome = (d.table i).isSome := by
  unfold PageDir.setPte
  cases ht : d.table (pdx a) with
  | none => rfl
  | some t =>
    rcases eq_or_ne i (pdx a) with rfl | hi
    · simp [ht]
    · simp [Function.update_of_ne hi]

@[simp] theorem page_setPte (x : Option Pte) : (d.setPte a x).page = d.page := by
  unfold PageDir.setPte
  split <;> rfl

theorem pte_setPte (h : (d.table (pdx a)).isSome) (hv : v < 2 ^ 32) (ha : a < 2 ^ 32)
    (x : Option Pte) : (d.setPte a x).pte v = if SamePage v a then x else d.pte v := by
  obtain ⟨t, ht⟩ := Option.isSome_iff_exists.mp h
  simp only [samePage_iff hv ha]
  unfold PageDir.setPte PageDir.pte
  rw [ht]
  dsimp only
  rcases eq_or_ne (pdx v) (pdx a) with hp | hp
  · rw [hp, Function.update_self, ht]
    rcases eq_or_ne (ptx v) (ptx a) with hq | hq
    · simp [hq]
    · simp [hq]
  · simp [hp]

theorem table_isSome_of_pte (h : (d.pte v).isSome) : (d.table (pdx v)).isSome := by
  unfold PageDir.pte at h
  cases ht : d.table (pdx v) with
  | none => simp [ht] at h
  | some t => rfl

/-! ## Freeing -/

theorem pte_eq_of_samePage (h : SamePage v a) : d.pte v = d.pte a := by
  unfold PageDir.pte
  rw [h.of_pdx_ptx.1, h.of_pdx_ptx.2]

/-- `PGADDR(PDX(a) + 1, 0, 0)`, at which the loop of `deallocuvm` continues behind a missing
page table. -/
def nextTable (a : Nat) : Nat := (pdx a + 1) * (pgsize * nentries)

theorem uint_nextTable (ha : a < kernbase) :
    uint (uint ((pdx a + 1) * (pgsize * nentries) - pgsize) + pgsize) = nextTable a := by
  have hpdx : pdx a < 512 := by
    simp only [pdx, pgsize, nentries, kernbase] at *
    omega
  unfold nextTable
  generalize pdx a = i at hpdx
  have hinner : uint ((i + 1) * (pgsize * nentries) - pgsize) =
      (i + 1) * (pgsize * nentries) - pgsize := by
    refine uint_eq ?_ ?_ <;> simp only [pgsize, nentries] <;> omega
  rw [hinner]
  refine uint_eq ?_ ?_ <;> simp only [pgsize, nentries] <;> omega

/-- The loop gets ahead by whole pages, and all it leaves out has the same directory entry. -/
theorem nextTable_eq (ha : a % pgsize = 0) (hlt : a < kernbase) :
    ∃ count, nextTable a = a + (count + 1) * pgsize ∧
      ∀ i < count + 1, pdx (a + i * pgsize) = pdx a := by
  refine ⟨(nextTable a - a) / pgsize - 1, ?_, fun i hi => ?_⟩
  · simp only [nextTable, pdx, pgsize, nentries, kernbase] at *
    omega
  · simp only [nextTable, pdx, pgsize, nentries, kernbase] at *
    omega

theorem uint_nextPage {oldsz : Nat} (hold : oldsz ≤ kernbase) (ha : a < oldsz) :
    uint (a + pgsize) = a + pgsize := by
  apply uint_eq (Int.natCast_add ..).symm
  simp only [pgsize, kernbase] at *
  omega

/-- A round is enough to get to the next page table. -/
theorem nextTable_rounds {oldsz k : Nat} (ha : a % pgsize = 0) (hlt : a < kernbase)
    (hk : oldsz < a + (k + 1) * pgsize) :
    nextTable a % pgsize = 0 ∧ oldsz < nextTable a + k * pgsize := by
  simp only [nextTable, pdx, pgsize, nentries, kernbase] at *
  omega

/-- The loop of `deallocuvm` unmaps the pages from `a` up to `oldsz`. -/
theorem deallocLoop_ends {oldsz : Nat} (hold : oldsz ≤ kernbase) {k : Nat} (ha : a % pgsize = 0)
    (hk : oldsz < a + k * pgsize) :
    (deallocLoop oldsz k d a : VmProg n PageDir).Ends fun d' => ∀ v < 2 ^ 32,
      d'.pte v = if a ≤ v ∧ v / pgsize * pgsize < oldsz then none else d.pte v := by
  have hdone {d : PageDir} {a : Nat} (ha : a % pgsize = 0) (hle : oldsz ≤ a) (v : Nat) :
      d.pte v = if a ≤ v ∧ v / pgsize * pgsize < oldsz then none else d.pte v := by
    rw [if_neg]
    simp only [pgsize] at *
    omega
  induction k generalizing d a with
  | zero => exact fun v _ => hdone ha (by omega) v
  | succ k ih =>
    unfold deallocLoop
    split
    · next hlt =>
      have hstep := uint_nextPage hold hlt
      have hnext : a + pgsize ≤ 2 ^ 32 ∧ (a + pgsize) % pgsize = 0 ∧
          oldsz < a + pgsize + k * pgsize := by
        simp only [pgsize, kernbase] at *
        omega
      -- The addresses of the page at `a` are those of the next round and its own.
      have hsplit (v : Nat) : a ≤ v ∧ v / pgsize * pgsize < oldsz ↔
          SamePage v a ∨ a + pgsize ≤ v ∧ v / pgsize * pgsize < oldsz := by
        simp only [SamePage, pgsize] at *
        omega
      split
      · next htable =>
        dsimp only
        rw [uint_nextTable (show a < kernbase by omega)]
        have hnext' := nextTable_rounds ha (show a < kernbase by omega) hk
        refine (ih hnext'.1 hnext'.2).mono fun d' hd' v hv => ?_
        rw [hd' v hv]
        by_cases hpdx : pdx v = pdx a
        · have hnone : d.pte v = none := by simp [PageDir.pte, hpdx, htable]
          simp [hnone]
        · have hiff : nextTable a ≤ v ∧ v / pgsize * pgsize < oldsz ↔
              a ≤ v ∧ v / pgsize * pgsize < oldsz := by
            simp only [nextTable, pdx, pgsize, nentries, kernbase] at *
            omega
          simp only [hiff]
      · next t htable =>
        have hsome : (d.table (pdx a)).isSome := by simp [htable]
        split
        · next hpte =>
          rw [hstep]
          refine (ih hnext.2.1 hnext.2.2).mono fun d' hd' v hv => ?_
          rw [hd' v hv]
          by_cases hsame : SamePage v a
          · have hnone : d.pte v = none := by
              rw [pte_eq_of_samePage hsame]
              simp [PageDir.pte, htable, hpte]
            simp [hnone]
          · simp only [hsplit, hsame, false_or]
        · next x hpte =>
          split
          · exact fun r => r.elim
          · rw [ends_bind, hstep]
            intro _
            refine (ih hnext.2.1 hnext.2.2).mono fun d' hd' v hv => ?_
            rw [hd' v hv, pte_setPte hsome hv (by simp only [kernbase] at *; omega)]
            by_cases hsame : SamePage v a
            · simp [hsplit, hsame]
            · simp only [hsplit, hsame, false_or, if_false]
    · next hlt => exact fun v _ => hdone ha (by omega) v

/-- `deallocuvm` from `oldsz` to `newsz` unmaps the pages in between. -/
theorem deallocuvm_ends {oldsz newsz : Nat} (hold : oldsz ≤ kernbase) (d : PageDir) :
    (deallocuvm d oldsz newsz : VmProg n (PageDir × Nat)).Ends fun x =>
      x.2 = min oldsz newsz ∧ ∀ v < 2 ^ 32, x.1.pte v =
        if newsz ≤ v / pgsize * pgsize ∧ v / pgsize * pgsize < oldsz then none else d.pte v := by
  unfold deallocuvm
  split
  · next hle =>
    refine ⟨by simp [hle], fun v _ => ?_⟩
    rw [if_neg (by omega)]
  · next hle =>
    rw [ends_bind]
    have hrounds : oldsz < pgroundup newsz + (oldsz / pgsize + 1) * pgsize := by
      simp only [pgsize]
      omega
    refine (deallocLoop_ends hold (pgroundup_mod newsz) hrounds).mono fun d' hd' => ?_
    refine ⟨by omega, fun v hv => ?_⟩
    rw [hd' v hv]
    simp only [pgroundup_le_iff (show newsz ≤ kernbase by omega)]

/-! ## Mapping -/

/-- No page table is lost. -/
def Grows (d d' : PageDir) : Prop := ∀ i, (d.table i).isSome → (d'.table i).isSome

theorem Grows.refl (d : PageDir) : Grows d d := fun _ h => h

theorem Grows.trans {d₁ d₂ d₃ : PageDir} (h : Grows d₁ d₂) (h' : Grows d₂ d₃) : Grows d₁ d₃ :=
  fun i hi => h' i (h i hi)

theorem grows_setPte (d : PageDir) (a : Nat) (x : Option Pte) : Grows d (d.setPte a x) := by
  intro i hi
  rwa [table_setPte_isSome]

theorem grows_addTable (d : PageDir) (a page : Nat) : Grows d (d.addTable a page) := by
  intro i hi
  unfold PageDir.addTable
  dsimp only
  rcases eq_or_ne i (pdx a) with rfl | hne
  · rw [Function.update_self]
    rfl
  · rwa [Function.update_of_ne hne]

theorem walkpgdir_ends (site : Site) (d : PageDir) (a : Nat) :
    (walkpgdir site d a : VmProg n (PageDir × Bool)).Ends fun x =>
      (x.2 = true → (x.1.table (pdx a)).isSome) ∧ (∀ v, x.1.pte v = d.pte v) ∧ Grows d x.1 := by
  unfold walkpgdir
  split
  · next t ht => exact ⟨fun _ => by simp [ht], fun _ => rfl, .refl d⟩
  · next ht =>
    intro r
    cases r with
    | none => exact ⟨fun h => absurd h (by simp), fun _ => rfl, .refl d⟩
    | some page =>
      exact ⟨fun _ => by simp [PageDir.addTable], pte_addTable ht page, grows_addTable d a page⟩

/-- Where something is mapped already, `mappages` does not return. -/
theorem mapPage_ends (site : Site) (d : PageDir) (ha : a < 2 ^ 32) (y : Pte) :
    (mapPage site d a y : VmProg n (PageDir × Bool)).Ends fun x => Grows d x.1 ∧
      ∀ v < 2 ^ 32, x.1.pte v = if x.2 = true ∧ SamePage v a then some y else d.pte v := by
  unfold mapPage
  rw [ends_bind]
  apply (walkpgdir_ends site d a).mono
  rintro ⟨d', found⟩ ⟨htable, hpte, hgrows⟩
  dsimp only at htable hpte hgrows ⊢
  cases found with
  | false =>
    refine ⟨hgrows, fun v _ => ?_⟩
    simpa using hpte v
  | true =>
    rw [if_pos rfl]
    split
    · exact fun r => r.elim
    · refine ⟨hgrows.trans (grows_setPte d' a _), fun v hv => ?_⟩
      simp [pte_setPte (htable rfl) hv ha, hpte]

theorem samePage_iff_mem (ha : a % pgsize = 0) : SamePage v a ↔ a ≤ v ∧ v < a + pgsize := by
  simp only [SamePage, pgsize] at *
  omega

/-- The loop of `mappages` maps pages of its range in order, and all of them if it succeeds. -/
theorem mapLoop_ends (site : Site) {k : Nat} (d : PageDir) (ha : a % pgsize = 0)
    (htop : a + (k + 1) * pgsize ≤ 2 ^ 32) (y : Pte) :
    (mapLoop site k d a y : VmProg n (PageDir × Bool)).Ends fun x =>
      ∃ j ≤ k + 1, (x.2 = true → j = k + 1) ∧ ∀ v < 2 ^ 32, x.1.pte v =
        if a ≤ v ∧ v < a + j * pgsize then some { y with page := y.page + (v - a) / pgsize }
        else d.pte v := by
  have hfailed {d d' : PageDir} {a : Nat} {y : Pte} (h : ∀ v < 2 ^ 32, d'.pte v =
      if false = true ∧ SamePage v a then some y else d.pte v) : ∀ v < 2 ^ 32, d'.pte v =
        if a ≤ v ∧ v < a + 0 * pgsize then some { y with page := y.page + (v - a) / pgsize }
        else d.pte v := by
    intro v hv
    rw [h v hv, if_neg (by simp), if_neg (by omega)]
  induction k generalizing d a y with
  | zero =>
    apply (mapPage_ends site d (by simp only [pgsize] at htop; omega) y).mono
    rintro ⟨d', ok⟩ ⟨-, hpte⟩
    cases ok with
    | false => exact ⟨0, Nat.zero_le _, by simp, hfailed hpte⟩
    | true =>
      refine ⟨1, Nat.le_refl _, fun _ => rfl, fun v hv => ?_⟩
      simp only [hpte v hv, true_and, samePage_iff_mem ha, Nat.one_mul]
      split
      · next hin =>
        have hzero : (v - a) / pgsize = 0 := Nat.div_eq_of_lt (by omega)
        rw [hzero]
        rfl
      · rfl
  | succ k ih =>
    have hstep : uint (a + pgsize) = a + pgsize ∧ (a + pgsize) % pgsize = 0 ∧ a < 2 ^ 32 ∧
        a + pgsize + (k + 1) * pgsize ≤ 2 ^ 32 := by
      simp only [uint, pgsize] at *
      omega
    unfold mapLoop
    rw [ends_bind]
    apply (mapPage_ends site d hstep.2.2.1 y).mono
    rintro ⟨d₁, ok⟩ ⟨-, hpte⟩
    cases ok with
    | false => exact ⟨0, Nat.zero_le _, by simp, hfailed hpte⟩
    | true =>
      simp only [if_true, hstep.1]
      apply (ih d₁ hstep.2.1 hstep.2.2.2 _).mono
      rintro ⟨d₂, ok⟩ ⟨j, hj, hall, hrest⟩
      refine ⟨j + 1, by omega, fun hok => by rw [hall hok], fun v hv => ?_⟩
      simp only [hrest v hv, hpte v hv, true_and, samePage_iff_mem ha]
      have hmul : (j + 1) * pgsize = pgsize + j * pgsize := by rw [Nat.succ_mul, Nat.add_comm]
      by_cases hfirst : a ≤ v ∧ v < a + pgsize
      · have hzero : (v - a) / pgsize = 0 := Nat.div_eq_of_lt (by omega)
        rw [if_neg (by omega), if_pos hfirst, if_pos (by omega), hzero]
        rfl
      · rw [if_neg hfirst]
        by_cases hin : a + pgsize ≤ v ∧ v < a + pgsize + j * pgsize
        · have hone : (v - a) / pgsize = 1 + (v - (a + pgsize)) / pgsize := by
            simp only [pgsize] at hin ⊢
            omega
          rw [if_pos hin, if_pos (by omega), hone, Nat.add_assoc]
        · rw [if_neg hin, if_neg (by omega)]

/-- Where nothing is mapped, `mappages` does not panic. -/
theorem mapPage_safe {D : Discipline (Op.Res (n := n)) Unit} {site : Site}
    (hkalloc : D.pre (.kalloc site) ()) (hnone : d.pte a = none) (y : Pte) :
    (mapPage site d a y).Safe D (fun _ _ => True) () := by
  have hwalk : (walkpgdir site d a).Safe D (fun _ _ => True) () := by
    unfold walkpgdir
    split
    · trivial
    · refine ⟨hkalloc, fun r _ => ?_⟩
      cases r <;> trivial
  unfold mapPage
  rw [safe_bind]
  apply (hwalk.and_ends (walkpgdir_ends site d a)).mono
  rintro ⟨d', found⟩ _ ⟨-, -, hpte, -⟩
  cases found with
  | false => trivial
  | true => simp [hpte, hnone]

theorem mapLoop_safe {D : Discipline (Op.Res (n := n)) Unit} {site : Site}
    (hkalloc : D.pre (.kalloc site) ()) {k : Nat} (ha : a % pgsize = 0)
    (htop : a + (k + 1) * pgsize ≤ 2 ^ 32)
    (hnone : ∀ v < a + (k + 1) * pgsize, a ≤ v → d.pte v = none) (y : Pte) :
    (mapLoop site k d a y).Safe D (fun _ _ => True) () := by
  have hhere : d.pte a = none := hnone a (by simp only [pgsize]; omega) (Nat.le_refl a)
  induction k generalizing d a y with
  | zero => exact mapPage_safe hkalloc hhere y
  | succ k ih =>
    have hstep : uint (a + pgsize) = a + pgsize ∧ (a + pgsize) % pgsize = 0 ∧ a < 2 ^ 32 ∧
        a + pgsize + (k + 1) * pgsize = a + (k + 1 + 1) * pgsize := by
      simp only [uint, pgsize] at *
      omega
    unfold mapLoop
    rw [safe_bind]
    apply ((mapPage_safe hkalloc hhere y).and_ends (mapPage_ends site d hstep.2.2.1 y)).mono
    rintro ⟨d', ok⟩ _ ⟨-, -, hpte⟩
    cases ok with
    | false => trivial
    | true =>
      have hrest (v : Nat) (hv : v < a + (k + 1 + 1) * pgsize) (hlo : a + pgsize ≤ v) :
          d'.pte v = none := by
        rw [hpte v (by omega), if_neg fun h => absurd ((samePage_iff_mem ha).mp h.2) (by omega)]
        exact hnone v hv (by omega)
      simp only [if_true, hstep.1]
      refine ih hstep.2.1 (by omega) (fun v hv => hrest v (by omega)) _ (hrest _ ?_ (Nat.le_refl _))
      simp only [pgsize]
      omega

/-- The functions that map call nothing but `kalloc`, or they find something mapped. -/
def Op.Maps : Op n → Prop
  | .kalloc _ => True
  | .panic p => p = .remap
  | _ => False

theorem mapPage_maps (site : Site) (d : PageDir) (a : Nat) (y : Pte) :
    (mapPage site d a y : VmProg n (PageDir × Bool)).Only Op.Maps := by
  unfold mapPage walkpgdir
  refine only_bind ?_ fun ⟨d', found⟩ => ?_
  · split
    · trivial
    · refine only_bind (only_op.mpr trivial) fun r => ?_
      cases r <;> trivial
  · dsimp only
    split
    · split
      · exact ⟨rfl, fun r => r.elim⟩
      · trivial
    · trivial

theorem mapLoop_maps (site : Site) (k : Nat) (d : PageDir) (a : Nat) (y : Pte) :
    (mapLoop site k d a y : VmProg n (PageDir × Bool)).Only Op.Maps := by
  induction k generalizing d a y with
  | zero => exact mapPage_maps ..
  | succ k ih =>
    refine only_bind (mapPage_maps ..) fun ⟨d', ok⟩ => ?_
    dsimp only
    split
    · exact ih ..
    · trivial

theorem mappages_page (site : Site) (d : PageDir) (ha : a % pgsize = 0) (hlt : a < kernbase)
    (y : Pte) : (mappages site d a pgsize y : VmProg n (PageDir × Bool)) = mapPage site d a y := by
  have hdown : pgrounddown a = a := by
    simp only [pgrounddown, pgsize] at *
    omega
  have hmod : uint (a + pgsize - 1) = a + (pgsize - 1) := by
    simp only [uint, pgsize, kernbase] at hlt ⊢
    omega
  have hlast : pgrounddown (a + (pgsize - 1)) = a := by
    simp only [pgrounddown, pgsize] at ha ⊢
    omega
  have hrounds : uint (a - a) / pgsize = 0 := by simp [uint]
  simp only [mappages, hdown, hmod, hlast, hrounds, mapLoop]

theorem mappages_range (site : Site) (d : PageDir) {va size : Nat} (hva : va % pgsize = 0)
    (hsize : size % pgsize = 0) (hpos : 0 < size) (htop : va + size ≤ 2 ^ 32) (y : Pte) :
    (mappages site d va size y : VmProg n (PageDir × Bool)) =
      mapLoop site (size / pgsize - 1) d va y := by
  have hdown : pgrounddown va = va := by
    simp only [pgrounddown, pgsize] at hva ⊢
    omega
  have hmod : uint (va + size - 1) = va + size - 1 := by
    simp only [uint]
    omega
  have hlast : pgrounddown (va + size - 1) = va + size - pgsize := by
    simp only [pgrounddown, pgsize] at hva hsize ⊢
    omega
  have hrounds : uint ((va + size - pgsize : Nat) - va) / pgsize = size / pgsize - 1 := by
    simp only [uint, pgsize] at hsize ⊢
    omega
  simp only [mappages, hdown, hmod, hlast, hrounds]

/-! ## Kernel mappings -/

/-- The ranges of the table follow each other from `lo` on and consist of whole pages. -/
def Ascending : Nat → List Kmap → Prop
  | _, [] => True
  | lo, m :: ms =>
    let size := uint (m.physEnd - m.physStart)
    lo ≤ m.virt ∧ m.virt % pgsize = 0 ∧ size % pgsize = 0 ∧ 0 < size ∧
      m.virt + size ≤ 2 ^ 32 ∧ Ascending (m.virt + size) ms

theorem kmap_ascending (k : KernelImage) : Ascending kernbase k.kmap := by
  have haligned := k.aligned
  have hlo := k.kernlink_lt
  have hhi := k.lt_physTop
  simp only [KernelImage.kmap, Ascending, uint, kernbase, kernlink, extmem, physTop, devspace, pgsize] at *
  and_intros
  all_goals first | omega | exact trivial

/-- The address lies in the range of the entry. -/
def Kmap.covers (m : Kmap) (v : Nat) : Bool :=
  m.virt ≤ v && v < m.virt + uint (m.physEnd - m.physStart)

/-- What the entry maps an address to. -/
def Kmap.pte (m : Kmap) (v : Nat) : Pte :=
  ⟨m.physStart / pgsize + (v - m.virt) / pgsize, m.writable, false⟩

/-- The mapping that a list of ranges describes. -/
def kernelPte (ms : List Kmap) (v : Nat) : Option Pte := (ms.find? (·.covers v)).map (·.pte v)

theorem kernelPte_cons (m : Kmap) (ms : List Kmap) (v : Nat) :
    kernelPte (m :: ms) v = if m.covers v then some (m.pte v) else kernelPte ms v := by
  rw [kernelPte, List.find?_cons]
  cases m.covers v with
  | true => rfl
  | false => rfl

theorem kernelPte_of_lt {lo v : Nat} {ms : List Kmap} (h : Ascending lo ms) (hv : v < lo) :
    kernelPte ms v = none := by
  induction ms generalizing lo with
  | nil => rfl
  | cons m ms ih =>
    obtain ⟨hle, -, -, -, -, hrest⟩ := h
    have hcovers : m.covers v = false := by
      rw [Kmap.covers, decide_eq_false (show ¬ m.virt ≤ v by omega), Bool.false_and]
    rw [kernelPte_cons, hcovers]
    exact ih hrest (by omega)

theorem kernelPte_isSome {m : Kmap} {ms : List Kmap} (hm : m ∈ ms) (hv : m.covers v = true) :
    (kernelPte ms v).isSome := by
  rw [kernelPte, Option.isSome_map, List.find?_isSome]
  exact ⟨m, hm, hv⟩

theorem kernelPte_user {ms : List Kmap} {x : Pte} (h : kernelPte ms v = some x) :
    x.user = false := by
  obtain ⟨m, -, rfl⟩ := Option.map_eq_some_iff.mp h
  rfl

/-- A range of `kmap` in pages. -/
theorem pages_of_size {size : Nat} (hsize : size % pgsize = 0) (hpos : 0 < size) :
    (size / pgsize - 1 + 1) * pgsize = size := by
  simp only [pgsize] at hsize ⊢
  omega

/-- The loop of `setupkvm` maps nothing twice. -/
theorem setupLoop_safe {D : Discipline (Op.Res (n := n)) Unit} (hkalloc : D.pre (.kalloc .other) ())
    (hfreevm : ∀ d, (∀ v < kernbase, d.pte v = none) → (freevm d).Safe D (fun _ _ => True) ())
    {lo : Nat} {ms : List Kmap} (hms : Ascending lo ms) (hlo : kernbase ≤ lo)
    (hfree : ∀ v < 2 ^ 32, lo ≤ v → d.pte v = none) (huser : ∀ v < kernbase, d.pte v = none) :
    (setupLoop ms d).Safe D (fun _ _ => True) () := by
  induction ms generalizing lo d with
  | nil => trivial
  | cons m ms ih =>
    obtain ⟨hle, hvirt, hsize, hpos, htop, hrest⟩ := hms
    generalize hsz : uint (m.physEnd - m.physStart) = size at hsize hpos htop hrest
    have hcount := pages_of_size hsize hpos
    unfold setupLoop
    rw [safe_bind, hsz, mappages_range _ _ hvirt hsize hpos htop]
    apply ((mapLoop_safe hkalloc hvirt (by rw [hcount]; exact htop)
      (fun v hv hv' => hfree v (by omega) (by omega)) _).and_ends
      (mapLoop_ends .other d hvirt (by rw [hcount]; exact htop) _)).mono
    rintro ⟨d', ok⟩ _ ⟨-, j, hj, -, hpte⟩
    have hbound : j * pgsize ≤ size := by
      rw [← hcount]
      exact Nat.mul_le_mul_right _ hj
    have huser' (v : Nat) (hv : v < kernbase) : d'.pte v = none := by
      rw [hpte v (lt_of_user hv), if_neg (by omega)]
      exact huser v hv
    cases ok with
    | true =>
      refine ih hrest (by omega) (fun v hv hv' => ?_) huser'
      rw [hpte v hv, if_neg (by omega)]
      exact hfree v hv (by omega)
    | false =>
      simp only [Bool.false_eq_true, if_false]
      rw [safe_bind]
      exact (hfreevm d' huser').mono fun _ _ _ => trivial

theorem setupkvm_safe {D : Discipline (Op.Res (n := n)) Unit} (hkalloc : D.pre (.kalloc .other) ())
    (hfreevm : ∀ d, (∀ v < kernbase, d.pte v = none) → (freevm d).Safe D (fun _ _ => True) ())
    (k : KernelImage) : (setupkvm k).Safe D (fun _ _ => True) () := by
  refine ⟨hkalloc, fun r _ => ?_⟩
  cases r with
  | none => trivial
  | some page =>
    exact setupLoop_safe hkalloc hfreevm (kmap_ascending k) (Nat.le_refl _) (fun _ _ _ => rfl)
      fun _ _ => rfl

/-- The loop of `setupkvm` maps what its ranges describe. -/
theorem setupLoop_ends {lo : Nat} {ms : List Kmap} (hms : Ascending lo ms) (d : PageDir) :
    (setupLoop ms d : VmProg n (Option PageDir)).Ends fun r => ∀ d', r = some d' →
      ∀ v < 2 ^ 32, d'.pte v = (kernelPte ms v).or (d.pte v) := by
  induction ms generalizing lo d with
  | nil =>
    rintro d' hd' v _
    cases hd'
    rfl
  | cons m ms ih =>
    obtain ⟨hle, hvirt, hsize, hpos, htop, hrest⟩ := hms
    have hcovers (v : Nat) : m.covers v = decide (m.virt ≤ v ∧
        v < m.virt + uint (m.physEnd - m.physStart)) := (Bool.decide_and ..).symm
    generalize hsz : uint (m.physEnd - m.physStart) = size at hsize hpos htop hrest hcovers
    have hcount := pages_of_size hsize hpos
    unfold setupLoop
    rw [ends_bind, hsz, mappages_range _ _ hvirt hsize hpos htop]
    apply (mapLoop_ends .other d hvirt (by rw [hcount]; exact htop) _).mono
    rintro ⟨d₁, ok⟩ ⟨j, -, hall, hpte⟩
    dsimp only at hall hpte ⊢
    cases ok with
    | false =>
      rw [if_neg (by simp), ends_bind]
      apply (ends_true _).mono
      rintro _ - d' hd'
      cases hd'
    | true =>
      rw [if_pos rfl]
      apply (ih hrest d₁).mono
      rintro r hr d' hd' v hv
      rw [hr d' hd' v hv, hpte v hv, hall rfl, hcount, kernelPte_cons, hcovers]
      by_cases hin : m.virt ≤ v ∧ v < m.virt + size
      · rw [kernelPte_of_lt hrest hin.2, if_pos hin, decide_eq_true hin]
        rfl
      · rw [if_neg hin, decide_eq_false hin]
        rfl

/-- `setupkvm` maps what `kmap` says and nothing else. -/
theorem setupkvm_ends (k : KernelImage) :
    (setupkvm k : VmProg n (Option PageDir)).Ends fun r => ∀ d, r = some d → ∀ v < 2 ^ 32,
      d.pte v = kernelPte k.kmap v := by
  intro r
  cases r with
  | none =>
    rintro d hd
    cases hd
  | some page =>
    apply (setupLoop_ends (kmap_ascending k) (.empty page)).mono
    intro r hr d hd v hv
    rw [hr d hd v hv]
    exact Option.or_none

end Xv6Containers.Vm
