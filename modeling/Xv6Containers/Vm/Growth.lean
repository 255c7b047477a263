import Xv6Containers.Vm.Frames

/-!
# Growing and shrinking user memory

`allocuvm` maps exactly the pages between the old and the new size, each a page of its own that
is filled with zeros, or leaves what is mapped as it was. `deallocuvm` frees exactly the pages
that are mapped between the sizes, also where page tables are missing.

## Implementation notes

`present` lists the pages mapped in a range by address. `deallocuvm` frees them in this order,
so the free list after the call is known exactly.
-/

namespace Xv6Containers.Vm

open Lib.Memory Lib.Program Prog

variable {kern : KernelImage} {d : PageDir} {a hi : Nat}

/-! ## Pages of a range -/

/-- The addresses of the pages from `a` up to `hi`. -/
def pageStarts (a hi : Nat) : List Nat :=
  (List.range ((hi - a + (pgsize - 1)) / pgsize)).map fun i => a + i * pgsize

/-- The pages that are mapped from `a` up to `hi`. -/
def present (d : PageDir) (a hi : Nat) : List Nat :=
  (pageStarts a hi).filterMap fun v => (d.pte v).map Pte.page

theorem pageStarts_of_le (h : hi ≤ a) : pageStarts a hi = [] := by
  have hcount : (hi - a + (pgsize - 1)) / pgsize = 0 := by
    simp only [pgsize]
    omega
  rw [pageStarts, hcount]
  rfl

theorem pageStarts_of_lt (h : a < hi) : pageStarts a hi = a :: pageStarts (a + pgsize) hi := by
  have hcount : (hi - a + (pgsize - 1)) / pgsize =
      (hi - (a + pgsize) + (pgsize - 1)) / pgsize + 1 := by
    simp only [pgsize]
    omega
  rw [pageStarts, hcount, List.range_succ_eq_map, List.map_cons, List.map_map, pageStarts]
  congr 1
  apply List.map_congr_left
  intro i _
  simp only [Function.comp_apply, Nat.succ_mul]
  omega

theorem present_of_le (h : hi ≤ a) : present d a hi = [] := by
  rw [present, pageStarts_of_le h]
  rfl

theorem present_of_some (h : a < hi) {x : Pte} (hx : d.pte a = some x) :
    present d a hi = x.page :: present d (a + pgsize) hi := by
  rw [present, pageStarts_of_lt h, List.filterMap_cons, hx]
  rfl

theorem present_of_none (h : d.pte a = none) : present d a hi = present d (a + pgsize) hi := by
  rcases Nat.lt_or_ge a hi with hlt | hge
  · rw [present, pageStarts_of_lt hlt, List.filterMap_cons, h]
    rfl
  · rw [present_of_le hge, present_of_le (by omega)]

/-- A stretch without mappings is left out. -/
theorem present_skip {count : Nat} (h : ∀ i < count, d.pte (a + i * pgsize) = none) :
    present d a hi = present d (a + count * pgsize) hi := by
  induction count generalizing a with
  | zero => rw [Nat.zero_mul, Nat.add_zero]
  | succ count ih =>
    have hfirst : d.pte a = none := by simpa using h 0 (Nat.succ_pos count)
    have hshift (i : Nat) : a + (i + 1) * pgsize = a + pgsize + i * pgsize := by
      rw [Nat.succ_mul]
      omega
    rw [present_of_none hfirst, hshift, ih fun i hi => ?_]
    rw [← hshift]
    exact h (i + 1) (by omega)

theorem mem_pageStarts {v : Nat} (h : v ∈ pageStarts a hi) : a ≤ v ∧ v < hi ∧ v % pgsize = a % pgsize := by
  rw [pageStarts, List.mem_map] at h
  obtain ⟨i, hi', rfl⟩ := h
  rw [List.mem_range] at hi'
  simp only [pgsize] at *
  omega

theorem present_congr {d' : PageDir}
    (h : ∀ v, a ≤ v → v < hi → v % pgsize = a % pgsize → d'.pte v = d.pte v) :
    present d' a hi = present d a hi := by
  apply List.filterMap_congr
  intro v hv
  obtain ⟨hlo, hlt, hmod⟩ := mem_pageStarts hv
  rw [h v hlo hlt hmod]

theorem mem_present {page : Nat} (h : page ∈ present d a hi) :
    ∃ v x, a ≤ v ∧ v < hi ∧ v % pgsize = a % pgsize ∧ d.pte v = some x ∧ x.page = page := by
  obtain ⟨v, hv, hpage⟩ := List.mem_filterMap.mp h
  obtain ⟨x, hx, rfl⟩ := Option.map_eq_some_iff.mp hpage
  obtain ⟨hlo, hlt, hmod⟩ := mem_pageStarts hv
  exact ⟨v, x, hlo, hlt, hmod, hx, rfl⟩

theorem pageStarts_pairwise (a hi : Nat) : (pageStarts a hi).Pairwise fun v w => v + pgsize ≤ w := by
  apply List.Pairwise.map _ _ List.pairwise_lt_range
  intro i j hij
  simp only [pgsize]
  omega

/-- Pages that are mapped once are listed once. -/
theorem present_nodup (h : ∀ v w x y, v < hi → w < hi → d.pte v = some x → d.pte w = some y →
    x.page = y.page → SamePage v w) : (present d a hi).Nodup := by
  apply List.pairwise_filterMap.mpr
  apply List.Pairwise.imp_of_mem _ (pageStarts_pairwise a hi)
  intro v w hv hw hvw page hpage page' hpage'
  obtain ⟨x, hx, rfl⟩ := Option.map_eq_some_iff.mp hpage
  obtain ⟨y, hy, rfl⟩ := Option.map_eq_some_iff.mp hpage'
  intro heq
  have hsame := h v w x y (mem_pageStarts hv).2.1 (mem_pageStarts hw).2.1 hx hy heq
  simp only [SamePage, pgsize] at *
  omega

/-! ## The loop of `deallocuvm` -/

/-- The loop of `deallocuvm` comes to its end: more rounds than it takes make no difference. -/
theorem deallocLoop_rounds {n oldsz : Nat} (hold : oldsz ≤ kernbase) {k : Nat} (j : Nat)
    (ha : a % pgsize = 0) (hk : oldsz < a + k * pgsize) :
    (deallocLoop oldsz (k + j) d a : VmProg n PageDir) = deallocLoop oldsz k d a := by
  induction k generalizing d a with
  | zero =>
    cases j with
    | zero => rfl
    | succ j =>
      rw [Nat.zero_add]
      unfold deallocLoop
      rw [if_neg (by omega)]
  | succ k ih =>
    rw [Nat.succ_add]
    unfold deallocLoop
    split
    · next hlt =>
      have hnext : (a + pgsize) % pgsize = 0 ∧ oldsz < a + pgsize + k * pgsize := by
        simp only [pgsize] at *
        omega
      have hjump := nextTable_rounds ha (show a < kernbase by omega) hk
      rw [uint_nextPage hold hlt]
      dsimp only
      rw [uint_nextTable (show a < kernbase by omega), ih hjump.1 hjump.2]
      simp only [ih hnext.1 hnext.2]
    · rfl

namespace Frames

/-- `kfree` of the pages one after the other. -/
def release (m : Frames) (pages : List Nat) : Frames := pages.foldl putBack m

theorem release_cons (m : Frames) (page : Nat) (pages : List Nat) :
    m.release (page :: pages) = (m.putBack page).release pages := rfl

theorem release_free (m : Frames) (pages : List Nat) :
    (m.release pages).free = pages.reverse ++ m.free := by
  induction pages generalizing m with
  | nil => rfl
  | cons page pages ih =>
    rw [release_cons, ih, List.reverse_cons, List.append_assoc]
    rfl

variable {page : Nat}

theorem release_mem (m : Frames) {pages : List Nat} (h : page ∉ pages) :
    (m.release pages).mem page = m.mem page := by
  induction pages generalizing m with
  | nil => rfl
  | cons first pages ih =>
    rw [List.mem_cons, not_or] at h
    rw [release_cons, ih _ h.2]
    exact Function.update_of_ne h.1 ..

theorem run_kfree (h : Frame kern page) (m : Frames) :
    (Vm.kfree page).run (vmStep kern) m = .ok ((), m.putBack page) := by
  have hcheck : ¬ (page < kern.first ∨ physTop / pgsize ≤ page) := by
    have hlo := h.2.1
    have hhi := h.2.2
    omega
  exact (run_op (vmStep kern) (Op.kfree page) m).trans (if_neg hcheck)

/-- The loop of `deallocuvm` frees the pages that are mapped, one after the other. -/
theorem deallocLoop_run {oldsz : Nat} (hold : oldsz ≤ kernbase) {k : Nat} (ha : a % pgsize = 0)
    (hk : oldsz < a + k * pgsize) (hframes : ∀ page ∈ present d a oldsz, Frame kern page) :
    ∃ d', (deallocLoop oldsz k d a).run (vmStep kern) m =
      .ok (d', m.release (present d a oldsz)) := by
  induction k generalizing d a m with
  | zero =>
    refine ⟨d, ?_⟩
    rw [present_of_le (by omega)]
    rfl
  | succ k ih =>
    unfold deallocLoop
    split
    · next hlt =>
      have hnext : (a + pgsize) % pgsize = 0 ∧ oldsz < a + pgsize + k * pgsize := by
        simp only [pgsize] at *
        omega
      rw [uint_nextPage hold hlt]
      split
      · next htable =>
        obtain ⟨count, hcount, hpdx⟩ := nextTable_eq ha (show a < kernbase by omega)
        have hjump := nextTable_rounds ha (show a < kernbase by omega) hk
        have hskip : present d a oldsz = present d (nextTable a) oldsz := by
          rw [hcount]
          apply present_skip
          intro i hi
          rw [PageDir.pte, hpdx i hi, htable]
          rfl
        dsimp only
        rw [uint_nextTable (show a < kernbase by omega), hskip]
        rw [hskip] at hframes
        exact ih hjump.1 hjump.2 hframes
      · next t htable =>
        have hpte : d.pte a = t.pte (ptx a) := by
          rw [PageDir.pte, htable]
          rfl
        split
        · next hnone =>
          rw [present_of_none (hpte.trans hnone)] at hframes ⊢
          exact ih hnext.1 hnext.2 hframes
        · next x hsome =>
          have hlist := present_of_some hlt (hpte.trans hsome)
          rw [hlist] at hframes ⊢
          have hframe := hframes x.page (List.mem_cons_self ..)
          have hrest : present (d.setPte a none) (a + pgsize) oldsz =
              present d (a + pgsize) oldsz := by
            apply present_congr
            intro v hlo hhi _
            have h32 : v < 2 ^ 32 ∧ a < 2 ^ 32 := by
              simp only [kernbase] at hold
              omega
            rw [pte_setPte (by simp [htable]) h32.1 h32.2, if_neg]
            simp only [SamePage, pgsize] at *
            omega
          rw [if_neg (Nat.pos_iff_ne_zero.mp hframe.1), run_bind_of_ok (run_kfree hframe m),
            ← hrest, release_cons]
          refine ih hnext.1 hnext.2 fun page hpage => hframes page ?_
          rw [hrest] at hpage
          exact List.mem_cons_of_mem _ hpage
    · next hlt =>
      refine ⟨d, ?_⟩
      rw [present_of_le (by omega)]
      rfl

/-- `deallocuvm` frees the pages that are mapped between the sizes and unmaps them. -/
theorem deallocuvm_run {oldsz newsz : Nat} (hold : oldsz ≤ kernbase)
    (hframes : ∀ page ∈ present d (pgroundup newsz) oldsz, Frame kern page) (hlt : newsz < oldsz) :
    ∃ d', (deallocuvm d oldsz newsz).run (vmStep kern) m =
        .ok ((d', newsz), m.release (present d (pgroundup newsz) oldsz)) ∧
      ∀ v < 2 ^ 32, d'.pte v =
        if pgroundup newsz ≤ v ∧ v < pgroundup oldsz then none else d.pte v := by
  have hrounds : oldsz < pgroundup newsz + (oldsz / pgsize + 1) * pgsize := by
    simp only [pgsize]
    omega
  obtain ⟨d', hrun⟩ := deallocLoop_run hold (pgroundup_mod newsz) hrounds (m := m) hframes
  refine ⟨d', ?_, fun v hv => ?_⟩
  · rw [deallocuvm, if_neg (by omega), run_bind_of_ok hrun]
    rfl
  · have hpte := (deallocLoop_ends (n := 0) (d := d) hold (pgroundup_mod newsz) hrounds).run_ok hrun v hv
    have htop : v < pgroundup oldsz ↔ v / pgsize * pgsize < oldsz := by
      rw [← Nat.not_le, pgroundup_le_iff hold, Nat.not_le]
    rw [hpte]
    simp only [htop]

/-! ## Growing -/

/-- From `lo` to `hi` pages of the free list were mapped, a different one for each page, for user
code to read and write. They are filled with zeros, and all else is as it was. -/
structure Grown (used : List Nat) (lo hi : Nat) (d₀ d : PageDir) (m₀ m : Frames) : Prop
    extends Took used m₀ m where
  others : ∀ v < 2 ^ 32, ¬ (lo ≤ v ∧ v < hi) → d.pte v = d₀.pte v
  new : ∀ v, lo ≤ v → v < hi → ∃ page ∈ used, d.pte v = some ⟨page, true, true⟩ ∧
    m.mem page = fun _ => 0
  distinct : ∀ v w x y, lo ≤ v → v < hi → lo ≤ w → w < hi → d.pte v = some x → d.pte w = some y →
    x.page = y.page → SamePage v w

/-- Everything is mapped as it was, and no page in use was written. -/
structure Undone (d₀ d : PageDir) (m₀ m : Frames) : Prop where
  pte : ∀ v < 2 ^ 32, d.pte v = d₀.pte v
  mem : ∀ page, page ∉ m₀.free → m.mem page = m₀.mem page

variable {d₀ : PageDir} {m₀ m : Frames} {used : List Nat} {lo : Nat}

theorem Grown.start (d : PageDir) (m : Frames) (lo : Nat) : Grown [] lo lo d d m m where
  toTook := .refl m
  others := fun _ _ _ => rfl
  new := fun v hlo hhi => absurd hlo (by omega)
  distinct := fun v w x y hlo hhi => absurd hlo (by omega)

/-- One more page. -/
theorem Grown.next (h : Grown used lo a d₀ d m₀ m) (hnodup : m₀.free.Nodup) (ha : a % pgsize = 0)
    (hlo : lo ≤ a) (hlt : a < kernbase) {rest taken : List Nat} (hpage : m.free = page :: rest)
    {d' : PageDir}
    (hpte : ∀ v < 2 ^ 32, d'.pte v = if SamePage v a then some ⟨page, true, true⟩ else d.pte v)
    {m' : Frames} (hrest : rest = taken ++ m'.free)
    (hmem : m'.mem = Function.update m.mem page fun _ => 0) :
    Grown (used ++ page :: taken) lo (a + pgsize) d₀ d' m₀ m' := by
  have hfresh : page ∉ used := h.not_mem hnodup (hpage ▸ List.mem_cons_self ..)
  have hold (v : Nat) (hv : v < a) : d'.pte v = d.pte v := by
    rw [hpte v (lt_of_user (by omega)), if_neg]
    rw [samePage_iff_mem ha]
    omega
  have hlast (v : Nat) (hge : a ≤ v) (hv : v < a + pgsize) :
      SamePage v a ∧ d'.pte v = some ⟨page, true, true⟩ := by
    have hsame : SamePage v a := (samePage_iff_mem ha).mpr ⟨hge, hv⟩
    refine ⟨hsame, ?_⟩
    rw [hpte v (by simp only [kernbase, pgsize] at *; omega), if_pos hsame]
  constructor
  · exact h.toTook.trans (took_page hpage hrest hmem)
  · intro v hv hout
    rw [hpte v hv, if_neg fun hsame => absurd ((samePage_iff_mem ha).mp hsame) (by omega)]
    exact h.others v hv (by omega)
  · intro v hlo hhi
    rcases Nat.lt_or_ge v a with hva | hva
    · obtain ⟨old, hused, hv, hzero⟩ := h.new v hlo hva
      refine ⟨old, List.mem_append_left _ hused, (hold v hva).trans hv, ?_⟩
      have hne : old ≠ page := fun heq => hfresh (heq ▸ hused)
      rw [hmem, Function.update_of_ne hne, hzero]
    · refine ⟨page, List.mem_append_right _ (List.mem_cons_self ..), (hlast v hva hhi).2, ?_⟩
      rw [hmem, Function.update_self]
  · intro v w x y hvlo hvhi hwlo hwhi hx hy hxy
    rcases Nat.lt_or_ge v a with hva | hva <;> rcases Nat.lt_or_ge w a with hwa | hwa
    · rw [hold v hva] at hx
      rw [hold w hwa] at hy
      exact h.distinct v w x y hvlo hva hwlo hwa hx hy hxy
    · obtain ⟨old, hused, hv, -⟩ := h.new v hvlo hva
      rw [hold v hva, hv] at hx
      rw [(hlast w hwa hwhi).2] at hy
      cases hx
      cases hy
      dsimp only at hxy
      exact absurd (hxy ▸ hused) hfresh
    · obtain ⟨old, hused, hw, -⟩ := h.new w hwlo hwa
      rw [hold w hwa, hw] at hy
      rw [(hlast v hva hvhi).2] at hx
      cases hx
      cases hy
      dsimp only at hxy
      exact absurd (hxy ▸ hused) hfresh
    · have hv := (hlast v hva hvhi).1
      have hw := (hlast w hwa hwhi).1
      exact hv.trans hw.symm

/-- More pages were taken and none was mapped. -/
theorem Grown.take (h : Grown used lo a d₀ d m₀ m) (hnodup : m₀.free.Nodup) (ha : a ≤ kernbase)
    {taken : List Nat} {m' : Frames} (htook : Took taken m m') {d' : PageDir}
    (hpte : ∀ v < 2 ^ 32, d'.pte v = d.pte v) : Grown (used ++ taken) lo a d₀ d' m₀ m' := by
  have hbelow (v : Nat) (hv : v < a) : d'.pte v = d.pte v :=
    hpte v (lt_of_user (by omega))
  constructor
  · exact h.toTook.trans htook
  · exact fun v hv hout => (hpte v hv).trans (h.others v hv hout)
  · intro v hlo hhi
    obtain ⟨page, hused, hv, hzero⟩ := h.new v hlo hhi
    refine ⟨page, List.mem_append_left _ hused, (hbelow v hhi).trans hv, ?_⟩
    rw [htook.mem page, hzero]
    intro htaken
    refine h.not_mem hnodup ?_ hused
    rw [htook.free]
    exact List.mem_append_left _ htaken
  · intro v w x y hvlo hvhi hwlo hwhi hx hy
    rw [hbelow v hvhi] at hx
    rw [hbelow w hwhi] at hy
    exact h.distinct v w x y hvlo hvhi hwlo hwhi hx hy

section Alloc

variable {oldsz newsz : Nat} (hfits : Fits d₀ oldsz)
include hfits

/-- Above its size a process has nothing mapped. -/
theorem unmapped_of_fits {v : Nat} (hlo : pgroundup oldsz ≤ v) (hv : v < kernbase) :
    d₀.pte v = none := by
  rw [← Option.not_isSome_iff_eq_none, hfits.2 v hv, Nat.not_lt]
  exact (pgroundup_le_iff (Nat.le_of_lt hfits.1) v).mp hlo

variable (hnew : newsz < kernbase) (hframes : ∀ page ∈ m₀.free, Frame kern page)
include hnew hframes

/-- After a failure `deallocuvm` takes back what was mapped. -/
theorem Grown.undo (h : Grown used (pgroundup oldsz) a d₀ d m₀ m) (hlo : pgroundup oldsz ≤ a)
    (ha : a < newsz) :
    Yields (fun _ => False) (fun r => Undone d₀ r.1.1 m₀ r.2)
      ((deallocuvm d newsz oldsz).run (vmStep kern) m) := by
  have hround : oldsz ≤ pgroundup oldsz ∧ pgroundup newsz ≤ kernbase ∧ newsz ≤ pgroundup newsz := by
    have hold := hfits.1
    rw [pgroundup_eq (Nat.le_of_lt hold), pgroundup_eq (Nat.le_of_lt hnew)]
    simp only [pgsize, kernbase] at *
    omega
  have hpresent : ∀ page ∈ present d (pgroundup oldsz) newsz, page ∈ used := by
    intro page hpage
    obtain ⟨v, x, hvlo, hvhi, -, hx, rfl⟩ := mem_present hpage
    rcases Nat.lt_or_ge v a with hva | hva
    · obtain ⟨page, hused, hv, -⟩ := h.new v hvlo hva
      rw [hv] at hx
      cases hx
      exact hused
    · rw [h.others v (lt_of_user (by omega)) (by omega),
        unmapped_of_fits hfits hvlo (by omega)] at hx
      cases hx
  have hsub : ∀ page ∈ used, page ∈ m₀.free := by
    intro page hpage
    rw [h.free]
    exact List.mem_append_left _ hpage
  obtain ⟨d', hrun, hpte⟩ := deallocuvm_run (m := m) (Nat.le_of_lt hnew)
    (fun page hpage => hframes page (hsub page (hpresent page hpage))) (by omega)
  have hkeep : ∀ page ∉ used, (m.release (present d (pgroundup oldsz) newsz)).mem page = m.mem page :=
    fun page hpage => release_mem m fun hmem => hpage (hpresent page hmem)
  generalize m.release (present d (pgroundup oldsz) newsz) = m' at hrun hkeep
  have hundone : Undone d₀ d' m₀ m' := by
    constructor
    · intro v hv
      rw [hpte v hv]
      split
      · next hin => exact (unmapped_of_fits hfits hin.1 (by omega)).symm
      · next hout => exact h.others v hv (by omega)
    · intro page hpage
      have hused : page ∉ used := fun hmem => hpage (hsub page hmem)
      exact (hkeep page hused).trans (h.mem page hused)
  rw [hrun]
  exact hundone

/-- The loop of `allocuvm` grows the memory page by page up to the new size, or takes back what it
mapped. -/
theorem allocLoop_yields (hnodup : m₀.free.Nodup) {k : Nat}
    (h : Grown used (pgroundup oldsz) a d₀ d m₀ m) (ha : a % pgsize = 0) (hlo : pgroundup oldsz ≤ a)
    (htop : a ≤ pgroundup newsz) (hk : newsz < a + k * pgsize) :
    Yields (fun _ => False) (fun r =>
      r.1.2 = newsz ∧ (∃ used, Grown used (pgroundup oldsz) (pgroundup newsz) d₀ r.1.1 m₀ r.2) ∨
      r.1.2 = 0 ∧ Undone d₀ r.1.1 m₀ r.2)
      ((allocLoop oldsz newsz k d a).run (step kern) m) := by
  have hround : pgroundup newsz = (newsz + (pgsize - 1)) / pgsize * pgsize :=
    pgroundup_eq (Nat.le_of_lt hnew)
  have hdone {d : PageDir} {m : Frames} {a : Nat} {used : List Nat}
      (h : Grown used (pgroundup oldsz) a d₀ d m₀ m) (ha : a % pgsize = 0)
      (htop : a ≤ pgroundup newsz) (hle : newsz ≤ a) :
      ∃ used, Grown used (pgroundup oldsz) (pgroundup newsz) d₀ d m₀ m := by
    have hend : a = pgroundup newsz := by
      rw [hround] at htop ⊢
      simp only [pgsize] at *
      omega
    rw [hend] at h
    exact ⟨used, h⟩
  induction k generalizing a d m used with
  | zero =>
    rw [Nat.zero_mul, Nat.add_zero] at hk
    exact .inl ⟨rfl, hdone h ha htop (Nat.le_of_lt hk)⟩
  | succ k ih =>
    unfold allocLoop
    split
    · next hlt =>
      have hstep : uint (a + pgsize) = a + pgsize := uint_nextPage (Nat.le_of_lt hnew) hlt
      have hnext : (a + pgsize) % pgsize = 0 ∧ pgroundup oldsz ≤ a + pgsize ∧
          a + pgsize ≤ pgroundup newsz ∧ newsz < a + pgsize + k * pgsize := by
        rw [hround]
        simp only [pgsize] at *
        omega
      cases hfree : m.free with
      | nil =>
        rw [run_bind_of_ok (run_kalloc_nil .other hfree)]
        have hundo := h.undo hfits hnew hframes hlo hlt
        rw [← run_vm] at hundo
        exact yields_run_bind hundo fun r t hr => .inr ⟨rfl, hr⟩
      | cons page rest =>
        rw [run_bind_of_ok (run_kalloc_cons .other hfree)]
        have hset : (memset page 0).run (step kern) { m with free := rest } =
            .ok ((), Frames.fill { m with free := rest } page 0) := rfl
        dsimp only
        rw [run_bind_of_ok hset, mappages_page .other d ha (by omega)]
        have hnone : d.pte a = none := by
          rw [h.others a (lt_of_user (by omega)) (by omega)]
          exact unmapped_of_fits hfits hlo (by omega)
        have hmap := mapPage_yields (k := kern) .other (lt_of_user (by omega)) hnone
          ⟨page, true, true⟩ (Frames.fill { m with free := rest } page 0)
        refine yields_run_bind hmap ?_
        rintro ⟨d', ok⟩ m' ⟨hpte, taken, hrest, hmem⟩
        dsimp only at hpte hrest hmem ⊢
        cases ok with
        | true =>
          rw [if_pos rfl, hstep]
          have hgrown := h.next hnodup ha hlo (by omega) hfree (by simpa using hpte) hrest hmem
          exact ih hgrown hnext.1 hnext.2.1 hnext.2.2.1 hnext.2.2.2
        | false =>
          rw [if_neg (by simp)]
          have htook : Took (page :: taken) m m' := took_page hfree hrest hmem
          have hsame : ∀ v < 2 ^ 32, d'.pte v = d.pte v := fun v hv => by simpa using hpte v hv
          have hundo := (h.take hnodup (by omega) htook hsame).undo hfits hnew hframes hlo hlt
          have hpage : page ∈ m₀.free := by
            rw [h.free, hfree]
            exact List.mem_append_right _ (List.mem_cons_self ..)
          rw [← run_vm] at hundo
          refine yields_run_bind hundo fun r t hr => ?_
          have hput : (vm (Vm.kfree page)).run (step kern) t = .ok ((), t.putBack page) := by
            rw [run_vm]
            exact run_kfree (hframes page hpage) t
          rw [run_bind_of_ok hput]
          refine .inr ⟨rfl, hr.pte, fun other hother => ?_⟩
          have hne : other ≠ page := fun heq => hother (heq ▸ hpage)
          exact (Function.update_of_ne hne ..).trans (hr.mem other hother)
    · next hlt => exact .inl ⟨rfl, hdone h ha htop (by omega)⟩

end Alloc

/-! ## Exactness -/

/-- The free pages are pages of the allocator, once each, and so are the pages of user memory, of
which none is free. -/
structure Backed (kern : KernelImage) (d : PageDir) (m : Frames) : Prop where
  nodup : m.free.Nodup
  frames : ∀ page ∈ m.free, Frame kern page
  user : ∀ v < kernbase, ∀ x, d.pte v = some x → Frame kern x.page ∧ x.page ∉ m.free
  distinct : ∀ v w x y, v < kernbase → w < kernbase → d.pte v = some x → d.pte w = some y →
    x.page = y.page → SamePage v w

theorem allocuvm_run {oldsz newsz : Nat} (hfits : Fits d oldsz) (hnew : newsz < kernbase)
    (hm : Backed kern d m) :
    ∃ d' r m', (allocuvm d oldsz newsz).run (step kern) m = .ok ((d', r), m') ∧
      (newsz < oldsz ∧ r = oldsz ∧ d' = d ∧ m' = m ∨
        oldsz ≤ newsz ∧ r = newsz ∧
          (∃ used, Grown used (pgroundup oldsz) (pgroundup newsz) d d' m m') ∨
        r = 0 ∧ Undone d d' m m') := by
  unfold allocuvm
  rw [if_neg (by omega)]
  split
  · next hlt => exact ⟨d, oldsz, m, rfl, .inl ⟨hlt, rfl, rfl, rfl⟩⟩
  · next hge =>
    have hround : pgroundup oldsz ≤ pgroundup newsz := by
      rw [pgroundup_eq (by omega), pgroundup_eq (by omega)]
      simp only [pgsize]
      omega
    have hrounds : newsz < pgroundup oldsz + (newsz / pgsize + 1) * pgsize := by
      simp only [pgsize]
      omega
    have hloop := allocLoop_yields hfits hnew hm.frames hm.nodup (Grown.start d m _)
      (pgroundup_mod oldsz) (Nat.le_refl _) hround hrounds
    cases hrun : (allocLoop oldsz newsz (newsz / pgsize + 1) d (pgroundup oldsz)).run (step kern) m with
    | error e =>
      rw [hrun] at hloop
      exact hloop.elim
    | ok r =>
      rw [hrun] at hloop
      refine ⟨r.1.1, r.1.2, r.2, rfl, .inr ?_⟩
      rcases hloop with hgrown | hundone
      · exact .inl ⟨by omega, hgrown⟩
      · exact .inr hundone

theorem Grown.fits {oldsz newsz : Nat} {d' : PageDir} {m' : Frames} (hfits : Fits d oldsz)
    (hle : oldsz ≤ newsz) (hnew : newsz < kernbase)
    (h : Grown used (pgroundup oldsz) (pgroundup newsz) d d' m m') : Fits d' newsz := by
  refine ⟨hnew, fun v hv => ?_⟩
  have hold := pgroundup_le_iff (Nat.le_of_lt hfits.1) v
  have htop := pgroundup_le_iff (Nat.le_of_lt hnew) v
  by_cases hin : pgroundup oldsz ≤ v ∧ v < pgroundup newsz
  · obtain ⟨page, -, hpte, -⟩ := h.new v hin.1 hin.2
    simp only [hpte, Option.isSome_some, true_iff]
    omega
  · rw [h.others v (lt_of_user hv) hin, hfits.2 v hv]
    omega

/-- `deallocuvm` between any two sizes. -/
theorem deallocuvm_exact {oldsz newsz : Nat} (hold : oldsz ≤ kernbase) (hnew : newsz < kernbase)
    (hm : Backed kern d m) :
    ∃ d', (deallocuvm d oldsz newsz).run (vmStep kern) m =
        .ok ((d', min oldsz newsz), m.release (present d (pgroundup newsz) oldsz)) ∧
      ∀ v < 2 ^ 32, d'.pte v =
        if pgroundup newsz ≤ v ∧ v < pgroundup oldsz then none else d.pte v := by
  have hround : newsz ≤ pgroundup newsz ∧ (oldsz ≤ newsz → pgroundup oldsz ≤ pgroundup newsz) := by
    rw [pgroundup_eq hold, pgroundup_eq (Nat.le_of_lt hnew)]
    simp only [pgsize]
    omega
  rcases Nat.lt_or_ge newsz oldsz with hlt | hge
  · have hframes : ∀ page ∈ present d (pgroundup newsz) oldsz, Frame kern page := by
      intro page hpage
      obtain ⟨v, x, -, hv, -, hx, rfl⟩ := mem_present hpage
      exact (hm.user v (by omega) x hx).1
    obtain ⟨d', hrun, hpte⟩ := deallocuvm_run (m := m) hold hframes hlt
    rw [Nat.min_eq_right (Nat.le_of_lt hlt)]
    exact ⟨d', hrun, hpte⟩
  · refine ⟨d, ?_, fun v _ => ?_⟩
    · rw [present_of_le (by omega), deallocuvm, if_pos hge, Nat.min_eq_left hge]
      rfl
    · rw [if_neg]
      have hle := hround.2 hge
      omega

/-- `allocuvm` maps exactly the pages up to the new size or leaves all as it was. `deallocuvm` comes
to its end and frees exactly the pages that are mapped between the sizes, each once. -/
theorem growth_and_shrinking_exact (kern : KernelImage) (d : PageDir) (m : Frames)
    (hm : Backed kern d m) (oldsz newsz : Nat) (hnew : newsz < kernbase) :
    (Fits d oldsz →
      ∃ d' r m', (allocuvm d oldsz newsz).run (step kern) m = .ok ((d', r), m') ∧
        (r = newsz → 0 < newsz → Fits d' newsz ∧
          ∃ used, Grown used (pgroundup oldsz) (pgroundup newsz) d d' m m') ∧
        (r = 0 → Undone d d' m m') ∧
        (r = newsz ∨ r = 0 ∨ newsz < oldsz ∧ r = oldsz ∧ d' = d ∧ m' = m)) ∧
    (oldsz ≤ kernbase →
      (∃ d' m', (vm (deallocuvm d oldsz newsz)).run (step kern) m =
          .ok ((d', min oldsz newsz), m') ∧
        (∀ v < 2 ^ 32, d'.pte v =
          if pgroundup newsz ≤ v ∧ v < pgroundup oldsz then none else d.pte v) ∧
        m'.free = (present d (pgroundup newsz) oldsz).reverse ++ m.free ∧ m'.free.Nodup ∧
        ∀ page, page ∉ present d (pgroundup newsz) oldsz → m'.mem page = m.mem page) ∧
      ∀ j, (deallocLoop oldsz (oldsz / pgsize + 1 + j) d (pgroundup newsz) : VmProg 0 PageDir) =
        deallocLoop oldsz (oldsz / pgsize + 1) d (pgroundup newsz)) := by
  constructor
  · intro hfits
    obtain ⟨d', r, m', hrun, hcases⟩ := allocuvm_run hfits hnew hm
    refine ⟨d', r, m', hrun, ?_, ?_, ?_⟩
    · intro hr hpos
      rcases hcases with ⟨hlt, hrold, -⟩ | ⟨hle, -, used, hgrown⟩ | ⟨hzero, -⟩
      · omega
      · exact ⟨hgrown.fits hfits hle hnew, used, hgrown⟩
      · omega
    · intro hr
      rcases hcases with ⟨-, -, rfl, rfl⟩ | ⟨hle, hrnew, used, hgrown⟩ | ⟨-, hundone⟩
      · exact ⟨fun _ _ => rfl, fun _ _ => rfl⟩
      · -- Both sizes are 0, so that there is no page in between.
        have hempty : pgroundup oldsz = pgroundup newsz := by
          have hzero : oldsz = 0 ∧ newsz = 0 := by omega
          rw [hzero.1, hzero.2]
        constructor
        · intro v hv
          exact hgrown.others v hv (by omega)
        · intro page hpage
          apply hgrown.mem
          intro hused
          rw [hgrown.free] at hpage
          exact hpage (List.mem_append_left _ hused)
      · exact hundone
    · rcases hcases with hshrink | ⟨-, hrnew, -⟩ | ⟨hzero, -⟩
      · exact .inr (.inr hshrink)
      · exact .inl hrnew
      · exact .inr (.inl hzero)
  · intro hold
    constructor
    · obtain ⟨d', hrun, hpte⟩ := deallocuvm_exact hold hnew hm
      have hfree := release_free m (present d (pgroundup newsz) oldsz)
      have hmem : ∀ page, page ∉ present d (pgroundup newsz) oldsz →
          (m.release (present d (pgroundup newsz) oldsz)).mem page = m.mem page :=
        fun page hpage => release_mem m hpage
      generalize m.release (present d (pgroundup newsz) oldsz) = m' at hrun hfree hmem
      refine ⟨d', m', (run_vm ..).trans hrun, hpte, hfree, ?_, hmem⟩
      rw [hfree, List.nodup_append]
      refine ⟨List.nodup_reverse.mpr (present_nodup fun v w x y hv hw => ?_), hm.nodup, ?_⟩
      · exact hm.distinct v w x y (by omega) (by omega)
      · rintro page hpage other hother rfl
        obtain ⟨v, x, -, hv, -, hx, rfl⟩ := mem_present (List.mem_reverse.mp hpage)
        exact (hm.user v (by omega) x hx).2 hother
    · intro j
      apply deallocLoop_rounds hold j (pgroundup_mod newsz)
      simp only [pgsize]
      omega

theorem growth_and_shrinking_exact_first_page :
    ∃ d' m', (allocuvm (.empty 300) 0 5000).run (step smallKernel) ⟨[301, 302, 303], fun _ _ => 7⟩ =
        .ok ((d', 5000), m') ∧ Fits d' 5000 ∧ ∃ page ∈ [301, 302, 303],
        d'.pte 4999 = some ⟨page, true, true⟩ ∧ m'.mem page = fun _ => 0 := by
  have hm : Backed smallKernel (.empty 300) ⟨[301, 302, 303], fun _ _ => 7⟩ := by
    constructor
    · decide
    · simp only [Frame]
      decide
    · exact fun v _ x hx => nomatch hx
    · exact fun v w x y _ _ hx => nomatch hx
  have hfits : Fits (.empty 300) 0 := ⟨by decide, fun v _ => by simp [PageDir.pte, PageDir.empty]⟩
  obtain ⟨d', r, m', hrun, hgrown, hundone, -⟩ :=
    (growth_and_shrinking_exact smallKernel (.empty 300) ⟨[301, 302, 303], fun _ _ => 7⟩ hm 0 5000
      (by decide)).1 hfits
  have hr : r = 5000 := by
    have hsize : ((allocuvm (.empty 300) 0 5000).run (step smallKernel)
        ⟨[301, 302, 303], fun _ _ => 7⟩).toOption.map (fun x => x.1.2) = some 5000 := by
      decide +kernel
    rw [hrun] at hsize
    exact Option.some.inj hsize
  obtain ⟨hfits', used, hg⟩ := hgrown hr (by decide)
  obtain ⟨page, hused, hpte, hzero⟩ := hg.new 4999 (by decide) (by decide)
  refine ⟨d', m', hr ▸ hrun, hfits', page, ?_, hpte, hzero⟩
  have hfree : [301, 302, 303] = used ++ m'.free := hg.free
  rw [hfree]
  exact List.mem_append_left _ hused

end Frames

end Xv6Containers.Vm
