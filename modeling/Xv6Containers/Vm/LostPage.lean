import Xv6Containers.Vm.Conservation
import Xv6Containers.Vm.Supply

/-!
# The page that `copyuvm` loses

When `copyuvm` has a page for the data of the child but none for its page table, it
frees the new directory and forgets the data page. A process that owns nearly all
memory and forks runs into this.
-/

namespace Xv6Containers.Vm

open Lib.Program Prog Function

variable {n : Nat} {α : Type}

/-- `kalloc` hands out the first free page. -/
theorem kalloc_supply (k : KernelImage) (p : Fin n) (site : Site) (s : Memory n) (page : Nat)
    (rest : List Nat) (h : s.free = page :: rest) :
    ∃ t, execOp k p (.kalloc site) s = .ok (some page, t) ∧ t.free = rest ∧
      t = { s with free := t.free } :=
  ⟨{ s with free := rest }, by simp only [execOp, h], rfl, rfl⟩

/-! ## Freeing an empty directory -/

section

variable {k : KernelImage} {p : Fin n} {d : PageDir}

/-- A page that `kfree` accepts. -/
def KernelImage.InRange (k : KernelImage) (page : Nat) : Prop :=
  k.first ≤ page ∧ page < physTop / pgsize

theorem kfree_run {page : Nat} (hpage : k.InRange page) (f : Unit → VmProg n α) (s : Memory n) :
    (kfree page >>= f).run (execOp k p) s =
      (f ()).run (execOp k p) { s with free := page :: s.free } := by
  have hexec : execOp k p (.kfree page) s = .ok ((), { s with free := page :: s.free }) := by
    simp only [execOp]
    rw [if_neg (not_or.mpr ⟨Nat.not_lt.mpr hpage.1, Nat.not_le.mpr hpage.2⟩)]
  exact run_op_bind hexec f

variable {site : Site} {s : Memory n}

theorem kalloc_run {page : Nat} {rest : List Nat} (hs : s.free = page :: rest)
    (f : Option Nat → VmProg n α) :
    (kalloc site >>= f).run (execOp k p) s =
      (f (some page)).run (execOp k p) { s with free := rest } := by
  have hexec : execOp k p (.kalloc site) s = .ok (some page, { s with free := rest }) := by
    simp only [execOp, hs]
  exact run_op_bind hexec f

theorem kalloc_run_nil (hs : s.free = []) (f : Option Nat → VmProg n α) :
    (kalloc site >>= f).run (execOp k p) s = (f none).run (execOp k p) s := by
  have hexec : execOp k p (.kalloc site) s = .ok (none, s) := by simp only [execOp, hs]
  exact run_op_bind hexec f

theorem NoUserTables.deallocLoop (hd : NoUserTables d) (j a : Nat) :
    (deallocLoop kernbase j d a : VmProg n PageDir) = pure d := by
  induction j generalizing a with
  | zero => rfl
  | succ j ih =>
    unfold Vm.deallocLoop
    split
    · next ha =>
      rw [hd _ (pdx_lt_of_user ha)]
      exact ih _
    · rfl

theorem freeTables_run {j : Nat} (hj : j ≤ nentries)
    (hrange : ∀ page ∈ lastTables d j, k.InRange page) (s : Memory n) :
    ∃ l : List Nat, (freeTables d j : VmProg n Unit).run (execOp k p) s = .ok ((), { s with free := l }) ∧
      (l : Multiset Nat) = lastTables d j + ↑s.free := by
  induction j generalizing s with
  | zero =>
    refine ⟨s.free, rfl, ?_⟩
    rw [lastTables, Nat.sub_zero, Finset.Ico_self, Finset.sum_empty, zero_add]
  | succ j ih =>
    rw [lastTables_succ d hj] at hrange ⊢
    unfold freeTables
    cases ht : d.table (nentries - (j + 1)) with
    | none =>
      rw [ht, tablePage, zero_add] at hrange
      obtain ⟨l, hrun, hl⟩ := ih (by omega) hrange s
      exact ⟨l, hrun, by rw [hl, tablePage, zero_add]⟩
    | some t =>
      rw [ht, tablePage] at hrange
      obtain ⟨l, hrun, hl⟩ := ih (by omega)
        (fun page hpage => hrange page (Multiset.mem_add.mpr (.inr hpage)))
        { s with free := t.page :: s.free }
      refine ⟨l, ?_, ?_⟩
      · dsimp only
        rw [kfree_run (hrange t.page (Multiset.mem_add.mpr (.inl (Multiset.mem_singleton_self _))))]
        exact hrun
      · rw [hl, tablePage, ← Multiset.cons_coe, ← Multiset.singleton_add, add_left_comm, add_assoc]

theorem freevm_run (hd : NoUserTables d) (hrange : ∀ page ∈ d.pages, k.InRange page)
    (s : Memory n) :
    ∃ l : List Nat, (freevm d : VmProg n Unit).run (execOp k p) s = .ok ((), { s with free := l }) ∧
      (l : Multiset Nat) = d.pages + ↑s.free := by
  rw [pages_of_unmapped hd.unmapped] at hrange ⊢
  obtain ⟨l, hrun, hl⟩ := freeTables_run (p := p) (Nat.le_refl _)
    (fun page hpage => hrange page (Multiset.mem_add.mpr (.inl hpage))) s
  have hdealloc : (deallocuvm d kernbase 0 : VmProg n (PageDir × Nat)) = pure (d, 0) := by
    rw [deallocuvm, if_neg (Nat.not_le.mpr kernbase_pos), hd.deallocLoop]
    rfl
  refine ⟨d.page :: l, ?_, ?_⟩
  · rw [freevm, hdealloc]
    change (freeTables d nentries >>= fun _ => kfree d.page).run (execOp k p) s = _
    rw [run_bind, hrun]
    exact kfree_run (hrange d.page (Multiset.mem_add.mpr (.inr (Multiset.mem_singleton_self _))))
      pure { s with free := l }
  · rw [← Multiset.cons_coe, hl, ← Multiset.singleton_add, add_left_comm, add_assoc]

/-! ## Running out of memory in `copyuvm` -/

theorem mapPage_run_nil {a : Nat} (hd : d.table (pdx a) = none) (hs : s.free = []) (y : Pte) :
    (mapPage site d a y : VmProg n (PageDir × Bool)).run (execOp k p) s = .ok ((d, false), s) := by
  have hwalk : (walkpgdir site d a : VmProg n (PageDir × Bool)).run (execOp k p) s =
      .ok ((d, false), s) := by
    unfold walkpgdir
    rw [hd]
    exact kalloc_run_nil hs _
  rw [mapPage, run_bind, hwalk]
  rfl

/-- The last page goes to the data of the first page, and is not freed. -/
theorem copyLoop_run {pgdir : PageDir} {sz mem : Nat} {x : Pte} (hsz : 0 < sz)
    (hpte : pgdir.pte 0 = some x) (hd : NoUserTables d)
    (hrange : ∀ page ∈ d.pages, k.InRange page) (j : Nat) (hs : s.free = [mem]) :
    ∃ l : List Nat, (copyLoop pgdir sz (j + 1) d 0 : VmProg n (Option PageDir)).run (execOp k p) s =
      .ok (none, { s with free := l }) ∧ (l : Multiset Nat) = d.pages := by
  obtain ⟨t, ht, hx⟩ := Option.bind_eq_some_iff.mp hpte
  obtain ⟨l, hrun, hl⟩ := freevm_run (p := p) hd hrange { s with free := [] }
  refine ⟨l, ?_, by rw [hl, Multiset.coe_nil, add_zero]⟩
  unfold copyLoop
  rw [if_pos hsz, ht]
  dsimp only
  rw [hx]
  dsimp only
  rw [kalloc_run hs]
  dsimp only
  rw [mappages_page .copyTable d (Nat.zero_mod _) kernbase_pos, run_bind,
    mapPage_run_nil (hd _ (pdx_lt_of_user kernbase_pos)) rfl]
  change ((if false = true then _ else (freevm d >>= fun _ => pure none) :
    VmProg n (Option PageDir))).run (execOp k p) _ = _
  rw [if_neg Bool.false_ne_true, run_bind, hrun]
  rfl

/-- With pages for the kernel stack, the directory and one page of data, `fork` fails and
loses the page of data. -/
theorem fork_run (k : KernelImage) (f : Nat → Nat) :
    ∃ m ≤ nentries + 1, ∀ s : Memory 2, s.free = (List.range (m + 2)).map f → s.slot 1 = .unused →
      ∀ kstack pgdir sz x, s.slot 0 = .live kstack pgdir sz → 0 < sz → pgdir.pte 0 = some x →
      (∀ page ∈ s.free, k.InRange page) →
      ∃ l : List Nat, (fork k).run (execOp k 0) s = .ok (-1, { s with free := l }) ∧
        (s.free : Multiset Nat) = {f (m + 1)} + ↑l := by
  obtain ⟨m, hm, d, hvacant, htaken, hsetup⟩ := setupkvm_supplied
    (R := fun s t : Memory 2 => t = { s with free := t.free }) (fun _ => rfl)
    (fun s t u hst htu => by rw [htu, hst]) (kalloc_supply k 0) k (f ∘ Nat.succ)
  have hd : NoUserTables d := fun i hi => hvacant i (.inl hi)
  refine ⟨m, hm, fun s hfree hunused kstack pgdir sz x hlive hsz hpte hrange => ?_⟩
  have hlist : s.free = f 0 :: ((List.range m).map (f ∘ Nat.succ) ++ [f (m + 1)]) := by
    rw [hfree, List.range_succ_eq_map, List.map_cons, List.map_map, List.range_succ, List.map_append]
    rfl
  rw [hlist] at hrange ⊢
  have hdir : ∀ page ∈ d.pages, k.InRange page := by
    rw [htaken]
    exact fun page hpage =>
      hrange page (List.mem_cons_of_mem _ (List.mem_append_left _ (Multiset.mem_coe.mp hpage)))
  let t : Memory 2 := { s with free := [f (m + 1)], slot := update s.slot 1 .embryo }
  obtain ⟨l, hcopy, hl⟩ := copyLoop_run (k := k) (p := 0) (s := t) hsz hpte hd hdir (sz / pgsize) rfl
  have hslots : update (update s.slot 1 .embryo) 1 Slot.unused = s.slot := by
    rw [update_idem, ← hunused, update_eq_self]
  refine ⟨f 0 :: l, ?_, ?_⟩
  · have halloc : execOp k 0 .allocSlot s =
        .ok (some 1, { s with slot := update s.slot 1 .embryo }) := by
      have hfind : (List.finRange 2).find? (fun q => (s.slot q).isUnused) = some 1 := by
        rw [show List.finRange 2 = [0, 1] from rfl, List.find?_cons_of_neg, List.find?_cons_of_pos]
        · rw [hunused]
          rfl
        · rw [hlive]
          exact Bool.false_ne_true
      simp only [execOp, hfind]
    have hself (rest : List Nat) : execOp k 0 .self
        { s with free := rest, slot := update s.slot 1 .embryo } =
        .ok ((pgdir, sz), { s with free := rest, slot := update s.slot 1 .embryo }) := by
      simp only [execOp, update_of_ne (show (0 : Fin 2) ≠ 1 by decide), hlive]
    have hfreeSlot (rest : List Nat) : execOp k 0 (.freeSlot 1)
        { s with free := rest, slot := update s.slot 1 .embryo } =
        .ok ((), { s with free := rest }) := by
      simp only [execOp, hslots]
    have hcopyuvm : (copyuvm k pgdir sz : VmProg 2 (Option PageDir)).run (execOp k 0)
        { s with
          free := (List.range m).map (f ∘ Nat.succ) ++ [f (m + 1)]
          slot := update s.slot 1 .embryo } = .ok (none, { t with free := l }) := by
      obtain ⟨u, hrun, hfree', hu⟩ := hsetup { s with
          free := (List.range m).map (f ∘ Nat.succ) ++ [f (m + 1)]
          slot := update s.slot 1 .embryo } [f (m + 1)] rfl
      rw [hfree'] at hu
      rw [copyuvm, run_bind, hrun, hu]
      exact hcopy
    unfold fork
    refine (run_op_bind halloc _).trans ?_
    dsimp only
    refine (kalloc_run (s := { s with slot := update s.slot 1 .embryo }) hlist _).trans ?_
    refine (run_op_bind (hself _) _).trans ?_
    dsimp only
    rw [run_bind, hcopyuvm]
    refine (kfree_run (hrange (f 0) (List.mem_cons_self ..)) _ _).trans ?_
    exact run_op_bind (hfreeSlot _) _
  · rw [← Multiset.cons_coe, ← Multiset.coe_add, ← htaken, Multiset.coe_singleton,
      ← Multiset.cons_coe (f 0) l, hl, ← Multiset.singleton_add, ← Multiset.singleton_add,
      add_comm d.pages, add_left_comm]

end

/-! ## A process that owns nearly all memory -/

/-- A directory with 56 page tables that map `u` pages behind `m` others. -/
def filled (u m : Nat) : PageDir where
  page := 273
  table i :=
    if i < 56 then
      some ⟨274 + i, fun j =>
        if i * nentries + j < u then some ⟨330 + (m + (i * nentries + j)), true, true⟩ else none⟩
    else none

/-- A process of `u` pages, a slot for its child, and `m` free pages. -/
def crowded (u m : Nat) : Memory 2 where
  free := (List.range m).map (330 + ·)
  slot p := if p = 0 then .live 272 (filled u m) (u * pgsize) else .unused
  pipes := []

theorem sum_range_mul {M : Type} [AddCommMonoid M] (w : Nat → M) (a b : Nat) :
    ∑ i ∈ Finset.range a, ∑ j ∈ Finset.range b, w (i * b + j) = ∑ v ∈ Finset.range (a * b), w v := by
  induction a with
  | zero => rw [Nat.zero_mul, Finset.sum_range_zero, Finset.sum_range_zero]
  | succ a ih => rw [Finset.sum_range_succ, ih, Nat.succ_mul, Finset.sum_range_add]

theorem coe_map_range (f : Nat → Nat) (m : Nat) :
    (((List.range m).map f : List Nat) : Multiset Nat) = ∑ i ∈ Finset.range m, {f i} := by
  induction m with
  | zero => rfl
  | succ m ih =>
    rw [Finset.sum_range_succ, ← ih, List.range_succ, List.map_append, ← Multiset.coe_add]
    rfl

theorem filled_pages {u : Nat} (m : Nat) (hu : u ≤ 56 * nentries) :
    (filled u m).pages = {273} + (∑ i ∈ Finset.range 56, {274 + i} +
      ∑ v ∈ Finset.range u, {330 + (m + v)}) := by
  obtain ⟨z, hz⟩ := Nat.exists_eq_add_of_le hu
  have htable : ∀ i ∈ Finset.range 56, tablePages i ((filled u m).table i) = {274 + i} +
      ∑ j ∈ Finset.range nentries, if i * nentries + j < u then {330 + (m + (i * nentries + j))} else 0 := by
    intro i hi
    have hlt := Finset.mem_range.mp hi
    have huser : i < nentries / 2 := by
      simp only [nentries]
      omega
    have hptes : ∑ j ∈ Finset.range nentries, ptePages
        (if i * nentries + j < u then some ⟨330 + (m + (i * nentries + j)), true, true⟩ else none) =
        ∑ j ∈ Finset.range nentries,
          if i * nentries + j < u then {330 + (m + (i * nentries + j))} else 0 := by
      refine Finset.sum_congr rfl fun j _ => ?_
      split <;> rfl
    simp only [filled, if_pos hlt, tablePages, if_pos huser]
    rw [hptes]
  have hnone : ∀ i ∈ Finset.range 968, tablePages (56 + i) ((filled u m).table (56 + i)) = 0 := by
    intro i _
    simp only [filled]
    rw [if_neg (by omega)]
    rfl
  have hrest : ∑ v ∈ Finset.range z, (if u + v < u then ({330 + (m + (u + v))} : Multiset Nat) else 0) = 0 :=
    Finset.sum_eq_zero fun v _ => if_neg (by omega)
  rw [PageDir.pages, show nentries = 56 + 968 from rfl, Finset.sum_range_add, Finset.sum_congr rfl htable,
    Finset.sum_eq_zero hnone, add_zero, Finset.sum_add_distrib,
    sum_range_mul (fun v => if v < u then ({330 + (m + v)} : Multiset Nat) else 0), hz,
    Finset.sum_range_add, hrest, add_zero,
    Finset.sum_congr rfl fun v hv => if_pos (Finset.mem_range.mp hv)]
  rfl

theorem filled_fits {u : Nat} (m : Nat) (hu : u ≤ 56 * nentries) : Fits (filled u m) (u * pgsize) := by
  have hpte (v : Nat) : ((filled u m).pte v).isSome = true ↔ pdx v < 56 ∧ pdx v * nentries + ptx v < u := by
    unfold PageDir.pte filled
    by_cases hp : pdx v < 56 <;> by_cases hq : pdx v * nentries + ptx v < u <;> simp [hp, hq]
  refine ⟨?_, fun v hv => (hpte v).trans ?_⟩ <;>
    simp only [pdx, ptx, pgsize, nentries, kernbase] at * <;> omega

theorem smallKernel_pages : smallKernel.pages = ∑ i ∈ Finset.range 57072, {272 + i} := by
  rw [KernelImage.pages, ← Finset.sum_multiset_singleton, Finset.sum_Ico_eq_sum_range]
  rfl

theorem crowded_partitioned {u m : Nat} (hm : u + m = 57014) :
    Partitioned smallKernel (crowded u m) := by
  have hu : u ≤ 56 * nentries := by
    simp only [nentries]
    omega
  refine ⟨?_, ?_⟩
  · have howned : (crowded u m).owned = {272} + (filled u m).pages := by
      rw [Memory.owned, Fin.sum_univ_two]
      exact add_zero _
    have hfree : ((crowded u m).free : Multiset Nat) = ∑ i ∈ Finset.range m, {330 + i} :=
      coe_map_range ..
    have hpipes : (crowded u m).pipePages = 0 := rfl
    have htables : ∑ i ∈ Finset.range 56, ({272 + (2 + i)} : Multiset Nat) =
        ∑ i ∈ Finset.range 56, {274 + i} :=
      Finset.sum_congr rfl fun i _ => by rw [show 272 + (2 + i) = 274 + i by omega]
    have hshift (z : Nat) : ({272 + (2 + (56 + z))} : Multiset Nat) = {330 + z} := by
      rw [show 272 + (2 + (56 + z)) = 330 + z by omega]
    have hall : smallKernel.pages = {272} + {273} + (∑ i ∈ Finset.range 56, {274 + i} +
        (∑ i ∈ Finset.range m, {330 + i} + ∑ v ∈ Finset.range u, {330 + (m + v)})) := by
      rw [smallKernel_pages, show 57072 = 2 + (56 + (m + u)) by omega, Finset.sum_range_add,
        Finset.sum_range_add, Finset.sum_range_add, htables, Finset.sum_range_succ,
        Finset.sum_range_one]
      simp only [hshift]
    rw [hfree, howned, hpipes, filled_pages m hu, add_zero, hall]
    generalize ∑ i ∈ Finset.range m, ({330 + i} : Multiset Nat) = a
    generalize ∑ i ∈ Finset.range 56, ({274 + i} : Multiset Nat) = b
    rw [add_left_comm b a, add_left_comm _ a, add_assoc]
  · intro p kstack d sz hp
    simp only [crowded] at hp
    split at hp
    · cases hp
      exact (filled_fits m hu).1
    · cases hp

end Xv6Containers.Vm
