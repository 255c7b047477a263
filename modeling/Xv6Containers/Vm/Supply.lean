import Xv6Containers.Vm.Ownership

/-!
# Programs that find their pages

With enough free pages `setupkvm` builds its directory. A program that frees nothing
takes a number of pages from the front of the free list, whatever machine it runs
on, and the pages it ends up with tell how many.
-/

namespace Xv6Containers.Vm

open Lib.Program Prog

variable {n : Nat} {α : Type}

/-- `kalloc` does not fail and nothing is freed. -/
def plenty : Discipline (Op.Res (n := n)) Unit where
  pre
    | .kalloc site, _ => site = .other
    | .panic x, _ => x ≠ .kfree
    | _, _ => False
  may
    | .kalloc _, _, r => r ≠ none
    | _, _, _ => True
  next _ _ g := g

theorem walkpgdir_plenty (d : PageDir) (a : Nat) :
    (walkpgdir .other d a : VmProg n (PageDir × Bool)).Safe plenty (fun x _ =>
      x.2 = true ∧ ∀ i, i ≠ pdx a → x.1.table i = d.table i) () := by
  unfold walkpgdir
  split
  · exact ⟨rfl, fun _ _ => rfl⟩
  · refine ⟨rfl, fun r hr => ?_⟩
    cases r with
    | none => exact absurd rfl hr
    | some page => exact ⟨rfl, fun i hi => Function.update_of_ne hi ..⟩

variable {d : PageDir}

theorem table_setPte_of_ne {va i : Nat} (hi : i ≠ pdx va) (x : Option Pte) :
    (d.setPte va x).table i = d.table i := by
  unfold PageDir.setPte
  split
  · rfl
  · exact Function.update_of_ne hi ..

theorem mapPage_plenty (d : PageDir) (a : Nat) (y : Pte) :
    (mapPage .other d a y : VmProg n (PageDir × Bool)).Safe plenty (fun x _ =>
      x.2 = true ∧ ∀ i, i ≠ pdx a → x.1.table i = d.table i) () := by
  unfold mapPage
  rw [safe_bind]
  refine (walkpgdir_plenty d a).mono fun x _ hx => ?_
  obtain ⟨d', found⟩ := x
  obtain ⟨hfound, htable⟩ := hx
  dsimp only at hfound htable ⊢
  rw [if_pos hfound]
  split
  · exact ⟨nofun, fun r => r.elim⟩
  · exact ⟨rfl, fun i hi => (table_setPte_of_ne hi _).trans (htable i hi)⟩

/-- Mapping a range adds no page table elsewhere. -/
theorem mapLoop_plenty {k : Nat} (d : PageDir) {a : Nat} (htop : a + (k + 1) * pgsize ≤ 2 ^ 32)
    (y : Pte) :
    (mapLoop .other k d a y : VmProg n (PageDir × Bool)).Safe plenty (fun x _ =>
      x.2 = true ∧ ∀ i, (∀ b, a ≤ b → b < a + (k + 1) * pgsize → i ≠ pdx b) →
        x.1.table i = d.table i) () := by
  have hpage : 0 < pgsize := by decide
  induction k generalizing d a y with
  | zero =>
    refine (mapPage_plenty d a y).mono fun x _ hx => ⟨hx.1, fun i hi => hx.2 i (hi a ?_ ?_)⟩
    · exact Nat.le_refl a
    · omega
  | succ k ih =>
    have hsucc : (k + 1 + 1) * pgsize = (k + 1) * pgsize + pgsize := Nat.succ_mul ..
    have hpos : 0 < (k + 1) * pgsize := Nat.mul_pos (Nat.succ_pos k) hpage
    have hstep : uint (a + pgsize) = a + pgsize := by
      refine uint_eq (Int.natCast_add ..).symm ?_
      omega
    unfold mapLoop
    rw [safe_bind]
    refine (mapPage_plenty d a y).mono fun x _ hx => ?_
    obtain ⟨d', ok⟩ := x
    obtain ⟨hok, htable⟩ := hx
    dsimp only at hok htable ⊢
    rw [if_pos hok, hstep]
    refine (ih d' (by omega) _).mono fun x _ hx => ⟨hx.1, fun i hi => ?_⟩
    rw [hx.2 i fun b hb hb' => hi b (by omega) (by omega)]
    exact htable i (hi a (Nat.le_refl a) (by omega))

/-- A directory entry that no kernel mapping uses. -/
def Vacant (i : Nat) : Prop :=
  i < pdx kernbase ∨ pdx (kernbase + physTop) ≤ i ∧ i < pdx devspace

theorem setupLoop_plenty {lo : Nat} {ms : List Kmap} (hms : Ascending lo ms)
    (hvacant : ∀ m ∈ ms, ∀ b, m.virt ≤ b → b < m.virt + uint (m.physEnd - m.physStart) →
      ¬ Vacant (pdx b)) (hd : ∀ i, Vacant i → d.table i = none) :
    (setupLoop ms d : VmProg n (Option PageDir)).Safe plenty
      (fun r _ => ∃ d', r = some d' ∧ ∀ i, Vacant i → d'.table i = none) () := by
  induction ms generalizing lo d with
  | nil => exact ⟨d, rfl, hd⟩
  | cons m ms ih =>
    obtain ⟨hle, hvirt, hsize, hpos, htop, hrest⟩ := hms
    have hhead := hvacant m (List.mem_cons_self ..)
    generalize hsz : uint (m.physEnd - m.physStart) = size at hsize hpos htop hrest hhead
    have hcount : (size / pgsize - 1 + 1) * pgsize = size := by
      simp only [pgsize] at hsize ⊢
      omega
    unfold setupLoop
    rw [safe_bind, hsz, mappages_range _ _ hvirt hsize hpos htop]
    refine (mapLoop_plenty d (by rw [hcount]; exact htop) _).mono fun x _ hx => ?_
    obtain ⟨d', ok⟩ := x
    obtain ⟨hok, htable⟩ := hx
    dsimp only at hok htable ⊢
    rw [if_pos hok]
    refine ih hrest (fun m' hm' => hvacant m' (List.mem_cons_of_mem _ hm')) fun i hi => ?_
    rw [hcount] at htable
    rw [htable i fun b hb hb' heq => hhead b hb hb' (heq ▸ hi)]
    exact hd i hi

/-- The kernel mappings lie below the end of physical memory or at the devices. -/
theorem kmap_vacant (k : KernelImage) (m : Kmap) (hm : m ∈ k.kmap) (b : Nat) (hlo : m.virt ≤ b)
    (hhi : b < m.virt + uint (m.physEnd - m.physStart)) : ¬ Vacant (pdx b) := by
  have hlink := k.kernlink_lt
  have htop := k.lt_physTop
  have hregion : kernbase ≤ b ∧ b < kernbase + physTop ∨ devspace ≤ b ∧ b < 2 ^ 32 := by
    simp only [KernelImage.kmap, List.mem_cons, List.not_mem_nil, or_false] at hm
    rcases hm with rfl | rfl | rfl | rfl <;>
      simp only [uint, kernbase, kernlink, extmem, physTop, devspace] at * <;> omega
  simp only [Vacant, pdx, pgsize, nentries, kernbase, physTop, devspace] at *
  omega

theorem setupkvm_plenty (k : KernelImage) :
    (setupkvm k : VmProg n (Option PageDir)).Safe plenty
      (fun r _ => ∃ d, r = some d ∧ ∀ i, Vacant i → d.table i = none) () := by
  refine ⟨rfl, fun r hr => ?_⟩
  cases r with
  | none => exact absurd rfl hr
  | some page => exact setupLoop_plenty (kmap_ascending k) (kmap_vacant k) fun _ _ => rfl

/-! ## How many pages it takes -/

/-- The user part of a directory has no page tables. -/
def NoUserTables (d : PageDir) : Prop := ∀ i < nentries / 2, d.table i = none

theorem pdx_lt_of_user {a : Nat} (ha : a < kernbase) : pdx a < nentries / 2 := by
  simp only [pdx, pgsize, nentries, kernbase] at *
  omega

theorem NoUserTables.unmapped (hd : NoUserTables d) (v : Nat) (hv : v < kernbase) :
    d.pte v = none := by
  rw [PageDir.pte, hd _ (pdx_lt_of_user hv)]
  rfl

theorem card_lastTables (d : PageDir) {j : Nat} (hj : j ≤ nentries) :
    (lastTables d j).card ≤ j := by
  induction j with
  | zero => rw [lastTables, Nat.sub_zero, Finset.Ico_self, Finset.sum_empty, Multiset.card_zero]
  | succ j ih =>
    have htable : (tablePage (d.table (nentries - (j + 1)))).card ≤ 1 := by
      cases d.table (nentries - (j + 1)) with
      | none => exact Nat.zero_le 1
      | some t => exact Nat.le_refl 1
    have hrest := ih (by omega)
    rw [lastTables_succ d hj, Multiset.card_add]
    omega

/-- The directory of a new process takes a page for each table at most. -/
theorem NoUserTables.card_pages (hd : NoUserTables d) : d.pages.card ≤ nentries + 1 := by
  rw [pages_of_unmapped hd.unmapped, Multiset.card_add, Multiset.card_singleton]
  exact Nat.add_le_add_right (card_lastTables d (Nat.le_refl _)) 1

/-! ## Machines with a free list -/

section Supply

variable {σ ε : Type} {exec : (o : Op n) → σ → Except ε (o.Res × σ)} {free : σ → List Nat}
  {R : σ → σ → Prop}

/-- A program that only needs pages runs on a free list with exactly the pages it needs. -/
theorem run_of_supply (hrefl : ∀ s, R s s) (htrans : ∀ s t u, R s t → R t u → R s u)
    (hkalloc : ∀ site s page rest, free s = page :: rest →
      ∃ t, exec (.kalloc site) s = .ok (some page, t) ∧ free t = rest ∧ R s t)
    {x : VmProg n α} {Q : α → Held n × Unit × Unit → Prop} {g : Held n × Unit × Unit}
    (hx : x.Safe ((owning fun _ => False).prod (fitting.prod plenty)) Q g) (f : Nat → Nat) :
    ∃ m r g', Q r g' ∧ g'.1.pages = ((List.range m).map f : List Nat) + g.1.pages ∧
      ∀ s rest, free s = (List.range m).map f ++ rest →
        ∃ t, x.run exec s = .ok (r, t) ∧ free t = rest ∧ R s t := by
  induction x generalizing g f with
  | ret a => exact ⟨0, a, g, hx, (zero_add _).symm, fun s rest hs => ⟨s, rfl, hs, hrefl s⟩⟩
  | call o next ih =>
    obtain ⟨⟨-, hfit, hplenty⟩, hnext⟩ := hx
    cases o with
    | kalloc site =>
      obtain ⟨m, r, g', hQ, hpages, hrun⟩ :=
        ih (some (f 0)) (hnext (some (f 0)) ⟨nofun, trivial, nofun⟩) (f ∘ Nat.succ)
      have hrange : (List.range (m + 1)).map f = f 0 :: (List.range m).map (f ∘ Nat.succ) := by
        rw [List.range_succ_eq_map, List.map_cons, List.map_map]
      refine ⟨m + 1, r, g', hQ, ?_, fun s rest hs => ?_⟩
      · rw [hpages, hrange, ← Multiset.cons_coe, ← Multiset.singleton_add]
        change _ + ({f 0} + (g.1.pages - 0)) = _
        rw [tsub_zero, add_left_comm, add_assoc]
      · rw [hrange] at hs
        obtain ⟨t, hexec, hfree, hst⟩ := hkalloc site s _ _ hs
        obtain ⟨u, hrest, hfree', htu⟩ := hrun t rest hfree
        refine ⟨u, ?_, hfree', htrans s t u hst htu⟩
        rw [Prog.run, hexec]
        exact hrest
    | panic y => exact absurd hfit hplenty
    | _ => exact hplenty.elim

/-- `setupkvm` takes the pages it needs from the front of the free list. -/
theorem setupkvm_supplied (hrefl : ∀ s, R s s) (htrans : ∀ s t u, R s t → R t u → R s u)
    (hkalloc : ∀ site s page rest, free s = page :: rest →
      ∃ t, exec (.kalloc site) s = .ok (some page, t) ∧ free t = rest ∧ R s t)
    (k : KernelImage) (f : Nat → Nat) :
    ∃ m ≤ nentries + 1, ∃ d : PageDir, (∀ i, Vacant i → d.table i = none) ∧
      d.pages = ((List.range m).map f : List Nat) ∧
      ∀ s rest, free s = (List.range m).map f ++ rest →
        ∃ t, (setupkvm k).run exec s = .ok (some d, t) ∧ free t = rest ∧ R s t := by
  obtain ⟨m, r, g, ⟨⟨hpages, -⟩, -, d, rfl, hvacant⟩, htaken, hrun⟩ := run_of_supply hrefl htrans
    hkalloc ((setupkvm_owns (n := n) (E := fun _ => False) (F := 0) (q := none) k).prod
      ((setupkvm_fits k).prod (setupkvm_plenty k))) f
  rw [hpages, dirPages, add_zero, add_zero] at htaken
  dsimp only at htaken
  have hcard := NoUserTables.card_pages fun i hi => hvacant i (.inl hi)
  rw [htaken, Multiset.coe_card, List.length_map, List.length_range] at hcard
  exact ⟨m, hcard, d, hvacant, htaken, hrun⟩

/-- A page is mapped with at most one page for its page table. -/
theorem mapPage_supplied
    (hkalloc : ∀ site s page rest, free s = page :: rest →
      ∃ t, exec (.kalloc site) s = .ok (some page, t) ∧ free t = rest ∧ R s t)
    (site : Site) {d : PageDir} {a : Nat} (ha : a < 2 ^ 32) (hpte : d.pte a = none) (y : Pte) {s : σ}
    (hs : 0 < (free s).length) :
    ∃ d' t, (mapPage site d a y).run exec s = .ok ((d', true), t) ∧
      (free s).length ≤ (free t).length + 1 ∧
      (∀ v < 2 ^ 32, ¬ SamePage v a → d'.pte v = d.pte v) ∧
      ∀ i, i ≠ pdx a → d'.table i = d.table i := by
  have hmap {d' : PageDir} (hnone : d'.pte a = none) (s : σ) :
      (if (d'.pte a).isSome then panic .remap
        else return (d'.setPte a (some y), true) : VmProg n (PageDir × Bool)).run exec s =
      .ok ((d'.setPte a (some y), true), s) := by
    rw [hnone]
    rfl
  have hother {d' : PageDir} (htable : (d'.table (pdx a)).isSome) (v : Nat) (hv : v < 2 ^ 32)
      (hpage : ¬ SamePage v a) : (d'.setPte a (some y)).pte v = d'.pte v := by
    rw [pte_setPte htable hv ha, if_neg hpage]
  cases htable : d.table (pdx a) with
  | some u =>
    have hsome : (d.table (pdx a)).isSome := by simp [htable]
    refine ⟨d.setPte a (some y), s, ?_, Nat.le_succ _, hother hsome,
      fun i hi => table_setPte_of_ne hi _⟩
    rw [mapPage, walkpgdir, htable]
    exact hmap hpte s
  | none =>
    obtain ⟨page, rest, hfree⟩ := List.exists_cons_of_length_pos hs
    obtain ⟨t, hexec, hrest, -⟩ := hkalloc site s page rest hfree
    have hnew : ((d.addTable a page).table (pdx a)).isSome := by
      simp only [PageDir.addTable, Function.update_self, Option.isSome_some]
    have hunmapped (v : Nat) : (d.addTable a page).pte v = d.pte v := pte_addTable htable page v
    refine ⟨(d.addTable a page).setPte a (some y), t, ?_, ?_, ?_, ?_⟩
    · have hwalk : (walkpgdir site d a : VmProg n (PageDir × Bool)).run exec s =
          .ok ((d.addTable a page, true), t) := by
        unfold walkpgdir
        rw [htable]
        exact run_op_bind hexec _
      rw [mapPage, run_bind_of_ok hwalk]
      exact hmap ((hunmapped a).trans hpte) t
    · rw [hfree, hrest, List.length_cons]
    · intro v hv hpage
      rw [hother hnew v hv hpage, hunmapped]
    · intro i hi
      rw [table_setPte_of_ne hi]
      exact Function.update_of_ne hi ..

/-- `allocuvm` needs at most two pages for each page of user memory. -/
theorem allocLoop_supplied
    (hkalloc : ∀ site s page rest, free s = page :: rest →
      ∃ t, exec (.kalloc site) s = .ok (some page, t) ∧ free t = rest ∧ R s t)
    {oldsz newsz : Nat} (hnew : newsz < kernbase) {rounds : Nat} {d : PageDir} {a : Nat}
    (ha : a % pgsize = 0) (hd : ∀ v, a ≤ v → v < kernbase → d.pte v = none) {s : σ}
    (hs : 2 * rounds ≤ (free s).length) :
    ∃ d' t, (allocLoop oldsz newsz rounds d a).run exec s = .ok ((d', newsz), t) ∧
      (free s).length ≤ (free t).length + 2 * rounds ∧
      ∀ i, nentries / 2 ≤ i → d'.table i = d.table i := by
  induction rounds generalizing d a s with
  | zero => exact ⟨d, s, rfl, Nat.le_refl _, fun _ _ => rfl⟩
  | succ rounds ih =>
    unfold allocLoop
    split
    · next hlt =>
      have ha32 : a < 2 ^ 32 := by
        simp only [kernbase] at hnew
        omega
      obtain ⟨mem, rest, hfree⟩ := List.exists_cons_of_length_pos (by omega : 0 < (free s).length)
      obtain ⟨t, hexec, hrest, -⟩ := hkalloc .other s mem rest hfree
      rw [hfree, List.length_cons] at hs ⊢
      rw [← hrest] at hs ⊢
      obtain ⟨d₁, t₁, hmap, hlen, hpte, htable⟩ := mapPage_supplied hkalloc .other ha32
        (hd a (Nat.le_refl a) (by omega)) ⟨mem, true, true⟩ (by omega : 0 < (free t).length)
      have hstep : uint (a + pgsize) = a + pgsize := by
        refine uint_eq (Int.natCast_add ..).symm ?_
        simp only [pgsize, kernbase] at *
        omega
      have hnext (v : Nat) (hv : a + pgsize ≤ v) (hvk : v < kernbase) : d₁.pte v = none := by
        rw [hpte v (lt_of_user hvk) ?_]
        · exact hd v (by omega) hvk
        · simp only [SamePage, pgsize] at *
          omega
      obtain ⟨d₂, t₂, hrun, hlen₂, htable₂⟩ := ih (by simp only [pgsize] at *; omega) hnext
        (by omega : 2 * rounds ≤ (free t₁).length)
      refine ⟨d₂, t₂, ?_, by omega, fun i hi => ?_⟩
      · refine (run_op_bind hexec _).trans ?_
        dsimp only
        rw [mappages_page .other d ha (by omega), run_bind_of_ok hmap]
        change (if true = true then allocLoop oldsz newsz rounds d₁ (uint (a + pgsize)) else _).run
          exec t₁ = _
        rw [if_pos rfl, hstep]
        exact hrun
      · rw [htable₂ i hi]
        apply htable
        have huser := pdx_lt_of_user (show a < kernbase by omega)
        omega
    · exact ⟨d, s, rfl, by omega, fun _ _ => rfl⟩

end Supply

end Xv6Containers.Vm
