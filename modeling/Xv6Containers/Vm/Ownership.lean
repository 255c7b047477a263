import Xv6Containers.Lib.Counting
import Xv6Containers.Vm.Sizes

/-!
# The pages that a call holds

A call holds a page from the moment it gets it until it frees it or gives it to a
process or a pipe; it ends with nothing, unless `copyuvm` loses a page.
-/

namespace Xv6Containers.Vm

open Lib.Program Prog Lib.Runs Lib.Counting

variable {n : Nat}

/-! ## The pages of a directory -/

def ptePages : Option Pte → Multiset Nat
  | none => 0
  | some x => {x.page}

/-- The pages of a directory entry; only the entries below `KERNBASE` own what they map. -/
def tablePages (i : Nat) : Option Table → Multiset Nat
  | none => 0
  | some t =>
    {t.page} + if i < nentries / 2 then ∑ j ∈ Finset.range nentries, ptePages (t.pte j) else 0

/-- The directory itself, its page-table pages, and its user pages. -/
def PageDir.pages (d : PageDir) : Multiset Nat :=
  {d.page} + ∑ i ∈ Finset.range nentries, tablePages i (d.table i)

/-- What an entry for an address adds to the pages of a directory. -/
def entryPages (va : Nat) (x : Option Pte) : Multiset Nat :=
  if pdx va < nentries / 2 then ptePages x else 0

theorem pdx_lt (va : Nat) : pdx va < nentries := Nat.mod_lt _ (by decide)

theorem ptx_lt (va : Nat) : ptx va < nentries := Nat.mod_lt _ (by decide)

/-- A new page-table page owns only itself. -/
theorem tablePages_empty (i page : Nat) : tablePages i (some ⟨page, fun _ => none⟩) = {page} := by
  unfold tablePages
  generalize nentries = N
  dsimp only
  have hsum : ∑ _j ∈ Finset.range N, ptePages none = 0 := Finset.sum_eq_zero fun _ _ => rfl
  rw [hsum, ite_self, add_zero]

theorem pages_empty (page : Nat) : (PageDir.empty page).pages = {page} := by
  have hsum : ∑ i ∈ Finset.range nentries, tablePages i ((PageDir.empty page).table i) = 0 :=
    Finset.sum_eq_zero fun _ _ => rfl
  rw [PageDir.pages, hsum, add_zero]
  rfl

theorem pages_addTable {d : PageDir} {va : Nat} (h : d.table (pdx va) = none) (page : Nat) :
    (d.addTable va page).pages = {page} + d.pages := by
  have hsum := sum_update_add (Finset.mem_range.mpr (pdx_lt va)) tablePages d.table
    (some ⟨page, fun _ => none⟩)
  rw [h, tablePages_empty, tablePages, add_zero] at hsum
  rw [PageDir.pages, PageDir.pages, PageDir.addTable, hsum, ← add_assoc, add_comm]

/-- Writing an entry exchanges the page it maps. -/
theorem pages_setPte {d : PageDir} {va : Nat} (h : (d.table (pdx va)).isSome) (x : Option Pte) :
    (d.setPte va x).pages + entryPages va (d.pte va) = d.pages + entryPages va x := by
  obtain ⟨t, ht⟩ := Option.isSome_iff_exists.mp h
  have hinner := sum_update_add (Finset.mem_range.mpr (ptx_lt va)) (fun _ => ptePages) t.pte x
  have houter := sum_update_add (Finset.mem_range.mpr (pdx_lt va)) tablePages d.table
    (some { t with pte := Function.update t.pte (ptx va) x })
  rw [ht] at houter
  have hpte : d.pte va = t.pte (ptx va) := by simp [PageDir.pte, ht]
  have hset : d.setPte va x = ⟨d.page, Function.update d.table (pdx va)
      (some ⟨t.page, Function.update t.pte (ptx va) x⟩)⟩ := by
    simp only [PageDir.setPte, ht]
  rw [hset, hpte]
  by_cases hlt : pdx va < nentries / 2
  · simp only [entryPages, tablePages, PageDir.pages, if_pos hlt] at houter ⊢
    refine Multiset.ext.mpr fun a => ?_
    have hinner := congrArg (Multiset.count a) hinner
    have houter := congrArg (Multiset.count a) houter
    simp only [Multiset.count_add] at hinner houter ⊢
    omega
  · simp only [entryPages, tablePages, PageDir.pages, if_neg hlt, add_zero] at houter ⊢
    rw [add_right_cancel houter]

-- From here on the sum over all tables is used through its lemmas only.
attribute [irreducible] PageDir.pages

/-! ## What a call holds -/

/-- The pages that a call holds, and the slot it has reserved. -/
structure Held (n : Nat) where
  pages : Multiset Nat
  slot : Option (Fin n)

/-- The pages that an operation takes from its caller. -/
def Op.given : Op n → Multiset Nat
  | .kfree page | .newPipe page => {page}
  | .giveBack d _ | .swap d _ => d.pages
  | .runnable _ kstack d _ => {kstack} + d.pages
  | _ => 0

/-- The pages that an operation hands to its caller. -/
def Op.taken : (o : Op n) → o.Res → Multiset Nat
  | .kalloc _, some page => {page}
  | .lend _, r => r.1.pages
  | .swap _ _, r => r.pages
  | .reap _, some r => {r.1} + r.2.pages
  | .closeEnd page _, true => {page}
  | _, _ => 0

/-- The slot that an operation needs to be reserved. -/
def Op.slotOk : Op n → Option (Fin n) → Prop
  | .allocSlot, q | .reap _, q => q = none
  | .freeSlot np, q | .runnable np _ _ _, q => q = some np
  | _, _ => True

def Op.nextSlot : (o : Op n) → o.Res → Option (Fin n) → Option (Fin n)
  | .allocSlot, r, _ => r
  | .reap q, some _, _ => some q
  | .freeSlot _, _, _ | .runnable _ _ _ _, _, _ => none
  | _, _, q => q

/-- The size that an operation gives to a process. -/
def Op.sizeOk : Op n → Prop
  | .giveBack _ sz | .swap _ sz | .runnable _ _ _ sz => sz < kernbase
  | _ => True

/-- A call gives away only what it holds; `fails` says for whom `kalloc` may find no page. -/
def owning (fails : Site → Prop) : Discipline (Op.Res (n := n)) (Held n) where
  pre o g := o.given ≤ g.pages ∧ o.slotOk g.slot ∧ o.sizeOk
  may
    | .kalloc site, _, r => r = none → fails site
    | .self, _, r => r.2 < kernbase
    | .lend _, _, r => r.2 < kernbase
    | _, _, _ => True
  next o r g := ⟨o.taken r + (g.pages - o.given), o.nextSlot r g.slot⟩

variable {α : Type} {E : Site → Prop} {Q : α → Held n → Prop} {F : Multiset Nat}
  {q : Option (Fin n)}

/-- The rule of one operation. -/
theorem op_owns {o : Op n} {f : o.Res → VmProg n α} (hslot : o.slotOk q) (hsize : o.sizeOk)
    (h : ∀ r, (owning E).may o ⟨o.given + F, q⟩ r →
      (f r).Safe (owning E) Q ⟨o.taken r + F, o.nextSlot r q⟩) :
    (Prog.op o >>= f).Safe (owning E) Q ⟨o.given + F, q⟩ := by
  rw [safe_bind]
  refine ⟨⟨Multiset.le_add_right .., hslot, hsize⟩, fun r hr => ?_⟩
  have hnext := h r hr
  rw [← add_tsub_cancel_left o.given F] at hnext
  exact hnext

theorem kalloc_owns {site : Site} {f : Option Nat → VmProg n α}
    (hnone : E site → (f none).Safe (owning E) Q ⟨F, q⟩)
    (hsome : ∀ page, (f (some page)).Safe (owning E) Q ⟨{page} + F, q⟩) :
    (kalloc site >>= f).Safe (owning E) Q ⟨F, q⟩ := by
  have hop := op_owns (o := (Op.kalloc site : Op n)) (f := f) (F := F) (q := q) (E := E)
    (Q := Q) trivial trivial fun r hr => ?_
  · rwa [show (Op.kalloc site : Op n).given + F = F from zero_add F] at hop
  · cases r with
    | none =>
      rw [show (Op.kalloc site : Op n).taken none + F = F from zero_add F]
      exact hnone (hr rfl)
    | some page => exact hsome page

theorem kfree_owns {page : Nat} {f : Unit → VmProg n α}
    (h : (f ()).Safe (owning E) Q ⟨F, q⟩) :
    (kfree page >>= f).Safe (owning E) Q ⟨{page} + F, q⟩ := by
  refine op_owns (o := (Op.kfree page : Op n)) trivial trivial fun _ _ => ?_
  change (f ()).Safe (owning E) Q ⟨0 + F, q⟩
  rwa [zero_add]

theorem panic_owns (p : Panic) (g : Held n) :
    (panic p : VmProg n α).Safe (owning E) Q g :=
  ⟨⟨Multiset.zero_le _, trivial, trivial⟩, fun r => r.elim⟩

/-! ## Mapping and freeing -/

theorem walkpgdir_owns (site : Site) (d : PageDir) (a : Nat) :
    (walkpgdir site d a : VmProg n (PageDir × Bool)).Safe (owning E) (fun x g =>
      g = ⟨x.1.pages + F, q⟩ ∧ if x.2 then (x.1.table (pdx a)).isSome = true else E site)
      ⟨d.pages + F, q⟩ := by
  unfold walkpgdir
  split
  · next t ht => exact ⟨rfl, by simp [ht]⟩
  · next ht =>
    refine kalloc_owns (fun hfails => ⟨rfl, by simpa using hfails⟩) fun page => ⟨?_, ?_⟩
    · dsimp only
      rw [pages_addTable ht, add_assoc]
    · simp [PageDir.addTable]

/-- The page of the entry moves into the directory, unless there is no page-table page. -/
theorem mapPage_owns (site : Site) (d : PageDir) (a : Nat) (y : Pte) :
    (mapPage site d a y : VmProg n (PageDir × Bool)).Safe (owning E) (fun x g =>
      if x.2 then g = ⟨x.1.pages + F, q⟩
      else g = ⟨x.1.pages + (entryPages a (some y) + F), q⟩ ∧ E site)
      ⟨d.pages + (entryPages a (some y) + F), q⟩ := by
  unfold mapPage
  rw [safe_bind]
  refine (walkpgdir_owns (F := entryPages a (some y) + F) site d a).mono fun x g hx => ?_
  obtain ⟨d', found⟩ := x
  obtain ⟨hg, hfound⟩ := hx
  dsimp only at hg hfound ⊢
  subst hg
  cases found with
  | false =>
    rw [if_neg Bool.false_ne_true] at hfound ⊢
    exact ⟨rfl, hfound⟩
  | true =>
    rw [if_pos rfl] at hfound ⊢
    split
    · exact panic_owns ..
    · next hpte =>
      have hnone : d'.pte a = none := by simpa using hpte
      have hset := pages_setPte hfound (some y)
      have hzero : entryPages a none = 0 := by
        unfold entryPages
        split <;> rfl
      rw [hnone, hzero, add_zero] at hset
      change _ = _
      rw [hset, add_assoc]

theorem deallocLoop_owns {oldsz : Nat} (hold : oldsz ≤ kernbase) (k : Nat) (d : PageDir) (a : Nat) :
    (deallocLoop oldsz k d a : VmProg n PageDir).Safe (owning E)
      (fun d' g => g = ⟨d'.pages + F, q⟩) ⟨d.pages + F, q⟩ := by
  induction k generalizing d a with
  | zero => rfl
  | succ k ih =>
    unfold deallocLoop
    split
    · next hlt =>
      split
      · exact ih ..
      · next t ht =>
        split
        · exact ih ..
        · next x hx =>
          split
          · exact panic_owns ..
          · have hset := pages_setPte (show (d.table (pdx a)).isSome by simp [ht]) none
            have huser : pdx a < nentries / 2 := by
              simp only [pdx, pgsize, nentries, kernbase] at *
              omega
            have hpte : d.pte a = some x := by simp [PageDir.pte, ht, hx]
            rw [hpte, entryPages, entryPages, if_pos huser, if_pos huser, ptePages, ptePages,
              add_zero, add_comm] at hset
            rw [← hset, add_assoc]
            exact kfree_owns (ih ..)
    · rfl

theorem deallocuvm_owns {oldsz : Nat} (hold : oldsz ≤ kernbase) (newsz : Nat) (d : PageDir) :
    (deallocuvm d oldsz newsz : VmProg n (PageDir × Nat)).Safe (owning E)
      (fun x g => g = ⟨x.1.pages + F, q⟩) ⟨d.pages + F, q⟩ := by
  unfold deallocuvm
  split
  · rfl
  · rw [safe_bind]
    exact (deallocLoop_owns hold ..).mono fun d' g hg => hg

def tablePage : Option Table → Multiset Nat
  | none => 0
  | some t => {t.page}

/-- The page-table pages of the last `k` entries. -/
def lastTables (d : PageDir) (k : Nat) : Multiset Nat :=
  ∑ i ∈ Finset.Ico (nentries - k) nentries, tablePage (d.table i)

theorem lastTables_succ (d : PageDir) {k : Nat} (hk : k < nentries) :
    lastTables d (k + 1) = tablePage (d.table (nentries - (k + 1))) + lastTables d k := by
  unfold lastTables
  rw [Finset.sum_eq_sum_Ico_succ_bot (by omega), show nentries - (k + 1) + 1 = nentries - k by omega]

theorem freeTables_owns (d : PageDir) {k : Nat} (hk : k ≤ nentries) :
    (freeTables d k : VmProg n Unit).Safe (owning E) (fun _ g => g = ⟨F, q⟩)
      ⟨lastTables d k + F, q⟩ := by
  induction k with
  | zero =>
    have hzero : lastTables d 0 = 0 := by rw [lastTables, Nat.sub_zero, Finset.Ico_self, Finset.sum_empty]
    rw [hzero, zero_add]
    rfl
  | succ k ih =>
    rw [lastTables_succ d hk]
    unfold freeTables
    split
    · next ht =>
      rw [ht, tablePage, zero_add]
      exact ih (by omega)
    · next t ht =>
      rw [ht, tablePage, add_assoc]
      exact kfree_owns (ih (by omega))

/-- Without user pages an entry owns its page-table page only. -/
theorem tablePages_of_unmapped {d : PageDir} (h : ∀ v < kernbase, d.pte v = none) {i : Nat}
    (hi : i < nentries) : tablePages i (d.table i) = tablePage (d.table i) := by
  cases ht : d.table i with
  | none => rfl
  | some t =>
    unfold tablePages tablePage
    dsimp only
    split
    · next huser =>
      rw [Finset.sum_eq_zero, add_zero]
      intro j hj
      have hj := Finset.mem_range.mp hj
      have hpdx : pdx (i * (pgsize * nentries) + j * pgsize) = i := by
        simp only [pdx, pgsize, nentries] at *
        omega
      have hptx : ptx (i * (pgsize * nentries) + j * pgsize) = j := by
        simp only [ptx, pgsize, nentries] at *
        omega
      have hnone := h (i * (pgsize * nentries) + j * pgsize) (by
        simp only [pgsize, nentries, kernbase] at *
        omega)
      rw [PageDir.pte, hpdx, hptx, ht] at hnone
      change t.pte j = none at hnone
      rw [hnone]
      rfl
    · exact add_zero _

theorem pages_of_unmapped {d : PageDir} (h : ∀ v < kernbase, d.pte v = none) :
    d.pages = lastTables d nentries + {d.page} := by
  have hsum : ∑ i ∈ Finset.range nentries, tablePages i (d.table i) =
      ∑ i ∈ Finset.range nentries, tablePage (d.table i) :=
    Finset.sum_congr rfl fun i hi => tablePages_of_unmapped h (Finset.mem_range.mp hi)
  rw [PageDir.pages, hsum, lastTables, Nat.sub_self, ← Finset.range_eq_Ico, add_comm]

theorem freevm_owns (d : PageDir) :
    (freevm d : VmProg n Unit).Safe (owning E) (fun _ g => g = ⟨F, q⟩) ⟨d.pages + F, q⟩ := by
  unfold freevm
  rw [safe_bind]
  refine ((deallocuvm_owns (Nat.le_refl _) 0 d).and_ends
    (deallocuvm_ends (Nat.le_refl _) d)).mono fun x g hx => ?_
  obtain ⟨d', r⟩ := x
  obtain ⟨hg, -, hpte⟩ := hx
  dsimp only at hg hpte ⊢
  have hunmapped : ∀ v < kernbase, d'.pte v = none := by
    intro v hv
    rw [hpte v (lt_of_user hv), if_pos]
    exact ⟨Nat.zero_le _, Nat.lt_of_le_of_lt (Nat.div_mul_le_self ..) hv⟩
  rw [hg, pages_of_unmapped hunmapped, add_assoc, safe_bind]
  refine (freeTables_owns d' (Nat.le_refl _)).mono fun _ g hg => ?_
  rw [hg]
  refine ⟨⟨Multiset.le_add_right .., trivial, trivial⟩, fun _ _ => ?_⟩
  change (⟨0 + ({d'.page} + F - {d'.page}), q⟩ : Held n) = _
  rw [zero_add, add_tsub_cancel_left]

/-- The pages of the directory that a call returns, if it returns one. -/
def dirPages : Option PageDir → Multiset Nat
  | none => 0
  | some d => d.pages

theorem mapLoop_owns (site : Site) {k : Nat} (d : PageDir) {a : Nat} (ha : kernbase ≤ a)
    (htop : a + (k + 1) * pgsize ≤ 2 ^ 32) (y : Pte) :
    (mapLoop site k d a y : VmProg n (PageDir × Bool)).Safe (owning E) (fun x g =>
      g = ⟨x.1.pages + F, q⟩ ∧ (x.2 = false → E site)) ⟨d.pages + F, q⟩ := by
  have hpage {a : Nat} (ha : kernbase ≤ a) (htop : a < 2 ^ 32) (d : PageDir) (y : Pte) :
      (mapPage site d a y : VmProg n (PageDir × Bool)).Safe (owning E) (fun x g =>
        g = ⟨x.1.pages + F, q⟩ ∧ (x.2 = false → E site)) ⟨d.pages + F, q⟩ := by
    have hkernel : ¬ pdx a < nentries / 2 := by
      simp only [pdx, pgsize, nentries, kernbase] at *
      omega
    have hmap := mapPage_owns (n := n) (E := E) (F := F) (q := q) site d a y
    rw [entryPages, if_neg hkernel, zero_add] at hmap
    refine hmap.mono fun x g hx => ?_
    obtain ⟨d', ok⟩ := x
    cases ok with
    | true => exact ⟨hx, fun h => absurd h (by simp)⟩
    | false =>
      dsimp only at hx ⊢
      rw [if_neg Bool.false_ne_true] at hx
      exact ⟨hx.1, fun _ => hx.2⟩
  induction k generalizing d a y with
  | zero =>
    refine hpage ha ?_ d y
    simp only [pgsize] at htop
    omega
  | succ k ih =>
    have hstep : uint (a + pgsize) = a + pgsize := by
      refine uint_eq (Int.natCast_add ..).symm ?_
      simp only [pgsize] at htop ⊢
      omega
    unfold mapLoop
    rw [safe_bind]
    refine (hpage ha (by simp only [pgsize] at htop; omega) d y).mono fun x g hx => ?_
    obtain ⟨d', ok⟩ := x
    obtain ⟨hg, hfails⟩ := hx
    dsimp only at hg hfails ⊢
    rw [hg]
    cases ok with
    | true =>
      rw [if_pos rfl, hstep]
      refine ih d' (by omega) ?_ _
      simp only [pgsize] at htop ⊢
      omega
    | false =>
      rw [if_neg Bool.false_ne_true]
      exact ⟨rfl, hfails⟩

theorem setupLoop_owns {lo : Nat} {ms : List Kmap} (hms : Ascending lo ms) (hlo : kernbase ≤ lo)
    (d : PageDir) :
    (setupLoop ms d : VmProg n (Option PageDir)).Safe (owning E) (fun r g =>
      g = ⟨dirPages r + F, q⟩ ∧ (r = none → E .other)) ⟨d.pages + F, q⟩ := by
  induction ms generalizing lo d with
  | nil => exact ⟨rfl, fun h => absurd h (by simp)⟩
  | cons m ms ih =>
    obtain ⟨hle, hvirt, hsize, hpos, htop, hrest⟩ := hms
    generalize hsz : uint (m.physEnd - m.physStart) = size at hsize hpos htop hrest
    have hcount : (size / pgsize - 1 + 1) * pgsize = size := by
      simp only [pgsize] at hsize ⊢
      omega
    unfold setupLoop
    rw [safe_bind, hsz, mappages_range _ _ hvirt hsize hpos htop]
    refine (mapLoop_owns (F := F) .other d (by omega) (by rw [hcount]; exact htop) _).mono
      fun x g hx => ?_
    obtain ⟨d', ok⟩ := x
    obtain ⟨hg, hfails⟩ := hx
    dsimp only at hg hfails ⊢
    rw [hg]
    cases ok with
    | true =>
      rw [if_pos rfl]
      exact ih hrest (by omega) d'
    | false =>
      rw [if_neg Bool.false_ne_true, safe_bind]
      refine (freevm_owns d').mono fun _ g hg => ⟨?_, fun _ => hfails rfl⟩
      rw [hg, dirPages, zero_add]

theorem setupkvm_owns (k : KernelImage) :
    (setupkvm k : VmProg n (Option PageDir)).Safe (owning E) (fun r g =>
      g = ⟨dirPages r + F, q⟩ ∧ (r = none → E .other)) ⟨F, q⟩ := by
  unfold setupkvm
  refine kalloc_owns (fun hfails => ⟨?_, fun _ => hfails⟩) fun page => ?_
  · rw [dirPages, zero_add]
  · dsimp only
    rw [← pages_empty page]
    exact setupLoop_owns (kmap_ascending k) (Nat.le_refl _) _

/-! ## User memory -/

theorem entryPages_user {a : Nat} (ha : a < kernbase) (y : Pte) :
    entryPages a (some y) = {y.page} := by
  have huser : pdx a < nentries / 2 := by
    simp only [pdx, pgsize, nentries, kernbase] at *
    omega
  rw [entryPages, if_pos huser, ptePages]

theorem kernbase_pos : 0 < kernbase := by decide

theorem allocLoop_owns {oldsz newsz : Nat} (hnew : newsz < kernbase) {k : Nat} (d : PageDir) {a : Nat}
    (ha : a % pgsize = 0) :
    (allocLoop oldsz newsz k d a : VmProg n (PageDir × Nat)).Safe (owning E) (fun x g =>
      g = ⟨x.1.pages + F, q⟩ ∧ x.2 < kernbase) ⟨d.pages + F, q⟩ := by
  induction k generalizing d a with
  | zero => exact ⟨rfl, hnew⟩
  | succ k ih =>
    unfold allocLoop
    split
    · next hlt =>
      have hstep : uint (a + pgsize) = a + pgsize := by
        refine uint_eq (Int.natCast_add ..).symm ?_
        simp only [pgsize, kernbase] at *
        omega
      refine kalloc_owns (fun _ => ?_) fun mem => ?_
      · dsimp only
        rw [safe_bind]
        refine (deallocuvm_owns (Nat.le_of_lt hnew) oldsz d).mono fun x g hx => ?_
        exact ⟨hx, kernbase_pos⟩
      · dsimp only
        have hmap := mapPage_owns (n := n) (E := E) (F := F) (q := q) .other d a
          ⟨mem, true, true⟩
        rw [entryPages_user (by omega)] at hmap
        dsimp only at hmap
        rw [safe_bind, mappages_page _ _ ha (by omega), add_left_comm]
        refine hmap.mono fun x g hx => ?_
        obtain ⟨d', ok⟩ := x
        dsimp only at hx ⊢
        cases ok with
        | true =>
          rw [if_pos rfl] at hx ⊢
          rw [hx, hstep]
          exact ih d' (by simp only [pgsize] at *; omega)
        | false =>
          rw [if_neg Bool.false_ne_true] at hx ⊢
          rw [hx.1, safe_bind]
          have hfree := deallocuvm_owns (n := n) (E := E) (q := q) (F := {mem} + F)
            (Nat.le_of_lt hnew) oldsz d'
          refine hfree.mono fun x g hx => ?_
          obtain ⟨d'', r⟩ := x
          dsimp only at hx ⊢
          rw [hx, add_left_comm]
          refine kfree_owns ?_
          exact ⟨rfl, kernbase_pos⟩
    · exact ⟨rfl, hnew⟩

theorem allocuvm_owns {oldsz newsz : Nat} (hold : newsz < oldsz → oldsz < kernbase) (d : PageDir) :
    (allocuvm d oldsz newsz : VmProg n (PageDir × Nat)).Safe (owning E) (fun x g =>
      g = ⟨x.1.pages + F, q⟩ ∧ x.2 < kernbase) ⟨d.pages + F, q⟩ := by
  unfold allocuvm
  split
  · exact ⟨rfl, kernbase_pos⟩
  split
  · next hlt => exact ⟨rfl, hold hlt⟩
  · exact allocLoop_owns (by omega) d (pgroundup_mod oldsz)

/-- `copyuvm` gives back everything it took, if its page tables find their pages. -/
theorem copyLoop_owns (hcopy : ¬ E .copyTable) {pgdir : PageDir} {sz : Nat} (hsz : sz < kernbase)
    {k : Nat} (d : PageDir) {i : Nat} (hi : i % pgsize = 0) :
    (copyLoop pgdir sz k d i : VmProg n (Option PageDir)).Safe (owning E) (fun r g =>
      g = ⟨dirPages r + F, q⟩) ⟨d.pages + F, q⟩ := by
  have hbad (d : PageDir) : (freevm d >>= fun _ => pure none : VmProg n (Option PageDir)).Safe
      (owning E) (fun r g => g = ⟨dirPages r + F, q⟩) ⟨d.pages + F, q⟩ := by
    rw [safe_bind]
    refine (freevm_owns d).mono fun _ g hg => ?_
    rw [safe_pure, hg, dirPages, zero_add]
  induction k generalizing d i with
  | zero => rfl
  | succ k ih =>
    unfold copyLoop
    split
    · next hlt =>
      have hstep : uint (i + pgsize) = i + pgsize := by
        refine uint_eq (Int.natCast_add ..).symm ?_
        simp only [pgsize, kernbase] at *
        omega
      split
      · exact panic_owns ..
      split
      · exact panic_owns ..
      next x _ =>
      refine kalloc_owns (fun _ => hbad d) fun mem => ?_
      dsimp only
      have hmap := mapPage_owns (n := n) (E := E) (F := F) (q := q) .copyTable d i
        { x with page := mem }
      rw [entryPages_user (by omega)] at hmap
      rw [safe_bind, mappages_page _ _ hi (by omega), add_left_comm]
      refine hmap.mono fun y g hy => ?_
      obtain ⟨d', ok⟩ := y
      dsimp only at hy ⊢
      cases ok with
      | true =>
        rw [if_pos rfl] at hy ⊢
        rw [hy, hstep]
        exact ih d' (by simp only [pgsize] at *; omega)
      | false =>
        rw [if_neg Bool.false_ne_true] at hy
        exact absurd hy.2 hcopy
    · rfl

theorem copyuvm_owns (hcopy : ¬ E .copyTable) (k : KernelImage) (pgdir : PageDir) {sz : Nat}
    (hsz : sz < kernbase) :
    (copyuvm k pgdir sz : VmProg n (Option PageDir)).Safe (owning E) (fun r g =>
      g = ⟨dirPages r + F, q⟩) ⟨F, q⟩ := by
  unfold copyuvm
  rw [safe_bind]
  refine (setupkvm_owns k).mono fun r g hr => ?_
  rw [hr.1]
  cases r with
  | none => rfl
  | some d => exact copyLoop_owns hcopy hsz d (Nat.zero_mod _)

theorem grow_owns (i : BitVec 32) (d : PageDir) {sz : Nat} (hsz : sz < kernbase) :
    (grow i d sz : VmProg n (Int × PageDir × Nat)).Safe (owning E) (fun x g =>
      g = ⟨x.2.1.pages + F, q⟩ ∧ x.2.2 < kernbase) ⟨d.pages + F, q⟩ := by
  have hend (g : Held n) (d : PageDir) (r : Nat) (hg : g = ⟨d.pages + F, q⟩) (hr : r < kernbase) :
      (pure (if r = 0 then (-1, d, sz) else (0, d, r)) : VmProg n (Int × PageDir × Nat)).Safe
        (owning E) (fun x g => g = ⟨x.2.1.pages + F, q⟩ ∧ x.2.2 < kernbase) g := by
    rw [safe_pure]
    split
    · exact ⟨hg, hsz⟩
    · exact ⟨hg, hr⟩
  unfold grow
  dsimp only
  split
  · rw [safe_bind]
    exact (allocuvm_owns (fun _ => hsz) d).mono fun x g hx => hend g x.1 x.2 hx.1 hx.2
  split
  · rw [safe_bind]
    refine ((deallocuvm_owns (Nat.le_of_lt hsz) _ d).and_ends
      (deallocuvm_ends (Nat.le_of_lt hsz) d)).mono fun x g hx => hend g x.1 x.2 hx.1 ?_
    rw [hx.2.1]
    omega
  · exact ⟨rfl, hsz⟩

/-! ## Calls -/

theorem lend_owns {i : BitVec 32} {f : PageDir × Nat → VmProg n α}
    (h : ∀ d sz, sz < kernbase → (f (d, sz)).Safe (owning E) Q ⟨d.pages + F, q⟩) :
    (lend i >>= f).Safe (owning E) Q ⟨F, q⟩ := by
  rw [safe_bind]
  refine ⟨⟨Multiset.zero_le _, trivial, trivial⟩, fun r hr => ?_⟩
  have hnext := h r.1 r.2 hr
  rw [← tsub_zero F] at hnext
  exact hnext

theorem giveBack_owns {d : PageDir} {sz : Nat} {f : Unit → VmProg n α} (hsz : sz < kernbase)
    (h : (f ()).Safe (owning E) Q ⟨F, q⟩) :
    (giveBack d sz >>= f).Safe (owning E) Q ⟨d.pages + F, q⟩ := by
  refine op_owns (o := (Op.giveBack d sz : Op n)) trivial hsz fun _ _ => ?_
  change (f ()).Safe (owning E) Q ⟨0 + F, q⟩
  rwa [zero_add]

theorem growproc_owns (i : BitVec 32) :
    (growproc i : VmProg n Int).Safe (owning E) (fun _ g => g = ⟨F, q⟩) ⟨F, q⟩ := by
  unfold growproc
  refine lend_owns fun d sz hsz => ?_
  dsimp only
  rw [safe_bind]
  refine (grow_owns i d hsz).mono fun x g hx => ?_
  obtain ⟨r, d', sz'⟩ := x
  obtain ⟨hg, hsz'⟩ := hx
  dsimp only at hg hsz' ⊢
  rw [hg]
  exact giveBack_owns hsz' rfl

theorem loadLoop_owns (d : PageDir) (ph : Segment) (k i : Nat) (g : Held n) :
    (loadLoop d ph k i : VmProg n Bool).Safe (owning E) (fun _ g' => g' = g) g := by
  induction k generalizing i with
  | zero => rfl
  | succ k ih =>
    unfold loadLoop
    split
    · split
      · exact panic_owns ..
      · split
        · exact ih _
        · rfl
    · rfl

theorem loadSegments_owns (phs : List (Option Segment)) (d : PageDir) {sz : Nat}
    (hsz : sz < kernbase) :
    (loadSegments phs d sz : VmProg n (PageDir × Option Nat)).Safe (owning E) (fun x g =>
      g = ⟨x.1.pages + F, q⟩ ∧ ∀ sz', x.2 = some sz' → sz' < kernbase) ⟨d.pages + F, q⟩ := by
  have hbad (d : PageDir) : (pure (d, none) : VmProg n (PageDir × Option Nat)).Safe (owning E)
      (fun x g => g = ⟨x.1.pages + F, q⟩ ∧ ∀ sz', x.2 = some sz' → sz' < kernbase)
      ⟨d.pages + F, q⟩ := by
    refine ⟨rfl, fun sz' h => ?_⟩
    cases h
  induction phs generalizing d sz with
  | nil =>
    refine ⟨rfl, fun sz' h => ?_⟩
    cases h
    exact hsz
  | cons ph phs ih =>
    cases ph with
    | none => exact hbad d
    | some ph =>
      unfold loadSegments
      dsimp only
      split
      · exact ih d hsz
      split
      · exact hbad d
      split
      · exact hbad d
      rw [safe_bind]
      refine (allocuvm_owns (fun _ => hsz) d).mono fun x g hx => ?_
      obtain ⟨d', r⟩ := x
      obtain ⟨hg, hr⟩ := hx
      dsimp only at hg hr ⊢
      rw [hg]
      split
      · exact hbad d'
      split
      · exact hbad d'
      rw [safe_bind]
      refine (loadLoop_owns d' ph _ 0 _).mono fun ok g hg => ?_
      rw [hg]
      split
      · exact ih d' hr
      · exact hbad d'

theorem execBad_owns (d : PageDir) :
    (execBad d : VmProg n Int).Safe (owning E) (fun _ g => g = ⟨F, q⟩) ⟨d.pages + F, q⟩ := by
  unfold execBad
  rw [safe_bind]
  exact (freevm_owns d).mono fun _ g hg => hg

theorem swap_owns {d : PageDir} {sz : Nat} {f : PageDir → VmProg n α} (hsz : sz < kernbase)
    (h : ∀ old, (f old).Safe (owning E) Q ⟨old.pages + F, q⟩) :
    (swap d sz >>= f).Safe (owning E) Q ⟨d.pages + F, q⟩ :=
  op_owns (o := (Op.swap d sz : Op n)) trivial hsz fun old _ => h old

/-- Clearing a flag moves no page. -/
theorem clearpteu_owns (d : PageDir) (va : Nat) :
    (clearpteu d va : VmProg n PageDir).Safe (owning E) (fun d' g => g = ⟨d'.pages + F, q⟩)
      ⟨d.pages + F, q⟩ := by
  unfold clearpteu
  split
  · exact panic_owns ..
  · next t ht =>
    have hset := pages_setPte (show (d.table (pdx va)).isSome by simp [ht])
      ((d.pte va).map fun x => { x with user := false })
    have hsame : entryPages va ((d.pte va).map fun x => { x with user := false }) =
        entryPages va (d.pte va) := by
      unfold entryPages
      cases d.pte va <;> rfl
    rw [hsame] at hset
    rw [safe_pure, add_right_cancel hset]

theorem exec_owns (k : KernelImage) (x : Program) :
    (exec k x : VmProg n Int).Safe (owning E) (fun _ g => g = ⟨F, q⟩) ⟨F, q⟩ := by
  unfold exec
  split
  · rfl
  rw [safe_bind]
  refine (setupkvm_owns k).mono fun r g hr => ?_
  rw [hr.1]
  cases r with
  | none =>
    rw [dirPages, zero_add]
    rfl
  | some d =>
    dsimp only
    rw [safe_bind]
    refine (loadSegments_owns x.segments d kernbase_pos).mono fun y g hy => ?_
    obtain ⟨d', sz⟩ := y
    obtain ⟨hg, hsz⟩ := hy
    dsimp only at hg hsz ⊢
    rw [hg]
    cases sz with
    | none => exact execBad_owns d'
    | some sz =>
      dsimp only
      have hsz := hsz sz rfl
      generalize htop : uint (pgroundup sz + 2 * pgsize) = newsz
      rw [stackTop_eq hsz] at htop
      rw [safe_bind]
      refine (allocuvm_owns (fun hlt => absurd hlt (by omega)) d').mono fun z g hz => ?_
      obtain ⟨d'', r⟩ := z
      obtain ⟨hg, hr⟩ := hz
      dsimp only at hg hr ⊢
      rw [hg]
      split
      · exact execBad_owns d''
      rw [safe_bind]
      refine (clearpteu_owns d'' _).mono fun d₃ g hg => ?_
      rw [hg]
      split
      · refine swap_owns hr fun old => ?_
        rw [safe_bind]
        exact (freevm_owns old).mono fun _ g hg => hg
      · exact execBad_owns d₃

theorem freeSlot_owns {np : Fin n} {f : Unit → VmProg n α}
    (h : (f ()).Safe (owning E) Q ⟨F, none⟩) :
    (freeSlot np >>= f).Safe (owning E) Q ⟨F, some np⟩ := by
  rw [safe_bind]
  refine ⟨⟨Multiset.zero_le _, rfl, trivial⟩, fun _ _ => ?_⟩
  change (f ()).Safe (owning E) Q ⟨0 + (F - 0), none⟩
  rwa [zero_add, tsub_zero]

theorem allocSlot_owns {f : Option (Fin n) → VmProg n α}
    (hnone : (f none).Safe (owning E) Q ⟨F, none⟩)
    (hsome : ∀ np, (f (some np)).Safe (owning E) Q ⟨F, some np⟩) :
    (allocSlot >>= f).Safe (owning E) Q ⟨F, none⟩ := by
  rw [safe_bind]
  refine ⟨⟨Multiset.zero_le _, rfl, trivial⟩, fun r _ => ?_⟩
  change (f r).Safe (owning E) Q ⟨0 + (F - 0), r⟩
  rw [zero_add, tsub_zero]
  cases r with
  | none => exact hnone
  | some np => exact hsome np

theorem self_owns {f : PageDir × Nat → VmProg n α}
    (h : ∀ d sz, sz < kernbase → (f (d, sz)).Safe (owning E) Q ⟨F, q⟩) :
    (self >>= f).Safe (owning E) Q ⟨F, q⟩ := by
  rw [safe_bind]
  refine ⟨⟨Multiset.zero_le _, trivial, trivial⟩, fun r hr => ?_⟩
  change (f (r.1, r.2)).Safe (owning E) Q ⟨0 + (F - 0), q⟩
  rw [zero_add, tsub_zero]
  exact h r.1 r.2 hr

theorem runnable_owns {np : Fin n} {kstack : Nat} {d : PageDir} {sz : Nat} {f : Unit → VmProg n α}
    (hsz : sz < kernbase) (h : (f ()).Safe (owning E) Q ⟨F, none⟩) :
    (runnable np kstack d sz >>= f).Safe (owning E) Q ⟨{kstack} + d.pages + F, some np⟩ := by
  refine op_owns (o := (Op.runnable np kstack d sz : Op n)) rfl hsz fun _ _ => ?_
  change (f ()).Safe (owning E) Q ⟨0 + F, none⟩
  rwa [zero_add]

theorem fork_owns (hcopy : ¬ E .copyTable) (k : KernelImage) :
    (fork k : VmProg n Int).Safe (owning E) (fun _ g => g = ⟨F, none⟩) ⟨F, none⟩ := by
  unfold fork
  refine allocSlot_owns rfl fun np => ?_
  refine kalloc_owns (fun _ => freeSlot_owns rfl) fun kstack => ?_
  refine self_owns fun pgdir sz hsz => ?_
  dsimp only
  rw [safe_bind]
  refine (copyuvm_owns hcopy k pgdir hsz).mono fun r g hg => ?_
  rw [hg]
  cases r with
  | none =>
    rw [dirPages, zero_add]
    exact kfree_owns (freeSlot_owns rfl)
  | some d =>
    rw [dirPages, add_left_comm, ← add_assoc]
    exact runnable_owns hsz rfl

theorem reap_owns {p : Fin n} {f : Option (Nat × PageDir) → VmProg n α}
    (hnone : (f none).Safe (owning E) Q ⟨F, none⟩)
    (hsome : ∀ kstack d, (f (some (kstack, d))).Safe (owning E) Q
      ⟨{kstack} + (d.pages + F), some p⟩) :
    (reap p >>= f).Safe (owning E) Q ⟨F, none⟩ := by
  rw [safe_bind]
  refine ⟨⟨Multiset.zero_le _, rfl, trivial⟩, fun r _ => ?_⟩
  cases r with
  | none =>
    change (f none).Safe (owning E) Q ⟨0 + (F - 0), none⟩
    rwa [zero_add, tsub_zero]
  | some x =>
    change (f (some (x.1, x.2))).Safe (owning E) Q ⟨{x.1} + x.2.pages + (F - 0), some p⟩
    rw [tsub_zero, add_assoc]
    exact hsome x.1 x.2

theorem wait_owns (p : Fin n) :
    (wait p : VmProg n Int).Safe (owning E) (fun _ g => g = ⟨F, none⟩) ⟨F, none⟩ := by
  unfold wait
  refine reap_owns rfl fun kstack d => ?_
  refine kfree_owns ?_
  rw [safe_bind]
  refine (freevm_owns d).mono fun _ g hg => ?_
  rw [hg]
  exact freeSlot_owns rfl

theorem pipealloc_owns (files : Bool) :
    (pipealloc files : VmProg n Int).Safe (owning E) (fun _ g => g = ⟨F, q⟩) ⟨F, q⟩ := by
  unfold pipealloc
  split
  · rfl
  refine kalloc_owns (fun _ => rfl) fun page => ?_
  refine op_owns (o := (Op.newPipe page : Op n)) trivial trivial fun _ _ => ?_
  change (⟨0 + F, q⟩ : Held n) = ⟨F, q⟩
  rw [zero_add]

theorem pipeclose_owns (page : Nat) (writable : Bool) :
    (pipeclose page writable : VmProg n Int).Safe (owning E) (fun _ g => g = ⟨F, q⟩) ⟨F, q⟩ := by
  unfold pipeclose
  rw [safe_bind]
  refine ⟨⟨Multiset.zero_le _, trivial, trivial⟩, fun r _ => ?_⟩
  cases r with
  | false =>
    change (⟨0 + (F - 0), q⟩ : Held n) = ⟨F, q⟩
    rw [zero_add, tsub_zero]
  | true =>
    change (kfree page >>= fun _ => _ : VmProg n Int).Safe (owning E) _ ⟨{page} + (F - 0), q⟩
    rw [tsub_zero]
    exact kfree_owns rfl

/-- Every call ends without pages, if the page tables of `copyuvm` find theirs. -/
theorem code_owns (hcopy : ¬ E .copyTable) (k : KernelImage) (x : Call n) :
    (code k x).Safe (owning E) (fun _ g => g = ⟨0, none⟩) ⟨0, none⟩ := by
  cases x with
  | fork => exact fork_owns hcopy k
  | exec x => exact exec_owns k x
  | sbrk i => exact growproc_owns i
  | exit =>
    refine ⟨⟨Multiset.zero_le _, trivial, trivial⟩, fun _ _ => ?_⟩
    change (⟨0 + (0 - 0), none⟩ : Held n) = ⟨0, none⟩
    rw [zero_add, tsub_zero]
  | wait p => exact wait_owns p
  | pipe files => exact pipealloc_owns files
  | close page writable => exact pipeclose_owns page writable

end Xv6Containers.Vm
