import Xv6Containers.Vm.Ownership

/-!
# What the programs on page directories map

Beyond the sizes of `Vm.Sizes`: which pages the entries of a directory point to and
which of them user code may access. User entries below `KERNBASE` point to pages
that `kalloc` handed out, the entries of the kernel are not for users, and the
tables for the devices at the top of the address space are there.

## Implementation notes

`sourced` is a discipline in which `kalloc` hands out pages from a given set only.
It forbids the panic of `deallocuvm` that the other disciplines allow.
-/

namespace Xv6Containers.Vm

open Lib.Program Prog

variable {n : Nat} {d d' : PageDir} {a v : Nat}

/-! ## Pages from a source -/

/-- `kalloc` hands out pages from `S` only, and `deallocuvm` finds no page 0 to free. -/
def sourced (S : Nat → Prop) : Discipline (Op.Res (n := n)) Unit where
  pre
    | .panic p, _ => p ≠ .kfree
    | _, _ => True
  may
    | .kalloc _, _, r => ∀ page, r = some page → S page
    | _, _, _ => True
  next _ _ g := g

/-- User memory consists of pages from `S`. -/
def Sourced (S : Nat → Prop) (d : PageDir) : Prop :=
  ∀ v < kernbase, ∀ x, d.pte v = some x → S x.page

/-- What a directory maps between `setupkvm` and `freevm`. -/
structure Image (S : Nat → Prop) (d : PageDir) : Prop where
  user : Sourced S d
  access : ∀ v < 2 ^ 32, ∀ x, d.pte v = some x → (x.user = true ↔ v < kernbase)
  devices : ∀ v < 2 ^ 32, devspace ≤ v → (d.table (pdx v)).isSome

section Source

variable {S : Nat → Prop} (hS : ∀ page, S page → page ≠ 0)

include hS in
theorem deallocLoop_sourced {oldsz : Nat} (hold : oldsz ≤ kernbase) (k : Nat) {d : PageDir}
    (hd : Sourced S d) (a : Nat) :
    (deallocLoop oldsz k d a : VmProg n PageDir).Safe (sourced S) (fun d' _ => Grows d d') () := by
  induction k generalizing d a with
  | zero => exact .refl d
  | succ k ih =>
    unfold deallocLoop
    split
    · next hlt =>
      split
      · exact ih hd _
      · next t ht =>
        have hpte : d.pte a = t.pte (ptx a) := by
          unfold PageDir.pte
          rw [ht]
          rfl
        split
        · exact ih hd _
        · next x hx =>
          have hne : x.page ≠ 0 := hS _ (hd a (by omega) x (hpte.trans hx))
          rw [if_neg hne, safe_bind]
          refine ⟨trivial, fun _ _ => ?_⟩
          have hless : Sourced S (d.setPte a none) := by
            intro v hv y hy
            simp only [kernbase] at hv hold
            rw [pte_setPte (by simp [ht]) (by omega) (by omega)] at hy
            split at hy
            · cases hy
            · exact hd v hv y hy
          exact (ih hless _).mono fun d' _ hd' => (grows_setPte d a none).trans hd'
    · exact .refl d

include hS in
theorem deallocuvm_sourced {oldsz : Nat} (hold : oldsz ≤ kernbase) (newsz : Nat) {d : PageDir}
    (hd : Sourced S d) :
    (deallocuvm d oldsz newsz : VmProg n (PageDir × Nat)).Safe (sourced S) (fun x _ => Grows d x.1 ∧
      ∀ v < 2 ^ 32, x.1.pte v =
        if newsz ≤ v / pgsize * pgsize ∧ v / pgsize * pgsize < oldsz then none else d.pte v) () := by
  have hsafe : (deallocuvm d oldsz newsz : VmProg n (PageDir × Nat)).Safe (sourced S)
      (fun x _ => Grows d x.1) () := by
    unfold deallocuvm
    split
    · exact .refl d
    · rw [safe_bind]
      exact (deallocLoop_sourced hS hold _ hd _).mono fun d' _ h => h
  exact (hsafe.and_ends (deallocuvm_ends hold d)).mono fun x _ h => ⟨h.1, h.2.2⟩

theorem freeTables_sourced (d : PageDir) (k : Nat) :
    (freeTables d k : VmProg n Unit).Safe (sourced S) (fun _ _ => True) () := by
  induction k with
  | zero => trivial
  | succ k ih =>
    unfold freeTables
    split
    · exact ih
    · exact safe_bind.mpr ⟨trivial, fun _ _ => ih⟩

include hS in
theorem freevm_sourced {d : PageDir} (hd : Sourced S d) :
    (freevm d : VmProg n Unit).Safe (sourced S) (fun _ _ => True) () := by
  unfold freevm
  rw [safe_bind]
  apply (deallocuvm_sourced hS (Nat.le_refl _) 0 hd).mono
  intro x _ _
  rw [safe_bind]
  apply (freeTables_sourced x.1 nentries).mono
  exact fun _ _ _ => ⟨trivial, fun _ _ => trivial⟩

theorem sourced_pre_of_maps (o : Op n) (h : o.Maps) : (sourced S).pre o () := by
  cases o with
  | panic p =>
    cases h
    exact fun h => nomatch h
  | _ => trivial

include hS in
theorem setupkvm_sourced (k : KernelImage) :
    (setupkvm k : VmProg n (Option PageDir)).Safe (sourced S)
      (fun r _ => ∀ d, r = some d → Image S d) () := by
  have hfreevm (d : PageDir) (hd : ∀ v < kernbase, d.pte v = none) :
      (freevm d : VmProg n Unit).Safe (sourced S) (fun _ _ => True) () :=
    freevm_sourced hS fun v hv x hx => by
      rw [hd v hv] at hx
      cases hx
  apply ((setupkvm_safe trivial hfreevm k).and_ends (setupkvm_ends k)).mono
  rintro r _ ⟨-, hr⟩ d hd
  have hpte := hr d hd
  have huser (v : Nat) (hv : v < kernbase) : d.pte v = none := by
    rw [hpte v (lt_of_user hv)]
    exact kernelPte_of_lt (kmap_ascending k) hv
  constructor
  · intro v hv x hx
    rw [huser v hv] at hx
    cases hx
  · intro v hv x hx
    have hkernel := kernelPte_user ((hpte v hv).symm.trans hx)
    have hlo : ¬ v < kernbase := fun hlt => by
      rw [huser v hlt] at hx
      cases hx
    simp [hkernel, hlo]
  · intro v hv hdev
    apply table_isSome_of_pte
    rw [hpte v hv]
    apply kernelPte_isSome (m := ⟨devspace, devspace, 0, true⟩)
    · simp [KernelImage.kmap]
    · refine Bool.and_eq_true_iff.mpr ⟨decide_eq_true hdev, decide_eq_true ?_⟩
      simp only [uint, devspace] at *
      omega

include hS in
/-- The pages that `allocuvm` adds come from the source and are for the user. -/
theorem allocLoop_sourced {oldsz newsz : Nat} (hnew : newsz < kernbase) {k : Nat} {d : PageDir}
    (hd : Image S d) (ha : a % pgsize = 0) :
    (allocLoop oldsz newsz k d a : VmProg n (PageDir × Nat)).Safe (sourced S)
      (fun x _ => Image S x.1) () := by
  have hundo {d : PageDir} (hd : Image S d) :
      (deallocuvm d newsz oldsz : VmProg n (PageDir × Nat)).Safe (sourced S)
        (fun x _ => Image S x.1) () := by
    apply (deallocuvm_sourced hS (Nat.le_of_lt hnew) oldsz hd.user).mono
    rintro ⟨d', r⟩ _ ⟨hgrows, hpte⟩
    dsimp only at hgrows hpte ⊢
    have hfewer : ∀ v < 2 ^ 32, ∀ x, d'.pte v = some x → d.pte v = some x := by
      intro v hv x hx
      rw [hpte v hv] at hx
      split at hx
      · cases hx
      · exact hx
    constructor
    · intro v hv x hx
      simp only [kernbase] at hv
      exact hd.user v hv x (hfewer v (by omega) x hx)
    · exact fun v hv x hx => hd.access v hv x (hfewer v hv x hx)
    · exact fun v hv hdev => hgrows _ (hd.devices v hv hdev)
  induction k generalizing d a with
  | zero => exact hd
  | succ k ih =>
    unfold allocLoop
    split
    · next hlt =>
      rw [safe_bind]
      refine ⟨trivial, fun r hr => ?_⟩
      cases r with
      | none => exact safe_bind.mpr ((hundo hd).mono fun _ _ h => h)
      | some mem =>
        have hmem : S mem := hr mem rfl
        have hlt32 : a < 2 ^ 32 := by
          simp only [kernbase] at hnew
          omega
        have hstep : uint (a + pgsize) = a + pgsize ∧ (a + pgsize) % pgsize = 0 := by
          simp only [uint, pgsize, kernbase] at *
          omega
        change ((mappages .other d a pgsize ⟨mem, true, true⟩ >>= _ :
          VmProg n (PageDir × Nat))).Safe _ _ ()
        rw [safe_bind, mappages_page _ _ ha (by omega)]
        apply ((mapPage_ends .other d hlt32 ⟨mem, true, true⟩).safe (mapPage_maps ..)
          sourced_pre_of_maps).mono
        rintro ⟨d', ok⟩ _ ⟨hgrows, hpte⟩
        dsimp only at hgrows hpte ⊢
        have hd' : Image S d' := by
          constructor
          · intro v hv x hx
            simp only [kernbase] at hv
            rw [hpte v (by omega)] at hx
            split at hx
            · cases hx
              exact hmem
            · exact hd.user v hv x hx
          · intro v hv x hx
            rw [hpte v hv] at hx
            split at hx
            · next hsame =>
              cases hx
              have hsame := hsame.2
              simp only [SamePage, pgsize, kernbase] at *
              simp only [true_iff]
              omega
            · exact hd.access v hv x hx
          · exact fun v hv hdev => hgrows _ (hd.devices v hv hdev)
        cases ok with
        | true =>
          rw [if_pos rfl, hstep.1]
          exact ih hd' hstep.2
        | false =>
          rw [if_neg (by simp), safe_bind]
          apply (hundo hd').mono
          exact fun x _ hx => safe_bind.mpr ⟨trivial, fun _ _ => hx⟩
    · exact hd

include hS in
theorem allocuvm_sourced {d : PageDir} (hd : Image S d) (oldsz newsz : Nat) :
    (allocuvm d oldsz newsz : VmProg n (PageDir × Nat)).Safe (sourced S)
      (fun x _ => Image S x.1) () := by
  unfold allocuvm
  split
  · exact hd
  split
  · exact hd
  next hnew _ => exact allocLoop_sourced hS (by omega) hd (pgroundup_mod oldsz)

/-- `clearpteu` takes one page from the user. -/
theorem clearpteu_sourced (d : PageDir) (ha : a < 2 ^ 32) :
    (clearpteu d a : VmProg n PageDir).Safe (sourced S) (fun d' _ => Grows d d' ∧ ∀ v < 2 ^ 32,
      d'.pte v = if SamePage v a then (d.pte v).map fun x => { x with user := false }
        else d.pte v) () := by
  unfold clearpteu
  split
  · exact ⟨(fun h => nomatch h), fun r => r.elim⟩
  · next t ht =>
    refine ⟨grows_setPte d a _, fun v hv => ?_⟩
    rw [pte_setPte (by simp [ht]) hv ha]
    split
    · next hsame => rw [pte_eq_of_samePage hsame]
    · rfl

end Source

end Xv6Containers.Vm
