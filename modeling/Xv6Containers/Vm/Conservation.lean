import Xv6Containers.Vm.Ownership

/-!
# Physical pages are conserved

Every page of the allocator is on the free list, held by a call in progress, or
owned by a page directory, a kernel stack or a pipe, and by one of them only.
-/

namespace Xv6Containers.Vm

open Lib.Program Prog Lib.Runs Lib.Counting

variable {n : Nat}

/-! ## The machine -/

/-- The pages of a process: its kernel stack and its memory. -/
def Slot.owned : Slot → Multiset Nat
  | .live kstack d _ | .zombie kstack d => {kstack} + d.pages
  | .lent kstack => {kstack}
  | _ => 0

/-- A slot that a call in progress fills or clears. -/
def Slot.Reserved : Slot → Prop
  | .embryo | .reaped => True
  | _ => False

/-- The pages that the allocator was given, from the end of the kernel to `PHYSTOP`. -/
def KernelImage.pages (k : KernelImage) : Multiset Nat :=
  (Finset.Ico k.first (physTop / pgsize)).val

/-- The pages of all pipes. -/
def Memory.pipePages (s : Memory n) : Multiset Nat := (s.pipes.map Prod.fst : List Nat)

/-- The pages of all processes. -/
def Memory.owned (s : Memory n) : Multiset Nat := ∑ p, (s.slot p).owned

/-- Every page is in one place, and every reserved slot belongs to one call. -/
structure Conserved (k : KernelImage) (g : Fin n → Held n) (s : Memory n) : Prop where
  total : ↑s.free + ∑ p, (g p).pages + s.owned + s.pipePages = k.pages
  reserved : ∀ {p q}, (g p).slot = some q → (s.slot q).Reserved
  exclusive : ∀ {p p' q}, (g p).slot = some q → (g p').slot = some q → p = p'
  sizes : ∀ {p kstack d sz}, s.slot p = .live kstack d sz → sz < kernbase

section

variable {k : KernelImage} {g : Fin n → Held n} {s t : Memory n} {p : Fin n} {y : Option (Fin n)}

/-- An operation that balances what it takes and gives keeps the total. -/
theorem Conserved.total_of_balance (h : Conserved k g s) {o : Op n} {r : o.Res}
    (hgiven : o.given ≤ (g p).pages)
    (hbal : ↑t.free + o.taken r + t.owned + t.pipePages = ↑s.free + o.given + s.owned + s.pipePages) :
    ↑t.free + ∑ p', (Function.update g p ⟨o.taken r + ((g p).pages - o.given), y⟩ p').pages + t.owned +
      t.pipePages = k.pages := by
  have hsum := sum_update_add (Finset.mem_univ p) (fun _ x => Held.pages x) g
    ⟨o.taken r + ((g p).pages - o.given), y⟩
  have htotal := h.total
  refine Multiset.ext.mpr fun a => ?_
  have hsum := congrArg (Multiset.count a) hsum
  have hbal := congrArg (Multiset.count a) hbal
  have htotal := congrArg (Multiset.count a) htotal
  have hle := Multiset.le_iff_count.mp hgiven a
  simp only [Multiset.count_add, Multiset.count_sub] at hsum hbal htotal ⊢
  omega

/-- An operation that changes no slot. -/
theorem Conserved.same (h : Conserved k g s) {o : Op n} {r : o.Res}
    (hgiven : o.given ≤ (g p).pages) (hslot : t.slot = s.slot)
    (hbal : ↑t.free + o.taken r + t.pipePages = ↑s.free + o.given + s.pipePages) :
    Conserved k (Function.update g p ⟨o.taken r + ((g p).pages - o.given), (g p).slot⟩) t := by
  have hres : ∀ p', (Function.update g p ⟨o.taken r + ((g p).pages - o.given), (g p).slot⟩ p').slot =
      (g p').slot := by
    intro p'
    rcases eq_or_ne p' p with rfl | hp
    · rw [Function.update_self]
    · rw [Function.update_of_ne hp]
  have howned : t.owned = s.owned := by rw [Memory.owned, Memory.owned, hslot]
  refine ⟨h.total_of_balance hgiven ?_, fun {p' q} hq => ?_, fun {p' p'' q} hq hq' => ?_,
    fun {p' kstack d sz} hp => ?_⟩
  · rw [howned, add_right_comm, hbal, add_right_comm]
  · rw [hslot]
    exact h.reserved ((hres p').symm.trans hq)
  · exact h.exclusive ((hres p').symm.trans hq) ((hres p'').symm.trans hq')
  · rw [hslot] at hp
    exact h.sizes hp

/-- An operation that changes one slot: one that nobody has reserved, or its own. -/
theorem Conserved.update (h : Conserved k g s) {o : Op n} {r : o.Res} {q : Fin n} {x : Slot}
    (hgiven : o.given ≤ (g p).pages) (hslot : t.slot = Function.update s.slot q x)
    (hbal : ↑t.free + o.taken r + x.owned + t.pipePages =
      ↑s.free + o.given + (s.slot q).owned + s.pipePages)
    (hx : ∀ kstack d sz, x = .live kstack d sz → sz < kernbase)
    (hres : ¬ (s.slot q).Reserved ∧ (y = (g p).slot ∨ y = some q ∧ x.Reserved) ∨
      (g p).slot = some q ∧ y = none) :
    Conserved k (Function.update g p ⟨o.taken r + ((g p).pages - o.given), y⟩) t := by
  have hown : t.owned + (s.slot q).owned = s.owned + x.owned := by
    rw [Memory.owned, hslot]
    exact sum_update_add (Finset.mem_univ q) (fun _ => Slot.owned) s.slot x
  -- Nobody else has reserved the slot that changes.
  have hother : ∀ p', p' ≠ p → (g p').slot ≠ some q := by
    intro p' hp' hq
    rcases hres with ⟨hnot, -⟩ | ⟨hown, -⟩
    · exact hnot (h.reserved hq)
    · exact hp' (h.exclusive hq hown)
  have hkept : ∀ p', p' ≠ p → ∀ q', (g p').slot = some q' →
      (t.slot q').Reserved ∧ y ≠ some q' := by
    intro p' hp' q' hq'
    have hne : q' ≠ q := fun heq => hother p' hp' (heq ▸ hq')
    refine ⟨?_, fun hy => ?_⟩
    · rw [hslot, Function.update_of_ne hne]
      exact h.reserved hq'
    · rcases hres with ⟨-, hy' | ⟨hy', -⟩⟩ | ⟨-, hy'⟩
      · exact hp' (h.exclusive hq' (hy'.symm.trans hy))
      · exact hne (Option.some.inj (hy.symm.trans hy'))
      · exact Option.some_ne_none _ (hy.symm.trans hy')
  have hself : ∀ q', y = some q' → (t.slot q').Reserved := by
    intro q' hy
    rw [hslot]
    rcases hres with ⟨hnot, hy' | ⟨hy', hxr⟩⟩ | ⟨-, hy'⟩
    · have hq' := h.reserved (hy'.symm.trans hy)
      have hne : q' ≠ q := fun heq => hnot (heq ▸ hq')
      rwa [Function.update_of_ne hne]
    · obtain rfl := Option.some.inj (hy.symm.trans hy')
      rwa [Function.update_self]
    · exact absurd (hy.symm.trans hy') (Option.some_ne_none _)
  refine ⟨h.total_of_balance hgiven ?_, fun {p' q'} hq => ?_, fun {p' p'' q'} hq hq' => ?_,
    fun {p' kstack d sz} hp => ?_⟩
  · refine Multiset.ext.mpr fun a => ?_
    have hown := congrArg (Multiset.count a) hown
    have hbal := congrArg (Multiset.count a) hbal
    simp only [Multiset.count_add] at hown hbal ⊢
    omega
  · rcases eq_or_ne p' p with rfl | hp'
    · rw [Function.update_self] at hq
      exact hself q' hq
    · rw [Function.update_of_ne hp'] at hq
      exact (hkept p' hp' q' hq).1
  · by_cases hp' : p' = p <;> by_cases hp'' : p'' = p
    · exact hp'.trans hp''.symm
    · rw [hp', Function.update_self] at hq
      rw [Function.update_of_ne hp''] at hq'
      exact absurd hq (hkept p'' hp'' q' hq').2
    · rw [Function.update_of_ne hp'] at hq
      rw [hp'', Function.update_self] at hq'
      exact absurd hq' (hkept p' hp' q' hq).2
    · rw [Function.update_of_ne hp'] at hq
      rw [Function.update_of_ne hp''] at hq'
      exact h.exclusive hq hq'
  · rcases eq_or_ne p' q with rfl | hne
    · rw [hslot, Function.update_self] at hp
      exact hx kstack d sz hp
    · rw [hslot, Function.update_of_ne hne] at hp
      exact h.sizes hp

/-- Closing the last end of a pipe takes its page out of the pipes. -/
theorem pipePages_erase {page : Nat} {ends : Bool × Bool} (hmem : (page, ends) ∈ s.pipes) :
    s.pipePages = {page} + ((s.pipes.erase (page, ends)).map Prod.fst : List Nat) := by
  rw [Memory.pipePages, Multiset.singleton_add, Multiset.cons_coe, Multiset.coe_eq_coe]
  exact (List.perm_cons_erase hmem).map Prod.fst

end

/-- The page tables of `copyuvm` find their pages. -/
def FindsTable (_p : Fin n) (o : Op n) (s : Memory n) : Prop :=
  match o with
  | .kalloc .copyTable => s.free ≠ []
  | _ => True

instance (p : Fin n) (o : Op n) (s : Memory n) : Decidable (FindsTable p o s) := by
  rcases o with ⟨_ | _⟩ | _ <;> dsimp only [FindsTable] <;> infer_instance

theorem execOp_conserves {k : KernelImage} {p : Fin n} {o : Op n} {g : Fin n → Held n}
    {s t : Memory n} {r : o.Res} (h : Conserved k g s) (hpre : (owning (· ≠ .copyTable)).pre o (g p))
    (hc : FindsTable p o s) (ht : execOp k p o s = .ok (r, t)) :
    (owning (· ≠ .copyTable)).may o (g p) r ∧
      Conserved k (Function.update g p ((owning (· ≠ .copyTable)).next o r (g p))) t := by
  obtain ⟨hgiven, hslotOk, hsize⟩ := hpre
  have hsame := fun t => h.same (t := t) (r := r) hgiven
  have hupdate := fun t q x y => h.update (t := t) (q := q) (x := x) (y := y) (r := r) hgiven
  cases o with
  | kalloc site =>
    simp only [execOp] at ht
    split at ht
    · next hfree =>
      cases ht
      refine ⟨fun _ hsite => ?_, hsame _ rfl rfl⟩
      subst hsite
      exact hc hfree
    · next page rest hfree =>
      cases ht
      refine ⟨(fun h => by cases h), hsame _ rfl ?_⟩
      change (rest : Multiset Nat) + {page} + s.pipePages = ↑s.free + 0 + s.pipePages
      rw [hfree, add_zero, add_comm (rest : Multiset Nat), Multiset.singleton_add,
        Multiset.cons_coe]
  | kfree page =>
    simp only [execOp] at ht
    split at ht
    · cases ht
    · cases ht
      refine ⟨trivial, hsame _ rfl ?_⟩
      change ((page :: s.free : List Nat) : Multiset Nat) + 0 + s.pipePages =
        ↑s.free + {page} + s.pipePages
      rw [add_zero, add_comm (s.free : Multiset Nat), Multiset.singleton_add, Multiset.cons_coe]
  | allocSlot =>
    simp only [execOp] at ht
    split at ht
    · cases ht
      have hnone : (g p).slot = none := hslotOk
      have hkept := hsame s rfl rfl
      rw [hnone] at hkept
      exact ⟨trivial, hkept⟩
    · next q hfind =>
      cases ht
      have hunused := List.find?_some hfind
      cases hq : s.slot q <;> simp [Slot.isUnused, hq] at hunused
      refine ⟨trivial, hupdate _ _ _ _ rfl ?_ (by rintro _ _ _ ⟨⟩) (.inl ⟨?_, .inr ⟨rfl, trivial⟩⟩)⟩
      · rw [hq]
        rfl
      · rw [hq]
        exact id
  | freeSlot np =>
    cases ht
    refine ⟨trivial, hupdate _ _ _ _ rfl ?_ (by rintro _ _ _ ⟨⟩) (.inr ⟨hslotOk, rfl⟩)⟩
    have hres := h.reserved hslotOk
    cases hq : s.slot np <;> simp [Slot.Reserved, hq] at hres <;> rfl
  | self =>
    simp only [execOp] at ht
    split at ht
    · next hp =>
      cases ht
      exact ⟨h.sizes hp, hsame _ rfl rfl⟩
    · cases ht
  | lend i =>
    simp only [execOp] at ht
    split at ht
    · next kstack d sz hp =>
      cases ht
      refine ⟨h.sizes hp, hupdate _ _ _ _ rfl ?_ (by rintro _ _ _ ⟨⟩) (.inl ⟨?_, .inl rfl⟩)⟩
      · rw [hp]
        change ↑s.free + d.pages + {kstack} + s.pipePages =
          ↑s.free + 0 + ({kstack} + d.pages) + s.pipePages
        rw [add_zero, add_assoc (s.free : Multiset Nat), add_comm d.pages]
      · rw [hp]
        exact id
    · cases ht
  | giveBack d sz =>
    simp only [execOp] at ht
    split at ht
    · next kstack hp =>
      cases ht
      refine ⟨trivial, hupdate _ _ _ _ rfl ?_ ?_ (.inl ⟨?_, .inl rfl⟩)⟩
      · rw [hp]
        change ↑s.free + 0 + ({kstack} + d.pages) + s.pipePages =
          ↑s.free + d.pages + {kstack} + s.pipePages
        rw [add_zero, add_assoc (s.free : Multiset Nat) d.pages, add_comm d.pages]
      · rintro kstack d sz hx
        cases hx
        exact hsize
      · rw [hp]
        exact id
    · cases ht
  | swap d sz =>
    simp only [execOp] at ht
    split at ht
    · next kstack _ _ hp =>
      cases ht
      refine ⟨trivial, hupdate _ _ _ _ rfl ?_ ?_ (.inl ⟨?_, .inl rfl⟩)⟩
      · rw [hp]
        change ↑s.free + (PageDir.pages r) + ({kstack} + d.pages) + s.pipePages =
          ↑s.free + d.pages + ({kstack} + (PageDir.pages r)) + s.pipePages
        rw [add_assoc (s.free : Multiset Nat) (PageDir.pages r), add_assoc (s.free : Multiset Nat) d.pages,
          add_left_comm d.pages, add_left_comm (PageDir.pages r), add_comm (PageDir.pages r)]
      · rintro kstack d sz hx
        cases hx
        exact hsize
      · rw [hp]
        exact id
    · cases ht
  | runnable np kstack d sz =>
    cases ht
    refine ⟨trivial, hupdate _ _ _ _ rfl ?_ ?_ (.inr ⟨hslotOk, rfl⟩)⟩
    · have hres := h.reserved hslotOk
      have howned : (s.slot np).owned = 0 := by
        cases hq : s.slot np <;> simp [Slot.Reserved, hq] at hres <;> rfl
      change ↑s.free + 0 + ({kstack} + d.pages) + s.pipePages =
        ↑s.free + ({kstack} + d.pages) + (s.slot np).owned + s.pipePages
      rw [howned, add_zero, add_zero]
    · rintro kstack d sz hx
      cases hx
      exact hsize
  | zombie =>
    simp only [execOp] at ht
    split at ht
    · next kstack d sz hp =>
      cases ht
      refine ⟨trivial, hupdate _ _ _ _ rfl ?_ (by rintro _ _ _ ⟨⟩) (.inl ⟨?_, .inl rfl⟩)⟩
      · rw [hp]
        rfl
      · rw [hp]
        exact id
    · cases ht
  | reap q =>
    have hnone : (g p).slot = none := hslotOk
    simp only [execOp] at ht
    split at ht
    · next kstack d hq =>
      cases ht
      refine ⟨trivial, hupdate _ _ _ _ rfl ?_ (by rintro _ _ _ ⟨⟩) (.inl ⟨?_, .inr ⟨rfl, trivial⟩⟩)⟩
      · rw [hq]
        change ↑s.free + ({kstack} + d.pages) + 0 + s.pipePages =
          ↑s.free + 0 + ({kstack} + d.pages) + s.pipePages
        rw [add_zero, add_zero]
      · rw [hq]
        exact id
    · cases ht
      exact ⟨trivial, hsame _ rfl rfl⟩
  | newPipe page =>
    cases ht
    refine ⟨trivial, hsame _ rfl ?_⟩
    change ↑s.free + 0 + ((page :: s.pipes.map Prod.fst : List Nat) : Multiset Nat) =
      ↑s.free + {page} + s.pipePages
    rw [add_zero, add_assoc, Multiset.singleton_add, ← Multiset.cons_coe, Memory.pipePages]
  | closeEnd page writable =>
    simp only [execOp] at ht
    split at ht
    · cases ht
    · next page' ends hfind =>
      have hpage : page' = page := by simpa using List.find?_some hfind
      subst hpage
      have herase := pipePages_erase (List.mem_of_find?_eq_some hfind)
      split at ht
      · cases ht
      split at ht
      · cases ht
        refine ⟨trivial, hsame _ rfl ?_⟩
        change ↑s.free + {page'} + (((s.pipes.erase (page', ends)).map Prod.fst : List Nat) :
          Multiset Nat) = ↑s.free + 0 + s.pipePages
        rw [herase, add_zero, add_assoc]
      · cases ht
        refine ⟨trivial, hsame _ rfl ?_⟩
        change ↑s.free + 0 + ((page' :: (s.pipes.erase (page', ends)).map Prod.fst : List Nat) :
          Multiset Nat) = ↑s.free + 0 + s.pipePages
        rw [herase, Multiset.singleton_add, Multiset.cons_coe]
  | panic x => cases ht

/-- A state between calls in which every page is in one place. -/
structure Partitioned (k : KernelImage) (s : Memory n) : Prop where
  total : ↑s.free + s.owned + s.pipePages = k.pages
  sizes : ∀ {p kstack d sz}, s.slot p = .live kstack d sz → sz < kernbase

theorem Partitioned.conserved {k : KernelImage} {s : Memory n} (h : Partitioned k s) :
    Conserved k (fun _ => ⟨0, none⟩) s := by
  refine ⟨?_, nofun, nofun, h.sizes⟩
  rw [Finset.sum_const_zero, add_zero]
  exact h.total

/-- A kernel with three pages behind it. -/
def lateKernel : KernelImage :=
  ⟨0x80108000, 57341, smallKernel.aligned, smallKernel.kernlink_lt, smallKernel.lt_physTop⟩

/-- A process without memory, and a free page. -/
def lateProcess : Memory 1 := ⟨[57343], fun _ => .live 57341 (PageDir.empty 57342) 0, []⟩

end Xv6Containers.Vm
