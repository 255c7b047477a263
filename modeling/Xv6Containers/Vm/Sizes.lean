import Xv6Containers.Vm.Mapping

/-!
# The size of a process and its page table

The calls that change user memory keep exactly the pages below the size of a
process mapped, as long as no process shrinks to nothing or below.
-/

namespace Xv6Containers.Vm

open Lib.Program Prog Lib.Runs

variable {n : Nat}

/-- Exactly the user pages below `sz` are mapped, and `sz` is below the kernel. -/
def Fits (d : PageDir) (sz : Nat) : Prop :=
  sz < kernbase ∧ ∀ v < kernbase, (d.pte v).isSome = true ↔ v / pgsize * pgsize < sz

/-- The process keeps at least one byte. -/
def Keeps (i : BitVec 32) (sz : Nat) : Prop := 0 ≤ i.toInt ∨ 0 < sz + i.toInt

instance (i : BitVec 32) (sz : Nat) : Decidable (Keeps i sz) := inferInstanceAs (Decidable (_ ∨ _))

/-- The only panic is that of `kfree`, and a process gets only memory that fits its size. -/
def fitting : Discipline (Op.Res (n := n)) Unit where
  pre
    | .panic p, _ => p = .kfree
    | .giveBack d sz, _ => Fits d sz
    | .swap d sz, _ => Fits d sz
    | .runnable _ _ d sz, _ => Fits d sz
    | _, _ => True
  may
    | .self, _, r => Fits r.1 r.2
    | .lend i, _, r => Fits r.1 r.2 ∧ Keeps i r.2
    | _, _, _ => True
  next _ _ g := g

/-- The operations of the memory allocator. -/
def Op.Allocates : Op n → Prop
  | .kalloc _ | .kfree _ | .panic _ => True
  | _ => False

/-- The operations of the functions that only free memory. -/
def Op.Frees : Op n → Prop
  | .kfree _ => True
  | .panic p => p = .kfree
  | _ => False

theorem fitting_pre_of_frees (o : Op n) (h : o.Frees) : fitting.pre o () := by
  cases o <;> trivial

theorem fitting_may_of_allocates (o : Op n) (g : Unit) (r : o.Res) (h : o.Allocates) :
    fitting.may o g r := by
  cases o <;> trivial

variable {α : Type} {post : α → Unit → Prop} {i : BitVec 32} {d : PageDir} {a sz : Nat}

/-- `kalloc` may return any page or none. -/
theorem kalloc_fits {site : Site} {f : Option Nat → VmProg n α}
    (h : ∀ r, (f r).Safe fitting post ()) : (kalloc site >>= f).Safe fitting post () := by
  rw [safe_bind]
  exact ⟨trivial, fun r _ => h r⟩

theorem kfree_fits {page : Nat} {f : Unit → VmProg n α} (h : (f ()).Safe fitting post ()) :
    (kfree page >>= f).Safe fitting post () := by
  rw [safe_bind]
  exact ⟨trivial, fun _ _ => h⟩

/-- The running process has memory that fits its size. -/
theorem self_fits {f : PageDir × Nat → VmProg n α}
    (h : ∀ d sz, Fits d sz → (f (d, sz)).Safe fitting post ()) :
    (self >>= f).Safe fitting post () := by
  rw [safe_bind]
  exact ⟨trivial, fun x hx => h x.1 x.2 hx⟩

theorem lend_fits {f : PageDir × Nat → VmProg n α}
    (h : ∀ d sz, Fits d sz → Keeps i sz → (f (d, sz)).Safe fitting post ()) :
    (lend i >>= f).Safe fitting post () := by
  rw [safe_bind]
  exact ⟨trivial, fun x hx => h x.1 x.2 hx.1 hx.2⟩

/-! ## Freeing -/

theorem deallocLoop_only (oldsz k : Nat) (d : PageDir) (a : Nat) :
    (deallocLoop oldsz k d a : VmProg n PageDir).Only Op.Frees := by
  induction k generalizing d a with
  | zero => trivial
  | succ k ih =>
    unfold deallocLoop
    split
    · split
      · exact ih ..
      · split
        · exact ih ..
        · split
          · exact ⟨rfl, fun r => r.elim⟩
          · exact only_bind (only_op.mpr trivial) fun _ => ih ..
    · trivial

theorem deallocuvm_only (d : PageDir) (oldsz newsz : Nat) :
    (deallocuvm d oldsz newsz : VmProg n (PageDir × Nat)).Only Op.Frees := by
  unfold deallocuvm
  split
  · trivial
  · exact only_bind (deallocLoop_only ..) fun _ => trivial

theorem freeTables_only (d : PageDir) (k : Nat) : (freeTables d k : VmProg n Unit).Only Op.Frees := by
  induction k with
  | zero => trivial
  | succ k ih =>
    unfold freeTables
    split
    · exact ih
    · exact only_bind (only_op.mpr trivial) fun _ => ih

theorem freevm_only (d : PageDir) : (freevm d : VmProg n Unit).Only Op.Frees :=
  only_bind (deallocuvm_only ..) fun _ => only_bind (freeTables_only ..) fun _ =>
    only_op.mpr trivial

theorem deallocuvm_fits {oldsz newsz : Nat} (hold : oldsz ≤ kernbase) (d : PageDir) :
    (deallocuvm d oldsz newsz : VmProg n (PageDir × Nat)).Safe fitting (fun x _ =>
      x.2 = min oldsz newsz ∧ ∀ v < 2 ^ 32, x.1.pte v =
        if newsz ≤ v / pgsize * pgsize ∧ v / pgsize * pgsize < oldsz then none else d.pte v) () :=
  (deallocuvm_ends hold d).safe (deallocuvm_only ..) fitting_pre_of_frees

theorem freevm_fits (d : PageDir) : (freevm d : VmProg n Unit).Safe fitting (fun _ _ => True) () :=
  (ends_true _).safe (freevm_only d) fitting_pre_of_frees

/-! ## Mapping -/

/-- One page is mapped where nothing was. -/
theorem mapPage_fits (site : Site) (ha : a < 2 ^ 32) (hnone : d.pte a = none) (y : Pte) :
    (mapPage site d a y : VmProg n (PageDir × Bool)).Safe fitting (fun x _ => ∀ v < 2 ^ 32,
      x.1.pte v = if x.2 = true ∧ SamePage v a then some y else d.pte v) () := by
  apply ((mapPage_safe trivial hnone y).and_ends (mapPage_ends site d ha y)).mono
  exact fun x _ hx => hx.2.2

theorem setupkvm_fits (k : KernelImage) :
    (setupkvm k : VmProg n (Option PageDir)).Safe fitting
      (fun r _ => ∀ d, r = some d → ∀ v < kernbase, d.pte v = none) () := by
  apply ((setupkvm_safe trivial (fun d _ => freevm_fits d) k).and_ends (setupkvm_ends k)).mono
  intro r _ hr d hd v hv
  rw [hr.2 d hd v (lt_of_user hv)]
  exact kernelPte_of_lt (kmap_ascending k) hv

/-! ## User memory -/

/-- The user pages below `a` are mapped, and no others. -/
def MappedBelow (d : PageDir) (a : Nat) : Prop :=
  ∀ v < kernbase, (d.pte v).isSome = true ↔ v / pgsize * pgsize < a

namespace MappedBelow

variable {d' : PageDir}

theorem pte_eq_none {v : Nat} (h : MappedBelow d a) (hv : v < kernbase)
    (hle : a ≤ v / pgsize * pgsize) : d.pte v = none := by
  rw [← Option.not_isSome_iff_eq_none, h v hv]
  omega

theorem congr (h : MappedBelow d a) (hpte : ∀ v < kernbase, d'.pte v = d.pte v) :
    MappedBelow d' a := fun v hv => by
  rw [hpte v hv]
  exact h v hv

/-- One more page is mapped. -/
theorem next {y : Pte} (h : MappedBelow d a) (ha : a % pgsize = 0) (hpte : ∀ v < kernbase,
    d'.pte v = if SamePage v a then some y else d.pte v) : MappedBelow d' (a + pgsize) := by
  intro v hv
  have hold := h v hv
  rw [hpte v hv]
  split
  · next hsame =>
    simp only [SamePage, pgsize, Option.isSome_some, true_iff] at *
    omega
  · next hsame =>
    simp only [hold, SamePage, pgsize] at *
    omega

/-- What is mapped up to the last page of `sz` fits `sz`. -/
theorem fits (h : MappedBelow d a) (ha : a % pgsize = 0) (hsz : sz < kernbase) (hle : sz ≤ a)
    (hhi : a < sz + pgsize) : Fits d sz := by
  refine ⟨hsz, fun v hv => (h v hv).trans ?_⟩
  simp only [pgsize] at *
  omega

end MappedBelow

/-- The loop of `allocuvm`: the pages below `a` are mapped, those below `oldsz` as in `d₀`. -/
theorem allocLoop_fits {oldsz newsz : Nat} (hnew : newsz < kernbase) {d₀ : PageDir}
    (hfit : Fits d₀ oldsz) {k : Nat} (ha : a % pgsize = 0) (hlo : oldsz ≤ a)
    (hhi : a < newsz + pgsize) (hk : newsz < a + k * pgsize) (hmapped : MappedBelow d a)
    (hkeep : ∀ v < kernbase, v / pgsize * pgsize < oldsz → d.pte v = d₀.pte v) :
    (allocLoop oldsz newsz k d a : VmProg n (PageDir × Nat)).Safe fitting (fun x _ =>
      x.2 = newsz ∧ Fits x.1 newsz ∨ x.2 = 0 ∧ ∀ v < kernbase, x.1.pte v = d₀.pte v) () := by
  -- After a failure `deallocuvm` restores what was mapped before.
  have hundo {d d' : PageDir} {a : Nat} (hlt : a < newsz) (hmapped : MappedBelow d a)
      (hkeep : ∀ v < kernbase, v / pgsize * pgsize < oldsz → d.pte v = d₀.pte v)
      (hd' : ∀ v < 2 ^ 32, d'.pte v =
        if oldsz ≤ v / pgsize * pgsize ∧ v / pgsize * pgsize < newsz then none else d.pte v)
      (v : Nat) (hv : v < kernbase) : d'.pte v = d₀.pte v := by
    rw [hd' v (lt_of_user hv)]
    rcases Nat.lt_or_ge (v / pgsize * pgsize) oldsz with hlow | hhigh
    · rw [if_neg (by omega)]
      exact hkeep v hv hlow
    · rw [MappedBelow.pte_eq_none hfit.2 hv hhigh]
      split
      · rfl
      · exact hmapped.pte_eq_none hv (by omega)
  induction k generalizing d a with
  | zero => exact .inl ⟨rfl, hmapped.fits ha hnew (by omega) hhi⟩
  | succ k ih =>
    unfold allocLoop
    split
    · next hlt =>
      have hstep : uint (a + pgsize) = a + pgsize ∧ (a + pgsize) % pgsize = 0 ∧
          newsz < a + pgsize + k * pgsize ∧ a / pgsize * pgsize = a := by
        simp only [uint, pgsize, kernbase] at *
        omega
      refine kalloc_fits fun r => ?_
      cases r with
      | none =>
        dsimp only
        rw [safe_bind]
        refine (deallocuvm_fits (Nat.le_of_lt hnew) d).mono fun x _ hx => ?_
        exact .inr ⟨rfl, hundo hlt hmapped hkeep hx.2⟩
      | some mem =>
        have hnone : d.pte a = none := hmapped.pte_eq_none (by omega) (by omega)
        dsimp only
        rw [safe_bind, mappages_page _ _ ha (by omega)]
        refine (mapPage_fits .other (lt_of_user (by omega)) hnone _).mono fun x _ hx => ?_
        obtain ⟨d', ok⟩ := x
        dsimp only at hx ⊢
        cases ok with
        | true =>
          rw [if_pos rfl, hstep.1]
          have hpte (v : Nat) (hv : v < kernbase) : d'.pte v =
              if SamePage v a then some ⟨mem, true, true⟩ else d.pte v := by
            simpa using hx v (lt_of_user hv)
          refine ih hstep.2.1 (by omega) (by omega) hstep.2.2.1 (hmapped.next ha hpte)
            fun v hv hlow => ?_
          rw [hpte v hv, if_neg fun hsame => absurd ((samePage_iff_mem ha).mp hsame) ?_]
          · exact hkeep v hv hlow
          · simp only [pgsize] at *
            omega
        | false =>
          have hsame (v : Nat) (hv : v < kernbase) : d'.pte v = d.pte v := by
            simpa using hx v (lt_of_user hv)
          rw [if_neg (by simp), safe_bind]
          refine (deallocuvm_fits (Nat.le_of_lt hnew) d').mono fun x _ hx' => ?_
          refine kfree_fits (.inr ⟨rfl, hundo hlt (hmapped.congr hsame) (fun v hv hlow => ?_) hx'.2⟩)
          rw [hsame v hv]
          exact hkeep v hv hlow
    · next hlt => exact .inl ⟨rfl, hmapped.fits ha hnew (by omega) hhi⟩

/-- `allocuvm` maps the pages up to `newsz`, or leaves the user pages as they were. -/
theorem allocuvm_fits {oldsz : Nat} (hfit : Fits d oldsz) (newsz : Nat) :
    (allocuvm d oldsz newsz : VmProg n (PageDir × Nat)).Safe fitting (fun x _ =>
      x.2 = max oldsz newsz ∧ Fits x.1 x.2 ∨ x.2 = 0 ∧ ∀ v < kernbase, x.1.pte v = d.pte v) () := by
  unfold allocuvm
  split
  · exact .inr ⟨rfl, fun _ _ => rfl⟩
  split
  · next hlt => exact .inl ⟨by simp; omega, hfit⟩
  next hnew hle =>
  have hold := hfit.1
  have hround : oldsz ≤ pgroundup oldsz ∧ pgroundup oldsz < newsz + pgsize := by
    rw [pgroundup_eq (Nat.le_of_lt hold)]
    simp only [pgsize]
    omega
  have hrounds : newsz < pgroundup oldsz + (newsz / pgsize + 1) * pgsize := by
    simp only [pgsize]
    omega
  refine (allocLoop_fits (by omega) hfit (pgroundup_mod oldsz) hround.1 hround.2 hrounds
    (fun v hv => ?_) fun _ _ _ => rfl).mono fun x _ hx => ?_
  · rw [hfit.2 v hv, pgroundup_eq (Nat.le_of_lt hold)]
    simp only [pgsize]
    omega
  · rcases hx with ⟨hr, hx⟩ | hx
    · exact .inl ⟨by omega, by rw [hr]; exact hx⟩
    · exact .inr hx

theorem Fits.congr {d' : PageDir} (h : Fits d sz)
    (hpte : ∀ v < kernbase, (d'.pte v).isSome = (d.pte v).isSome) : Fits d' sz :=
  ⟨h.1, fun v hv => by rw [hpte v hv]; exact h.2 v hv⟩

theorem fits_zero (h : ∀ v < kernbase, d.pte v = none) : Fits d 0 :=
  ⟨by decide, fun v hv => by simp [h v hv]⟩

/-- Every address below the size is mapped. -/
theorem Fits.table_isSome {v : Nat} (h : Fits d sz) (hv : v < sz) : (d.table (pdx v)).isSome := by
  have hlt := h.1
  have hle : v / pgsize * pgsize ≤ v := Nat.div_mul_le_self ..
  exact table_isSome_of_pte ((h.2 v (by omega)).mpr (by omega))

/-- The loop of `copyuvm`: the pages below `i` are copied. -/
theorem copyLoop_fits {pgdir : PageDir} (hfit : Fits pgdir sz) {k : Nat} {i : Nat}
    (hi : i % pgsize = 0) (hhi : i < sz + pgsize) (hk : sz < i + k * pgsize)
    (hmapped : MappedBelow d i) :
    (copyLoop pgdir sz k d i : VmProg n (Option PageDir)).Safe fitting
      (fun r _ => ∀ d', r = some d' → Fits d' sz) () := by
  have hsz := hfit.1
  have hdone {d : PageDir} (h : Fits d sz) : ∀ d', some d = some d' → Fits d' sz := by
    rintro d' hd'
    cases hd'
    exact h
  have hbad (d : PageDir) : (freevm d >>= fun _ => pure none : VmProg n (Option PageDir)).Safe fitting
      (fun r _ => ∀ d', r = some d' → Fits d' sz) () := by
    rw [safe_bind]
    refine (freevm_fits d).mono fun _ _ _ => ?_
    rintro d' hd'
    cases hd'
  induction k generalizing d i with
  | zero => exact hdone (hmapped.fits hi hsz (by omega) hhi)
  | succ k ih =>
    unfold copyLoop
    split
    · next hlt =>
      have hstep : uint (i + pgsize) = i + pgsize ∧ (i + pgsize) % pgsize = 0 ∧
          sz < i + pgsize + k * pgsize ∧ i / pgsize * pgsize = i := by
        simp only [uint, pgsize, kernbase] at *
        omega
      have hpte := (hfit.2 i (by omega)).mpr (by omega)
      obtain ⟨t, htable⟩ := Option.isSome_iff_exists.mp (hfit.table_isSome hlt)
      rw [htable]
      dsimp only
      cases hentry : t.pte (ptx i) with
      | none => simp [PageDir.pte, htable, hentry] at hpte
      | some x =>
        refine kalloc_fits fun r => ?_
        cases r with
        | none => exact hbad d
        | some mem =>
          have hnone : d.pte i = none := hmapped.pte_eq_none (by omega) (by omega)
          dsimp only
          rw [safe_bind, mappages_page _ _ hi (by omega)]
          refine (mapPage_fits .copyTable (lt_of_user (by omega)) hnone _).mono fun y _ hy => ?_
          obtain ⟨d', ok⟩ := y
          dsimp only at hy ⊢
          cases ok with
          | true =>
            rw [if_pos rfl, hstep.1]
            have hpte (v : Nat) (hv : v < kernbase) : d'.pte v =
                if SamePage v i then some { x with page := mem } else d.pte v := by
              simpa using hy v (lt_of_user hv)
            exact ih hstep.2.1 (by omega) hstep.2.2.1 (hmapped.next hi hpte)
          | false => exact hbad d'
    · next hlt => exact hdone (hmapped.fits hi hsz (by omega) hhi)

theorem copyuvm_fits (k : KernelImage) {pgdir : PageDir} (hfit : Fits pgdir sz) :
    (copyuvm k pgdir sz : VmProg n (Option PageDir)).Safe fitting
      (fun r _ => ∀ d, r = some d → Fits d sz) () := by
  unfold copyuvm
  rw [safe_bind]
  refine (setupkvm_fits k).mono fun r _ hr => ?_
  cases r with
  | none =>
    rintro d hd
    cases hd
  | some d =>
    refine copyLoop_fits hfit (Nat.zero_mod _) (Nat.lt_of_lt_of_le (by decide) (Nat.le_add_left ..))
      ?_ fun v hv => by simp [hr d rfl v hv]
    simp only [pgsize]
    omega

/-! ## Calls -/

/-- What `growproc` does: the size changes by `i`, or nothing changes. -/
def Grown (i : BitVec 32) (d : PageDir) (sz : Nat) (x : Int × PageDir × Nat) : Prop :=
  x.1 = 0 ∧ (x.2.2 : Int) = sz + i.toInt ∧ Fits x.2.1 x.2.2 ∨
    x.1 = -1 ∧ x.2.2 = sz ∧ ∀ v < kernbase, x.2.1.pte v = d.pte v

theorem Grown.fits {x : Int × PageDir × Nat} (h : Grown i d sz x) (hfit : Fits d sz) :
    Fits x.2.1 x.2.2 := by
  rcases h with ⟨_, _, hx⟩ | ⟨_, hsz, hsame⟩
  · exact hx
  · rw [hsz]
    exact hfit.congr fun v hv => by rw [hsame v hv]

theorem grow_fits (hfit : Fits d sz) (hkeeps : Keeps i sz) :
    (grow i d sz : VmProg n (Int × PageDir × Nat)).Safe fitting (fun x _ => Grown i d sz x) () := by
  have hsz := hfit.1
  have hlo := BitVec.le_toInt i
  have hhi := BitVec.toInt_lt (x := i)
  unfold grow
  dsimp only
  split
  · next hpos =>
    have hnew : uint (sz + i.toInt) = sz + i.toInt.toNat := by
      simp only [uint, kernbase] at hsz ⊢
      omega
    rw [hnew, safe_bind]
    refine (allocuvm_fits hfit _).mono fun x _ hx => ?_
    obtain ⟨d', r⟩ := x
    dsimp only at hx ⊢
    rcases hx with ⟨hr, hx⟩ | ⟨rfl, hx⟩
    · have hr' : r = sz + i.toInt.toNat := by omega
      rw [if_neg (by omega)]
      exact .inl ⟨rfl, by simp only; omega, hx⟩
    · rw [if_pos rfl]
      exact .inr ⟨rfl, rfl, hx⟩
  · next hpos =>
    split
    · next hneg =>
      have hlt : 0 < (sz : Int) + i.toInt := by
        rcases hkeeps with h | h
        · omega
        · exact h
      have hnew : uint (sz + i.toInt) = ((sz : Int) + i.toInt).toNat := by
        simp only [uint, kernbase] at hsz ⊢
        omega
      rw [hnew, safe_bind]
      refine (deallocuvm_fits (Nat.le_of_lt hsz) d).mono fun x _ hx => ?_
      obtain ⟨d', r⟩ := x
      dsimp only at hx ⊢
      have hr : r = ((sz : Int) + i.toInt).toNat := by omega
      rw [if_neg (by omega)]
      refine .inl ⟨rfl, by simp only; omega, by simp only; omega, fun v hv => ?_⟩
      dsimp only at hv ⊢
      rw [hx.2 v (lt_of_user hv)]
      have hmapped := hfit.2 v hv
      split
      · simp only [Option.isSome_none, Bool.false_eq_true, false_iff]
        omega
      · rw [hmapped]
        omega
    · next hneg =>
      have hzero : i.toInt = 0 := by omega
      exact .inl ⟨rfl, by simp only; omega, hfit⟩

theorem growproc_fits (i : BitVec 32) :
    (growproc i : VmProg n Int).Safe fitting (fun _ _ => True) () := by
  unfold growproc
  refine lend_fits fun d sz hfit hkeeps => ?_
  dsimp only
  rw [safe_bind]
  refine (grow_fits hfit hkeeps).mono fun x _ hx => ?_
  exact ⟨hx.fits hfit, fun _ _ => trivial⟩

theorem loadLoop_fits (hfit : Fits d sz) {ph : Segment}
    (hph : ph.vaddr.toNat + ph.filesz.toNat ≤ sz) (k i : Nat) :
    (loadLoop d ph k i : VmProg n Bool).Safe fitting (fun _ _ => True) () := by
  induction k generalizing i with
  | zero => trivial
  | succ k ih =>
    unfold loadLoop
    split
    · obtain ⟨t, ht⟩ := Option.isSome_iff_exists.mp
        (hfit.table_isSome (v := ph.vaddr.toNat + i) (by omega))
      rw [ht]
      dsimp only
      split
      · exact ih _
      · trivial
    · trivial

theorem loadSegments_fits (phs : List (Option Segment)) (hfit : Fits d sz) :
    (loadSegments phs d sz : VmProg n (PageDir × Option Nat)).Safe fitting
      (fun x _ => ∀ sz', x.2 = some sz' → Fits x.1 sz') () := by
  have hbad (d : PageDir) : ∀ sz', (none : Option Nat) = some sz' → Fits d sz' := by
    rintro _ h
    cases h
  induction phs generalizing d sz with
  | nil =>
    rintro sz' h
    cases h
    exact hfit
  | cons ph phs ih =>
    cases ph with
    | none => exact hbad d
    | some ph =>
      unfold loadSegments
      dsimp only
      split
      · exact ih hfit
      split
      · exact hbad d
      next hfile =>
      split
      · exact hbad d
      next hwrap =>
      rw [safe_bind]
      refine (allocuvm_fits hfit _).mono fun x _ hx => ?_
      obtain ⟨d', r⟩ := x
      dsimp only at hx ⊢
      split
      · exact hbad d'
      next hr =>
      split
      · exact hbad d'
      rcases hx with ⟨hmax, hfit'⟩ | ⟨hzero, _⟩
      · have hfilesz : ph.filesz.toNat ≤ ph.memsz.toNat := by
          have hle := UInt32.le_iff_toNat_le.mp (UInt32.not_lt.mp hfile)
          exact hle
        have hvaddr := ph.vaddr.toNat_lt
        have hmemsz := ph.memsz.toNat_lt
        have htop : ph.vaddr.toNat + ph.memsz.toNat ≤
            uint (ph.vaddr.toNat + ph.memsz.toNat) := by
          simp only [uint] at hwrap ⊢
          omega
        have hsize : ph.vaddr.toNat + ph.filesz.toNat ≤ r := by omega
        rw [safe_bind]
        refine (loadLoop_fits hfit' hsize _ 0).mono fun ok _ _ => ?_
        split
        · exact ih hfit'
        · exact hbad d'
      · exact absurd hzero hr

theorem execBad_fits (d : PageDir) :
    (execBad d : VmProg n Int).Safe fitting (fun _ _ => True) () := by
  unfold execBad
  rw [safe_bind]
  exact (freevm_fits d).mono fun _ _ _ => trivial

theorem clearpteu_fits {v : Nat} (hfit : Fits d sz) (hv : v < sz) :
    (clearpteu d v : VmProg n PageDir).Safe fitting (fun d' _ => Fits d' sz) () := by
  have hsz := hfit.1
  have hsome := hfit.table_isSome hv
  obtain ⟨t, ht⟩ := Option.isSome_iff_exists.mp hsome
  unfold clearpteu
  rw [ht]
  refine hfit.congr fun w hw => ?_
  simp only [kernbase] at hsz hw
  rw [pte_setPte hsome (by omega) (by omega)]
  split
  · next hsame => rw [pte_eq_of_samePage hsame, Option.isSome_map]
  · rfl

theorem stackTop_eq (h : sz < kernbase) :
    uint (pgroundup sz + 2 * pgsize) = pgroundup sz + 2 * pgsize := by
  refine uint_eq (by omega) ?_
  rw [pgroundup_eq (Nat.le_of_lt h)]
  simp only [pgsize, kernbase] at h ⊢
  omega

/-- The stack pages of `exec` follow on a page boundary. -/
theorem allocStack_fits {newsz : Nat} (hfit : Fits d sz)
    (hnew : newsz = pgroundup sz + 2 * pgsize) :
    (allocuvm d (pgroundup sz) newsz : VmProg n (PageDir × Nat)).Safe fitting
      (fun x _ => x.2 ≠ 0 → Fits x.1 x.2 ∧ 2 * pgsize ≤ x.2) () := by
  have hsz := hfit.1
  by_cases hfull : pgroundup sz < kernbase
  · have hround : Fits d (pgroundup sz) := by
      refine ⟨hfull, fun v hv => (hfit.2 v hv).trans ?_⟩
      rw [pgroundup_eq (Nat.le_of_lt hsz)]
      simp only [pgsize]
      omega
    refine (allocuvm_fits hround newsz).mono fun x _ hx hne => ?_
    rcases hx with ⟨hmax, hx⟩ | ⟨hzero, _⟩
    · exact ⟨hx, by omega⟩
    · exact absurd hzero hne
  · unfold allocuvm
    rw [if_pos (by omega)]
    exact fun hne => absurd rfl hne

theorem exec_fits (k : KernelImage) (x : Program) :
    (exec k x : VmProg n Int).Safe fitting (fun _ _ => True) () := by
  unfold exec
  split
  · trivial
  rw [safe_bind]
  refine (setupkvm_fits k).mono fun r _ hr => ?_
  cases r with
  | none => trivial
  | some d =>
    dsimp only
    rw [safe_bind]
    refine (loadSegments_fits x.segments (fits_zero (hr d rfl))).mono fun y _ hy => ?_
    obtain ⟨d', sz⟩ := y
    cases sz with
    | none => exact execBad_fits d'
    | some sz =>
      have hfit := hy sz rfl
      dsimp only at hfit ⊢
      generalize htop : uint (pgroundup sz + 2 * pgsize) = newsz
      rw [safe_bind]
      refine (allocStack_fits hfit (htop.symm.trans (stackTop_eq hfit.1))).mono fun z _ hz => ?_
      obtain ⟨d'', r⟩ := z
      dsimp only at hz ⊢
      split
      · exact execBad_fits d''
      next hr =>
      obtain ⟨hfit', hle⟩ := hz hr
      have hpos : r - 2 * pgsize < r := by
        simp only [pgsize] at hle ⊢
        omega
      rw [safe_bind]
      refine (clearpteu_fits hfit' hpos).mono fun d₃ _ hfit₃ => ?_
      split
      · rw [safe_bind]
        refine ⟨hfit₃, fun old _ => ?_⟩
        change ((freevm old >>= fun _ => pure 0 : VmProg n Int)).Safe fitting _ ()
        rw [safe_bind]
        exact (freevm_fits old).mono fun _ _ _ => trivial
      · exact execBad_fits d₃

theorem fork_fits (k : KernelImage) : (fork k : VmProg n Int).Safe fitting (fun _ _ => True) () := by
  unfold fork
  rw [safe_bind]
  refine ⟨trivial, fun r _ => ?_⟩
  cases r with
  | none => trivial
  | some np =>
    refine kalloc_fits fun r => ?_
    cases r with
    | none => exact ⟨trivial, fun _ _ => trivial⟩
    | some kstack =>
      refine self_fits fun pgdir sz hfit => ?_
      dsimp only
      rw [safe_bind]
      refine (copyuvm_fits k hfit).mono fun r _ hr => ?_
      cases r with
      | none => exact ⟨trivial, fun _ _ => ⟨trivial, fun _ _ => trivial⟩⟩
      | some d => exact ⟨hr d rfl, fun _ _ => trivial⟩

theorem code_fits (k : KernelImage) (x : Call n) :
    (code k x).Safe fitting (fun _ g => g = ()) () := by
  cases x with
  | fork => exact (fork_fits k).mono fun _ _ _ => rfl
  | exec x => exact (exec_fits k x).mono fun _ _ _ => rfl
  | sbrk i => exact (growproc_fits i).mono fun _ _ _ => rfl
  | exit => exact ⟨trivial, fun _ _ => rfl⟩
  | wait q =>
    unfold code wait
    dsimp only
    rw [safe_bind]
    refine ⟨trivial, fun r _ => ?_⟩
    cases r with
    | none => rfl
    | some x =>
      refine kfree_fits ?_
      rw [safe_bind]
      exact (freevm_fits x.2).mono fun _ _ _ => ⟨trivial, fun _ _ => rfl⟩
  | pipe files =>
    unfold code pipealloc
    dsimp only
    split
    · rfl
    · refine kalloc_fits fun r => ?_
      cases r with
      | none => rfl
      | some page => exact ⟨trivial, fun _ _ => rfl⟩
  | close page writable =>
    unfold code pipeclose
    dsimp only
    rw [safe_bind]
    refine ⟨trivial, fun r _ => ?_⟩
    cases r with
    | false => rfl
    | true => exact ⟨trivial, fun _ _ => rfl⟩

/-! ## Which operations `growproc` calls -/

theorem Op.Maps.allocates (o : Op n) (h : o.Maps) : o.Allocates := by
  cases o <;> trivial

theorem Op.Frees.allocates {o : Op n} (h : o.Frees) : o.Allocates := by
  cases o <;> trivial

theorem allocLoop_only (oldsz newsz k : Nat) (d : PageDir) (a : Nat) :
    (allocLoop oldsz newsz k d a : VmProg n (PageDir × Nat)).Only Op.Allocates := by
  have hfree (d : PageDir) := (deallocuvm_only (n := n) d newsz oldsz).mono fun _ => Op.Frees.allocates
  induction k generalizing d a with
  | zero => trivial
  | succ k ih =>
    unfold allocLoop
    split
    · refine only_bind (only_op.mpr trivial) fun r => ?_
      cases r with
      | none => exact only_bind (hfree d) fun _ => trivial
      | some mem =>
        refine only_bind ((mapLoop_maps ..).mono Op.Maps.allocates) fun ⟨d', ok⟩ => ?_
        dsimp only
        split
        · exact ih ..
        · exact only_bind (hfree _) fun _ => only_bind (only_op.mpr trivial) fun _ => trivial
    · trivial

theorem grow_only (i : BitVec 32) (d : PageDir) (sz : Nat) :
    (grow i d sz : VmProg n (Int × PageDir × Nat)).Only Op.Allocates := by
  unfold grow
  dsimp only
  split
  · refine only_bind ?_ fun _ => trivial
    unfold allocuvm
    split
    · trivial
    split
    · trivial
    · exact allocLoop_only ..
  split
  · exact only_bind ((deallocuvm_only ..).mono fun _ => Op.Frees.allocates) fun _ => trivial
  · trivial

/-! ## Runs -/

/-- A shrinking process keeps at least one byte. -/
def KeepsMemory (p : Fin n) (o : Op n) (s : Memory n) : Prop :=
  match o, s.slot p with
  | .lend i, .live _ _ sz => Keeps i sz
  | _, _ => True

instance (p : Fin n) (o : Op n) (s : Memory n) : Decidable (KeepsMemory p o s) := by
  unfold KeepsMemory
  split <;> infer_instance

/-- The memory of every process fits its size. -/
def AllFit (s : Memory n) : Prop :=
  ∀ p kstack d sz, s.slot p = .live kstack d sz → Fits d sz

theorem AllFit.update {s : Memory n} (h : AllFit s) {q : Fin n} {x : Slot}
    (hx : ∀ kstack d sz, x = .live kstack d sz → Fits d sz) :
    AllFit { s with slot := Function.update s.slot q x } := by
  intro p kstack d sz hp
  rcases eq_or_ne p q with rfl | hpq
  · exact hx kstack d sz (by simpa using hp)
  · exact h p kstack d sz (by simpa [Function.update_of_ne hpq] using hp)

theorem execOp_fits {k : KernelImage} {p : Fin n} {o : Op n} {s t : Memory n} {r : o.Res}
    (h : AllFit s) (hpre : fitting.pre o ()) (hc : KeepsMemory p o s)
    (ht : execOp k p o s = .ok (r, t)) : fitting.may o () r ∧ AllFit t := by
  cases o with
  | kalloc site =>
    simp only [execOp] at ht
    split at ht <;> cases ht <;> exact ⟨trivial, h⟩
  | kfree page =>
    simp only [execOp] at ht
    split at ht <;> cases ht
    exact ⟨trivial, h⟩
  | allocSlot =>
    simp only [execOp] at ht
    split at ht <;> cases ht
    · exact ⟨trivial, h⟩
    · exact ⟨trivial, h.update (by simp)⟩
  | freeSlot np =>
    cases ht
    exact ⟨trivial, h.update (by simp)⟩
  | self =>
    simp only [execOp] at ht
    split at ht
    · next hp =>
      cases ht
      exact ⟨h p _ _ _ hp, h⟩
    · cases ht
  | lend i =>
    simp only [execOp] at ht
    split at ht
    · next hp =>
      cases ht
      simp only [KeepsMemory, hp] at hc
      exact ⟨⟨h p _ _ _ hp, hc⟩, h.update (by simp)⟩
    · cases ht
  | giveBack d sz =>
    simp only [execOp] at ht
    split at ht
    · cases ht
      refine ⟨trivial, h.update fun kstack d' sz' hx => ?_⟩
      cases hx
      exact hpre
    · cases ht
  | swap d sz =>
    simp only [execOp] at ht
    split at ht
    · cases ht
      refine ⟨trivial, h.update fun kstack d' sz' hx => ?_⟩
      cases hx
      exact hpre
    · cases ht
  | runnable np kstack d sz =>
    cases ht
    refine ⟨trivial, h.update fun kstack d' sz' hx => ?_⟩
    cases hx
    exact hpre
  | zombie =>
    simp only [execOp] at ht
    split at ht
    · cases ht
      exact ⟨trivial, h.update (by simp)⟩
    · cases ht
  | reap q =>
    simp only [execOp] at ht
    split at ht <;> cases ht
    · exact ⟨trivial, h.update (by simp)⟩
    · exact ⟨trivial, h⟩
  | newPipe page =>
    cases ht
    exact ⟨trivial, h⟩
  | closeEnd page writable =>
    simp only [execOp] at ht
    split at ht
    · cases ht
    split at ht
    · cases ht
    split at ht <;> cases ht <;> exact ⟨trivial, h⟩
  | panic x => cases ht

/-- The initial configuration: no process is in a call. -/
def idle (s : Memory n) : Config (Op.Res (n := n)) (Memory n) (Fin n) := ⟨s, fun _ => none⟩

/-- A page directory that maps the first page. -/
def onePage : PageDir where
  page := 300
  table i := if i = 0 then some ⟨301, fun j => if j = 0 then some ⟨302, true, true⟩ else none⟩ else none

theorem onePage_fits : Fits onePage pgsize := by
  refine ⟨by decide, fun v hv => ?_⟩
  have hpte : (onePage.pte v).isSome = true ↔ pdx v = 0 ∧ ptx v = 0 := by
    unfold PageDir.pte onePage
    by_cases hp : pdx v = 0 <;> by_cases hq : ptx v = 0 <;> simp [hp, hq]
  rw [hpte]
  simp only [pdx, ptx, pgsize, nentries, kernbase] at *
  omega

/-- A kernel that ends below the second megabyte. -/
def smallKernel : KernelImage := ⟨0x80108000, 0x110, by decide, by decide, by decide⟩

/-- One process of one page, and one free page. -/
def oneProcess : Memory 1 := ⟨[1000], fun _ => .live 999 onePage pgsize, []⟩

theorem oneProcess_fits : AllFit oneProcess := by
  rintro p kstack d sz hp
  cases hp
  exact onePage_fits

/-- The size of a process, and whether an address is mapped for it. -/
def Memory.look (s : Memory n) (p : Fin n) (v : Nat) : Option (Nat × Bool) :=
  match s.slot p with
  | .live _ d sz => some (sz, (d.pte v).isSome)
  | _ => none

end Xv6Containers.Vm
