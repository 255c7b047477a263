import Xv6Containers.Vm.Exec
import Xv6Containers.Vm.Image

/-!
# The pages that exec works with

`exec` works on pages that were free when it was called, and on the pages of the
old image once it has replaced it. While it builds the new image, the pages it
holds and those still free are together the pages that were free before, memory
outside of them stays as it was, and every byte is stored on a user page of the
new image.

The programs of `Vm.PageTable` keep this for whatever they hold: what was proved of
them for sizes, ownership and sources gives one rule for their runs here.
-/

namespace Xv6Containers.Vm

open Lib.Memory Lib.Program Prog

variable {k : KernelImage} {total held : Multiset Nat} {m₀ m t : Machine} {calls : List FsCall}

/-- A page that `kalloc` may hand out and `kfree` takes back. -/
def Frame (k : KernelImage) (page : Nat) : Prop :=
  0 < page ∧ k.first ≤ page ∧ page < physTop / pgsize

/-- The address lies on the page. -/
def InPage (page a : Nat) : Prop := p2v page ≤ a ∧ a < p2v page + pgsize

/-- The page holds the directory or one of its page tables. -/
def PageDir.IsTable (d : PageDir) (page : Nat) : Prop :=
  d.page = page ∨ ∃ i < nentries, ∃ t, d.table i = some t ∧ t.page = page

/-- The bytes go to a user page below `KERNBASE`, which is one of the given pages and no
page table, at the place of the address they are meant for. -/
structure Store.Good (total : Multiset Nat) (st : Store) : Prop where
  below : st.va < kernbase
  page : ∃ x, st.d.pte st.va = some x ∧ x.user = true ∧ x.page ∈ total ∧
    ¬ st.d.IsTable x.page ∧ st.dst = p2v x.page + st.va % pgsize
  length : st.va % pgsize + st.bs.length ≤ pgsize

/-- Pages that are there once each. -/
structure Custody (k : KernelImage) (total : Multiset Nat) : Prop where
  nodup : total.Nodup
  frames : ∀ page ∈ total, Frame k page

/-- Between `m₀` and `m` the given calls were made and only the pages of `total` were touched,
of which those in `held` are in use. -/
structure Working (total : Multiset Nat) (m₀ : Machine) (calls : List FsCall)
    (held : Multiset Nat) (m : Machine) : Prop where
  pages : held + m.free = total
  mem : ∀ a, (∀ page ∈ total, ¬ InPage page a) → m.mem a = m₀.mem a
  zero : m.zero = m₀.zero
  found : m.found = m₀.found
  caller : m.caller = m₀.caller
  calls : m.calls = m₀.calls ++ calls
  stores : ∃ new, m.stores = m₀.stores ++ new ∧ ∀ st ∈ new, st.Good total

theorem Working.start (m : Machine) (held : Multiset Nat) : Working (held + m.free) m [] held m where
  pages := rfl
  mem := fun _ _ => rfl
  zero := rfl
  found := rfl
  caller := rfl
  calls := (List.append_nil _).symm
  stores := ⟨[], (List.append_nil _).symm, fun _ h => nomatch h⟩

theorem Working.refl (m : Machine) : Working m.free m [] 0 m := by
  have h := Working.start m 0
  rwa [zero_add] at h

/-- A change of the free list and of one page of the custody. -/
theorem Working.fill (h : Working total m₀ calls held m) {free : List Nat} {held' : Multiset Nat}
    (hpages : held' + free = total) {page : Nat} (hpage : page ∈ total) (b : Byte) :
    Working total m₀ calls held' ({ m with free := free }.fill page b) where
  pages := hpages
  mem := fun a ha => by
    have hout : ¬ (p2v page ≤ a ∧ a < p2v page + pgsize) := ha page hpage
    simp only [Machine.fill, if_neg hout]
    exact h.mem a ha
  zero := h.zero
  found := h.found
  caller := h.caller
  calls := h.calls
  stores := h.stores

/-- A call of the file system. -/
theorem Working.call (h : Working total m₀ calls held m) (c : FsCall) :
    Working total m₀ (calls ++ [c]) held (m.call c) where
  pages := h.pages
  mem := h.mem
  zero := h.zero
  found := h.found
  caller := h.caller
  calls := by rw [Machine.call, h.calls, List.append_assoc]
  stores := h.stores

/-- Bytes are stored on a page of the custody. -/
theorem Working.store (h : Working total m₀ calls held m) {st : Store} (hst : st.Good total) :
    Working total m₀ calls held
      { m with mem := blit m.mem st.dst st.bs, stores := m.stores ++ [st] } where
  pages := h.pages
  mem := fun a ha => by
    obtain ⟨x, -, -, hpage, -, hdst⟩ := hst.page
    have hlen := hst.length
    have hout : a < st.dst ∨ st.dst + st.bs.length ≤ a := by
      have hnot := ha x.page hpage
      unfold InPage at hnot
      omega
    dsimp only
    rw [blit_disjoint _ _ hout]
    exact h.mem a ha
  zero := h.zero
  found := h.found
  caller := h.caller
  calls := h.calls
  stores := by
    obtain ⟨new, hnew, hgood⟩ := h.stores
    refine ⟨new ++ [st], by rw [hnew, List.append_assoc], ?_⟩
    intro st' hst'
    rcases List.mem_append.mp hst' with hmem | hmem
    · exact hgood st' hmem
    · rw [List.mem_singleton.mp hmem]
      exact hst

theorem pages_eq_page (d : PageDir) : ∃ rest, d.pages = d.page ::ₘ rest := by
  rw [PageDir.pages, Multiset.singleton_add]
  exact ⟨_, rfl⟩

variable {d : PageDir}

theorem pages_eq_table {i : Nat} (hi : i < nentries) {t : Table} (ht : d.table i = some t) :
    ∃ rest, d.pages = t.page ::ₘ rest := by
  obtain ⟨others, hsum⟩ : ∃ others, ∑ j ∈ Finset.range nentries, tablePages j (d.table j) =
      tablePages i (d.table i) + others :=
    ⟨_, (Finset.add_sum_erase _ _ (Finset.mem_range.mpr hi)).symm⟩
  have htable : ∃ own, tablePages i (d.table i) = {t.page} + own := by
    rw [ht]
    exact ⟨_, rfl⟩
  obtain ⟨own, hown⟩ := htable
  refine ⟨{d.page} + (own + others), ?_⟩
  rw [PageDir.pages, hsum, hown, ← Multiset.singleton_add, add_assoc, add_left_comm]

/-- A page of user memory beside all others of the directory. -/
theorem pages_eq_pte {v : Nat} (hv : v < kernbase) {x : Pte} (hx : d.pte v = some x) :
    (d.setPte v none).pages + {x.page} = d.pages := by
  have htable : (d.table (pdx v)).isSome := table_isSome_of_pte (by simp [hx])
  have hpages := pages_setPte htable none
  rw [hx, entryPages_user hv] at hpages
  have hzero : entryPages v none = 0 := by
    unfold entryPages ptePages
    split <;> rfl
  rw [hzero, add_zero] at hpages
  exact hpages

/-- A page of user memory is none of the page tables. -/
theorem not_isTable (heq : held = d.pages) (hd : held.Nodup) {v : Nat} (hv : v < kernbase)
    {x : Pte} (hx : d.pte v = some x) : ¬ d.IsTable x.page := by
  have htable : (d.table (pdx v)).isSome := table_isSome_of_pte (by simp [hx])
  have hpages := pages_eq_pte hv hx
  rintro (hdir | ⟨i, hi, t, ht, htp⟩)
  · obtain ⟨rest, hrest⟩ := pages_eq_page (d.setPte v none)
    rw [heq, ← hpages, hrest, page_setPte, hdir, Multiset.cons_add, Multiset.nodup_cons] at hd
    exact hd.1 (by simp)
  · obtain ⟨t', ht', hpage⟩ : ∃ t', (d.setPte v none).table i = some t' ∧ t'.page = x.page := by
      unfold PageDir.setPte
      obtain ⟨u, hu⟩ := Option.isSome_iff_exists.mp htable
      rw [hu]
      dsimp only
      rcases eq_or_ne i (pdx v) with rfl | hne
      · rw [Function.update_self]
        refine ⟨_, rfl, ?_⟩
        rw [hu] at ht
        cases ht
        exact htp
      · rw [Function.update_of_ne hne]
        exact ⟨t, ht, htp⟩
    obtain ⟨rest, hrest⟩ := pages_eq_table hi ht'
    rw [heq, ← hpages, hrest, hpage, Multiset.cons_add, Multiset.nodup_cons] at hd
    exact hd.1 (by simp)

theorem Custody.le (hc : Custody k total) {part : Multiset Nat} (h : part ≤ total) : Custody k part where
  nodup := Multiset.nodup_of_le h hc.nodup
  frames := fun page hpage => hc.frames page (Multiset.mem_of_le h hpage)

theorem Working.nodup (hc : Custody k total) (h : Working total m₀ calls held m) : held.Nodup :=
  (hc.le (h.pages ▸ Multiset.le_add_right _ _)).nodup

/-! ## Programs on page directories -/

/-- What the programs on page directories are known to keep. -/
def keeping (total : Multiset Nat) : Discipline (Op.Res (n := 0)) ((Unit × Held 0) × Unit) :=
  (fitting.prod (owning fun _ => True)).prod (sourced (· ∈ total))

/-- One operation. -/
theorem vmStep_yields (hc : Custody k total) {o : Op 0} (ho : o.Allocates)
    {g : (Unit × Held 0) × Unit} (h : Working total m₀ calls g.1.2.pages m)
    (hpre : (keeping total).pre o g) :
    Yields (fun _ => False) (fun r => (keeping total).may o g r.1 ∧
      Working total m₀ calls ((keeping total).next o r.1 g).1.2.pages r.2) (m.vmStep k o) := by
  obtain ⟨⟨u, hold⟩, u'⟩ := g
  have hpages := h.pages
  dsimp only at hpages
  cases o with
  | kalloc site =>
    cases hfree : m.free with
    | nil =>
      rw [m.vmStep_kalloc_nil site hfree]
      refine ⟨⟨⟨trivial, fun _ => trivial⟩, fun _ hnone => nomatch hnone⟩, ?_⟩
      change Working total m₀ calls (0 + (hold.pages - 0)) m
      rw [zero_add, tsub_zero]
      exact h
    | cons page rest =>
      rw [hfree] at hpages
      have hin : page ∈ total := by
        rw [← hpages]
        simp
      rw [m.vmStep_kalloc_cons site hfree]
      refine ⟨⟨⟨trivial, fun _ => trivial⟩, ?_⟩, ?_⟩
      · intro page' hpage
        cases hpage
        exact hin
      · change Working total m₀ calls ({page} + (hold.pages - 0)) _
        rw [tsub_zero]
        apply h.fill _ hin
        rw [← hpages, add_right_comm, add_comm]
        rfl
  | kfree page =>
    have hgiven : {page} ≤ hold.pages := hpre.1.2.1
    have hin : page ∈ total := by
      rw [← hpages]
      exact Multiset.mem_add.mpr (.inl (Multiset.singleton_le.mp hgiven))
    have hframe := hc.frames page hin
    rw [m.vmStep_kfree hframe.2]
    refine ⟨⟨⟨trivial, trivial⟩, trivial⟩, ?_⟩
    change Working total m₀ calls (0 + (hold.pages - {page})) _
    rw [zero_add]
    apply h.fill _ hin
    rw [← hpages, ← Multiset.cons_coe, ← Multiset.singleton_add, ← add_assoc,
      tsub_add_cancel_of_le hgiven]
  | panic p => exact absurd hpre.1.1 hpre.2
  | _ => exact absurd ho (by simp [Op.Allocates])

/-- A program on page directories runs to its end and keeps the custody. -/
theorem vm_yields (hc : Custody k total) {α : Type} {x : VmProg 0 α} {P R : α → Unit → Prop}
    {Q : α → Held 0 → Prop} {g : Held 0} (hfit : x.Safe fitting P ())
    (howns : x.Safe (owning fun _ => True) Q g) (hsource : x.Safe (sourced (· ∈ total)) R ())
    (honly : x.Only Op.Allocates) (h : Working total m₀ calls g.pages m) :
    Yields (fun _ => False) (fun r => P r.1 () ∧ R r.1 () ∧
      ∃ g', Q r.1 g' ∧ Working total m₀ calls g'.pages r.2) ((vm x).run (Machine.step k) m) := by
  rw [Machine.run_vm]
  have hsafe : x.Safe (keeping total) _ (((), g), ()) := (hfit.prod howns).prod hsource
  have hrun : Yields (fun _ => False) _ (x.run (fun o m => Machine.vmStep k o m) m) :=
    hsafe.yields (I := fun g m => Working total m₀ calls g.1.2.pages m)
      (fun o g m ho hI hpre => vmStep_yields hc ho hI hpre) honly h
  apply hrun.mono fun _ h => h
  rintro r ⟨g', ⟨⟨hP, hQ⟩, hR⟩, hwork⟩
  exact ⟨hP, hR, g'.1.2, hQ, hwork⟩

/-- The programs on page directories store no bytes of the file or of the arguments. -/
theorem vm_stores {α : Type} (x : VmProg 0 α) (m : Machine) :
    Yields (fun _ => True) (fun r => r.2.stores = m.stores) ((vm x).run (Machine.step k) m) := by
  rw [Machine.run_vm]
  refine run_keeps (I := fun s : Machine => s.stores = m.stores) ?_ x rfl
  intro o s hs
  cases o with
  | kalloc site =>
    cases hfree : s.free with
    | nil =>
      rw [s.vmStep_kalloc_nil site hfree]
      exact hs
    | cons page rest =>
      rw [s.vmStep_kalloc_cons site hfree]
      exact hs
  | kfree page =>
    change Yields _ _ (if page < k.first ∨ physTop / pgsize ≤ page then _ else _)
    split
    · trivial
    · exact hs
  | swap d sz => exact hs
  | _ => trivial

/-! ## The functions of `vm.c` -/

/-- What is known of the image while `exec` loads it. -/
structure Loading (total : Multiset Nat) (d : PageDir) (sz : Nat) : Prop where
  fits : Fits d sz
  image : Image (· ∈ total) d

theorem Custody.ne_zero (hc : Custody k total) (page : Nat) (h : page ∈ total) : page ≠ 0 :=
  Nat.pos_iff_ne_zero.mp (hc.frames page h).1

theorem setupLoop_only (ms : List Kmap) (d : PageDir) :
    (setupLoop ms d : VmProg 0 (Option PageDir)).Only Op.Allocates := by
  induction ms generalizing d with
  | nil => trivial
  | cons m ms ih =>
    unfold setupLoop
    refine only_bind ((mapLoop_maps ..).mono Op.Maps.allocates) fun x => ?_
    obtain ⟨d', ok⟩ := x
    dsimp only
    split
    · exact ih d'
    · exact only_bind ((freevm_only d').mono fun _ => Op.Frees.allocates) fun _ => trivial

theorem setupkvm_only (k : KernelImage) :
    (setupkvm k : VmProg 0 (Option PageDir)).Only Op.Allocates := by
  refine only_bind (only_op.mpr trivial) fun r => ?_
  cases r with
  | none => trivial
  | some page => exact setupLoop_only ..

theorem allocuvm_only (d : PageDir) (oldsz newsz : Nat) :
    (allocuvm d oldsz newsz : VmProg 0 (PageDir × Nat)).Only Op.Allocates := by
  unfold allocuvm
  split
  · trivial
  split
  · trivial
  · exact allocLoop_only ..

theorem clearpteu_only (d : PageDir) (va : Nat) :
    (clearpteu d va : VmProg 0 PageDir).Only Op.Allocates := by
  unfold clearpteu
  split
  · exact ⟨trivial, fun r => r.elim⟩
  · trivial

section Calls

variable (hc : Custody k total)

include hc

theorem setupkvm_yields (h : Working total m₀ calls 0 m) :
    Yields (fun _ => False) (fun r => match r.1 with
        | none => Working total m₀ calls 0 r.2
        | some d => Loading total d 0 ∧ Working total m₀ calls d.pages r.2)
      ((vm (setupkvm k)).run (Machine.step k) m) := by
  have howns := setupkvm_owns (n := 0) (E := fun _ => True) (F := 0) (q := none) k
  apply (vm_yields hc (setupkvm_fits k) howns (setupkvm_sourced hc.ne_zero k)
    (setupkvm_only k) h).mono fun _ h => h
  rintro ⟨r, t⟩ ⟨hfit, hsource, g, ⟨rfl, -⟩, hwork⟩
  dsimp only at hfit hsource hwork ⊢
  rw [add_zero] at hwork
  cases r with
  | none => exact hwork
  | some d => exact ⟨⟨fits_zero (hfit d rfl), hsource d rfl⟩, hwork⟩

variable {d : PageDir}

theorem allocuvm_yields {oldsz : Nat} (hd : Loading total d oldsz) (newsz : Nat)
    (h : Working total m₀ calls d.pages m) :
    Yields (fun _ => False) (fun r => Working total m₀ calls r.1.1.pages r.2 ∧
        Image (· ∈ total) r.1.1 ∧ (r.1.2 ≠ 0 → r.1.2 = max oldsz newsz ∧ Fits r.1.1 r.1.2))
      ((vm (allocuvm d oldsz newsz)).run (Machine.step k) m) := by
  have howns : (allocuvm d oldsz newsz : VmProg 0 (PageDir × Nat)).Safe (owning fun _ => True) _
      ⟨d.pages + 0, none⟩ := allocuvm_owns (fun _ => hd.fits.1) d
  rw [add_zero] at howns
  apply (vm_yields hc (allocuvm_fits hd.fits newsz) howns
    (allocuvm_sourced hc.ne_zero hd.image oldsz newsz) (allocuvm_only ..) h).mono fun _ h => h
  rintro ⟨⟨d', sz⟩, t⟩ ⟨hfit, hsource, g, ⟨rfl, -⟩, hwork⟩
  dsimp only at hfit hsource hwork ⊢
  rw [add_zero] at hwork
  refine ⟨hwork, hsource, fun hne => ?_⟩
  rcases hfit with hfit | ⟨hzero, -⟩
  · exact hfit
  · exact absurd hzero hne

theorem freevm_yields (hd : Sourced (· ∈ total) d) (h : Working total m₀ calls d.pages m) :
    Yields (fun _ => False) (fun r => Working total m₀ calls 0 r.2)
      ((vm (freevm d)).run (Machine.step k) m) := by
  have howns := freevm_owns (n := 0) (E := fun _ => True) (F := 0) (q := none) d
  rw [add_zero] at howns
  apply (vm_yields hc (freevm_fits d) howns (freevm_sourced hc.ne_zero hd)
    ((freevm_only d).mono fun _ => Op.Frees.allocates) h).mono fun _ h => h
  rintro ⟨u, t⟩ ⟨-, -, g, rfl, hwork⟩
  exact hwork

/-- The image with the page at `v` taken from the user. -/
structure Guarded (total : Multiset Nat) (d : PageDir) (sz v : Nat) : Prop where
  fits : Fits d sz
  user : Sourced (· ∈ total) d
  access : ∀ w < 2 ^ 32, ∀ x, d.pte w = some x → (x.user = true ↔ w < kernbase ∧ ¬ SamePage w v)
  devices : ∀ w < 2 ^ 32, devspace ≤ w → (d.table (pdx w)).isSome

theorem clearpteu_yields {sz v : Nat} (hd : Loading total d sz) (hv : v < sz)
    (h : Working total m₀ calls d.pages m) :
    Yields (fun _ => False)
      (fun r => Working total m₀ calls r.1.pages r.2 ∧ Guarded total r.1 sz v)
      ((vm (clearpteu d v)).run (Machine.step k) m) := by
  have hlt : v < 2 ^ 32 := by
    have hsz := hd.fits.1
    simp only [kernbase] at hsz
    omega
  have howns := clearpteu_owns (n := 0) (E := fun _ => True) (F := 0) (q := none) d v
  rw [add_zero] at howns
  apply (vm_yields hc (clearpteu_fits hd.fits hv) howns
    (clearpteu_sourced d hlt) (clearpteu_only ..) h).mono fun _ h => h
  rintro ⟨d', t⟩ ⟨hfit, ⟨hgrows, hpte⟩, g, rfl, hwork⟩
  dsimp only at hfit hgrows hpte hwork ⊢
  rw [add_zero] at hwork
  refine ⟨hwork, hfit, ?_, ?_, ?_⟩
  · intro w hw x hx
    simp only [kernbase] at hw
    rw [hpte w (by omega)] at hx
    split at hx
    · obtain ⟨y, hy, rfl⟩ := Option.map_eq_some_iff.mp hx
      exact hd.image.user w hw y hy
    · exact hd.image.user w hw x hx
  · intro w hw x hx
    rw [hpte w hw] at hx
    split at hx
    · next hsame =>
      obtain ⟨y, hy, rfl⟩ := Option.map_eq_some_iff.mp hx
      simp [hsame]
    · next hsame =>
      rw [hd.image.access w hw x hx, and_iff_left hsame]
  · exact fun w hw hdev => hgrows _ (hd.image.devices w hw hdev)

end Calls

end Xv6Containers.Vm
