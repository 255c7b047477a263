import Xv6Containers.Container.Isolation
import Xv6Containers.Container.MemoryCount
import Xv6Containers.Vm.PageTable

/-!
# The count of pages in use

`kinit1` and `kinit2` put the page frames on the free list, and `kinit2` clears the
counter `kmem.i` that `mem_usage` returns. `kfree` counts down for every page that it
puts back, but `kalloc` counts up whether or not it finds a page. The counter is the
number of pages in use exactly as long as no `kalloc` finds the list empty.

## Implementation notes

The runs are those of the page accounting of the containers, over the page frames that
`kfree` accepts. `Heap.i` does not wrap; `memUsage` reads it as the `int` of the kernel,
which is the same as wrapping at each step. While `use_lock` is 0, `kfree` does not look
at the containers.
-/

namespace Xv6Containers

open Lib.Runs

namespace Container

/-! ## Filling the free list -/

/-- A page frame that `kfree` accepts: aligned, after the kernel and below `PHYSTOP`. `kend` is
the address of `end`. -/
structure PhysPage (kend : UInt32) where
  addr : UInt32
  aligned : addr.toNat % Vm.pgsize = 0
  after : kend ≤ addr
  below : Vm.uint (addr.toNat - Vm.kernbase) < Vm.physTop
  deriving DecidableEq

/-- The test of `kfree`; without a frame it panics. -/
def physPage (kend v : UInt32) : Option (PhysPage kend) :=
  if h : v.toNat % Vm.pgsize = 0 ∧ kend ≤ v ∧ Vm.uint (v.toNat - Vm.kernbase) < Vm.physTop then
    some ⟨v, h.1, h.2.1, h.2.2⟩
  else none

variable {kend : UInt32}

/-- The page frame number, which tells the frames apart. -/
def PhysPage.number (v : PhysPage kend) : Fin (Vm.physTop / Vm.pgsize) :=
  ⟨Vm.uint (v.addr.toNat - Vm.kernbase) / Vm.pgsize,
    Nat.div_lt_div_of_lt_of_dvd (by decide) v.below⟩

theorem PhysPage.number_injective : Function.Injective (PhysPage.number : PhysPage kend → _) := by
  intro v w hvw
  have hnumber := congrArg Fin.val hvw
  have hv := v.aligned
  have hw := w.aligned
  have hv32 := v.addr.toNat_lt
  have hw32 := w.addr.toNat_lt
  simp only [PhysPage.number, Vm.uint, Vm.kernbase, Vm.pgsize] at hnumber hv hw
  have haddr : v.addr.toNat = w.addr.toNat := by omega
  obtain ⟨a, _, _, _⟩ := v
  obtain ⟨b, _, _, _⟩ := w
  obtain rfl : a = b := UInt32.toNat_inj.mp haddr
  rfl

/-- There are fewer page frames than the counter can hold. -/
theorem length_le_frames {l : List (PhysPage kend)} (h : l.Nodup) : l.length ≤ 57344 := by
  calc
    l.length = (l.map PhysPage.number).length := (List.length_map ..).symm
    _ ≤ Fintype.card (Fin (Vm.physTop / Vm.pgsize)) :=
      (h.map PhysPage.number_injective).length_le_card
    _ = 57344 := Fintype.card_fin _

/-- `kfree` while `use_lock` is 0. -/
def kfreeUnlocked {Page : Type} (h : Heap Page) (v : Page) : Heap Page :=
  { h with freelist := v :: h.freelist, i := h.i - 1 }

/-- The loop of `freerange`. -/
def freeLoop (vend : UInt32) : Nat → UInt32 → Heap (PhysPage kend) → Option (Heap (PhysPage kend))
  | 0, _, _ => none
  | fuel + 1, p, h =>
    if p + 4096 ≤ vend then
      (physPage kend p).bind fun v => freeLoop vend fuel (p + 4096) (kfreeUnlocked h v)
    else some h

/-- `freerange`. There are no more than `2 ^ 20` pages to free. -/
def freerange (h : Heap (PhysPage kend)) (vstart vend : UInt32) : Option (Heap (PhysPage kend)) :=
  freeLoop vend (2 ^ 20 + 1) (UInt32.ofNat (Vm.pgroundup vstart.toNat)) h

/-- `kinit2`. -/
def kinit2 (h : Heap (PhysPage kend)) (vstart vend : UInt32) : Option (Heap (PhysPage kend)) :=
  (freerange h vstart vend).map fun h => { h with i := 0 }

theorem kinit2_i {h t : Heap (PhysPage kend)} {vstart vend : UInt32}
    (hinit : kinit2 h vstart vend = some t) : t.i = 0 := by
  obtain ⟨u, _, rfl⟩ := Option.map_eq_some_iff.mp hinit
  rfl

/-- `mem_usage`. -/
def memUsage {Page : Type} (h : Heap Page) : Int := h.i.bmod (2 ^ 32)

namespace Pages

variable {Page : Type}

/-! ## One call -/

/-- The pages that an event hands out, less those it takes back. -/
def moved (t : Tracked Page) : Event Page → Int
  | .kalloc me =>
    match Container.kalloc t.heap me with
    | some (some _, _) => 1
    | _ => 0
  | .kfree _ _ => -1
  | _ => 0

/-- The pages handed out and not yet returned over a run. -/
def handedOut [DecidableEq Page] (t : Tracked Page) : List (Event Page) → Int
  | [] => 0
  | e :: es =>
    moved t e +
      match step t e with
      | none => 0
      | some u => handedOut u es

/-- A `kalloc` finds a page. -/
def Served (t : Tracked Page) : Event Page → Prop
  | .kalloc _ => t.heap.freelist ≠ []
  | _ => True

instance (t : Tracked Page) (e : Event Page) : Decidable (Served t e) := by
  rcases e with _ | _ <;> dsimp only [Served] <;> infer_instance

/-- The counter and the list after a `kalloc` that finds a page. -/
theorem kalloc_served {h : Heap Page} {me : ProcSlot} {v : Page} {rest : List Page}
    (hlist : h.freelist = v :: rest) {r : Option Page × Heap Page}
    (hcall : Container.kalloc h me = some r) :
    r.1 = some v ∧ r.2.freelist = rest ∧ r.2.i = h.i + 1 := by
  simp only [Container.kalloc, hlist] at hcall
  split at hcall
  · cases hcall
    exact ⟨rfl, rfl, rfl⟩
  · split at hcall
    · obtain ⟨s, _, rfl⟩ := Option.map_eq_some_iff.mp hcall
      exact ⟨rfl, rfl, rfl⟩
    · cases hcall
      exact ⟨rfl, rfl, rfl⟩

theorem kfree_list (h : Heap Page) (me : ProcSlot) (v : Page) :
    (Container.kfree h me v).freelist = v :: h.freelist ∧ (Container.kfree h me v).i = h.i - 1 := by
  unfold Container.kfree
  dsimp only
  split
  · exact ⟨rfl, rfl⟩
  · exact ⟨rfl, rfl⟩

/-- What a step does to the list and to the counter as far as they are concerned: both move by
the pages handed out. -/
structure Moves (n : Int) (h k : Heap Page) : Prop where
  counter : k.i = h.i + n
  list : (k.freelist.length : Int) = h.freelist.length - n
  nodup : h.freelist.Nodup → k.freelist.Nodup

theorem Moves.still {h k : Heap Page} (hi : k.i = h.i) (hlist : k.freelist = h.freelist) :
    Moves 0 h k where
  counter := by rw [hi, add_zero]
  list := by rw [hlist, sub_zero]
  nodup := by
    rw [hlist]
    exact id

theorem step_moves [DecidableEq Page] {t u : Tracked Page} {e : Event Page} (hserved : Served t e)
    (hstep : step t e = some u) : Moves (moved t e) t.heap u.heap := by
  cases e with
  | kalloc me =>
    obtain ⟨r, hcall, rfl⟩ := Option.map_eq_some_iff.mp hstep
    obtain ⟨v, rest, hlist⟩ := List.exists_cons_of_ne_nil hserved
    obtain ⟨hpage, hrest, hi⟩ := kalloc_served hlist hcall
    obtain ⟨page, k⟩ := r
    obtain rfl : page = some v := hpage
    simp only [moved, hcall]
    refine ⟨hi, ?_, fun hnodup => ?_⟩
    · rw [hlist, List.length_cons]
      rw [hrest]
      omega
    · rw [hlist, List.nodup_cons] at hnodup
      rw [hrest]
      exact hnodup.2
  | kfree me v =>
    simp only [step] at hstep
    split at hstep
    · cases hstep
    · next hfresh =>
      cases hstep
      obtain ⟨hlist, hi⟩ := kfree_list t.heap me v
      refine ⟨hi, ?_, fun hnodup => ?_⟩
      · rw [hlist, List.length_cons]
        simp only [moved]
        omega
      · rw [hlist, List.nodup_cons]
        exact ⟨hfresh, hnodup⟩
  | tick =>
    cases hstep
    exact Moves.still rfl rfl
  | setCurrMem vc =>
    obtain ⟨h, hcall, rfl⟩ := Option.map_eq_some_iff.mp hstep
    obtain ⟨s, _, rfl⟩ := Option.map_eq_some_iff.mp hcall
    exact Moves.still rfl rfl
  | reduceCurrMem vc =>
    obtain ⟨h, hcall, rfl⟩ := Option.map_eq_some_iff.mp hstep
    obtain ⟨s, _, rfl⟩ := Option.map_eq_some_iff.mp hcall
    exact Moves.still rfl rfl
  | process e =>
    obtain ⟨b, _, rfl⟩ := Option.map_eq_some_iff.mp hstep
    exact Moves.still rfl rfl

/-- A `kalloc` that finds nothing counts all the same. -/
theorem step_unserved [DecidableEq Page] {t : Tracked Page} {e : Event Page} (h : ¬ Served t e) :
    t.heap.freelist = [] ∧
      ∃ u, step t e = some u ∧ u.heap.freelist = [] ∧ u.heap.i = t.heap.i + 1 := by
  cases e with
  | kalloc me =>
    have hempty : t.heap.freelist = [] := not_not.mp h
    have hcall : Container.kalloc t.heap me = some (none, { t.heap with i := t.heap.i + 1 }) := by
      simp only [Container.kalloc, hempty]
    refine ⟨hempty, ⟨{ t.heap with i := t.heap.i + 1 }, track t.heap.cs.table t.owner⟩, ?_,
      hempty, rfl⟩
    simp only [step, hcall, Option.map_some]
    rfl
  | _ => exact absurd trivial h

/-! ## Whole runs -/

/-- `mem_usage` is the number of pages that are out, by the calls and by the list that had
`total` pages at first. -/
structure Accurate (total out : Int) (h : Heap Page) : Prop where
  calls : memUsage h = out
  list : memUsage h = total - h.freelist.length
  atMost : memUsage h ≤ total

/-- The counter itself, before it is read as an `int`. -/
structure Exact (total out : Int) (h : Heap Page) : Prop where
  calls : h.i = out
  list : h.i = total - h.freelist.length
  nodup : h.freelist.Nodup

theorem Exact.moves {total out n : Int} {h k : Heap Page} (hh : Exact total out h)
    (hm : Moves n h k) : Exact total (out + n) k where
  calls := by rw [hm.counter, hh.calls]
  list := by
    rw [hm.counter, hm.list, hh.list]
    omega
  nodup := hm.nodup hh.nodup

/-- Counters of the page frames are far from the ends of the `int` range. -/
theorem Exact.accurate {total out : Int} {h : Heap (PhysPage kend)} (hh : Exact total out h)
    (htotal : 0 ≤ total ∧ total ≤ 57344) : Accurate total out h := by
  have hlen := length_le_frames hh.nodup
  have hlist := hh.list
  have hread : memUsage h = h.i := by
    apply Int.bmod_eq_of_le
    · omega
    · omega
  refine ⟨hread.trans hh.calls, hread.trans hlist, ?_⟩
  omega

/-- Along a run the counter is accurate in every state that is reached, as long as and only as
long as the calls find pages. -/
theorem accurate_iff_served {total : Int} (htotal : 0 ≤ total ∧ total ≤ 57344)
    (es : List (Event (PhysPage kend))) :
    ∀ (t : Tracked (PhysPage kend)) (out : Int), Exact total out t.heap →
      ((∀ pre, pre <+: es → ∀ u, run step t pre = some u →
          Accurate total (out + handedOut t pre) u.heap) ↔ Always step Served t es) := by
  induction es with
  | nil =>
    intro t out hexact
    refine iff_of_true (fun pre hpre u hrun => ?_) trivial
    obtain rfl := List.prefix_nil.mp hpre
    obtain rfl := Option.some.inj hrun
    rw [handedOut, add_zero]
    exact hexact.accurate htotal
  | cons e es ih =>
    intro t out hexact
    constructor
    · intro hall
      have hserved : Served t e := by
        by_contra hnot
        -- the counter passes the length of the list at the first call that finds nothing
        obtain ⟨hempty, u, hstep, hnone, hi⟩ := step_unserved hnot
        have hu := hall [e] (by simp) u (by simp [run, hstep])
        have hbefore := hexact.list
        have hafter := hu.list
        rw [hempty] at hbefore
        have hread : memUsage u.heap = u.heap.i := by
          apply Int.bmod_eq_of_le
          · simp only [List.length_nil] at hbefore
            omega
          · simp only [List.length_nil] at hbefore
            omega
        rw [hread, hi, hnone, hbefore] at hafter
        omega
      refine ⟨hserved, fun u hstep => ?_⟩
      have hmoves := hexact.moves (step_moves hserved hstep)
      rw [← ih u _ hmoves]
      intro pre hpre v hrun
      have hv := hall (e :: pre) (List.prefix_cons_inj e |>.mpr hpre) v
        ((run_cons_eq_some step).mpr ⟨u, hstep, hrun⟩)
      rw [handedOut, hstep, ← add_assoc] at hv
      exact hv
    · rintro ⟨hserved, hrest⟩ pre hpre v hrun
      cases pre with
      | nil =>
        obtain rfl := Option.some.inj hrun
        rw [handedOut, add_zero]
        exact hexact.accurate htotal
      | cons f pre =>
        obtain ⟨rfl, htail⟩ := List.cons_prefix_cons.mp hpre
        obtain ⟨u, hstep, hrun⟩ := (run_cons_eq_some step).mp hrun
        have hmoves := hexact.moves (step_moves hserved hstep)
        rw [handedOut, hstep, ← add_assoc]
        exact (ih u _ hmoves).mpr (hrest u hstep) pre htail v hrun

/-- After `kinit2`, over every sequence of calls, `mem_usage` is the number of pages handed out
and not returned, which is the difference of the list's lengths and no more than its first
length, if and only if every `kalloc` finds a page. -/
theorem memUsage_accurate_iff {h : Heap (PhysPage kend)} {vstart vend : UInt32}
    {t : Tracked (PhysPage kend)} (hinit : kinit2 h vstart vend = some t.heap)
    (hlist : t.heap.freelist.Nodup) (es : List (Event (PhysPage kend))) :
    (∀ pre, pre <+: es → ∀ u, run step t pre = some u →
        Accurate t.heap.freelist.length (handedOut t pre) u.heap) ↔
      Always step Served t es := by
  have hlen := length_le_frames hlist
  have hexact : Exact t.heap.freelist.length 0 t.heap := ⟨kinit2_i hinit, by
    rw [kinit2_i hinit, sub_self], hlist⟩
  rw [← accurate_iff_served (by omega) es t 0 hexact]
  simp only [zero_add]

/-- The kernel before any page is free. -/
def coldHeap : Heap (PhysPage 0x80400000) := ⟨⟨bootState, 1⟩, [], 0, 0⟩

/-- The kernel after `kinit2` with `n` pages. -/
def warmHeap (n : Nat) : Option (Heap (PhysPage 0x80400000)) :=
  kinit2 coldHeap 0x80400000 (0x80400000 + 4096 * UInt32.ofNat n)

/-- Two pages, both handed out and one returned. -/
theorem memUsage_accurate_two_pages :
    ∃ t : Tracked (PhysPage 0x80400000), warmHeap 2 = some t.heap ∧
      t.heap.freelist.length = 2 ∧
      ∃ v, (run step t [.kalloc 0, .kalloc 0, .kfree 0 v]).isSome ∧
        ∀ pre, pre <+: [.kalloc 0, .kalloc 0, .kfree 0 v] → ∀ u, run step t pre = some u →
          Accurate t.heap.freelist.length (handedOut t pre) u.heap := by
  obtain ⟨h, hinit, hfacts⟩ := Option.map_eq_some_iff.mp
    (by decide +kernel : (warmHeap 2).map (fun h =>
      (decide h.freelist.Nodup, h.freelist.length, h.freelist.map fun v =>
        decide ((run step ⟨h, fun _ => none⟩ [.kalloc 0, .kalloc 0, .kfree 0 v]).isSome ∧
          Always step Served ⟨h, fun _ => none⟩ [.kalloc 0, .kalloc 0, .kfree 0 v]))) =
      some (true, 2, [true, true]))
  simp only [Prod.mk.injEq] at hfacts
  obtain ⟨hnodup, hlen, hruns⟩ := hfacts
  obtain ⟨v, rest, hlist⟩ := List.exists_cons_of_length_eq_add_one hlen
  rw [hlist, List.map_cons, List.cons.injEq, decide_eq_true_eq] at hruns
  obtain ⟨⟨hrun, hserved⟩, _⟩ := hruns
  refine ⟨⟨h, fun _ => none⟩, hinit, hlen, v, hrun, ?_⟩
  exact (memUsage_accurate_iff (t := ⟨h, fun _ => none⟩) (h := coldHeap) hinit
    (of_decide_eq_true hnodup) _).mpr hserved

/-- One page and two calls: the second finds nothing and is counted. -/
theorem memUsage_counts_failure :
    (warmHeap 1).map (fun h =>
      let t : Tracked (PhysPage 0x80400000) := ⟨h, fun _ => none⟩
      (h.freelist.length, handedOut t [.kalloc 0, .kalloc 0],
        (run step t [.kalloc 0, .kalloc 0]).map fun u =>
          (u.heap.freelist.length, memUsage u.heap))) = some (1, 1, some (0, 2)) := by
  decide +kernel

end Pages

end Container

end Xv6Containers
