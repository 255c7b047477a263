import Xv6Containers.Container.ProcessCount

/-!
# The page count of a container

`kalloc` charges a page to the container of the running process and `kfree`
credits the container of whoever frees it. `curr_mem` counts the pages that a
container holds as long as every page is freed by a process of the container that
allocated it and the limit is not passed.

## Implementation notes

`owner` is not part of the kernel: it records for which container a page was
obtained, from the start of the container until the page is freed. The counter
`usage` of a process, which nothing reads, is left out. `kfree` of a page that is
free already is not a step.
-/

namespace Xv6Containers

open Lib.Memory Lib.Strings Lib.Search Lib.Counting Lib.Runs Function

namespace Container

variable {Page : Type}

/-- The kernel as far as pages are concerned; `i` is `kmem.i`. -/
structure Heap (Page : Type) where
  book : Book
  freelist : List Page
  i : Int
  ticks : Nat

namespace Heap

def cs (h : Heap Page) : State := h.book.cs

def setCs (h : Heap Page) (s : State) : Heap Page := { h with book := { h.book with cs := s } }

@[simp] theorem setCs_cs (h : Heap Page) (s : State) : (h.setCs s).cs = s := rfl

/-- The container that `kalloc` and `kfree` by `me` account to. -/
def accounted (h : Heap Page) (me : ProcSlot) : Option Cont :=
  if h.ticks > 0 then find h.cs.table (h.cs.contName me me) else none

end Heap

/-- `kalloc`. A container that passes its limit is stopped, and the page handed out all the
same. -/
def kalloc (h : Heap Page) (me : ProcSlot) : Option (Option Page × Heap Page) :=
  match h.freelist with
  | [] => some (none, { h with i := h.i + 1 })
  | v :: rest =>
    let taken := { h with freelist := rest, i := h.i + 1 }
    match h.accounted me with
    | none => some (some v, taken)
    | some x =>
      let m := setCurrMem h.cs.table x
      if intField h.cs.table x .currMem = intField m x .currMem then
        (stopOwn h.cs me).map fun s => (some v, taken.setCs s)
      else some (some v, taken.setCs { h.cs with table := m })

/-- `kfree`. -/
def kfree (h : Heap Page) (me : ProcSlot) (v : Page) : Heap Page :=
  let freed := { h with freelist := v :: h.freelist, i := h.i - 1 }
  match h.accounted me with
  | none => freed
  | some x => freed.setCs { h.cs with table := reduceCurrMem h.cs.table x }

namespace Pages

/-- What happens to pages, besides what happens to processes. `setCurrMem` and `reduceCurrMem`
are the system calls of these names. -/
inductive Event (Page : Type)
  | kalloc (me : ProcSlot)
  | kfree (me : ProcSlot) (v : Page)
  | tick
  | setCurrMem (vc : Int)
  | reduceCurrMem (vc : Int)
  | process (e : Processes.Event)

/-- `sys_set_curr_mem`, and `sys_reduce_curr_mem`, which also calls `set_curr_mem`. -/
def sysSetCurrMem (h : Heap Page) (vc : Int) : Option (Heap Page) :=
  (onTable h.cs fun m => (index vc).map (Container.setCurrMem m)).map h.setCs

/-- The kernel with the owners of the pages. -/
structure Tracked (Page : Type) where
  heap : Heap Page
  owner : Page → Option Cont

/-- A container that is not in use owns nothing. -/
def track (m : Table) (owner : Page → Option Cont) : Page → Option Cont :=
  fun v => (owner v).filter fun c => decide (InUse m c)

def step [DecidableEq Page] (t : Tracked Page) : Event Page → Option (Tracked Page)
  | .kalloc me => (Container.kalloc t.heap me).map fun r =>
    ⟨r.2, track r.2.cs.table
      (match r.1 with
      | none => t.owner
      | some v => update t.owner v (t.heap.cs.proc me).cont)⟩
  | .kfree me v =>
    if v ∈ t.heap.freelist then none
    else some ⟨Container.kfree t.heap me v, update t.owner v none⟩
  | .tick => some { t with heap := { t.heap with ticks := t.heap.ticks + 1 } }
  | .setCurrMem vc => (sysSetCurrMem t.heap vc).map fun h => { t with heap := h }
  | .reduceCurrMem vc => (sysSetCurrMem t.heap vc).map fun h => { t with heap := h }
  | .process e => (Processes.step t.heap.book e).map fun b =>
    ⟨{ t.heap with book := b }, track b.cs.table t.owner⟩

/-! ## The count -/

/-- The number of pages that container `c` holds. -/
def pages [Fintype Page] (owner : Page → Option Cont) (c : Cont) : Int :=
  ∑ v, if owner v = some c then 1 else 0

/-- The counter of every container in use is the number of its pages, within the limit. -/
def Counted [Fintype Page] (t : Tracked Page) : Prop :=
  ∀ c, InUse t.heap.cs.table c →
    intField t.heap.cs.table c .currMem = pages t.owner c ∧
      0 ≤ intField t.heap.cs.table c .currMem ∧
      intField t.heap.cs.table c .currMem ≤ intField t.heap.cs.table c .maxMem

/-- A page that a process of a container in use obtains is accounted to that container, which is
below its limit. -/
def Charged (t : Tracked Page) (me : ProcSlot) : Prop :=
  t.heap.freelist ≠ [] →
    (t.heap.ticks > 0 → Processes.Uncharged t.heap.cs me) ∧
    ∀ c, (t.heap.cs.proc me).cont = some c → InUse t.heap.cs.table c →
      t.heap.ticks > 0 ∧
        intField t.heap.cs.table c .currMem < intField t.heap.cs.table c .maxMem

/-- What a `ctool start` that is not refused finds: a new name that fits, and a record without
pages and with a limit. -/
def Startable (s : State) (nm : CString) (maxMem : Int) : Prop :=
  ∀ c, isFull s.table = some c → find s.table nm ≠ some 0 →
    strlen nm < nameSize ∧ (∀ d, name s.table d ≠ nm) ∧ intField s.table c .currMem = 0 ∧
      0 ≤ if maxMem ≠ 0 then toSigned (word maxMem) else intField s.table c .maxMem

/-- The steps that count: a page is charged when it is obtained and credited to its owner when
it is freed, and nobody else writes the counters. -/
def Balanced (t : Tracked Page) : Event Page → Prop
  | .kalloc me => Charged t me
  | .kfree me v => t.heap.accounted me = t.owner v
  | .setCurrMem vc | .reduceCurrMem vc => ∀ c : Cont, vc = c → InUse t.heap.cs.table c →
      intField t.heap.cs.table c .maxMem ≤ intField t.heap.cs.table c .currMem
  | .process (.call _ (.setName nm vc)) => strlen nm < nameSize ∧ ∀ c : Cont, vc = c →
      nm = emptyName ∨ InUse t.heap.cs.table c ∧ ∀ d, d ≠ c → name t.heap.cs.table d ≠ nm
  | .process (.call _ (.setMaxMem mem vc)) => ∀ c : Cont, vc = c → InUse t.heap.cs.table c →
      intField t.heap.cs.table c .currMem ≤ toSigned (word mem)
  | .process (.start _ nm _ maxMem _) => Startable t.heap.cs nm maxMem
  | _ => True

instance [DecidableEq Page] (t : Tracked Page) (e : Event Page) : Decidable (Balanced t e) := by
  unfold Balanced Charged Startable
  split <;> infer_instance

/-! ## What the steps do to the count -/

variable {m : Table} {owner : Page → Option Cont} {v : Page} {t : Tracked Page} {h : Heap Page}
  {me : ProcSlot} {fs : List Field} {s : State} {nm : CString}

theorem track_eq_some {c : Cont} : track m owner v = some c ↔ owner v = some c ∧ InUse m c := by
  simp [track, Option.filter_eq_some_iff]

theorem track_eq_none (h : owner v = none) : track m owner v = none := by
  simp [track, h]

/-- While the names stay, tracking changes nothing. -/
theorem track_eq_self (h : ∀ v c, owner v = some c → InUse m c) : track m owner = owner := by
  funext v
  cases hv : owner v with
  | none => exact track_eq_none hv
  | some c => exact track_eq_some.mpr ⟨hv, h v c hv⟩

variable [Fintype Page]

theorem pages_nonneg (owner : Page → Option Cont) (c : Cont) : 0 ≤ pages owner c :=
  Finset.sum_nonneg fun v _ => by split <;> omega

/-- A container in use keeps its pages. -/
theorem pages_track (owner : Page → Option Cont) {c : Cont} (hc : InUse m c) :
    pages (track m owner) c = pages owner c := by
  unfold pages
  simp only [track_eq_some, hc, and_true]

/-- The names are in order, the free pages have no owner, and the counters are right. -/
structure Inv (t : Tracked Page) : Prop where
  names : NamesOk t.heap.cs.table
  nodup : t.heap.freelist.Nodup
  free : ∀ v ∈ t.heap.freelist, t.owner v = none
  inUse : ∀ v c, t.owner v = some c → InUse t.heap.cs.table c
  count : ∀ c, InUse t.heap.cs.table c → intField t.heap.cs.table c .currMem = pages t.owner c
  limit : ∀ c, InUse t.heap.cs.table c → pages t.owner c ≤ intField t.heap.cs.table c .maxMem

theorem Inv.counted (ht : Inv t) : Counted t := by
  intro c hc
  rw [ht.count c hc]
  exact ⟨rfl, pages_nonneg _ _, ht.limit c hc⟩

/-- The counters stay; containers that are gone lose their pages. -/
theorem inv_kept (ht : Inv t) (hkept : RecordsKept [.currMem, .maxMem] t.heap.cs.table h.cs.table)
    (hfree : h.freelist = t.heap.freelist) : Inv ⟨h, track h.cs.table t.owner⟩ where
  names := hkept.names
  nodup := by
    rw [hfree]
    exact ht.nodup
  free := by
    intro v hv
    rw [hfree] at hv
    exact track_eq_none (ht.free v hv)
  inUse := fun v c hv => (track_eq_some.mp hv).2
  count := by
    intro c hc
    rw [pages_track _ hc, hkept.field c hc .currMem (by simp)]
    exact ht.count c (hkept.inUse c hc)
  limit := by
    intro c hc
    rw [pages_track _ hc, hkept.field c hc .maxMem (by simp)]
    exact ht.limit c (hkept.inUse c hc)

/-- A page changes hands: container `x` has `n` pages more in its counter and in its hands. -/
theorem inv_moved (ht : Inv t) {x : Cont} {n : Int}
    (htable : h.cs.table = addField t.heap.cs.table x .currMem n) (hnodup : h.freelist.Nodup)
    (hfree : ∀ v ∈ h.freelist, owner v = none)
    (hin : ∀ v c, owner v = some c → InUse t.heap.cs.table c)
    (hcount : ∀ c, pages owner c = pages t.owner c + if x = c then n else 0)
    (hlimit : InUse t.heap.cs.table x → pages owner x ≤ intField t.heap.cs.table x .maxMem) :
    Inv ⟨h, owner⟩ := by
  have hnames : SameNames t.heap.cs.table h.cs.table := by
    rw [htable]
    exact sameNames_writeWord ht.names x _ _
  have hmax (c : Cont) : intField h.cs.table c .maxMem = intField t.heap.cs.table c .maxMem := by
    rw [htable]
    exact intField_addField_of_ne _ _ fun _ => by decide
  refine ⟨hnames.ok ht.names, hnodup, hfree, fun v c hv => (hnames.inUse c).mpr (hin v c hv),
    fun c hc => ?_, fun c hc => ?_⟩
  · have hcin := (hnames.inUse c).mp hc
    have hold := ht.count c hcin
    change intField h.cs.table c .currMem = pages owner c
    rw [hcount, htable]
    by_cases hx : x = c
    · subst hx
      have hnew := hcount x
      have hpos := pages_nonneg owner x
      have hbound := hlimit hcin
      have hrange := intField_range t.heap.cs.table x .maxMem
      rw [if_pos rfl] at hnew ⊢
      rw [intField_addField _ _ _ _ (by omega) (by omega), hold]
    · rw [intField_addField_of_ne _ _ fun h => absurd h.symm hx, if_neg hx, hold, add_zero]
  · have hcin := (hnames.inUse c).mp hc
    change pages owner c ≤ intField h.cs.table c .maxMem
    rw [hmax]
    by_cases hx : x = c
    · subst hx
      exact hlimit hcin
    · rw [hcount, if_neg hx, add_zero]
      exact ht.limit c hcin

theorem pages_update [DecidableEq Page] (owner : Page → Option Cont) (v : Page) (x : Option Cont) (c : Cont) :
    pages (update owner v x) c =
      pages owner c - (if owner v = some c then 1 else 0) + if x = some c then 1 else 0 :=
  sum_update (fun o : Option Cont => if o = some c then 1 else 0) owner v x

/-- The page at the head of the free list is taken without accounting. -/
theorem inv_taken [DecidableEq Page] (ht : Inv t) {rest : List Page}
    (hlist : t.heap.freelist = v :: rest) (hout : Processes.Outside t.heap.cs me)
    (htable : h.cs.table = t.heap.cs.table) (hfree : h.freelist = rest) :
    Inv ⟨h, track h.cs.table (update t.owner v (t.heap.cs.proc me).cont)⟩ := by
  have hnodup := ht.nodup
  rw [hlist, List.nodup_cons] at hnodup
  have hnobody : track t.heap.cs.table (update t.owner v (t.heap.cs.proc me).cont) =
      t.owner := by
    funext w
    by_cases hw : w = v
    · subst hw
      have hold : t.owner w = none := ht.free w (by simp [hlist])
      rw [hold, track, update_self, Option.filter_eq_none_iff]
      intro c hc
      simpa using hout c hc
    · have hself := congrFun (track_eq_self ht.inUse) w
      rw [track, update_of_ne hw]
      exact hself
  rw [htable, hnobody]
  refine ⟨by rw [htable]; exact ht.names, by rw [hfree]; exact hnodup.2, fun w hw => ?_,
    fun w c hw => by rw [htable]; exact ht.inUse w c hw, fun c hc => ?_, fun c hc => ?_⟩
  · rw [hfree] at hw
    exact ht.free w (by simp [hlist, hw])
  · rw [htable] at hc ⊢
    exact ht.count c hc
  · rw [htable] at hc ⊢
    exact ht.limit c hc

/-- What a charged `kalloc` does. -/
theorem kalloc_charged (ht : Inv t) (hcharged : Charged t me) {rest : List Page}
    (hlist : t.heap.freelist = v :: rest) :
    (Processes.Outside t.heap.cs me ∧ Container.kalloc t.heap me =
      some (some v, { t.heap with freelist := rest, i := t.heap.i + 1 })) ∨
    ∃ x, (t.heap.cs.proc me).cont = some x ∧ InUse t.heap.cs.table x ∧
      intField t.heap.cs.table x .currMem < intField t.heap.cs.table x .maxMem ∧
      Container.kalloc t.heap me = some (some v,
        Heap.setCs { t.heap with freelist := rest, i := t.heap.i + 1 }
          { t.heap.cs with table := addField t.heap.cs.table x .currMem 1 }) := by
  obtain ⟨huncharged, hroom⟩ := hcharged (by simp [hlist])
  simp only [Container.kalloc, hlist]
  cases hacc : t.heap.accounted me with
  | none =>
    refine Or.inl ⟨fun c hcont hc => ?_, rfl⟩
    rw [Heap.accounted, if_pos (hroom c hcont hc).1,
      Processes.find_contName ht.names hcont hc] at hacc
    cases hacc
  | some x =>
    have hticks : t.heap.ticks > 0 := by
      by_contra hzero
      rw [Heap.accounted, if_neg hzero] at hacc
      cases hacc
    rw [Heap.accounted, if_pos hticks] at hacc
    obtain ⟨hcont, hin⟩ := Processes.find_own ht.names (huncharged hticks) hacc
    obtain ⟨_, hbelow⟩ := hroom x hcont hin
    have hcur := ht.count x hin
    have hpos := pages_nonneg t.owner x
    have hrange := intField_range t.heap.cs.table x .maxMem
    have hadd := intField_addField t.heap.cs.table x .currMem 1 (by omega) (by omega)
    refine Or.inr ⟨x, hcont, hin, hbelow, ?_⟩
    have hset : Container.setCurrMem t.heap.cs.table x = addField t.heap.cs.table x .currMem 1 := by
      rw [Container.setCurrMem, addBounded, if_neg (by omega)]
    dsimp only
    rw [if_neg (by rw [hset, hadd]; omega), hset]

theorem inv_kalloc [DecidableEq Page] (ht : Inv t) (hcharged : Charged t me) {t' : Tracked Page}
    (h : step t (.kalloc me) = some t') : Inv t' := by
  obtain ⟨r, hr, rfl⟩ := Option.map_eq_some_iff.mp h
  cases hlist : t.heap.freelist with
  | nil =>
    simp only [Container.kalloc, hlist, Option.some.injEq] at hr
    subst hr
    exact inv_kept ht (.refl ht.names) hlist.symm
  | cons v rest =>
    have hfreeV := ht.free v (by simp [hlist])
    have hnodup := ht.nodup
    rw [hlist, List.nodup_cons] at hnodup
    rcases kalloc_charged ht hcharged hlist with ⟨hout, hk⟩ | ⟨x, hcont, hin, hbelow, hk⟩
    · rw [hk] at hr
      cases hr
      exact inv_taken ht hlist hout rfl rfl
    · rw [hk] at hr
      cases hr
      have hnames := sameNames_writeWord ht.names x .currMem
        (word (intField t.heap.cs.table x .currMem + 1))
      have howner (w : Page) (c : Cont)
          (hw : update t.owner v (some x) w = some c) : InUse t.heap.cs.table c := by
        by_cases hwv : w = v
        · subst hwv
          rw [update_self] at hw
          cases hw
          exact hin
        · rw [update_of_ne hwv] at hw
          exact ht.inUse w c hw
      have htrack : track (addField t.heap.cs.table x .currMem 1)
          (update t.owner v (some x)) = update t.owner v (some x) :=
        track_eq_self fun w c hw => (hnames.inUse c).mpr (howner w c hw)
      have hcount (c : Cont) : pages (update t.owner v (some x)) c =
          pages t.owner c + if x = c then 1 else 0 := by
        rw [pages_update, hfreeV]
        simp
      simp only [Heap.setCs_cs, hcont, htrack]
      refine inv_moved ht (x := x) (n := 1) rfl hnodup.2 (fun w hw => ?_) howner hcount fun _ => ?_
      · have hwv : w ≠ v := by
          rintro rfl
          exact hnodup.1 hw
        rw [update_of_ne hwv]
        exact ht.free w (by simp [hlist]; exact Or.inr hw)
      · rw [hcount, if_pos rfl, ← ht.count x hin]
        omega

theorem inv_kfree [DecidableEq Page] (ht : Inv t) (hv : v ∉ t.heap.freelist)
    (hcredit : t.heap.accounted me = t.owner v) :
    Inv ⟨Container.kfree t.heap me v, update t.owner v none⟩ := by
  have hfree (w : Page) (hw : w ∈ v :: t.heap.freelist) :
      update t.owner v none w = none := by
    by_cases hwv : w = v
    · rw [hwv, update_self]
    · rw [update_of_ne hwv]
      exact ht.free w ((List.mem_cons.mp hw).resolve_left hwv)
  have hin (w : Page) (c : Cont) (hw : update t.owner v none w = some c) :
      InUse t.heap.cs.table c := by
    by_cases hwv : w = v
    · rw [hwv, update_self] at hw
      cases hw
    · rw [update_of_ne hwv] at hw
      exact ht.inUse w c hw
  have hnodup : (v :: t.heap.freelist).Nodup := List.nodup_cons.mpr ⟨hv, ht.nodup⟩
  unfold Container.kfree
  cases hown : t.owner v with
  | none =>
    rw [hown] at hcredit
    have hsame : update t.owner v none = t.owner := by
      rw [← hown, update_eq_self]
    simp only [hcredit, hsame] at hfree ⊢
    exact ⟨ht.names, hnodup, hfree, ht.inUse, ht.count, ht.limit⟩
  | some x =>
    rw [hown] at hcredit
    simp only [hcredit]
    have hcount (c : Cont) : pages (update t.owner v none) c =
        pages t.owner c + if x = c then -1 else 0 := by
      rw [pages_update, hown]
      simp only [Option.some.injEq, reduceCtorEq, if_false]
      split <;> omega
    refine inv_moved ht (x := x) (n := -1) rfl hnodup hfree hin hcount fun hx => ?_
    have hlimit := ht.limit x hx
    rw [hcount, if_pos rfl]
    omega

/-! ### What happens to processes -/

theorem kept_resetFound {t u : State} (hs : NamesOk s.table) (htable : u.table = s.table)
    (h : resetFound u nm = some t) : RecordsKept fs s.table t.table := by
  obtain ⟨c, _, rfl⟩ := Option.map_eq_some_iff.mp h
  simp only [htable]
  exact recordsKept_reset hs _ c

theorem kept_sysFork {b : Book} (hb : NamesOk b.cs.table) {mem : ForkMemory}
    {r : Option ProcSlot × Book} (h : sysFork b me mem = some r) :
    RecordsKept [.currMem, .maxMem] b.cs.table r.2.cs.table := by
  unfold sysFork at h
  split at h
  · cases h
    rw [(Processes.fork_count b me mem).1]
    exact .refl hb
  · dsimp only at h
    split at h
    · obtain ⟨t, ht, rfl⟩ := Option.map_eq_some_iff.mp h
      exact kept_resetFound hb (Processes.killLoop_count me _ _ _ b.cs).1 ht
    · cases h
      rw [(Processes.fork_count _ me mem).1]
      exact recordsKept_addBounded hb _ _ _ (by decide)

theorem kept_sysExit (hs : NamesOk s.table) (me : ProcSlot) :
    RecordsKept [.currMem, .maxMem] s.table (sysExit s me).table := by
  unfold sysExit
  split
  · exact .refl hs
  · exact recordsKept_addBounded hs _ _ _ (by decide)

theorem kept_setField {t : State} (hs : NamesOk s.table) {f : Field} {v vc : Int} (hf : f ∉ fs)
    (h : onTable s (setField f v vc) = some t) : RecordsKept fs s.table t.table := by
  simp only [onTable, setField, Option.map_eq_some_iff] at h
  obtain ⟨_, ⟨c, _, rfl⟩, rfl⟩ := h
  exact recordsKept_writeWord hs c _ hf

theorem kept_cstop {t : State} (hs : NamesOk s.table) (h : cstop s me nm = some t) :
    RecordsKept fs s.table t.table := by
  unfold cstop at h
  split at h
  · split at h
    · exact kept_resetFound hs (Processes.killLoop_count me _ _ _ s).1 h
    · cases h
      exact .refl hs
  · exact kept_resetFound hs (Processes.killLoop_count me _ _ _ s).1 h

/-- The new limit of `set_max_mem` is not below the count. -/
theorem inv_setMaxMem (ht : Inv t) {mem vc : Int}
    (hmax : ∀ c : Cont, vc = c → InUse t.heap.cs.table c →
      intField t.heap.cs.table c .currMem ≤ toSigned (word mem))
    (h : onTable t.heap.cs (setMaxMem mem vc) = some s) :
    Inv ⟨t.heap.setCs s, track s.table t.owner⟩ := by
  simp only [onTable, setMaxMem, setField, Option.map_eq_some_iff] at h
  obtain ⟨_, ⟨c, hindex, rfl⟩, rfl⟩ := h
  have hnames := sameNames_writeWord ht.names c .maxMem (word mem)
  rw [track_eq_self fun v d hv => (hnames.inUse d).mpr (ht.inUse v d hv)]
  refine ⟨hnames.ok ht.names, ht.nodup, ht.free, fun v d hv => (hnames.inUse d).mpr (ht.inUse v d hv),
    fun d hd => ?_, fun d hd => ?_⟩
  · rw [← ht.count d ((hnames.inUse d).mp hd)]
    simp only [Heap.setCs_cs, intField]
    rw [field_writeWord_of_ne _ _ fun _ => by decide]
  · have hin := (hnames.inUse d).mp hd
    simp only [Heap.setCs_cs, intField]
    by_cases hdc : d = c
    · subst hdc
      rw [field_writeWord_self, ← ht.count d hin]
      exact hmax d (index_eq_some.mp hindex) hin
    · rw [field_writeWord_of_ne _ _ fun h => absurd h hdc]
      exact ht.limit d hin

theorem inv_start (ht : Inv t) {maxProc maxMem maxDisk : Int}
    (hstart : Startable t.heap.cs nm maxMem)
    (h : Container.start t.heap.cs me nm maxProc maxMem maxDisk = some s) :
    Inv ⟨t.heap.setCs s, track s.table t.owner⟩ := by
  unfold Container.start at h
  split at h
  · cases h
    exact inv_kept ht (.refl ht.names) rfl
  next c hfull =>
  split at h
  · cases h
    exact inv_kept ht (.refl ht.names) rfl
  next hfind =>
  obtain ⟨hnm, hnew, hzero, hlimit⟩ := hstart c hfull hfind
  simp only [onTable, contProcSet, Option.bind_eq_some_iff, Option.map_eq_some_iff] at h
  obtain ⟨_, ⟨m', hm', rfl⟩, c', hindex, rfl⟩ := h
  obtain ⟨hnames, hother, hfield⟩ := Processes.startTable_spec ht.names hnm hnew hm'
  have hunused := Processes.isFull_eq_some hfull
  have hcur (d : Cont) : intField m' d .currMem = intField t.heap.cs.table d .currMem := by
    rw [hfield, if_neg fun h => h.2 rfl]
  have hmax (d : Cont) : intField m' d .maxMem =
      if d = c ∧ maxMem ≠ 0 then toSigned (word maxMem) else intField t.heap.cs.table d .maxMem :=
    hfield d .maxMem
  have hold (d : Cont) (hd : InUse m' d) (hdc : d ≠ c) : InUse t.heap.cs.table d := by
    rw [InUse, ← hother d hdc]
    exact hd
  -- The record was not in use, so nobody owns a page for it.
  have hnone : pages t.owner c = 0 :=
    Finset.sum_eq_zero fun v _ => if_neg fun hv => hunused (ht.inUse v c hv)
  refine ⟨hnames, ht.nodup, fun v hv => track_eq_none (ht.free v hv),
    fun v d hv => (track_eq_some.mp hv).2, fun d hd => ?_, fun d hd => ?_⟩
  · change InUse m' d at hd
    change intField m' d .currMem = pages (track m' t.owner) d
    rw [pages_track _ hd, hcur]
    by_cases hdc : d = c
    · subst hdc
      rw [hzero, hnone]
    · exact ht.count d (hold d hd hdc)
  · change InUse m' d at hd
    change pages (track m' t.owner) d ≤ intField m' d .maxMem
    rw [pages_track _ hd, hmax]
    by_cases hdc : d = c
    · subst hdc
      simp only [true_and, hnone]
      exact hlimit
    · rw [if_neg fun h => hdc h.1]
      exact ht.limit d (hold d hd hdc)

/-- A step of the processes other than `set_max_mem` and `ctool start` leaves the counters. -/
theorem kept_process {b b' : Book} (hb : NamesOk b.cs.table) {e : Processes.Event}
    (hname : ∀ me nm vc, e = .call me (.setName nm vc) → strlen nm < nameSize ∧ ∀ c : Cont, vc = c →
      nm = emptyName ∨ InUse b.cs.table c ∧ ∀ d, d ≠ c → name b.cs.table d ≠ nm)
    (hmem : ∀ me mem vc, e ≠ .call me (.setMaxMem mem vc))
    (hstart : ∀ me nm maxProc maxMem maxDisk, e ≠ .start me nm maxProc maxMem maxDisk)
    (h : Processes.step b e = some b') :
    RecordsKept [.currMem, .maxMem] b.cs.table b'.cs.table := by
  cases e with
  | fork me mem =>
    simp only [Processes.step] at h
    split at h
    · obtain ⟨r, hr, rfl⟩ := Option.map_eq_some_iff.mp h
      exact kept_sysFork hb hr
    · cases h
  | exit me =>
    simp only [Processes.step] at h
    split at h
    · cases h
      exact kept_sysExit hb me
    · cases h
  | trapExit me =>
    simp only [Processes.step] at h
    split at h
    · cases h
      exact .refl hb
    · cases h
  | reap q =>
    simp only [Processes.step] at h
    split at h
    · cases h
      exact .refl hb
    · cases h
  | shift q next =>
    simp only [Processes.step] at h
    split at h
    · cases h
      exact .refl hb
    · cases h
  | setCurrProc procs vc =>
    simp only [Processes.step, onTable, Option.map_eq_some_iff] at h
    obtain ⟨_, ⟨_, ⟨c, _, rfl⟩, rfl⟩, rfl⟩ := h
    exact recordsKept_addBounded hb _ _ _ (by decide)
  | start me nm maxProc maxMem maxDisk => exact absurd rfl (hstart _ _ _ _ _)
  | call me call =>
    simp only [Processes.step] at h
    split at h
    swap
    · cases h
    obtain ⟨s, hs, rfl⟩ := Option.map_eq_some_iff.mp h
    cases call with
    | kill pid =>
      cases hs
      change RecordsKept _ _ (Container.kill b.cs me pid).table
      rw [kill_table]
      exact .refl hb
    | cstop nm => exact kept_cstop hb hs
    | pause nm =>
      cases hs
      exact .refl hb
    | resume nm =>
      cases hs
      exact .refl hb
    | contProcSet vc =>
      obtain ⟨c, _, rfl⟩ := Option.map_eq_some_iff.mp hs
      exact .refl hb
    | containerReset vc next =>
      simp only [exec, onTable, containerReset, Option.map_eq_some_iff] at hs
      obtain ⟨_, ⟨c, _, rfl⟩, rfl⟩ := hs
      exact recordsKept_reset hb _ c
    | setName nm vc =>
      obtain ⟨hnm, hnew⟩ := hname me nm vc rfl
      obtain ⟨m, hm, rfl⟩ := Option.map_eq_some_iff.mp hs
      obtain ⟨c, hvc, rfl⟩ := setName_eq_some hm
      exact recordsKept_setName hb _ hnm (hnew c hvc)
    | setMaxMem mem vc => exact absurd rfl (hmem _ _ _)
    | setMaxDisk disk vc => exact kept_setField hb (by decide) hs
    | setMaxProc procs vc => exact kept_setField hb (by decide) hs

theorem inv_process (ht : Inv t) {e : Processes.Event} (hbalanced : Balanced t (.process e))
    {b : Book} (h : Processes.step t.heap.book e = some b) :
    Inv ⟨{ t.heap with book := b }, track b.cs.table t.owner⟩ := by
  by_cases hmem : ∃ me mem vc, e = .call me (.setMaxMem mem vc)
  · obtain ⟨me, mem, vc, rfl⟩ := hmem
    simp only [Processes.step] at h
    split at h
    · obtain ⟨s, hs, rfl⟩ := Option.map_eq_some_iff.mp h
      exact inv_setMaxMem ht hbalanced hs
    · cases h
  by_cases hstart : ∃ me nm maxProc maxMem maxDisk, e = .start me nm maxProc maxMem maxDisk
  · obtain ⟨me, nm, maxProc, maxMem, maxDisk, rfl⟩ := hstart
    simp only [Processes.step] at h
    split at h
    · obtain ⟨s, hs, rfl⟩ := Option.map_eq_some_iff.mp h
      exact inv_start ht hbalanced hs
    · cases h
  push Not at hmem hstart
  refine inv_kept ht (kept_process ht.names (fun me nm vc he => ?_) hmem hstart h) rfl
  subst he
  exact hbalanced

theorem inv_sysSetCurrMem (ht : Inv t) {vc : Int}
    (hfull : ∀ c : Cont, vc = c → InUse t.heap.cs.table c →
      intField t.heap.cs.table c .maxMem ≤ intField t.heap.cs.table c .currMem)
    (hstep : sysSetCurrMem t.heap vc = some h) : Inv { t with heap := h } := by
  simp only [sysSetCurrMem, onTable, Option.map_eq_some_iff] at hstep
  obtain ⟨_, ⟨_, ⟨c, hindex, rfl⟩, rfl⟩, rfl⟩ := hstep
  have hnames := sameNames_addBounded ht.names c .currMem .maxMem 1
  have hkept : RecordsKept [.currMem, .maxMem] t.heap.cs.table
      (Container.setCurrMem t.heap.cs.table c) := by
    refine ⟨hnames.ok ht.names, fun d hd => (hnames.inUse d).mp hd, fun d hd f _ => ?_⟩
    by_cases hdc : d = c
    · subst hdc
      have hover := hfull d (index_eq_some.mp hindex) ((hnames.inUse d).mp hd)
      rw [Container.setCurrMem, addBounded, if_pos (by omega)]
    · exact intField_addBounded_of_ne _ _ fun h => absurd h hdc
  have hinv := inv_kept ht (h := t.heap.setCs { t.heap.cs with table := Container.setCurrMem t.heap.cs.table c })
    hkept rfl
  have hsame := track_eq_self (m := Container.setCurrMem t.heap.cs.table c)
    fun v d hv => (hnames.inUse d).mpr (ht.inUse v d hv)
  simpa only [Heap.setCs_cs, hsame] using hinv

theorem inv_step [DecidableEq Page] (t : Tracked Page) (e : Event Page) (t' : Tracked Page) (ht : Inv t)
    (hbalanced : Balanced t e) (h : step t e = some t') : Inv t' := by
  cases e with
  | kalloc me => exact inv_kalloc ht hbalanced h
  | kfree me v =>
    simp only [step] at h
    split at h
    · cases h
    · next hv =>
      cases h
      exact inv_kfree ht hv hbalanced
  | tick =>
    cases h
    exact ⟨ht.names, ht.nodup, ht.free, ht.inUse, ht.count, ht.limit⟩
  | setCurrMem vc =>
    obtain ⟨h', hh, rfl⟩ := Option.map_eq_some_iff.mp h
    exact inv_sysSetCurrMem ht hbalanced hh
  | reduceCurrMem vc =>
    obtain ⟨h', hh, rfl⟩ := Option.map_eq_some_iff.mp h
    exact inv_sysSetCurrMem ht hbalanced hh
  | process e =>
    obtain ⟨b, hb, rfl⟩ := Option.map_eq_some_iff.mp h
    exact inv_process ht hbalanced hb

/-- After `container_init` no container is in use. -/
theorem inv_init (hboot : t.heap.cs.table = containerInit m) (hnodup : t.heap.freelist.Nodup)
    (howner : ∀ v, t.owner v = none) : Inv t := by
  have hname (c : Cont) : t.heap.cs.table (address c nameOffset) = 0 := by
    rw [hboot]
    exact containerInit_name m c
  have hempty (c : Cont) : name t.heap.cs.table c = emptyName := name_eq_empty_iff.mpr (hname c)
  refine ⟨⟨fun c => ⟨0, by decide, hname c⟩, fun c _ hc => absurd (hempty c) hc⟩, hnodup,
    fun v _ => howner v, fun v c hv => ?_, fun c hc => absurd (hempty c) hc,
    fun c hc => absurd (hempty c) hc⟩
  rw [howner] at hv
  cases hv

/-- Two root processes and three free pages after boot. -/
def threePages : Tracked (Fin 3) where
  heap :=
    { book :=
        { cs :=
            { proc := update (update (fun _ => ⟨.unused, 0, false, none⟩) 0
                ⟨.running, 1, false, none⟩) 1 ⟨.running, 2, false, none⟩
              table := containerInit fun _ => 0
              low := fun _ => emptyName }
          nextpid := 3 }
      freelist := [0, 1, 2]
      i := 0
      ticks := 1 }
  owner := fun _ => none

/-- Process 1 starts a container with room for `maxMem` pages. -/
def startOne (maxMem : Int) : Event (Fin 3) := .process (.start 1 Processes.demoName 0 maxMem 0)

end Pages

end Container

end Xv6Containers
