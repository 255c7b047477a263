import Xv6Containers.Log.GroupCommit

/-!
# Admission control of the log

`begin_op` reserves `MAXOPBLOCKS` for every operation against `LOGSIZE`, while
`log_write` panics from `log.size - 1` entries on, before it looks for the
block among them. With the size that `mkfs` writes the two bounds are one apart.

## Implementation notes

The reservations are settled by one sum: the entries of the header and what
each operation in progress may still add.
-/

namespace Xv6Containers

open Lib.Runs Lib.Counting

namespace Group

variable {P : Type}

/-- The distinct blocks that an operation has logged. -/
def State.opBlocks (s : State P) (o : Nat) : Finset Nat :=
  (blocksOf (s.history.filter fun w => w.1 = o)).toFinset

/-- The distinct blocks logged since the last commit. -/
def State.groupBlocks (s : State P) : Finset Nat := (blocksOf s.group).toFinset

/-- With this step no operation has logged more than `k` distinct blocks. -/
def WithinReservation (k : Nat) (s : State P) : Event P → Prop
  | .logWrite p b =>
    match s.pc p with
    | .inOp o => (insert b (s.opBlocks o)).card ≤ k
    | _ => True
  | _ => True

instance (k : Nat) (s : State P) (e : Event P) : Decidable (WithinReservation k s e) := by
  unfold WithinReservation
  split
  · split <;> infer_instance
  · infer_instance

/-- `log_write` is called with fewer than `log.size - 1` distinct blocks logged since the last
commit. -/
def HasRoom (size : Nat) (s : State P) : Event P → Prop
  | .logWrite _ _ => (s.groupBlocks.card : Int) < size - 1
  | _ => True

theorem Lists.length_eq {lh : List Nat} {ws : List (Nat × Nat)} (h : Lists lh ws) :
    lh.length = (blocksOf ws).toFinset.card := by
  rw [← List.toFinset_card_of_nodup h.1]
  congr 1
  ext b
  simp [h.2 b]

variable {s : State P} {k : Nat}

/-- What an operation in progress has logged lies in the current group. -/
theorem OpsInv.opBlocks_eq (h : OpsInv s) {p : P} {o : Nat} (hp : (s.pc p).op = some o) :
    s.opBlocks o = (blocksOf (s.group.filter fun w => w.1 = o)).toFinset := by
  have hnone : (s.commits.flatMap Commit.writes).filter (fun w => w.1 = o) = [] := by
    rw [List.filter_eq_nil_iff]
    intro w hw
    obtain ⟨c, hc, hwc⟩ := List.mem_flatMap.mp hw
    have hout := h.running p o hp c hc
    intro heq
    exact hout (List.mem_map.mpr ⟨w, hwc, by simpa using heq⟩)
  rw [State.opBlocks, State.history, List.filter_append, hnone, List.nil_append]

theorem OpsInv.opBlocks_subset (h : OpsInv s) {p : P} {o : Nat} (hp : (s.pc p).op = some o) :
    s.opBlocks o ⊆ s.groupBlocks := by
  intro b hb
  rw [h.opBlocks_eq hp] at hb
  simp only [blocksOf, List.mem_toFinset, List.mem_map, List.mem_filter] at hb
  obtain ⟨w, ⟨hw, _⟩, hwb⟩ := hb
  simp only [State.groupBlocks, blocksOf, List.mem_toFinset, List.mem_map]
  exact ⟨w, hw, hwb⟩

/-- What the process may still add to the header when its operation stays within `k`. -/
def State.due (k : Nat) (s : State P) (x : Pc) : Int :=
  match x.op with
  | some o => k - (s.opBlocks o).card
  | none => 0

/-- The process keeps within `k`, the block it is about to append included. -/
def State.Fits (k : Nat) (s : State P) : Pc → Prop
  | .inOp o => (s.opBlocks o).card ≤ k
  | .logging o b => (insert b (s.opBlocks o)).card ≤ k
  | _ => True

/-- The reservations: the header and all dues stay below one full reservation and two of
`k`, since the first operation of a group starts on an empty header. -/
structure Budget [Fintype P] (k : Nat) (s : State P) : Prop where
  fits : ∀ p, s.Fits k (s.pc p)
  fresh : s.outstanding = 0 → s.committing = false → s.lh = []
  cleared : ∀ p, s.pc p = .commitDone → s.lh = []
  total : (s.lh.length : Int) + ∑ p, s.due k (s.pc p) ≤ maxOpBlocks + 2 * k

theorem due_nonneg {x : Pc} (h : s.Fits k x) : 0 ≤ s.due k x := by
  unfold State.due
  cases x with
  | inOp o =>
    simp only [State.Fits] at h
    simp only [Pc.op]
    omega
  | logging o b =>
    simp only [State.Fits] at h
    have hle := Finset.card_le_card (Finset.subset_insert b (s.opBlocks o))
    simp only [Pc.op]
    omega
  | _ => simp [Pc.op]

theorem due_le (s : State P) (x : Pc) : s.due k x ≤ k * x.active := by
  unfold State.due
  cases h : x.op with
  | none => simp [active_of_no_op h]
  | some o => simp [active_of_op h]

/-- `opBlocks` reads the recorded history only. -/
theorem opBlocks_congr {t : State P} (h : t.history = s.history) (o : Nat) :
    t.opBlocks o = s.opBlocks o := by
  rw [State.opBlocks, State.opBlocks, h]

theorem due_congr {t : State P} (h : t.history = s.history) (x : Pc) : t.due k x = s.due k x := by
  unfold State.due
  simp only [opBlocks_congr h]

theorem fits_congr {t : State P} (h : t.history = s.history) (x : Pc) :
    t.Fits k x ↔ s.Fits k x := by
  cases x <;> simp only [State.Fits, opBlocks_congr h]

theorem opBlocks_append {t : State P} {o b : Nat} (h : t.history = s.history ++ [(o, b)])
    (q : Nat) : t.opBlocks q = if q = o then insert b (s.opBlocks q) else s.opBlocks q := by
  ext c
  by_cases hq : o = q
  · subst hq
    simp [State.opBlocks, h, blocksOf]
  · simp [State.opBlocks, h, blocksOf, hq, Ne.symm hq]

/-- An operation that has not begun has logged nothing. -/
theorem OpsInv.opBlocks_next (h : OpsInv s) : s.opBlocks s.nextOp = ∅ := by
  have hnone : s.history.filter (fun w => w.1 = s.nextOp) = [] := by
    rw [List.filter_eq_nil_iff]
    intro w hw heq
    have hop : w.1 = s.nextOp := by simpa using heq
    rcases List.mem_append.mp hw with hold | hgroup
    · obtain ⟨c, hc, hwc⟩ := List.mem_flatMap.mp hold
      have hlt := h.commits_below c hc w.1 (List.mem_map_of_mem hwc)
      omega
    · have hlt := h.group_below w.1 (List.mem_map_of_mem hgroup)
      omega
  rw [State.opBlocks, hnone]
  rfl

section Runs

variable [DecidableEq P] [Fintype P] {k : Nat}

omit [DecidableEq P] in
theorem Budget.init : Budget k (init : State P) where
  fits := by simp [Group.init, State.Fits]
  fresh := by simp [Group.init]
  cleared := by simp [Group.init]
  total := by
    simp [Group.init, State.due, Pc.op]
    omega

variable {s t : State P} {size : Nat}

/-- One process moves and logs nothing. -/
theorem Budget.move (h : Budget k s) {p : P} {x : Pc} (hpc : t.pc = Function.update s.pc p x)
    (hhist : t.history = s.history) (hfits : s.Fits k x) (htotal : (t.lh.length : Int) +
      (∑ q, s.due k (s.pc q) - s.due k (s.pc p) + s.due k x) ≤ maxOpBlocks + 2 * k)
    (hfresh : t.outstanding = 0 → t.committing = false → t.lh = [])
    (hcleared : x = .commitDone ∨ (∃ q, s.pc q = .commitDone) → t.lh = []) : Budget k t where
  fits := by
    intro q
    rw [fits_congr hhist, hpc]
    by_cases hq : q = p
    · subst hq
      simpa using hfits
    · simpa [Function.update_of_ne hq] using h.fits q
  fresh := hfresh
  cleared := by
    intro q hq
    rw [hpc] at hq
    by_cases hqp : q = p
    · subst hqp
      exact hcleared (Or.inl (by simpa using hq))
    · exact hcleared (Or.inr ⟨q, by simpa [Function.update_of_ne hqp] using hq⟩)
  total := by
    simp only [due_congr hhist, hpc]
    rw [sum_update (s.due k)]
    exact htotal

/-- A move of a process that leaves the header alone and owes no more than before. -/
theorem Budget.quiet (h : Budget k s) {p : P} {x : Pc} (hpc : t.pc = Function.update s.pc p x)
    (hhist : t.history = s.history) (hlh : t.lh = s.lh) (hfits : s.Fits k x)
    (hdue : s.due k x ≤ s.due k (s.pc p)) (hx : x ≠ .commitDone)
    (hfresh : t.outstanding = 0 → t.committing = false → s.lh = []) : Budget k t := by
  refine h.move hpc hhist hfits ?_ (fun hout hc => hlh ▸ hfresh hout hc) ?_
  · have htotal := h.total
    rw [hlh]
    omega
  · rintro (heq | ⟨q, hq⟩)
    · exact absurd heq hx
    · exact hlh ▸ h.cleared q hq

/-- The first process of a group finds the header empty, the second at most one reservation
in it, and a third only an empty one. -/
theorem Budget.enter (h : Budget k s) (hl : LogInv s) (ho : OpsInv s) (hk : k ≤ maxOpBlocks)
    {p : P} (hp : (s.pc p).op = none) (hc : s.committing = false)
    (hroom : (s.lh.length : Int) + (s.outstanding + 1) * maxOpBlocks ≤ logSize) :
    Budget k { s.moveTo p (.inOp s.nextOp) with
      outstanding := s.outstanding + 1, nextOp := s.nextOp + 1 } := by
  have hnonneg : 0 ≤ s.outstanding := by
    rw [hl.outstanding]
    exact Finset.sum_nonneg fun q _ => active_nonneg (s.pc q)
  have hdues : ∑ q, s.due k (s.pc q) ≤ k * s.outstanding := by
    rw [hl.outstanding, Finset.mul_sum]
    exact Finset.sum_le_sum fun q _ => due_le s (s.pc q)
  have hzero : s.due k (s.pc p) = 0 := by simp [State.due, hp]
  have hnew : s.due k (.inOp s.nextOp) = k := by simp [State.due, Pc.op, ho.opBlocks_next]
  refine h.move rfl rfl (by simp [State.Fits, ho.opBlocks_next]) ?_ ?_ ?_
  · rw [hzero, hnew]
    simp only [State.moveTo]
    have hthree : s.outstanding = 0 ∨ s.outstanding = 1 ∨ s.outstanding = 2 := by
      simp only [maxOpBlocks, logSize] at hroom
      omega
    rcases hthree with hout | hout | hout
    · have hlh : s.lh.length = 0 := by rw [h.fresh hout hc]; rfl
      rw [hout] at hdues
      omega
    · simp only [hout, maxOpBlocks, logSize] at hroom hdues ⊢
      omega
    · simp only [hout, maxOpBlocks, logSize] at hroom hdues hk ⊢
      omega
  · intro hout
    simp only at hout
    omega
  · rintro (heq | ⟨q, hq⟩)
    · cases heq
    · exact h.cleared q hq

/-- A logged block either is in the header already or is charged to its operation. -/
theorem Budget.append (h : Budget k s) (hl : LogInv s) (ho : OpsInv s) {p : P} {o b : Nat}
    (hp : s.pc p = .logging o b) : Budget k (logWriteAppend s p o b) := by
  have hop : (s.pc p).op = some o := by simp [hp, Pc.op]
  have hhist : (logWriteAppend s p o b).history = s.history ++ [(o, b)] := by
    simp [State.history, logWriteAppend, State.moveTo]
  have hblocks := opBlocks_append hhist
  have hother (q : P) (hq : q ≠ p) (x : Nat) (hx : (s.pc q).op = some x) :
      (logWriteAppend s p o b).opBlocks x = s.opBlocks x := by
    have hne : x ≠ o := fun heq => hq (ho.distinct q p o (heq ▸ hx) hop)
    rw [hblocks, if_neg hne]
  have hone : 1 ≤ s.outstanding := by
    rw [hl.outstanding, ← active_of_op hop]
    exact le_sum_of_nonneg (fun q => active_nonneg (s.pc q)) p
  have hnotcommit : s.committing ≠ true := by
    intro hc
    have hno := hl.no_op hc p
    rw [hop] at hno
    cases hno
  have hpc (q : P) (hq : q ≠ p) : (logWriteAppend s p o b).pc q = s.pc q := by
    simp [logWriteAppend, State.moveTo, Function.update_of_ne hq]
  have hself : (logWriteAppend s p o b).pc p = .inOp o := by simp [logWriteAppend, State.moveTo]
  have hfit := h.fits p
  rw [hp] at hfit
  constructor
  · intro q
    by_cases hq : q = p
    · subst hq
      rw [hself]
      simpa [State.Fits, hblocks] using hfit
    · rw [hpc q hq]
      have hfq := h.fits q
      cases hx : s.pc q with
      | inOp x =>
        rw [hx] at hfq
        simpa [State.Fits, hother q hq x (by simp [hx, Pc.op])] using hfq
      | logging x c =>
        rw [hx] at hfq
        simpa [State.Fits, hother q hq x (by simp [hx, Pc.op])] using hfq
      | _ => trivial
  · intro hout
    have hsame : (logWriteAppend s p o b).outstanding = s.outstanding := rfl
    omega
  · intro q hq
    by_cases hqp : q = p
    · subst hqp
      rw [hself] at hq
      cases hq
    · rw [hpc q hqp] at hq
      exact absurd (hl.committing.mpr ⟨q, by simp [hq, Pc.InCommit]⟩) hnotcommit
  · have hsum := sum_of_eq_off (f := fun q => s.due k (s.pc q))
      (g := fun q => (logWriteAppend s p o b).due k ((logWriteAppend s p o b).pc q)) p (by
        intro q hq
        simp only [hpc q hq, State.due]
        cases hx : (s.pc q).op with
        | none => rfl
        | some x => simp only [hother q hq x hx])
    have hold : s.due k (s.pc p) = k - (s.opBlocks o).card := by simp [State.due, hop]
    have hnew : (logWriteAppend s p o b).due k ((logWriteAppend s p o b).pc p) =
        k - (insert b (s.opBlocks o)).card := by
      simp [hself, State.due, Pc.op, hblocks]
    have htotal := h.total
    have hlh : (logWriteAppend s p o b).lh = absorb b s.lh := rfl
    rw [hlh, hsum, hold, hnew]
    by_cases hb : b ∈ s.lh
    · have hle := Finset.card_le_card (Finset.subset_insert b (s.opBlocks o))
      rw [absorb_of_mem hb]
      omega
    · have hnotin : b ∉ s.opBlocks o := by
        intro hmem
        have hgroup := ho.opBlocks_subset hop hmem
        exact hb ((hl.lists.2 b).mpr (by simpa [State.groupBlocks] using hgroup))
      rw [absorb_of_not_mem hb, Finset.card_insert_of_notMem hnotin, List.length_append,
        List.length_singleton]
      omega

/-- Every step within the reservation keeps the budget. -/
theorem step_budget {e : Event P} (hk : k ≤ maxOpBlocks) (hl : LogInv s) (ho : OpsInv s)
    (h : Budget k s) (hw : WithinReservation k s e) (hstep : step size s e = some t) :
    Budget k t := by
  obtain ⟨_, hs⟩ := step_cases hstep
  cases hs with
  | sleep p hp hwait =>
    have hzero : s.due k (s.pc p) = 0 := by rcases hp with hp | hp <;> rw [hp] <;> rfl
    exact h.quiet rfl rfl rfl trivial hzero.ge (by simp) h.fresh
  | enter p hp hc hroom =>
    exact h.enter hl ho hk (by rcases hp with hp | hp <;> simp [hp, Pc.op]) hc hroom
  | tooBig => exact { h with }
  | outside => exact { h with }
  | test p b o hp hfree hin =>
    have hfits : s.Fits k (.logging o b) := by
      simpa [WithinReservation, hp, State.Fits] using hw
    exact h.quiet rfl rfl rfl hfits (by simp [State.due, hp, Pc.op]) (by simp) h.fresh
  | append p o b hp => exact h.append hl ho hp
  | endPanic p o hp hc =>
    have hno := hl.no_op hc p
    rw [hp] at hno
    cases hno
  | endLast p o hp hc hlast =>
    exact h.quiet (x := .commitStart) rfl rfl rfl trivial (due_nonneg (h.fits p)) (by simp)
      (fun _ hfalse => by cases hfalse)
  | endOther p o hp hc hmore =>
    exact h.quiet (x := .idle) rfl rfl rfl trivial (due_nonneg (h.fits p)) (by simp)
      (fun hzero => absurd hzero hmore)
  | write p hp =>
    exact h.quiet (x := .commitTail s.lh) rfl rfl rfl trivial (due_nonneg (h.fits p)) (by simp)
      h.fresh
  | clear p written hp =>
    have hhist := step_history hstep
    refine h.move (x := .commitDone) rfl (by simpa [appended] using hhist) trivial ?_
      (fun _ _ => rfl) (fun _ => rfl)
    have htotal := h.total
    have hzero : s.due k (s.pc p) = 0 := by simp [State.due, hp, Pc.op]
    have hdone : s.due k .commitDone = 0 := rfl
    have hempty : (commitClear s p written).lh.length = 0 := rfl
    omega
  | finish p hp =>
    exact h.quiet (x := .idle) rfl rfl rfl trivial (due_nonneg (h.fits p)) (by simp)
      (fun _ _ => h.cleared p hp)

/-- The counters, the numbering and the budget together. -/
def Reserved (k : Nat) (s : State P) : Prop := (LogInv s ∧ OpsInv s) ∧ Budget k s

omit [DecidableEq P] in
theorem Reserved.init : Reserved k (init : State P) := ⟨⟨LogInv.init, OpsInv.init⟩, Budget.init⟩

theorem step_reserved (hk : k ≤ maxOpBlocks) (s : State P) (e : Event P) (t : State P)
    (h : Reserved k s) (hw : WithinReservation k s e) (hstep : step size s e = some t) :
    Reserved k t :=
  ⟨step_inv h.1 hstep, step_budget hk h.1.1 h.1.2 h.2 hw hstep⟩

omit [DecidableEq P] in
/-- No more than one full reservation and two of `k` are ever in the header. -/
theorem Budget.length_le (h : Budget k s) : s.lh.length ≤ maxOpBlocks + 2 * k := by
  have hsum : 0 ≤ ∑ p, s.due k (s.pc p) := Finset.sum_nonneg fun p _ => due_nonneg (h.fits p)
  have htotal := h.total
  omega

/-- A step panics with `too big a transaction` exactly when it is a `log_write` without
room. -/
theorem step_tooBig_iff (hsize : size ≤ logSize) {e : Event P} (hl : LogInv s)
    (hstep : step size s e = some t) : t.fault = some .tooBig ↔ ¬ HasRoom size s e := by
  have hlen : s.lh.length = s.groupBlocks.card := hl.lists.length_eq
  obtain ⟨hf, hs⟩ := step_cases hstep
  cases hs with
  | tooBig p b o hp hfull =>
    simp only [State.panic, HasRoom, not_lt, true_iff]
    rcases hfull with hfull | hfull <;> omega
  | outside p b o hp hfree hout =>
    simp only [State.panic, HasRoom, Option.some.injEq, reduceCtorEq, false_iff, not_not]
    omega
  | test p b o hp hfree hin =>
    simp only [State.moveTo, hf, HasRoom, reduceCtorEq, false_iff, not_not]
    omega
  | endPanic => simp [State.panic, HasRoom]
  | _ => simp [State.moveTo, logWriteAppend, commitWrite, commitClear, commitFinish, hf, HasRoom]

/-- A run panics with `too big a transaction` exactly when one of its `log_write`s has no
room. -/
theorem run_tooBig_iff (size : Nat) (hsize : size ≤ logSize) {es : List (Event P)}
    (hinv : LogInv s ∧ OpsInv s) (hf : s.fault ≠ some .tooBig)
    (hrun : run (step size) s es = some t) :
    t.fault ≠ some .tooBig ↔ Always (step size) (HasRoom size) s es := by
  induction es generalizing s with
  | nil =>
    rw [run_nil, Option.some.injEq] at hrun
    subst hrun
    exact ⟨fun _ => trivial, fun _ => hf⟩
  | cons e es ih =>
    obtain ⟨u, hu, hrest⟩ := (run_cons_eq_some _).mp hrun
    have hiff := step_tooBig_iff hsize hinv.1 hu
    by_cases hroom : HasRoom size s e
    · have huf : u.fault ≠ some .tooBig := fun hfault => hiff.mp hfault hroom
      rw [ih (step_inv hinv hu) huf hrest]
      constructor
      · intro halways
        refine ⟨hroom, fun v hv => ?_⟩
        rw [hu, Option.some.injEq] at hv
        exact hv ▸ halways
      · exact fun halways => halways.2 u hu
    · have huf : u.fault = some .tooBig := hiff.mpr hroom
      -- nothing runs after the panic
      have hnil : es = [] := by
        cases es with
        | nil => rfl
        | cons f fs =>
          obtain ⟨v, hv, _⟩ := (run_cons_eq_some _).mp hrest
          have hnone := (step_cases hv).1
          rw [huf] at hnone
          cases hnone
      subst hnil
      rw [run_nil, Option.some.injEq] at hrest
      subst hrest
      exact ⟨fun hne => absurd huf hne, fun halways => absurd halways.1 hroom⟩

/-- With the log size of `mkfs`, in every interleaving of operations of at most `MAXOPBLOCKS`
distinct blocks: the panic `too big a transaction` stays unreached exactly as long as no
`log_write` is called with `LOGSIZE - 1` distinct blocks logged since the last commit. The
reservations themselves are kept, and operations of one block less never reach the panic. -/
theorem admission_sound_iff (es : List (Event P)) (s : State P)
    (hrun : run (step mkfsSuperblock.nlog) init es = some s)
    (hw : Always (step mkfsSuperblock.nlog) (WithinReservation maxOpBlocks) init es) :
    (s.fault ≠ some .tooBig ↔
      Always (step mkfsSuperblock.nlog) (HasRoom mkfsSuperblock.nlog) init es) ∧
    s.groupBlocks.card ≤ logSize ∧
    (Always (step mkfsSuperblock.nlog) (WithinReservation (maxOpBlocks - 1)) init es →
      s.fault ≠ some .tooBig) := by
  have hinit : LogInv (init : State P) ∧ OpsInv (init : State P) := ⟨LogInv.init, OpsInv.init⟩
  have hiff := run_tooBig_iff mkfsSuperblock.nlog le_rfl hinit (by simp [init]) hrun
  refine ⟨hiff, ?_, ?_⟩
  · have hres : Reserved maxOpBlocks s := run_invariant (step_reserved le_rfl) Reserved.init hw hrun
    have hle := hres.2.length_le
    have hlen : s.lh.length = s.groupBlocks.card := hres.1.1.lists.length_eq
    simp only [maxOpBlocks] at hle
    simp only [logSize, maxOpBlocks]
    omega
  · intro hnine
    rw [hiff]
    refine always_of_invariant (step_reserved (by decide)) ?_ Reserved.init hnine
    intro u e hu
    have hle := hu.2.length_le
    have hlen : u.lh.length = u.groupBlocks.card := hu.1.1.lists.length_eq
    cases e with
    | logWrite p b =>
      simp only [maxOpBlocks] at hle
      simp only [HasRoom, mkfsSuperblock, logSize, maxOpBlocks]
      omega
    | _ => trivial

end Runs

/-- Process `p` logs the blocks `start`, ..., `start + n - 1`. -/
def logBlocks {n : Nat} (p : Fin n) (start : Nat) : Nat → List (Event (Fin n))
  | 0 => []
  | k + 1 => .logWrite p start :: .append p :: logBlocks p (start + 1) k

/-- Three operations of nine blocks run together. -/
def threeNines : List (Event (Fin 3)) :=
  [.beginOp 0, .beginOp 1, .beginOp 2] ++ logBlocks 0 100 9 ++ logBlocks 1 200 9 ++
    logBlocks 2 300 9 ++ [.endOp 0, .endOp 1, .endOp 2]

theorem admission_sound_three_nines :
    Always (step mkfsSuperblock.nlog) (WithinReservation (maxOpBlocks - 1)) init threeNines ∧
    ∃ s, run (step mkfsSuperblock.nlog) init threeNines = some s ∧ s.fault ≠ some .tooBig := by
  have hnine : Always (step mkfsSuperblock.nlog) (WithinReservation (maxOpBlocks - 1)) init
      threeNines := by decide +kernel
  obtain ⟨s, hs⟩ := Option.isSome_iff_exists.mp
    (by decide +kernel : (run (step mkfsSuperblock.nlog) init threeNines).isSome = true)
  exact ⟨hnine, s, hs, (admission_sound_iff threeNines s hs (by decide +kernel)).2.2 hnine⟩

/-- Three operations of `MAXOPBLOCKS` blocks run together. -/
def threeTens : List (Event (Fin 3)) :=
  [.beginOp 0, .beginOp 1, .beginOp 2] ++ logBlocks 0 100 10 ++ logBlocks 1 200 10 ++
    logBlocks 2 300 9 ++ [.logWrite 2 309]

/-- Each of them stays within its reservation, and the last block panics. -/
theorem admission_fails_three_tens :
    Always (step mkfsSuperblock.nlog) (WithinReservation maxOpBlocks) init threeTens ∧
    (run (step mkfsSuperblock.nlog) init threeTens).map State.fault = some (some .tooBig) := by
  decide +kernel

end Group

end Xv6Containers
