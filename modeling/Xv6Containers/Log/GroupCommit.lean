import Xv6Containers.Log.Group

/-!
# Group commit never splits an operation

Invariants of every interleaving: `log.outstanding` counts the operations in
progress, a commit runs alone and while none is in progress, the in-memory
header lists exactly the blocks logged since the last commit, and the writes of
one operation fall into one commit.
-/

namespace Xv6Containers

open Lib.Runs Lib.Counting Function

namespace Group

variable {P : Type}

/-- The operations that appear in a list of recorded writes. -/
def opsOf (ws : List (Nat × Nat)) : List Nat := ws.map Prod.fst

/-- The blocks that appear in a list of recorded writes. -/
def blocksOf (ws : List (Nat × Nat)) : List Nat := ws.map Prod.snd

/-- The header lists the blocks of the recorded writes, each once. -/
def Lists (lh : List Nat) (ws : List (Nat × Nat)) : Prop :=
  lh.Nodup ∧ ∀ b, b ∈ lh ↔ b ∈ blocksOf ws

theorem Lists.append {lh : List Nat} {ws : List (Nat × Nat)} (h : Lists lh ws) (o b : Nat) :
    Lists (absorb b lh) (ws ++ [(o, b)]) := by
  constructor
  · exact absorb_nodup h.1
  · intro c
    simp [mem_absorb, blocksOf, h.2 c]

/-- Operation numbers: those in progress are distinct, below `nextOp`, and in no finished
commit; the recorded groups have no operation in common. -/
structure OpsInv (s : State P) : Prop where
  below : ∀ p o, (s.pc p).op = some o → o < s.nextOp
  distinct : ∀ p q o, (s.pc p).op = some o → (s.pc q).op = some o → p = q
  running : ∀ p o, (s.pc p).op = some o → ∀ c ∈ s.commits, o ∉ opsOf c.writes
  group_below : ∀ o ∈ opsOf s.group, o < s.nextOp
  group_apart : ∀ o ∈ opsOf s.group, ∀ c ∈ s.commits, o ∉ opsOf c.writes
  commits_below : ∀ c ∈ s.commits, ∀ o ∈ opsOf c.writes, o < s.nextOp
  apart : s.commits.Pairwise fun c d => ∀ o ∈ opsOf c.writes, o ∉ opsOf d.writes

/-- The counters and the header. A commit excludes operations in progress. -/
structure LogInv [Fintype P] (s : State P) : Prop where
  outstanding : s.outstanding = ∑ p, (s.pc p).active
  committing : s.committing = true ↔ ∃ p, (s.pc p).InCommit
  quiet : s.committing = true → s.outstanding = 0
  single : ∀ p q, (s.pc p).InCommit → (s.pc q).InCommit → p = q
  lists : Lists s.lh s.group
  written : ∀ p ws, s.pc p = .commitTail ws → ws = s.lh
  covered : ∀ c ∈ s.commits, Lists c.blocks c.writes

theorem active_nonneg (x : Pc) : 0 ≤ x.active := by
  unfold Pc.active
  split <;> omega

theorem active_of_op {x : Pc} {o : Nat} (h : x.op = some o) : x.active = 1 := by
  simp [Pc.active, h]

theorem active_of_no_op {x : Pc} (h : x.op = none) : x.active = 0 := by
  simp [Pc.active, h]

variable {s : State P}

/-- While a commit runs no process has an operation in progress. -/
theorem LogInv.no_op [Fintype P] (h : LogInv s) (hc : s.committing = true) (p : P) :
    (s.pc p).op = none := by
  cases ho : (s.pc p).op with
  | none => rfl
  | some o =>
    have hle := le_sum_of_nonneg (fun q => active_nonneg (s.pc q)) p
    have hout := h.outstanding
    have hquiet := h.quiet hc
    have hone := active_of_op ho
    omega

variable [DecidableEq P]

omit [DecidableEq P] in
theorem OpsInv.init : OpsInv (init : State P) where
  below := by simp [Group.init, Pc.op]
  distinct := by simp [Group.init, Pc.op]
  running := by simp [Group.init]
  group_below := by simp [Group.init, opsOf]
  group_apart := by simp [Group.init]
  commits_below := by simp [Group.init]
  apart := by simp [Group.init]

/-- Moving one process to a place with the same operation, or with none, keeps the
numbering. -/
theorem OpsInv.moveTo (h : OpsInv s) (p : P) (x : Pc) (hx : x.op = none ∨ x.op = (s.pc p).op) :
    OpsInv (s.moveTo p x) := by
  have hop (q : P) (o : Nat) (hq : ((s.moveTo p x).pc q).op = some o) : (s.pc q).op = some o := by
    by_cases hqp : q = p
    · subst hqp
      simp only [State.moveTo, update_self] at hq
      rcases hx with hnone | hsame
      · rw [hnone] at hq
        cases hq
      · rwa [hsame] at hq
    · simpa [State.moveTo, update_of_ne hqp] using hq
  exact
    { below := fun q o hq => h.below q o (hop q o hq)
      distinct := fun q r o hq hr => h.distinct q r o (hop q o hq) (hop r o hr)
      running := fun q o hq => h.running q o (hop q o hq)
      group_below := h.group_below
      group_apart := h.group_apart
      commits_below := h.commits_below
      apart := h.apart }

/-- A new operation takes the next number. -/
theorem OpsInv.enter (h : OpsInv s) (p : P) (n : Int) :
    OpsInv { s.moveTo p (.inOp s.nextOp) with outstanding := n, nextOp := s.nextOp + 1 } := by
  have hop (q : P) (o : Nat)
      (hq : ((update s.pc p (.inOp s.nextOp)) q).op = some o) :
      (q = p ∧ o = s.nextOp) ∨ (q ≠ p ∧ (s.pc q).op = some o) := by
    by_cases hqp : q = p
    · subst hqp
      simp only [update_self, Pc.op, Option.some.injEq] at hq
      exact Or.inl ⟨rfl, hq.symm⟩
    · exact Or.inr ⟨hqp, by simpa [update_of_ne hqp] using hq⟩
  constructor
  · intro q o hq
    rcases hop q o hq with ⟨_, rfl⟩ | ⟨_, hold⟩
    · exact Nat.lt_succ_self _
    · exact Nat.lt_succ_of_lt (h.below q o hold)
  · intro q r o hq hr
    rcases hop q o hq with ⟨rfl, rfl⟩ | ⟨_, hqold⟩ <;>
      rcases hop r _ hr with ⟨rfl, ho⟩ | ⟨_, hrold⟩
    · rfl
    · exact absurd (h.below r _ hrold) (lt_irrefl _)
    · subst ho
      exact absurd (h.below q _ hqold) (lt_irrefl _)
    · exact h.distinct q r o hqold hrold
  · intro q o hq c hc hmem
    rcases hop q o hq with ⟨_, rfl⟩ | ⟨_, hold⟩
    · exact absurd (h.commits_below c hc _ hmem) (lt_irrefl _)
    · exact h.running q o hold c hc hmem
  · intro o ho
    exact Nat.lt_succ_of_lt (h.group_below o ho)
  · exact h.group_apart
  · intro c hc o ho
    exact Nat.lt_succ_of_lt (h.commits_below c hc o ho)
  · exact h.apart

/-- A logged block is recorded under the operation that logs it. -/
theorem OpsInv.append (h : OpsInv s) (p : P) (o b : Nat) (hp : s.pc p = .logging o b) :
    OpsInv (logWriteAppend s p o b) := by
  have hold := h.moveTo p (.inOp o) (Or.inr (by simp [hp, Pc.op]))
  have ho : (s.pc p).op = some o := by simp [hp, Pc.op]
  have hmem (o' : Nat) (hin : o' ∈ opsOf (s.group ++ [(o, b)])) :
      o' ∈ opsOf s.group ∨ o' = o := by
    simpa [opsOf] using hin
  exact
    { below := hold.below
      distinct := hold.distinct
      running := hold.running
      group_below := fun o' hin => by
        rcases hmem o' hin with hin' | rfl
        · exact h.group_below o' hin'
        · exact h.below p _ ho
      group_apart := fun o' hin => by
        rcases hmem o' hin with hin' | rfl
        · exact h.group_apart o' hin'
        · exact h.running p _ ho
      commits_below := h.commits_below
      apart := h.apart }

/-- A commit closes the group. No operation is in progress, so none of its numbers is
logged again. -/
theorem OpsInv.clear (h : OpsInv s) (p : P) (written : List Nat) (hno : ∀ q, (s.pc q).op = none) :
    OpsInv (commitClear s p written) := by
  have hnone (q : P) (o : Nat) : ((commitClear s p written).pc q).op ≠ some o := by
    by_cases hqp : q = p
    · subst hqp
      simp [commitClear, State.moveTo, Pc.op]
    · simp [commitClear, State.moveTo, update_of_ne hqp, hno q]
  constructor
  · exact fun q o hq => absurd hq (hnone q o)
  · exact fun q _ o hq => absurd hq (hnone q o)
  · exact fun q o hq => absurd hq (hnone q o)
  · simp [commitClear, opsOf]
  · simp [commitClear, opsOf]
  · intro c hc o ho
    rcases List.mem_append.mp hc with hold | hnew
    · exact h.commits_below c hold o ho
    · rw [List.mem_singleton] at hnew
      subst hnew
      exact h.group_below o ho
  · simp only [commitClear, List.pairwise_append]
    refine ⟨h.apart, by simp, ?_⟩
    intro c hc d hd o ho
    rw [List.mem_singleton] at hd
    subst hd
    exact fun hin => h.group_apart o hin c hc ho

omit [DecidableEq P] in
theorem OpsInv.panic (h : OpsInv s) (f : Fault) : OpsInv (s.panic f) :=
  { h with }

section Counters

variable [Fintype P]

omit [DecidableEq P] in
theorem LogInv.init : LogInv (init : State P) where
  outstanding := by simp [Group.init, Pc.active, Pc.op]
  committing := by simp [Group.init, Pc.InCommit]
  quiet := by simp [Group.init]
  single := by simp [Group.init, Pc.InCommit]
  lists := by simp [Group.init, Lists, blocksOf]
  written := by simp [Group.init]
  covered := by simp [Group.init]

variable {s : State P} {p : P} {size : Nat}

/-- A step of one process outside `commit`: the counter follows the process, the header
and the history stay listed. -/
theorem LogInv.move {t : State P} (h : LogInv s) {x : Pc} (hp : ¬ (s.pc p).InCommit)
    (hx : ¬ x.InCommit) (hpc : t.pc = update s.pc p x) (hcom : t.committing = s.committing)
    (hout : t.outstanding = s.outstanding - (s.pc p).active + x.active)
    (hquiet : s.committing = true → x.active = 0) (hlists : Lists t.lh t.group)
    (hlh : s.committing = true → t.lh = s.lh) (hcovered : t.commits = s.commits) : LogInv t := by
  have hin (q : P) : (t.pc q).InCommit ↔ (s.pc q).InCommit := by
    by_cases hq : q = p
    · subst hq
      simp [hpc, hx, hp]
    · simp [hpc, update_of_ne hq]
  constructor
  · rw [hpc, sum_update Pc.active, hout, h.outstanding]
  · rw [hcom, h.committing]
    exact exists_congr fun q => (hin q).symm
  · intro hc
    rw [hcom] at hc
    have hno := active_of_no_op (h.no_op hc p)
    have hq := h.quiet hc
    have hx0 := hquiet hc
    omega
  · intro q r hq hr
    exact h.single q r ((hin q).mp hq) ((hin r).mp hr)
  · exact hlists
  · intro q ws hq
    have hqp : q ≠ p := by
      rintro rfl
      rw [hpc, update_self] at hq
      exact hx (by simp [hq, Pc.InCommit])
    rw [hpc, update_of_ne hqp] at hq
    have hc : s.committing = true := h.committing.mpr ⟨q, by simp [hq, Pc.InCommit]⟩
    rw [hlh hc]
    exact h.written q ws hq
  · rw [hcovered]
    exact h.covered

/-- The last operation of a group starts a commit. -/
theorem LogInv.endLast (h : LogInv s) {o : Nat} (hp : s.pc p = .inOp o)
    (hc : s.committing = false) (hlast : s.outstanding - 1 = 0) :
    LogInv { s.moveTo p .commitStart with
      outstanding := s.outstanding - 1, committing := true } := by
  have hnone (q : P) : ¬ (s.pc q).InCommit := by
    intro hq
    have := h.committing.mpr ⟨q, hq⟩
    rw [hc] at this
    cases this
  have hin (q : P) (hq : ((update s.pc p .commitStart) q).InCommit) : q = p := by
    by_contra hne
    rw [update_of_ne hne] at hq
    exact hnone q hq
  constructor
  · have hsum := sum_update Pc.active s.pc p .commitStart
    have hout := h.outstanding
    have hone : (s.pc p).active = 1 := by simp [hp, Pc.active, Pc.op]
    have hzero : Pc.commitStart.active = 0 := rfl
    simp only [State.moveTo]
    omega
  · exact ⟨fun _ => ⟨p, by simp [State.moveTo, Pc.InCommit]⟩, fun _ => rfl⟩
  · exact fun _ => hlast
  · intro q r hq hr
    rw [hin q hq, hin r hr]
  · exact h.lists
  · intro q ws hq
    simp only [State.moveTo] at hq
    by_cases hqp : q = p
    · subst hqp
      simp at hq
    · rw [update_of_ne hqp] at hq
      exact absurd (by simp [hq, Pc.InCommit]) (hnone q)
  · exact h.covered

/-- A step of the committing process inside `commit`. -/
theorem LogInv.inCommit {t : State P} (h : LogInv s) {x : Pc} (hp : (s.pc p).InCommit)
    (hx : x.InCommit) (hpc : t.pc = update s.pc p x) (hcom : t.committing = s.committing)
    (hout : t.outstanding = s.outstanding) (hlists : Lists t.lh t.group)
    (hwritten : ∀ ws, x = .commitTail ws → ws = t.lh)
    (hcovered : ∀ c ∈ t.commits, Lists c.blocks c.writes) : LogInv t := by
  have hin (q : P) : (t.pc q).InCommit ↔ (s.pc q).InCommit := by
    by_cases hq : q = p
    · subst hq
      simp [hpc, hx, hp]
    · simp [hpc, update_of_ne hq]
  have hop (y : Pc) (hy : y.InCommit) : y.active = 0 := by
    cases y <;> simp_all [Pc.InCommit, Pc.active, Pc.op]
  constructor
  · rw [hpc, sum_update Pc.active, hop _ hp, hop x hx, hout, h.outstanding, sub_zero, add_zero]
  · rw [hcom, h.committing]
    exact exists_congr fun q => (hin q).symm
  · rw [hcom, hout]
    exact h.quiet
  · intro q r hq hr
    exact h.single q r ((hin q).mp hq) ((hin r).mp hr)
  · exact hlists
  · intro q ws hq
    have hqp : q = p := h.single q p ((hin q).mp (by simp [hq, Pc.InCommit])) hp
    subst hqp
    rw [hpc, update_self] at hq
    exact hwritten ws hq
  · exact hcovered

/-- Clearing `log.committing` ends the commit. -/
theorem LogInv.finish (h : LogInv s) (hp : s.pc p = .commitDone) : LogInv (commitFinish s p) := by
  have hpin : (s.pc p).InCommit := by simp [hp, Pc.InCommit]
  have hc : s.committing = true := h.committing.mpr ⟨p, hpin⟩
  have hnone (q : P) : ¬ ((update s.pc p .idle) q).InCommit := by
    intro hq
    by_cases hqp : q = p
    · subst hqp
      simp [Pc.InCommit] at hq
    · rw [update_of_ne hqp] at hq
      exact hqp (h.single q p hq hpin)
  constructor
  · have hsum := sum_update Pc.active s.pc p .idle
    have hout := h.outstanding
    have hzero : (s.pc p).active = 0 := by simp [hp, Pc.active, Pc.op]
    have hidle : Pc.idle.active = 0 := rfl
    simp only [commitFinish, State.moveTo]
    omega
  · constructor
    · intro hfalse
      simp [commitFinish] at hfalse
    · rintro ⟨q, hq⟩
      exact absurd hq (hnone q)
  · intro _
    exact h.quiet hc
  · intro q _ hq
    exact absurd hq (hnone q)
  · exact h.lists
  · intro q ws hq
    exact absurd (by simp only [commitFinish, State.moveTo] at hq; simp [hq, Pc.InCommit])
      (hnone q)
  · exact h.covered

/-- Every step keeps the counters and the numbering. -/
theorem step_inv {t : State P} {e : Event P} (h : LogInv s ∧ OpsInv s)
    (hstep : step size s e = some t) : LogInv t ∧ OpsInv t := by
  obtain ⟨hl, ho⟩ := h
  obtain ⟨_, hs⟩ := step_cases hstep
  cases hs with
  | sleep p hp hwait =>
    refine ⟨?_, ho.moveTo p .waiting (Or.inl rfl)⟩
    have hzero : (s.pc p).active = 0 := by rcases hp with hp | hp <;> rw [hp] <;> rfl
    have hwaiting : Pc.waiting.active = 0 := rfl
    exact hl.move (by rcases hp with hp | hp <;> simp [hp, Pc.InCommit])
      (by simp [Pc.InCommit]) rfl rfl (by simp [State.moveTo, hzero, hwaiting])
      (fun _ => rfl) hl.lists (fun _ => rfl) rfl
  | enter p hp hc hroom =>
    refine ⟨?_, ho.enter p _⟩
    have hzero : (s.pc p).active = 0 := by rcases hp with hp | hp <;> rw [hp] <;> rfl
    exact hl.move (x := .inOp s.nextOp) (by rcases hp with hp | hp <;> simp [hp, Pc.InCommit])
      (by simp [Pc.InCommit]) rfl rfl (by rw [hzero]; simp [Pc.active, Pc.op])
      (fun htrue => by rw [hc] at htrue; cases htrue) hl.lists (fun _ => rfl) rfl
  | tooBig p b o hp hfull => exact ⟨{ hl with }, ho.panic _⟩
  | outside p b o hp hfree hout => exact ⟨{ hl with }, ho.panic _⟩
  | test p b o hp hfree hin =>
    refine ⟨?_, ho.moveTo p (.logging o b) (Or.inr (by simp [hp, Pc.op]))⟩
    have hc : s.committing = true → (Pc.logging o b).active = 0 := by
      intro hc
      have hno := hl.no_op hc p
      rw [hp] at hno
      cases hno
    exact hl.move (by simp [hp, Pc.InCommit]) (by simp [Pc.InCommit]) rfl rfl
      (by simp [State.moveTo, hp, Pc.active, Pc.op]) hc hl.lists (fun _ => rfl) rfl
  | append p o b hp =>
    refine ⟨?_, ho.append p o b hp⟩
    have hc : s.committing ≠ true := by
      intro hc
      have hno := hl.no_op hc p
      rw [hp] at hno
      cases hno
    exact hl.move (x := .inOp o) (by simp [hp, Pc.InCommit]) (by simp [Pc.InCommit]) rfl rfl
      (by simp [logWriteAppend, State.moveTo, hp, Pc.active, Pc.op])
      (fun htrue => absurd htrue hc) (hl.lists.append o b) (fun htrue => absurd htrue hc) rfl
  | endPanic p o hp hc =>
    -- unreachable: a commit and an operation in progress exclude each other
    have hno := hl.no_op hc p
    rw [hp] at hno
    cases hno
  | endLast p o hp hc hlast =>
    exact ⟨hl.endLast hp hc hlast, { ho.moveTo p .commitStart (Or.inl rfl) with }⟩
  | endOther p o hp hc hmore =>
    refine ⟨?_, { ho.moveTo p .idle (Or.inl rfl) with }⟩
    exact hl.move (x := .idle) (by simp [hp, Pc.InCommit]) (by simp [Pc.InCommit]) rfl rfl
      (by simp [hp, Pc.active, Pc.op]) (fun _ => rfl) hl.lists (fun _ => rfl) rfl
  | write p hp =>
    refine ⟨?_, ho.moveTo p (.commitTail s.lh) (Or.inl rfl)⟩
    exact hl.inCommit (by simp [hp, Pc.InCommit]) (by simp [Pc.InCommit]) rfl rfl rfl hl.lists
      (fun ws hws => by injection hws with hws; exact hws.symm) hl.covered
  | clear p written hp =>
    have hpin : (s.pc p).InCommit := by simp [hp, Pc.InCommit]
    have hc := hl.committing.mpr ⟨p, hpin⟩
    refine ⟨?_, ho.clear p written (hl.no_op hc)⟩
    refine hl.inCommit hpin (by simp [Pc.InCommit]) rfl rfl rfl (by simp [Lists, commitClear, blocksOf])
      (fun ws hws => by cases hws) ?_
    intro c hmem
    rcases List.mem_append.mp hmem with hold | hnew
    · exact hl.covered c hold
    · rw [List.mem_singleton] at hnew
      subst hnew
      rw [hl.written p written hp]
      exact hl.lists
  | finish p hp => exact ⟨hl.finish hp, { ho.moveTo p .idle (Or.inl rfl) with }⟩

/-- Every state that any interleaving reaches satisfies the invariants. -/
theorem run_inv {es : List (Event P)} (hrun : run (step size) init es = some s) :
    LogInv s ∧ OpsInv s :=
  run_invariant_of_step (fun _ _ _ h hs => step_inv h hs) ⟨LogInv.init, OpsInv.init⟩ hrun

/-- While a commit runs `begin_op` only goes to sleep. -/
theorem LogInv.begin_waits {t : State P} (h : LogInv s) {q : P} (hp : (s.pc p).InCommit)
    (hstep : step size s (.beginOp q) = some t) : t.pc q = .waiting := by
  have hc := h.committing.mpr ⟨p, hp⟩
  obtain ⟨_, hs⟩ := step_cases hstep
  cases hs with
  | sleep => simp [State.moveTo]
  | enter _ _ hfree =>
    rw [hc] at hfree
    cases hfree

end Counters

/-! ## What the run logged -/

/-- The write that one step logs. -/
def appended (s : State P) : Event P → List (Nat × Nat)
  | .append p =>
    match s.pc p with
    | .logging o b => [(o, b)]
    | _ => []
  | _ => []

/-- The writes that a run logs, in order. -/
def logged (size : Nat) : State P → List (Event P) → List (Nat × Nat)
  | _, [] => []
  | s, e :: es => appended s e ++ ((step size s e).elim [] fun t => logged size t es)

/-- The writes the recorded commits cover, and after them those of the current group. -/
def State.history (s : State P) : List (Nat × Nat) := s.commits.flatMap Commit.writes ++ s.group

theorem step_history {size : Nat} {s t : State P} {e : Event P}
    (hstep : step size s e = some t) : t.history = s.history ++ appended s e := by
  obtain ⟨_, hs⟩ := step_cases hstep
  cases hs with
  | append p o b hp =>
    simp [State.history, appended, hp, logWriteAppend, State.moveTo]
  | clear p written hp =>
    simp [State.history, appended, commitClear, State.moveTo]
  | _ => simp [State.history, appended, State.moveTo, State.panic, commitWrite, commitFinish]

theorem run_history {size : Nat} {s t : State P} {es : List (Event P)}
    (hrun : run (step size) s es = some t) : t.history = s.history ++ logged size s es := by
  induction es generalizing s with
  | nil =>
    rw [run_nil, Option.some.injEq] at hrun
    simp [logged, hrun]
  | cons e es ih =>
    obtain ⟨u, hu, hrest⟩ := (run_cons_eq_some _).mp hrun
    rw [ih hrest, step_history hu, logged, hu, List.append_assoc, Option.elim_some]

variable [Fintype P]

/-- In every state that any interleaving reaches: `log.outstanding` is the number of
operations in progress; a commit runs alone, while that number is zero, and `begin_op`
sleeps meanwhile; `lh.block` lists the blocks logged since the last commit, each once; every
logged write belongs to a finished commit that wrote its block, or to the current group; and
no operation has writes in two of them. -/
theorem group_commit_never_splits (size : Nat) (es : List (Event P)) (s : State P)
    (hrun : run (step size) init es = some s) :
    s.outstanding = (Finset.univ.filter fun p => (s.pc p).op.isSome).card ∧
    (∀ p, (s.pc p).InCommit → s.outstanding = 0 ∧
      ∀ q t, step size s (.beginOp q) = some t → t.pc q = .waiting) ∧
    (∀ p q, (s.pc p).InCommit → (s.pc q).InCommit → p = q) ∧
    Lists s.lh s.group ∧
    s.commits.flatMap Commit.writes ++ s.group = logged size init es ∧
    (∀ c ∈ s.commits, Lists c.blocks c.writes) ∧
    (s.commits.Pairwise fun c d => ∀ o ∈ opsOf c.writes, o ∉ opsOf d.writes) ∧
    ∀ o ∈ opsOf s.group, ∀ c ∈ s.commits, o ∉ opsOf c.writes := by
  obtain ⟨hl, ho⟩ := run_inv hrun
  refine ⟨?_, ?_, hl.single, hl.lists, ?_, hl.covered, ho.apart, ho.group_apart⟩
  · rw [hl.outstanding, Finset.card_filter, Nat.cast_sum]
    simp [Pc.active]
  · intro p hp
    exact ⟨hl.quiet (hl.committing.mpr ⟨p, hp⟩), fun q t hstep => hl.begin_waits hp hstep⟩
  · have hhist := run_history hrun
    simpa [State.history, init] using hhist

/-- Two overlapping operations, the second logging a block of the first; one commit covers
both. -/
def twoOps : List (Event (Fin 2)) :=
  [.beginOp 0, .logWrite 0 40, .beginOp 1, .append 0, .logWrite 1 40, .logWrite 0 41, .append 1,
    .endOp 1, .append 0, .endOp 0, .commit 0, .beginOp 1, .commit 0, .commit 0, .beginOp 1]

theorem group_commit_two_ops :
    ∃ s, run (step logSize) init twoOps = some s ∧
      s.commits.flatMap Commit.writes = [(0, 40), (1, 40), (0, 41)] ∧
      (∀ c ∈ s.commits, Lists c.blocks c.writes) ∧ s.outstanding = 1 := by
  obtain ⟨s, hs⟩ := Option.isSome_iff_exists.mp
    (by decide : (run (step logSize) init twoOps).isSome = true)
  have hall := group_commit_never_splits logSize twoOps s hs
  have hcommits : (run (step logSize) init twoOps).map
      (fun s => (s.commits.flatMap Commit.writes, s.outstanding)) =
      some ([(0, 40), (1, 40), (0, 41)], 1) := by decide
  rw [hs, Option.map_some, Option.some.injEq, Prod.mk.injEq] at hcommits
  exact ⟨s, hs, hcommits.1, hall.2.2.2.2.2.1, hcommits.2⟩

end Group

end Xv6Containers
