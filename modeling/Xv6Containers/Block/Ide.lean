import Xv6Containers.Lib.LinkedList
import Xv6Containers.Lib.Runs
import Xv6Containers.Param

/-!
# The disk drivers

The queued driver of `ide.c`, with the device it starts and the interrupts that
complete its requests, and the synchronous memory disk of `memide.c`.

## Implementation notes

The contents of a block are values of an arbitrary type. A buffer is locked by
the process that uses it, so there is at most one call of `iderw` for each buffer
and the state of that call is kept with the buffer; between calls its owner may
change the buffer in any way. Each step is a stretch under `idelock`. The cell
`none` of `qnext` is the variable `idequeue`. A panic is a step that is not
enabled. The fields `queued`, `started` and `completed` record requests with the
buffer they were made with.
-/

namespace Xv6Containers.Block

open Lib.Linked Lib.Runs Function

variable {D : Type}

/-- `struct buf`, as far as the drivers use it. -/
structure Buf (D : Type) where
  valid : Bool
  dirty : Bool
  dev : Nat
  blockno : Nat
  data : D
  deriving DecidableEq

/-- `(b->flags & (B_VALID|B_DIRTY)) == B_VALID`. -/
def Buf.Synced (b : Buf D) : Prop := b.valid = true ∧ b.dirty = false

instance (b : Buf D) : Decidable b.Synced := inferInstanceAs (Decidable (_ ∧ _))

/-! ## The memory disk -/

/-- `iderw` of `memide.c`; `none` is a panic. -/
def memIderw (disk : Nat → D) (b : Buf D) : Option ((Nat → D) × Buf D) :=
  if b.Synced then none
  else if b.dev ≠ 1 then none
  else if fsSize ≤ b.blockno then none
  else if b.dirty then
    some (update disk b.blockno b.data, { b with dirty := false, valid := true })
  else some (disk, { b with data := disk b.blockno, valid := true })

/-- Requests executed one at a time: the disk, and what became of each buffer. -/
def memRun {B : Type} [DecidableEq B] (disk : Nat → D) (done : B → Option (Buf D)) :
    List (B × Buf D) → Option ((Nat → D) × (B → Option (Buf D)))
  | [] => some (disk, done)
  | (b, x) :: rs =>
    match memIderw disk x with
    | none => none
    | some (disk, y) => memRun disk (update done b (some y)) rs

variable {havedisk1 : Bool}

theorem memRun_concat {B : Type} [DecidableEq B] {disk' disk'' : Nat → D}
    {done done' : B → Option (Buf D)} {rs : List (B × Buf D)} {b : B} {x y : Buf D}
    (h : memRun disk done rs = some (disk', done')) (hx : memIderw disk' x = some (disk'', y)) :
    memRun disk done (rs ++ [(b, x)]) = some (disk'', update done' b (some y)) := by
  induction rs generalizing disk done with
  | nil =>
    cases h
    simp [memRun, hx]
  | cons r rs ih =>
    obtain ⟨c, z⟩ := r
    rw [List.cons_append, memRun]
    rw [memRun] at h
    split at h
    · cases h
    · exact ih h

/-! ## The queued driver -/

/-- The command that the device is executing; a write has its data. -/
structure Cmd (D : Type) where
  dev : Nat
  blockno : Nat
  data : Option D

/-- A buffer's call of `iderw`: none, sleeping, or woken and about to test the flags. -/
inductive Wait
  | idle
  | asleep
  | awake
  deriving DecidableEq

structure Ide (n : Nat) (D : Type) where
  buf : Fin n → Buf D
  qnext : Option (Fin n) → Option (Fin n)
  cmd : Option (Cmd D)
  disk : Nat → Nat → D
  wait : Fin n → Wait
  queued : List (Fin n × Buf D)
  started : List (Fin n × Buf D)
  completed : List (Fin n × Buf D)

variable {n : Nat}

/-- What `idestart` writes to the device for a buffer. -/
def Buf.cmd (b : Buf D) : Cmd D := ⟨b.dev % 2, b.blockno, if b.dirty then some b.data else none⟩

/-- `idestart`. -/
def idestart (b : Fin n) (s : Ide n D) : Option (Ide n D) :=
  if fsSize ≤ (s.buf b).blockno then none
  else some { s with cmd := some (s.buf b).cmd, started := s.started ++ [(b, s.buf b)] }

/-- `iderw` up to its first `sleep`. -/
def iderw (havedisk1 : Bool) (b : Fin n) (s : Ide n D) : Option (Ide n D) :=
  if (s.buf b).Synced then none
  else if (s.buf b).dev ≠ 0 ∧ havedisk1 = false then none
  else
    let qnext := update s.qnext (some b) none
    match lastCell qnext (n + 1) none with
    | none => none
    | some c =>
      let s := { s with
        qnext := update qnext c (some b)
        wait := update s.wait b .asleep
        queued := s.queued ++ [(b, s.buf b)] }
      if s.qnext none = some b then idestart b s else some s

/-- The test of the loop of `iderw` after it was woken. -/
def iderwTest (b : Fin n) (s : Ide n D) : Ide n D :=
  { s with wait := update s.wait b (if (s.buf b).Synced then .idle else .asleep) }

/-- The device ends its command. -/
def complete (c : Cmd D) (disk : Nat → Nat → D) : Nat → Nat → D :=
  match c.data with
  | none => disk
  | some d => update disk c.dev (update (disk c.dev) c.blockno d)

/-- What `ideintr` makes of the buffer; `port` are the data that the device has read. -/
def finish (x : Buf D) (err : Bool) (port : D) : Buf D :=
  { x with
    data := if x.dirty = false ∧ err = false then port else x.data
    valid := true
    dirty := false }

/-- The end of the command and `ideintr`; `err` is the error status. -/
def ideintr (err : Bool) (s : Ide n D) : Option (Ide n D) :=
  match s.cmd with
  | none => none
  | some c =>
    let s := { s with disk := complete c s.disk, cmd := none }
    match s.qnext none with
    | none => some s
    | some b =>
      let x := s.buf b
      let s := { s with
        qnext := update s.qnext none (s.qnext (some b))
        buf := update s.buf b (finish x err (s.disk c.dev c.blockno))
        wait := update s.wait b .awake
        completed := s.completed ++ [(b, x)] }
      match s.qnext none with
      | none => some s
      | some b' => idestart b' s

inductive IdeEvent (n : Nat) (D : Type)
  | edit (b : Fin n) (x : Buf D)
  | iderw (b : Fin n)
  | test (b : Fin n)
  | kill (b : Fin n)
  | intr (err : Bool)

def ideStep (havedisk1 : Bool) (s : Ide n D) : IdeEvent n D → Option (Ide n D)
  | .edit b x => if s.wait b = .idle then some { s with buf := update s.buf b x } else none
  | .iderw b => if s.wait b = .idle then Block.iderw havedisk1 b s else none
  | .test b => if s.wait b = .awake then some (iderwTest b s) else none
  | .kill b =>
    if s.wait b = .asleep then some { s with wait := update s.wait b .awake } else none
  | .intr err => ideintr err s

/-- No request yet. -/
def ideinit (buf : Fin n → Buf D) (disk : Nat → Nat → D) : Ide n D where
  buf := buf
  qnext := fun _ => none
  cmd := none
  disk := disk
  wait := fun _ => .idle
  queued := []
  started := []
  completed := []

/-! ## The queue -/

/-- The queue holds `q`; the completed requests have had the effect of the memory disk. -/
structure IdeInv (disk : Nat → D) (s : Ide n D) (q : List (Fin n)) : Prop where
  chain : Chain s.qnext none q
  nodup : q.Nodup
  queued : s.queued = s.completed ++ q.map fun b => (b, s.buf b)
  started : s.started = s.completed ++ (q.take 1).map fun b => (b, s.buf b)
  pending : ∀ b ∈ q, s.wait b ≠ .idle ∧ ¬ (s.buf b).Synced ∧ (s.buf b).dev = 1
  cmd : s.cmd = q.head?.map fun b => (s.buf b).cmd
  inRange : ∀ b ∈ q.head?, (s.buf b).blockno < fsSize
  seq : ∃ done, memRun disk (fun _ => none) s.completed = some (s.disk 1, done) ∧
    ∀ b, b ∉ q → s.wait b ≠ .idle →
      done b = some (s.buf b) ∧ (s.buf b).Synced ∧ s.wait b = .awake

variable {disk : Nat → D} {s t : Ide n D} {q : List (Fin n)} {b : Fin n}

theorem ideinit_inv (buf : Fin n → Buf D) (disk : Nat → Nat → D) :
    IdeInv (disk 1) (ideinit buf disk) [] where
  chain := rfl
  nodup := List.nodup_nil
  queued := rfl
  started := rfl
  pending := by simp
  cmd := rfl
  inRange := by simp
  seq := ⟨_, rfl, fun _ _ h => absurd rfl h⟩

theorem IdeInv.notMem (h : IdeInv disk s q) (hb : s.wait b = .idle) : b ∉ q :=
  fun hmem => (h.pending b hmem).1 hb

/-- The owner changes a buffer that has no call. -/
theorem edit_inv (h : IdeInv disk s q) (hb : s.wait b = .idle) (x : Buf D) :
    IdeInv disk { s with buf := update s.buf b x } q := by
  have hne (c : Fin n) (hc : c ∈ q) : c ≠ b := fun hcb => h.notMem hb (hcb ▸ hc)
  have hbuf (c : Fin n) (hc : c ∈ q) : update s.buf b x c = s.buf c :=
    update_of_ne (hne c hc) ..
  obtain ⟨done, hrun, hdone⟩ := h.seq
  refine ⟨h.chain, h.nodup, ?_, ?_, fun c hc => ?_, ?_, fun c hc => ?_, done, hrun, fun c hc hw => ?_⟩
  · rw [h.queued]
    congr 1
    exact List.map_congr_left fun c hc => by simp only [hbuf c hc]
  · rw [h.started]
    congr 1
    exact List.map_congr_left fun c hc => by simp only [hbuf c (List.mem_of_mem_take hc)]
  · simpa only [hbuf c hc] using h.pending c hc
  · rw [h.cmd]
    cases q with
    | nil => rfl
    | cons c q => simp [hbuf c (List.mem_cons_self ..)]
  · simpa only [hbuf c (List.mem_of_mem_head? hc)] using h.inRange c hc
  · have hcb : c ≠ b := fun hcb => hw (hcb ▸ hb)
    simpa only [update_of_ne hcb] using hdone c hc hw

theorem idestart_eq {u : Ide n D} (h : idestart b s = some u) :
    (s.buf b).blockno < fsSize ∧
      u = { s with cmd := some (s.buf b).cmd, started := s.started ++ [(b, s.buf b)] } := by
  unfold idestart at h
  split at h
  · cases h
  · next hlt =>
    cases h
    exact ⟨by omega, rfl⟩

/-- `iderw` puts its buffer at the end, and starts it if it is the first. -/
theorem iderw_inv (h : IdeInv disk s q) (hb : s.wait b = .idle) (hdev : (s.buf b).dev = 1)
    (ht : iderw havedisk1 b s = some t) : IdeInv disk t (q ++ [b]) := by
  have hmem := h.notMem hb
  have hcongr : Chain (update s.qnext (some b) none) none q := by
    refine h.chain.congr (by simp) fun c hc => ?_
    have hcb : c ≠ b := fun hcb => hmem (hcb ▸ hc)
    simp [hcb]
  have hlast := hcongr.lastCell_eq (n := n + 1)
    (Nat.lt_succ_of_le (by simpa using List.Nodup.length_le_card h.nodup))
  have hchain := h.chain.concat hmem h.nodup (by simp) (by simp)
  rw [Option.or_none] at hlast hchain
  unfold iderw at ht
  split at ht
  · cases ht
  next hsynced =>
  split at ht
  · cases ht
  simp only [hlast] at ht
  obtain ⟨done, hrun, hdone⟩ := h.seq
  -- the state before the device is started, with its queue
  have hpending (c : Fin n) (hc : c ∈ q ++ [b]) :
      update s.wait b .asleep c ≠ .idle ∧ ¬ (s.buf c).Synced ∧ (s.buf c).dev = 1 := by
    rcases List.mem_append.mp hc with hc | hc
    · have hcb : c ≠ b := fun hcb => hmem (hcb ▸ hc)
      simpa [update_of_ne hcb] using h.pending c hc
    · obtain rfl := List.mem_singleton.mp hc
      exact ⟨by simp, hsynced, hdev⟩
  have hseq : ∃ done, memRun disk (fun _ => none) s.completed = some (s.disk 1, done) ∧
      ∀ c, c ∉ q ++ [b] → update s.wait b .asleep c ≠ .idle →
        done c = some (s.buf c) ∧ (s.buf c).Synced ∧ update s.wait b .asleep c = .awake := by
    refine ⟨done, hrun, fun c hc hw => ?_⟩
    obtain ⟨hcq, hcb⟩ := not_or.mp (fun h => hc (List.mem_append.mpr h))
    rw [List.mem_singleton] at hcb
    rw [update_of_ne hcb] at hw ⊢
    exact hdone c hcq hw
  have hhead := hchain.head
  have hqueued : s.queued ++ [(b, s.buf b)] =
      s.completed ++ (q ++ [b]).map fun c => (c, s.buf c) := by
    simp [h.queued]
  split at ht
  · next hfirst =>
    have hempty : q = [] := by
      cases q with
      | nil => rfl
      | cons c q =>
        rw [show _ = some b from hfirst, List.cons_append, List.head?_cons] at hhead
        exact absurd (by simp [← Option.some.inj hhead]) hmem
    subst hempty
    obtain ⟨hlt, rfl⟩ := idestart_eq ht
    exact ⟨hchain, by simp, hqueued, by simp [h.started], hpending, rfl, by simpa using hlt, hseq⟩
  · next hnot =>
    cases ht
    obtain ⟨c, q', rfl⟩ : ∃ c q', q = c :: q' := by
      cases q with
      | nil => exact absurd hhead hnot
      | cons c q' => exact ⟨c, q', rfl⟩
    refine ⟨hchain, ?_, hqueued, by simp [h.started], hpending, by simp [h.cmd], ?_, hseq⟩
    · refine List.nodup_append.mpr ⟨h.nodup, by simp, fun d hd e he hde => ?_⟩
      rw [List.mem_singleton] at he
      exact hmem (he ▸ hde ▸ hd)
    · simpa using h.inRange

theorem kill_inv (h : IdeInv disk s q) (hb : s.wait b = .asleep) :
    IdeInv disk { s with wait := update s.wait b .awake } q := by
  obtain ⟨done, hrun, hdone⟩ := h.seq
  have hmem : b ∈ q := by
    by_contra hmem
    have hawake := (hdone b hmem (by simp [hb])).2.2
    rw [hb] at hawake
    cases hawake
  refine ⟨h.chain, h.nodup, h.queued, h.started, fun c hc => ⟨?_, (h.pending c hc).2⟩, h.cmd,
    h.inRange, done, hrun, fun c hc hw => ?_⟩
  · by_cases hcb : c = b
    · simp [hcb]
    · simpa [update_of_ne hcb] using (h.pending c hc).1
  · have hcb : c ≠ b := fun hcb => hc (hcb ▸ hmem)
    simp only [update_of_ne hcb] at hw ⊢
    exact hdone c hc hw

/-- A call that tests its flags returns exactly if its request is completed. -/
theorem iderwTest_inv (h : IdeInv disk s q) (hb : s.wait b = .awake) :
    IdeInv disk (iderwTest b s) q := by
  obtain ⟨done, hrun, hdone⟩ := h.seq
  refine ⟨h.chain, h.nodup, h.queued, h.started, fun c hc => ⟨?_, (h.pending c hc).2⟩, h.cmd,
    h.inRange, done, hrun, fun c hc hw => ?_⟩
  · by_cases hcb : c = b
    · subst hcb
      simp [iderwTest, (h.pending c hc).2.1]
    · simpa [iderwTest, update_of_ne hcb] using (h.pending c hc).1
  · by_cases hcb : c = b
    · subst hcb
      have hsynced := (hdone c hc (by simp [hb])).2.1
      simp [iderwTest, hsynced] at hw
    · simp only [iderwTest, update_of_ne hcb] at hw ⊢
      exact hdone c hc hw

/-- Without an error, the device and `ideintr` do what the memory disk does. -/
theorem finish_eq_memIderw (disk : Nat → Nat → D) {x : Buf D} {err : Bool} (hsynced : ¬ x.Synced)
    (hdev : x.dev = 1) (hlt : x.blockno < fsSize) (herr : x.dirty = false → err = false) :
    memIderw (disk 1) x =
      some (complete x.cmd disk 1,
        finish x err (complete x.cmd disk x.cmd.dev x.cmd.blockno)) := by
  have hrange : ¬ fsSize ≤ x.blockno := by omega
  cases hdirty : x.dirty with
  | true => simp [memIderw, hsynced, hdev, hrange, hdirty, complete, finish, Buf.cmd]
  | false =>
    simp [memIderw, hsynced, hdev, hrange, hdirty, complete, finish, Buf.cmd, herr hdirty]

/-- The interrupt completes the first request and starts the next one. -/
theorem ideintr_inv {err : Bool} (h : IdeInv disk s q)
    (herr : ∀ b, s.qnext none = some b → (s.buf b).dirty = false → err = false)
    (ht : ideintr err s = some t) : ∃ b q', q = b :: q' ∧ IdeInv disk t q' ∧
      t.completed = s.completed ++ [(b, s.buf b)] ∧ t.disk = complete (s.buf b).cmd s.disk ∧
      t.buf = update s.buf b (finish (s.buf b) err
        (complete (s.buf b).cmd s.disk (s.buf b).cmd.dev (s.buf b).cmd.blockno)) := by
  unfold ideintr at ht
  rw [h.cmd] at ht
  cases q with
  | nil => cases ht
  | cons b q =>
    have hhead : s.qnext none = some b := h.chain.1
    simp only [List.head?_cons, Option.map_some, hhead] at ht
    obtain ⟨hb, hnodup⟩ := List.nodup_cons.mp h.nodup
    obtain ⟨_, hsynced, hdev⟩ := h.pending b (List.mem_cons_self ..)
    obtain ⟨done, hrun, hdone⟩ := h.seq
    have hmem := finish_eq_memIderw s.disk hsynced hdev (h.inRange b rfl)
      (herr b hhead)
    have hrun' := memRun_concat (b := b) hrun hmem
    generalize hx : finish (s.buf b) err
      (complete (s.buf b).cmd s.disk (s.buf b).cmd.dev (s.buf b).cmd.blockno) = x at ht hmem hrun' ⊢
    have hxsynced : x.Synced := by
      rw [← hx]
      exact ⟨rfl, rfl⟩
    have hchain := Chain.remove (l := []) h.chain h.nodup (by simp)
    have hne (c : Fin n) (hc : c ∈ q) : c ≠ b := fun hcb => hb (hcb ▸ hc)
    have hbuf (c : Fin n) (hc : c ∈ q) : update s.buf b x c = s.buf c :=
      update_of_ne (hne c hc) ..
    have hmap : q.map (fun c => (c, update s.buf b x c)) =
        q.map fun c => (c, s.buf c) :=
      List.map_congr_left fun c hc => by rw [hbuf c hc]
    have hpending (c : Fin n) (hc : c ∈ q) : update s.wait b .awake c ≠ .idle ∧
        ¬ (update s.buf b x c).Synced ∧ (update s.buf b x c).dev = 1 := by
      rw [hbuf c hc, update_of_ne (hne c hc)]
      exact h.pending c (List.mem_cons_of_mem _ hc)
    have hseq : ∃ done, memRun disk (fun _ => none) (s.completed ++ [(b, s.buf b)]) =
        some (complete (s.buf b).cmd s.disk 1, done) ∧
        ∀ c, c ∉ q → update s.wait b .awake c ≠ .idle →
          done c = some (update s.buf b x c) ∧ (update s.buf b x c).Synced ∧
            update s.wait b .awake c = .awake := by
      refine ⟨_, hrun', fun c hc hw => ?_⟩
      by_cases hcb : c = b
      · subst hcb
        simp [hxsynced]
      · simp only [update_of_ne hcb] at hw ⊢
        exact hdone c (by simp [hcb, hc]) hw
    have hqueued : s.queued = s.completed ++ [(b, s.buf b)] ++
        q.map fun c => (c, update s.buf b x c) := by
      rw [hmap, h.queued]
      simp
    have hstarted : s.started = s.completed ++ [(b, s.buf b)] := by
      rw [h.started]
      simp
    have hnext := hchain.head
    refine ⟨b, q, rfl, ?_⟩
    split at ht
    · next hnone =>
      cases ht
      obtain rfl : q = [] := by
        cases q with
        | nil => rfl
        | cons c q => exact absurd (hnext.symm.trans hnone) (by simp)
      exact ⟨⟨hchain, hnodup, hqueued, by simp [hstarted], hpending, rfl, by simp, hseq⟩, rfl, rfl,
        by rw [hx]⟩
    · next c hc =>
      obtain ⟨q', rfl⟩ : ∃ q', q = c :: q' := by
        cases q with
        | nil => exact absurd (hnext.symm.trans hc) (by simp)
        | cons d q' =>
          obtain rfl : d = c := by simpa using hnext.symm.trans hc
          exact ⟨q', rfl⟩
      obtain ⟨hlt, rfl⟩ := idestart_eq ht
      refine ⟨⟨hchain, hnodup, hqueued, ?_, hpending, by simp, by simpa using hlt, hseq⟩, rfl,
        rfl, by rw [hx]⟩
      simp [hstarted]

/-! ## Runs -/

/-- Requests are for the disk that `memide.c` serves, and no read ends with an error. -/
def Served (s : Ide n D) : IdeEvent n D → Prop
  | .iderw b => (s.buf b).dev = 1
  | .intr err => ∀ b, s.qnext none = some b → (s.buf b).dirty = false → err = false
  | _ => True

instance (s : Ide n D) (e : IdeEvent n D) : Decidable (Served s e) := by
  unfold Served
  split <;> infer_instance

def IdeEvent.isIntr : IdeEvent n D → Bool
  | .intr _ => true
  | _ => false

theorem iderw_completed (ht : iderw havedisk1 b s = some t) : t.completed = s.completed := by
  unfold iderw at ht
  split at ht
  · cases ht
  split at ht
  · cases ht
  dsimp only at ht
  split at ht
  · cases ht
  split at ht
  · obtain ⟨_, rfl⟩ := idestart_eq ht
    rfl
  · cases ht
    rfl

theorem ideStep_inv {e : IdeEvent n D} (h : IdeInv disk s q) (hc : Served s e)
    (ht : ideStep havedisk1 s e = some t) :
    ∃ q', IdeInv disk t q' ∧ t.completed.length = s.completed.length + [e].countP IdeEvent.isIntr := by
  cases e with
  | edit b x =>
    simp only [ideStep] at ht
    split at ht
    · next hb =>
      cases ht
      exact ⟨q, edit_inv h hb x, rfl⟩
    · cases ht
  | iderw b =>
    simp only [ideStep] at ht
    split at ht
    · next hb => exact ⟨_, iderw_inv h hb hc ht, congrArg List.length (iderw_completed ht)⟩
    · cases ht
  | test b =>
    simp only [ideStep] at ht
    split at ht
    · next hb =>
      cases ht
      exact ⟨q, iderwTest_inv h hb, rfl⟩
    · cases ht
  | kill b =>
    simp only [ideStep] at ht
    split at ht
    · next hb =>
      cases ht
      exact ⟨q, kill_inv h hb, rfl⟩
    · cases ht
  | intr err =>
    obtain ⟨b, q', rfl, hinv, hcompleted, _⟩ := ideintr_inv h hc ht
    exact ⟨q', hinv, by simp [hcompleted, IdeEvent.isIntr]⟩

theorem ideRun_inv {es : List (IdeEvent n D)} (h : IdeInv disk s q)
    (hc : Always (ideStep havedisk1) Served s es) (ht : run (ideStep havedisk1) s es = some t) :
    ∃ q', IdeInv disk t q' ∧ t.completed.length = s.completed.length + es.countP IdeEvent.isIntr := by
  induction es generalizing s q with
  | nil =>
    cases ht
    exact ⟨q, h, rfl⟩
  | cons e es ih =>
    obtain ⟨u, hu, hrest⟩ := (run_cons_eq_some _).mp ht
    obtain ⟨q', hinv, hlen⟩ := ideStep_inv h hc.1 hu
    obtain ⟨q'', hinv', hlen'⟩ := ih hinv (hc.2 u hu) hrest
    refine ⟨q'', hinv', ?_⟩
    rw [hlen', hlen, Nat.add_assoc, ← List.countP_append, List.singleton_append]

/-- After `k` interrupts the first `k` requests of the queue are completed and one more is
started; a call returns with what the memory disk makes of these requests one after the
other, and an interrupt that makes a buffer valid gives it the contents of its block. -/
theorem ide_refines_memide {havedisk1 : Bool} {buf : Fin n → Buf D} {disk : Nat → Nat → D}
    {es : List (IdeEvent n D)} {s : Ide n D}
    (hserved : Always (ideStep havedisk1) Served (ideinit buf disk) es)
    (hrun : run (ideStep havedisk1) (ideinit buf disk) es = some s) :
    (s.completed = s.queued.take (es.countP IdeEvent.isIntr) ∧
      s.started = s.queued.take (es.countP IdeEvent.isIntr + 1) ∧
      (s.cmd.isSome ↔ s.completed.length < s.queued.length)) ∧
    (∃ q, Chain s.qnext none q ∧ q.Nodup ∧ s.queued.map Prod.fst = s.completed.map Prod.fst ++ q) ∧
    (∃ done, memRun (disk 1) (fun _ => none) s.completed = some (s.disk 1, done) ∧
      ∀ b t, ideStep havedisk1 s (.test b) = some t → t.wait b = .idle →
        done b = some (t.buf b) ∧ t.disk = s.disk) ∧
    ∀ err t, Served s (.intr err) → ideStep havedisk1 s (.intr err) = some t →
      ∀ b, t.buf b ≠ s.buf b → (t.buf b).data = t.disk 1 (t.buf b).blockno := by
  obtain ⟨q, hinv, hlen⟩ := ideRun_inv (ideinit_inv buf disk) hserved hrun
  replace hlen : es.countP IdeEvent.isIntr = s.completed.length := by simpa [ideinit] using hlen.symm
  obtain ⟨done, hdone, hreturn⟩ := hinv.seq
  refine ⟨⟨?_, ?_, ?_⟩, ⟨q, hinv.chain, hinv.nodup, ?_⟩, ⟨done, hdone, ?_⟩, ?_⟩
  · rw [hlen, hinv.queued, List.take_left]
  · rw [hlen, hinv.queued, hinv.started, List.take_length_add_append, List.map_take]
  · rw [hinv.cmd, hinv.queued]
    cases q <;> simp
  · simp [hinv.queued, comp_def]
  · intro b t ht hidle
    simp only [ideStep] at ht
    split at ht
    · next hb =>
      cases ht
      refine ⟨(hreturn b (fun hmem => ?_) (by simp [hb])).1, rfl⟩
      simp [iderwTest, (hinv.pending b hmem).2.1] at hidle
    · cases ht
  · intro err t hc ht b hne
    obtain ⟨c, q', rfl, -, -, hdisk, hbuf⟩ := ideintr_inv hinv hc ht
    obtain rfl : b = c := by
      by_contra hbc
      exact hne (by rw [hbuf, update_of_ne hbc])
    have hdev := (hinv.pending b (List.mem_cons_self ..)).2.2
    rw [hbuf, hdisk, update_self]
    cases hdirty : (s.buf b).dirty with
    | true => simp [finish, complete, Buf.cmd, hdirty, hdev]
    | false => simp [finish, complete, Buf.cmd, hdirty, hdev, hc b hinv.chain.1 hdirty]

/-- A read and a write are queued, and both calls return after two interrupts. -/
theorem ide_refines_memide_two :
    ∃ s : Ide 2 Nat,
      run (ideStep true) (ideinit (fun b => if b = 0 then ⟨false, false, 1, 5, 0⟩ else ⟨true, true, 1, 5, 8⟩)
        fun _ _ => 9)
        [.iderw 0, .iderw 1, .intr false, .test 0, .intr false] = some s ∧
      s.completed = s.queued.take 2 ∧ s.queued.length = 2 ∧ (s.buf 0).data = 9 ∧ s.disk 1 5 = 8 := by
  have hserved : Always (ideStep true) Served
      (ideinit (fun b => if b = 0 then ⟨false, false, 1, 5, 0⟩ else ⟨true, true, 1, 5, 8⟩)
        fun _ _ => 9 : Ide 2 Nat)
      [.iderw 0, .iderw 1, .intr false, .test 0, .intr false] := by
    decide +kernel
  obtain ⟨s, hs, hfacts⟩ := Option.map_eq_some_iff.mp (by decide +kernel :
    (run (ideStep true)
      (ideinit (fun b => if b = 0 then ⟨false, false, 1, 5, 0⟩ else ⟨true, true, 1, 5, 8⟩)
        fun _ _ => 9 : Ide 2 Nat)
      [.iderw 0, .iderw 1, .intr false, .test 0, .intr false]).map
        (fun s => (s.queued.length, (s.buf 0).data, s.disk 1 5)) = some (2, 9, 8))
  simp only [Prod.mk.injEq] at hfacts
  exact ⟨s, hs, (ide_refines_memide hserved hs).1.1, hfacts⟩

/-- The device reports an error for a read: the call returns a valid buffer with the data it
had before, which are not the contents of its block. -/
theorem read_error_returns_stale_data :
    ∃ s t : Ide 1 Nat,
      run (ideStep true) (ideinit (fun _ => ⟨false, false, 1, 5, 7⟩) fun _ _ => 9)
        [.iderw 0, .intr true] = some s ∧
      ideStep true s (.test 0) = some t ∧ t.wait 0 = .idle ∧
      t.buf 0 = ⟨true, false, 1, 5, 7⟩ ∧ t.disk 1 5 = 9 ∧
      memIderw (fun _ => 9) (⟨false, false, 1, 5, 7⟩ : Buf Nat) =
        some (fun _ => 9, ⟨true, false, 1, 5, 9⟩) :=
  ⟨_, _, rfl, rfl, rfl, rfl, rfl, rfl⟩

end Xv6Containers.Block
