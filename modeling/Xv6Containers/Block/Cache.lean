import Xv6Containers.Block.Ide
import Xv6Containers.Lib.Counting

/-!
# The buffer cache

The cache of `bio.c`: the ring of buffers in order of use, `bget` with its search
and its recycling, and the calls of clients that read, modify, write and release
buffers.

## Implementation notes

Each step is a stretch under `bcache.lock`, one use of a sleep lock, or one access
of the holder of a buffer to it. A client follows the protocol of the cache: it
modifies a buffer only between `bread` and `brelse`, and calls `log_write` or
`bwrite` between a modification and `brelse`. A process that holds two buffers is
two clients; there are far fewer than `2 ^ 32` of them, so `refcnt` is a natural
number. `iderw` transfers the block as one step. The field `written` records
the contents most recently given to `log_write` or `bwrite`, which are those of
the disk for a block that was never written. The cell `none` of the pointers is
`bcache.head`. A panic is a step that is not enabled.
-/

namespace Xv6Containers.Block

open Lib.Linked Lib.Runs Lib.Counting Function

/-! ## Buffers and their ring -/

/-- `struct buf` with its reference count and the flag of its sleep lock. -/
structure CachedBuf (D : Type) extends Buf D where
  refcnt : Nat
  locked : Bool
  deriving DecidableEq

structure Links (n : Nat) where
  next : Option (Fin n) → Option (Fin n)
  prev : Option (Fin n) → Option (Fin n)

variable {D P : Type} {n : Nat}

/-- Link a buffer behind `bcache.head`, as `binit` and `brelse` do. -/
def Links.push (b : Fin n) (k : Links n) : Links n :=
  let first := k.next none
  let next := update k.next (some b) first
  let prev := update k.prev (some b) none
  { next := update next none (some b), prev := update prev first (some b) }

/-- Unlink a buffer, as `brelse` does. -/
def Links.remove (b : Fin n) (k : Links n) : Links n :=
  let prev := update k.prev (k.next (some b)) (k.prev (some b))
  { next := update k.next (prev (some b)) (k.next (some b)), prev := prev }

/-- The list that `binit` creates. -/
def binit (n : Nat) : Links n :=
  (List.finRange n).foldl (fun k b => k.push b) { next := fun _ => none, prev := fun _ => none }

/-- The links are a ring through the head with the buffers `l` in this order. -/
def Links.Ring (k : Links n) (l : List (Fin n)) : Prop := IsRing k.next k.prev l

variable {k : Links n} {b : Fin n} {dev blockno : Nat} {disk : Nat → Nat → D}

theorem Links.Ring.push (h : k.Ring l) (hb : b ∉ l) : (k.push b).Ring (b :: l) :=
  IsRing.push h hb

theorem Links.Ring.remove {l' : List (Fin n)} (h : k.Ring (l ++ b :: l')) :
    (k.remove b).Ring (l ++ l') := by
  have hprev : update k.prev (k.next (some b)) (k.prev (some b)) (some b) =
      k.prev (some b) := by
    by_cases hself : some b = k.next (some b)
    · rw [← hself, update_self]
    · exact update_of_ne hself ..
  have hring := IsRing.remove h
  rw [← hprev] at hring
  simpa [Links.Ring, Links.remove, hprev] using hring

theorem foldl_push_ring {bs : List (Fin n)} (h : k.Ring l) (hbs : (bs.reverse ++ l).Nodup) :
    (bs.foldl (fun k b => k.push b) k).Ring (bs.reverse ++ l) := by
  induction bs generalizing k l with
  | nil => exact h
  | cons b bs ih =>
    rw [List.reverse_cons, List.append_assoc, List.singleton_append] at hbs ⊢
    have hb : b ∉ l := (List.nodup_cons.mp (List.nodup_append.mp hbs).2.1).1
    exact ih (h.push hb) hbs

/-- `binit` links every buffer once. -/
theorem binit_ring (n : Nat) : (binit n).Ring (List.finRange n).reverse := by
  have hempty : Links.Ring ({ next := fun _ => none, prev := fun _ => none } : Links n) [] :=
    ⟨List.nodup_nil, rfl, rfl⟩
  have hring := foldl_push_ring hempty
    (show ((List.finRange n).reverse ++ []).Nodup by simpa using List.nodup_finRange n)
  rwa [List.append_nil] at hring

/-! ## The cache and its clients -/

/-- Where a client is: in `acquiresleep`, in `bread` with the lock, after `bread`, after a
modification, in `bwrite`, and in `brelse` after `releasesleep`. -/
inductive Phase
  | waiting
  | locked
  | holding
  | edited
  | writing
  | released
  deriving DecidableEq

/-- The client holds the sleep lock of its buffer. -/
def Phase.Owns : Phase → Prop
  | .waiting | .released => False
  | _ => True

/-- The buffer may differ from what was written last. -/
def Phase.Modifies : Phase → Prop
  | .edited | .writing => True
  | _ => False

instance (p : Phase) : Decidable p.Modifies := by
  unfold Phase.Modifies
  split <;> infer_instance

/-- A client's buffer and the block it asked for. -/
structure Ref (n : Nat) where
  phase : Phase
  buf : Fin n
  dev : Nat
  blockno : Nat
  deriving DecidableEq

structure Cache (n : Nat) (P D : Type) where
  buf : Fin n → CachedBuf D
  links : Links n
  disk : Nat → Nat → D
  written : Nat → Nat → D
  client : P → Option (Ref n)

/-- The contents of one block of a store replaced. -/
def setBlock (disk : Nat → Nat → D) (dev blockno : Nat) (x : D) : Nat → Nat → D :=
  update disk dev (update (disk dev) blockno x)

/-- `iderw`, which transfers the block faithfully; `none` is its panic. -/
def transfer (disk : Nat → Nat → D) (b : Buf D) : Option ((Nat → Nat → D) × Buf D) :=
  if b.Synced then none
  else if b.dirty then
    some (setBlock disk b.dev b.blockno b.data, { b with dirty := false, valid := true })
  else some (disk, { b with data := disk b.dev b.blockno, valid := true })

/-- `bget` up to the release of `bcache.lock`; `none` is its panic. -/
def bget (dev blockno : Nat) (s : Cache n P D) : Option (Fin n × Cache n P D) :=
  match search s.links.next (fun b => (s.buf b).dev = dev ∧ (s.buf b).blockno = blockno)
      (n + 1) none with
  | none => none
  | some (some b) =>
    let x := { s.buf b with refcnt := (s.buf b).refcnt + 1 }
    some (b, { s with buf := update s.buf b x })
  | some none =>
    match search s.links.prev (fun b => (s.buf b).refcnt = 0 ∧ (s.buf b).dirty = false)
        (n + 1) none with
    | none | some none => none
    | some (some b) =>
      let x := { s.buf b with
        dev := dev, blockno := blockno, valid := false, dirty := false, refcnt := 1 }
      some (b, { s with buf := update s.buf b x })

/-- `brelse` after `releasesleep`. -/
def brelse (b : Fin n) (s : Cache n P D) : Cache n P D :=
  let x := { s.buf b with refcnt := (s.buf b).refcnt - 1 }
  let s := { s with buf := update s.buf b x }
  if x.refcnt = 0 then { s with links := (s.links.remove b).push b } else s

inductive CacheEvent (P D : Type)
  | bget (p : P) (dev blockno : Nat)
  | acquiresleep (p : P)
  | bread (p : P)
  | modify (p : P) (x : D)
  | logWrite (p : P)
  | bwrite (p : P)
  | iderw (p : P)
  | releasesleep (p : P)
  | brelse (p : P)

variable [DecidableEq P]

/-- The client's buffer and its place in the protocol change. -/
def Cache.put (s : Cache n P D) (p : P) (r : Ref n) (phase : Phase) (x : CachedBuf D) :
    Cache n P D :=
  { s with
    buf := update s.buf r.buf x
    client := update s.client p (some { r with phase := phase }) }

/-- A step of a client that has a buffer. -/
def refStep (s : Cache n P D) (p : P) (r : Ref n) : CacheEvent P D → Option (Cache n P D)
  | .acquiresleep _ =>
    if r.phase = .waiting ∧ (s.buf r.buf).locked = false then
      some (s.put p r .locked { s.buf r.buf with locked := true })
    else none
  | .bread _ =>
    if r.phase = .locked then
      if (s.buf r.buf).valid then some (s.put p r .holding (s.buf r.buf))
      else (transfer s.disk (s.buf r.buf).toBuf).map fun (disk, y) =>
        { s.put p r .holding { s.buf r.buf with toBuf := y } with disk := disk }
    else none
  | .modify _ x =>
    if r.phase = .holding ∨ r.phase = .edited then
      some (s.put p r .edited { s.buf r.buf with data := x })
    else none
  | .logWrite _ =>
    if r.phase = .holding ∨ r.phase = .edited then
      let b := s.buf r.buf
      some { s.put p r .holding { b with dirty := true } with
        written := setBlock s.written b.dev b.blockno b.data }
    else none
  | .bwrite _ =>
    if (r.phase = .holding ∨ r.phase = .edited) ∧ (s.buf r.buf).locked then
      some (s.put p r .writing { s.buf r.buf with dirty := true })
    else none
  | .iderw _ =>
    if r.phase = .writing then
      let b := s.buf r.buf
      (transfer s.disk b.toBuf).map fun (disk, y) =>
        { s.put p r .holding { b with toBuf := y } with
          disk := disk, written := setBlock s.written b.dev b.blockno b.data }
    else none
  | .releasesleep _ =>
    if r.phase = .holding ∧ (s.buf r.buf).locked then
      some (s.put p r .released { s.buf r.buf with locked := false })
    else none
  | .brelse _ =>
    if r.phase = .released then
      some { brelse r.buf s with client := update s.client p none }
    else none
  | .bget .. => none

def CacheEvent.client : CacheEvent P D → P
  | .bget p .. | .acquiresleep p | .bread p | .modify p _ | .logWrite p | .bwrite p | .iderw p
  | .releasesleep p | .brelse p => p

def cacheStep (s : Cache n P D) (e : CacheEvent P D) : Option (Cache n P D) :=
  match s.client e.client, e with
  | none, .bget p dev blockno =>
    (bget dev blockno s).map fun (b, t) =>
      { t with client := update s.client p (some ⟨.waiting, b, dev, blockno⟩) }
  | none, _ => none
  | some r, e => refStep s e.client r e

/-- The cache after `binit`: the buffers are zero but for their data. -/
def cacheInit (data : Fin n → D) (disk : Nat → Nat → D) : Cache n P D where
  buf b := ⟨⟨false, false, 0, 0, data b⟩, 0, false⟩
  links := binit n
  disk := disk
  written := disk
  client _ := none

/-! ## The invariant -/

/-- Never used since `binit`. -/
def CachedBuf.Fresh (b : CachedBuf D) : Prop := b.valid = false ∧ b.dirty = false ∧ b.refcnt = 0

def CachedBuf.Caches (b : CachedBuf D) (dev blockno : Nat) : Prop :=
  b.dev = dev ∧ b.blockno = blockno

/-- The number of references that one client has to a buffer. -/
def refsTo (b : Fin n) (r : Option (Ref n)) : Int := if r.map Ref.buf = some b then 1 else 0

variable [Fintype P]

/-- The ring has the buffers `l`; of two buffers with the same block the later one was never
used. -/
structure CacheInv (s : Cache n P D) (l : List (Fin n)) : Prop where
  ring : s.links.Ring l
  all : ∀ b, b ∈ l
  fresh : l.Pairwise fun b c =>
    (s.buf c).Caches (s.buf b).dev (s.buf b).blockno → (s.buf c).Fresh
  refcnt : ∀ b, ((s.buf b).refcnt : Int) = ∑ p, refsTo b (s.client p)
  block : ∀ p r, s.client p = some r → (s.buf r.buf).Caches r.dev r.blockno
  lock : ∀ p r, s.client p = some r → r.phase.Owns → (s.buf r.buf).locked = true
  exclusive : ∀ p q r u, s.client p = some r → s.client q = some u → r.phase.Owns →
    u.phase.Owns → r.buf = u.buf → p = q
  ready : ∀ p r, s.client p = some r → r.phase.Owns → r.phase ≠ .locked →
    (s.buf r.buf).valid = true
  dirty : ∀ b, (s.buf b).dirty = true → (s.buf b).valid = true
  data : ∀ b, (s.buf b).valid = true →
    (∀ p r, s.client p = some r → r.buf = b → ¬ r.phase.Modifies) →
      (s.buf b).data = s.written (s.buf b).dev (s.buf b).blockno
  disk : ∀ dev blockno, (∀ b, (s.buf b).Caches dev blockno → (s.buf b).dirty = false) →
    s.disk dev blockno = s.written dev blockno

variable {s t : Cache n P D} {l : List (Fin n)} {p : P} {r : Ref n}

omit [DecidableEq P] in
theorem cacheInit_inv (data : Fin n → D) (disk : Nat → Nat → D) :
    CacheInv (cacheInit data disk : Cache n P D) (List.finRange n).reverse where
  ring := binit_ring n
  all := by simp
  fresh := List.pairwise_of_forall fun _ _ _ => ⟨rfl, rfl, rfl⟩
  refcnt := by simp [cacheInit, refsTo]
  block := by simp [cacheInit]
  lock := by simp [cacheInit]
  exclusive := by simp [cacheInit]
  ready := by simp [cacheInit]
  dirty := by simp [cacheInit]
  data := by simp [cacheInit]
  disk := fun _ _ _ => rfl

theorem refsTo_nonneg (b : Fin n) (r : Option (Ref n)) : 0 ≤ refsTo b r := by
  unfold refsTo
  split <;> decide

omit [DecidableEq P] in
/-- A buffer that a client refers to is counted. -/
theorem CacheInv.refcnt_pos (h : CacheInv s l) (hr : s.client p = some r) :
    0 < (s.buf r.buf).refcnt := by
  have hle := le_sum_of_nonneg (fun q => refsTo_nonneg r.buf (s.client q)) p
  rw [← h.refcnt, hr] at hle
  simp only [refsTo, Option.map_some, if_true] at hle
  omega

omit [DecidableEq P] in
theorem CacheInv.not_fresh (h : CacheInv s l) (hr : s.client p = some r) :
    ¬ (s.buf r.buf).Fresh := fun hfresh => by
  have hpos := h.refcnt_pos hr
  have hzero := hfresh.2.2
  omega

omit [DecidableEq P] in
/-- Two buffers that were used do not have the same block. -/
theorem CacheInv.unique (h : CacheInv s l) {c : Fin n} (hb : ¬ (s.buf b).Fresh)
    (hc : ¬ (s.buf c).Fresh) (hbc : (s.buf c).Caches (s.buf b).dev (s.buf b).blockno) : b = c := by
  obtain ⟨as, bs, rfl⟩ := List.append_of_mem (h.all b)
  obtain ⟨-, hrest, hbefore⟩ := List.pairwise_append.mp h.fresh
  rcases List.mem_append.mp (h.all c) with hmem | hmem
  · exact absurd (hbefore c hmem b (List.mem_cons_self ..) ⟨hbc.1.symm, hbc.2.symm⟩) hb
  · rcases List.mem_cons.mp hmem with rfl | hmem
    · rfl
    · exact absurd ((List.pairwise_cons.mp hrest).1 c hmem hbc) hc

/-! ## The holder of a buffer -/

/-- The client changes only its own buffer and its own block, and no other client holds the
lock of the buffer. -/
theorem CacheInv.put (h : CacheInv s l) (hr : s.client p = some r) {x : CachedBuf D}
    {phase : Phase} (hlinks : t.links = s.links) (hbuf : t.buf = update s.buf r.buf x)
    (hclient : t.client = update s.client p (some { r with phase := phase }))
    (hsole : ∀ q u, s.client q = some u → u.phase.Owns → u.buf = r.buf → q = p)
    (hblock : x.Caches (s.buf r.buf).dev (s.buf r.buf).blockno)
    (hrefcnt : x.refcnt = (s.buf r.buf).refcnt) (hlock : phase.Owns → x.locked = true)
    (hready : phase.Owns → phase ≠ .locked → x.valid = true)
    (hdirty : x.dirty = true → x.valid = true)
    (hdata : x.valid = true → ¬ phase.Modifies → x.data = t.written x.dev x.blockno)
    (hdisk : x.dirty = false → t.disk x.dev x.blockno = t.written x.dev x.blockno)
    (hframe : ∀ dev blockno, ¬ x.Caches dev blockno →
      t.disk dev blockno = s.disk dev blockno ∧ t.written dev blockno = s.written dev blockno) :
    CacheInv t l := by
  have hself : t.buf r.buf = x := by rw [hbuf, update_self]
  have hother {b : Fin n} (hb : b ≠ r.buf) : t.buf b = s.buf b := by
    rw [hbuf, update_of_ne hb]
  have hcaches (b : Fin n) (dev blockno : Nat) :
      (t.buf b).Caches dev blockno ↔ (s.buf b).Caches dev blockno := by
    by_cases hb : b = r.buf
    · rw [hb, hself, CachedBuf.Caches, CachedBuf.Caches, hblock.1, hblock.2]
    · rw [hother hb]
  have hsame (b : Fin n) : (t.buf b).Caches (s.buf b).dev (s.buf b).blockno :=
    (hcaches b _ _).mpr ⟨rfl, rfl⟩
  have hcases {q : P} {u : Ref n} (hq : t.client q = some u) :
      (q = p ∧ u = { r with phase := phase }) ∨ (q ≠ p ∧ s.client q = some u) := by
    rw [hclient] at hq
    by_cases hqp : q = p
    · subst hqp
      rw [update_self] at hq
      exact .inl ⟨rfl, (Option.some.inj hq).symm⟩
    · rw [update_of_ne hqp] at hq
      exact .inr ⟨hqp, hq⟩
  have hother_of_owns {q : P} {u : Ref n} (hqp : q ≠ p) (hq : s.client q = some u)
      (howns : u.phase.Owns) : u.buf ≠ r.buf := fun hub => hqp (hsole q u hq howns hub)
  refine ⟨hlinks ▸ h.ring, h.all, ?_, fun b => ?_, fun q u hq => ?_, fun q u hq howns => ?_,
    fun q q' u u' hq hq' howns howns' huu => ?_, fun q u hq howns hne => ?_, fun b hb => ?_,
    fun b hvalid hquiet => ?_, fun dev blockno hclean => ?_⟩
  · refine h.fresh.imp fun {b c} hbc hc => ?_
    have hfresh : (s.buf c).Fresh :=
      hbc ((hcaches c _ _).mp ⟨hc.1.trans (hsame b).1, hc.2.trans (hsame b).2⟩)
    rw [hother fun hcr => h.not_fresh hr (hcr ▸ hfresh)]
    exact hfresh
  · have hcount : (t.buf b).refcnt = (s.buf b).refcnt := by
      by_cases hb : b = r.buf
      · rw [hb, hself, hrefcnt]
      · rw [hother hb]
    have hsum := sum_update (refsTo b) s.client p (some { r with phase := phase })
    have hrefs : refsTo b (some { r with phase := phase }) = refsTo b (s.client p) := by
      rw [hr]
      rfl
    rw [hcount, h.refcnt, hclient, hsum, hrefs]
    omega
  · rcases hcases hq with ⟨rfl, rfl⟩ | ⟨_, hq⟩
    · exact (hcaches _ _ _).mpr (h.block q r hr)
    · exact (hcaches _ _ _).mpr (h.block q u hq)
  · rcases hcases hq with ⟨rfl, rfl⟩ | ⟨hqp, hq⟩
    · rw [hself]
      exact hlock howns
    · rw [hother (hother_of_owns hqp hq howns)]
      exact h.lock q u hq howns
  · rcases hcases hq with ⟨rfl, rfl⟩ | ⟨hqp, hq⟩ <;>
      rcases hcases hq' with ⟨rfl, rfl⟩ | ⟨hqp', hq'⟩
    · rfl
    · exact absurd huu.symm (hother_of_owns hqp' hq' howns')
    · exact absurd huu (hother_of_owns hqp hq howns)
    · exact h.exclusive q q' u u' hq hq' howns howns' huu
  · rcases hcases hq with ⟨rfl, rfl⟩ | ⟨hqp, hq⟩
    · rw [hself]
      exact hready howns hne
    · rw [hother (hother_of_owns hqp hq howns)]
      exact h.ready q u hq howns hne
  · by_cases hbr : b = r.buf
    · rw [hbr, hself] at hb ⊢
      exact hdirty hb
    · rw [hother hbr] at hb ⊢
      exact h.dirty b hb
  · by_cases hbr : b = r.buf
    · have hphase := hquiet p { r with phase := phase } (by rw [hclient, update_self]) hbr.symm
      rw [hbr, hself] at hvalid ⊢
      exact hdata hvalid hphase
    · rw [hother hbr] at hvalid ⊢
      have hquiet' : ∀ q u, s.client q = some u → u.buf = b → ¬ u.phase.Modifies := by
        intro q u hq hub
        have hqp : q ≠ p := by
          rintro rfl
          rw [hr, Option.some.injEq] at hq
          exact hbr (hub.symm.trans (by rw [hq]))
        exact hquiet q u (by rw [hclient, update_of_ne hqp, hq]) hub
      have hne : ¬ x.Caches (s.buf b).dev (s.buf b).blockno := fun hx =>
        hbr (h.unique (fun hfresh => by simp [hfresh.1] at hvalid) (h.not_fresh hr)
          ((hcaches r.buf _ _).mp (hself ▸ hx)))
      rw [(hframe _ _ hne).2]
      exact h.data b hvalid hquiet'
  · by_cases hx : x.Caches dev blockno
    · have hclean' := hclean r.buf (hself ▸ hx)
      rw [hself] at hclean'
      rw [← hx.1, ← hx.2]
      exact hdisk hclean'
    · rw [(hframe _ _ hx).1, (hframe _ _ hx).2]
      refine h.disk dev blockno fun b hb => ?_
      have hbr : b ≠ r.buf := by
        rintro rfl
        exact hx (hself ▸ (hcaches _ _ _).mpr hb)
      rw [← hother hbr]
      exact hclean b ((hcaches b _ _).mpr hb)

/-! ## Taking and releasing a reference -/

theorem Phase.Modifies.owns {a : Phase} (h : a.Modifies) : a.Owns := by
  cases a <;> trivial

/-- A client without the lock takes or gives up its reference to `b`; only the count and the
order of the buffers change. -/
theorem CacheInv.recount (h : CacheInv s l) {k : Nat} {c : Option (Ref n)} {l' : List (Fin n)}
    (hbuf : t.buf = update s.buf b { s.buf b with refcnt := k })
    (hclient : t.client = update s.client p c) (hdisk : t.disk = s.disk)
    (hwritten : t.written = s.written) (hring : t.links.Ring l') (hall : ∀ b, b ∈ l')
    (hfresh : l'.Pairwise fun b c =>
      (s.buf c).Caches (s.buf b).dev (s.buf b).blockno → (t.buf c).Fresh)
    (hcount : ∀ a, refsTo a c - refsTo a (s.client p) = if a = b then (k : Int) - (s.buf b).refcnt else 0)
    (hold : ∀ u, s.client p = some u → ¬ u.phase.Owns)
    (hnew : ∀ u, c = some u → ¬ u.phase.Owns ∧ (s.buf u.buf).Caches u.dev u.blockno) :
    CacheInv t l' := by
  have hsame (a : Fin n) : (t.buf a).toBuf = (s.buf a).toBuf ∧ (t.buf a).locked = (s.buf a).locked := by
    rw [hbuf]
    by_cases hab : a = b
    · rw [hab, update_self]
      exact ⟨rfl, rfl⟩
    · rw [update_of_ne hab]
      exact ⟨rfl, rfl⟩
  have hcases {q : P} {u : Ref n} (hq : t.client q = some u) :
      (q = p ∧ c = some u) ∨ (q ≠ p ∧ s.client q = some u) := by
    rw [hclient] at hq
    by_cases hqp : q = p
    · rw [hqp, update_self] at hq
      exact .inl ⟨hqp, hq⟩
    · rw [update_of_ne hqp] at hq
      exact .inr ⟨hqp, hq⟩
  have howner {q : P} {u : Ref n} (hq : t.client q = some u) (howns : u.phase.Owns) :
      s.client q = some u := by
    rcases hcases hq with ⟨-, hc⟩ | ⟨-, hq⟩
    · exact absurd howns (hnew u hc).1
    · exact hq
  refine ⟨hring, hall, ?_, fun a => ?_, fun q u hq => ?_, fun q u hq howns => ?_,
    fun q q' u u' hq hq' howns howns' => ?_, fun q u hq howns hne => ?_, fun a ha => ?_,
    fun a hvalid hquiet => ?_, fun dev blockno hclean => ?_⟩
  · simpa only [CachedBuf.Caches, hsame] using hfresh
  · have hsum := sum_update (refsTo a) s.client p c
    rw [hclient, hsum, ← h.refcnt, hbuf]
    have hcount := hcount a
    rcases eq_or_ne a b with rfl | hab
    · rw [if_pos rfl] at hcount
      rw [update_self]
      dsimp only
      omega
    · rw [if_neg hab] at hcount
      rw [update_of_ne hab]
      omega
  · simp only [CachedBuf.Caches, hsame]
    rcases hcases hq with ⟨-, hc⟩ | ⟨-, hq⟩
    · exact (hnew u hc).2
    · exact h.block q u hq
  · rw [(hsame u.buf).2]
    exact h.lock q u (howner hq howns) howns
  · exact h.exclusive q q' u u' (howner hq howns) (howner hq' howns') howns howns'
  · rw [(hsame u.buf).1]
    exact h.ready q u (howner hq howns) howns hne
  · rw [(hsame a).1] at ha ⊢
    exact h.dirty a ha
  · rw [(hsame a).1] at hvalid ⊢
    rw [hwritten]
    refine h.data a hvalid fun q u hq hua hmod => ?_
    have hqp : q ≠ p := by
      rintro rfl
      exact hold u hq hmod.owns
    exact hquiet q u (by rw [hclient, update_of_ne hqp, hq]) hua hmod
  · rw [hdisk, hwritten]
    refine h.disk dev blockno fun a ha => ?_
    simp only [CachedBuf.Caches, hsame] at hclean
    exact hclean a ha

/-- `bget` finds the block: the first buffer with it gets one more reference. -/
theorem CacheInv.hit (h : CacheInv s l) (hp : s.client p = none)
    (hfind : l.find? (fun b => (s.buf b).dev = dev ∧ (s.buf b).blockno = blockno) = some b) :
    CacheInv { s with
      buf := update s.buf b { s.buf b with refcnt := (s.buf b).refcnt + 1 }
      client := update s.client p (some ⟨.waiting, b, dev, blockno⟩) } l := by
  obtain ⟨hb, as, bs, rfl, hfirst⟩ := List.find?_eq_some_iff_append.mp hfind
  have hb : (s.buf b).Caches dev blockno := by simpa [CachedBuf.Caches] using hb
  have hfirst' (a : Fin n) (ha : a ∈ as) : ¬ (s.buf a).Caches dev blockno := by
    have hmiss := hfirst a ha
    rw [Bool.not_eq_true', decide_eq_false_iff_not] at hmiss
    exact hmiss
  obtain ⟨-, hbs, -⟩ := List.nodup_append.mp h.ring.nodup
  have hb' : b ∉ bs := (List.nodup_cons.mp hbs).1
  -- The buffers before the one found do not have the block.
  have hbefore : (as ++ b :: bs).Pairwise fun a c => c = b → ¬ (s.buf a).Caches dev blockno := by
    refine List.pairwise_append.mpr ⟨?_, List.pairwise_cons.mpr ⟨?_, ?_⟩, ?_⟩
    · exact List.pairwise_of_forall_mem_list fun a ha c _ _ => hfirst' a ha
    · rintro c hc rfl
      exact absurd hc hb'
    · refine List.pairwise_of_forall_mem_list fun a _ c hc hcb => ?_
      exact absurd (hcb ▸ hc) hb'
    · exact fun a ha _ _ _ => hfirst' a ha
  refine h.recount (p := p) (b := b) (k := (s.buf b).refcnt + 1) rfl rfl rfl rfl h.ring h.all ?_
    (fun a => ?_) (by simp [hp]) ?_
  · refine (h.fresh.and hbefore).imp fun {a c} hac hsame => ?_
    have hcb : c ≠ b := by
      rintro rfl
      exact hac.2 rfl ⟨hsame.1.symm.trans hb.1, hsame.2.symm.trans hb.2⟩
    simpa [update_of_ne hcb] using hac.1 hsame
  · rcases eq_or_ne a b with rfl | hab
    · simp [refsTo, hp]
    · simp [refsTo, hp, hab, hab.symm]
  · rintro u hu
    cases hu
    exact ⟨id, hb⟩

/-- `bget` does not find the block and recycles a buffer that nobody uses. -/
theorem CacheInv.recycle (h : CacheInv s l) (hp : s.client p = none)
    (hmiss : ∀ c, ¬ (s.buf c).Caches dev blockno) (hfree : (s.buf b).refcnt = 0)
    (hclean : (s.buf b).dirty = false) :
    CacheInv { s with
      buf := update s.buf b { s.buf b with
        dev := dev, blockno := blockno, valid := false, dirty := false, refcnt := 1 }
      client := update s.client p (some ⟨.waiting, b, dev, blockno⟩) } l := by
  generalize hx : ({ s.buf b with
    dev := dev, blockno := blockno, valid := false, dirty := false, refcnt := 1 } :
      CachedBuf D) = x
  have hxcaches : x.Caches dev blockno := hx ▸ ⟨rfl, rfl⟩
  have hunused {q : P} {u : Ref n} (hq : s.client q = some u) : u.buf ≠ b := by
    rintro rfl
    have hpos := h.refcnt_pos hq
    omega
  have hother {c : Fin n} (hc : c ≠ b) : update s.buf b x c = s.buf c :=
    update_of_ne hc ..
  have hself : update s.buf b x b = x := update_self ..
  have hcases {q : P} {u : Ref n}
      (hq : update s.client p (some ⟨.waiting, b, dev, blockno⟩) q = some u) :
      u = ⟨.waiting, b, dev, blockno⟩ ∨ s.client q = some u := by
    by_cases hqp : q = p
    · rw [hqp, update_self] at hq
      exact .inl (Option.some.inj hq).symm
    · rw [update_of_ne hqp] at hq
      exact .inr hq
  have howner {q : P} {u : Ref n}
      (hq : update s.client p (some ⟨.waiting, b, dev, blockno⟩) q = some u)
      (howns : u.phase.Owns) : s.client q = some u := by
    rcases hcases hq with rfl | hq
    · exact absurd howns id
    · exact hq
  refine ⟨h.ring, h.all, ?_, fun c => ?_, fun q u hq => ?_, fun q u hq howns => ?_,
    fun q q' u u' hq hq' howns howns' => ?_, fun q u hq howns hne => ?_, fun c hc => ?_,
    fun c hvalid hquiet => ?_, fun dev' blockno' hclean' => ?_⟩
  · refine (h.fresh.and h.ring.nodup).imp fun {a c} hac hsame => ?_
    dsimp only at hsame ⊢
    by_cases hab : a = b
    · have hcb : c ≠ b := fun hcb => hac.2 (hab.trans hcb.symm)
      rw [hab, hself, hother hcb, hxcaches.1, hxcaches.2] at hsame
      exact absurd hsame (hmiss c)
    · rw [hother hab] at hsame
      by_cases hcb : c = b
      · rw [hcb, hself] at hsame
        exact absurd ⟨hsame.1.symm.trans hxcaches.1, hsame.2.symm.trans hxcaches.2⟩ (hmiss a)
      · rw [hother hcb] at hsame ⊢
        exact hac.1 hsame
  · have hsum := sum_update (refsTo c) s.client p (some ⟨.waiting, b, dev, blockno⟩)
    dsimp only
    rw [hsum, ← h.refcnt, hp]
    rcases eq_or_ne c b with rfl | hcb
    · rw [hself, ← hx]
      simp [refsTo, hfree]
    · rw [hother hcb]
      simp [refsTo, hcb.symm]
  · rcases hcases hq with rfl | hq
    · dsimp only
      rwa [hself]
    · dsimp only
      rw [hother (hunused hq)]
      exact h.block q u hq
  · have hq := howner hq howns
    dsimp only
    rw [hother (hunused hq)]
    exact h.lock q u hq howns
  · exact h.exclusive q q' u u' (howner hq howns) (howner hq' howns') howns howns'
  · have hq := howner hq howns
    dsimp only
    rw [hother (hunused hq)]
    exact h.ready q u hq howns hne
  · dsimp only at hc ⊢
    rcases eq_or_ne c b with rfl | hcb
    · rw [hself, ← hx] at hc
      cases hc
    · rw [hother hcb] at hc ⊢
      exact h.dirty c hc
  · dsimp only at hvalid ⊢
    rcases eq_or_ne c b with rfl | hcb
    · rw [hself, ← hx] at hvalid
      cases hvalid
    · rw [hother hcb] at hvalid ⊢
      refine h.data c hvalid fun q u hq huc => hquiet q u ?_ huc
      have hqp : q ≠ p := by
        rintro rfl
        rw [hp] at hq
        cases hq
      exact (update_of_ne hqp ..).trans hq
  · refine h.disk dev' blockno' fun c hc => ?_
    rcases eq_or_ne c b with rfl | hcb
    · exact hclean
    · rw [← hother hcb] at hc ⊢
      exact hclean' c hc

/-- The client gives up its reference; the buffer nobody refers to any more moves to the
front of the list. -/
theorem CacheInv.brelse (h : CacheInv s l) (hr : s.client p = some r)
    (hphase : r.phase = .released) :
    ∃ l', CacheInv { brelse r.buf s with client := update s.client p none } l' := by
  have hpos := h.refcnt_pos hr
  have hcount (a : Fin n) : refsTo a none - refsTo a (s.client p) =
      if a = r.buf then (((s.buf r.buf).refcnt - 1 : Nat) : Int) - (s.buf r.buf).refcnt else 0 := by
    by_cases har : a = r.buf
    · rw [if_pos har, hr]
      simp only [refsTo, har, Option.map_some, Option.map_none]
      simp
      omega
    · simp [refsTo, hr, har, eq_comm]
  have hold : ∀ u, s.client p = some u → ¬ u.phase.Owns := by
    intro u hu
    rw [hr, Option.some.injEq] at hu
    rw [← hu, hphase]
    exact id
  have hother {c : Fin n} (hc : (s.buf c).Fresh) : (update s.buf r.buf
      { s.buf r.buf with refcnt := (s.buf r.buf).refcnt - 1 } c).Fresh := by
    have hcr : c ≠ r.buf := fun hcr => h.not_fresh hr (hcr ▸ hc)
    rw [update_of_ne hcr]
    exact hc
  unfold Block.brelse
  dsimp only
  split
  · obtain ⟨as, bs, rfl⟩ := List.append_of_mem (h.all r.buf)
    obtain ⟨-, hbs, hbetween⟩ := List.pairwise_append.mp h.fresh
    have hrest : (as ++ bs).Sublist (as ++ r.buf :: bs) := by simp
    have hperm : (as ++ r.buf :: bs).Perm (r.buf :: (as ++ bs)) := List.perm_middle
    have hnotMem : r.buf ∉ as ++ bs := (List.nodup_cons.mp (hperm.nodup_iff.mp h.ring.nodup)).1
    refine ⟨r.buf :: (as ++ bs), h.recount (p := p) (c := none) rfl rfl rfl rfl
      (h.ring.remove.push hnotMem) (fun b => ?_) ?_ hcount hold (by simp)⟩
    · exact hperm.mem_iff.mp (h.all b)
    · refine List.pairwise_cons.mpr ⟨fun c hc hsame => hother ?_,
        (h.fresh.sublist hrest).imp fun hac hsame => hother (hac hsame)⟩
      rcases List.mem_append.mp hc with hc | hc
      · exact absurd (hbetween c hc r.buf (List.mem_cons_self ..) ⟨hsame.1.symm, hsame.2.symm⟩)
          (h.not_fresh hr)
      · exact (List.pairwise_cons.mp hbs).1 c hc hsame
  · exact ⟨l, h.recount (p := p) (c := none) rfl rfl rfl rfl h.ring h.all
      (h.fresh.imp fun hac hsame => hother (hac hsame)) hcount hold (by simp)⟩

/-! ## Steps and runs -/

omit [DecidableEq P] in
theorem CacheInv.length_lt (h : CacheInv s l) : l.length < n + 1 := by
  have hle := h.ring.nodup.length_le_card
  rw [Fintype.card_fin] at hle
  omega

theorem CacheInv.bget (h : CacheInv s l) (hp : s.client p = none) {u : Cache n P D}
    (hu : Block.bget dev blockno s = some (b, u)) :
    CacheInv { u with client := update s.client p (some ⟨.waiting, b, dev, blockno⟩) } l := by
  unfold Block.bget at hu
  rw [h.ring.forward.search_eq h.length_lt,
    h.ring.backward.search_eq (by simpa using h.length_lt)] at hu
  split at hu
  · cases hu
  · next b hfind =>
    cases hu
    exact h.hit hp (Option.some.inj hfind)
  · next hmiss =>
    split at hu
    · cases hu
    · cases hu
    · next b hfind =>
      cases hu
      have hfree := List.find?_some (Option.some.inj hfind)
      simp only [Bool.decide_and, Bool.and_eq_true, decide_eq_true_eq] at hfree
      refine h.recycle hp (fun c hc => ?_) hfree.1 hfree.2
      have hnone := List.find?_eq_none.mp (Option.some.inj hmiss) c (h.all c)
      exact hnone (by simpa [CachedBuf.Caches] using hc)

theorem setBlock_self (disk : Nat → Nat → D) (dev blockno : Nat) (x : D) :
    setBlock disk dev blockno x dev blockno = x := by
  simp [setBlock]

theorem setBlock_of_not_caches {b : CachedBuf D} {x : D} (h : ¬ b.Caches dev blockno) :
    setBlock disk b.dev b.blockno x dev blockno = disk dev blockno := by
  unfold setBlock
  by_cases hdev : dev = b.dev
  · subst hdev
    rw [update_self, update_of_ne]
    exact fun hblock => h ⟨rfl, hblock.symm⟩
  · rw [update_of_ne hdev]

/-- `iderw` reads the block into an invalid buffer. -/
theorem transfer_of_invalid {b : Buf D} (hvalid : b.valid = false) (hdirty : b.dirty = false) :
    transfer disk b = some (disk, { b with data := disk b.dev b.blockno, valid := true }) := by
  simp [transfer, Buf.Synced, hvalid, hdirty]

/-- `iderw` writes a dirty buffer to its block. -/
theorem transfer_of_dirty {b : Buf D} (hdirty : b.dirty = true) :
    transfer disk b =
      some (setBlock disk b.dev b.blockno b.data, { b with dirty := false, valid := true }) := by
  simp [transfer, Buf.Synced, hdirty]

theorem holding_or_edited {a : Phase} (h : a = .holding ∨ a = .edited) :
    a.Owns ∧ a ≠ .locked := by
  rcases h with rfl | rfl <;> simp [Phase.Owns]

theorem CacheInv.refStep (h : CacheInv s l) (hr : s.client p = some r) {e : CacheEvent P D}
    (ht : Block.refStep s p r e = some t) : ∃ l', CacheInv t l' := by
  have hsole (howns : r.phase.Owns) (q : P) (u : Ref n) (hq : s.client q = some u)
      (hu : u.phase.Owns) (hub : u.buf = r.buf) : q = p :=
    h.exclusive q p u r hq hr hu howns hub
  -- What the buffer holds if its client has not modified it.
  have hdata (howns : r.phase.Owns) (hmod : ¬ r.phase.Modifies)
      (hvalid : (s.buf r.buf).valid = true) :
      (s.buf r.buf).data = s.written (s.buf r.buf).dev (s.buf r.buf).blockno := by
    refine h.data r.buf hvalid fun q u hq hub hmod' => hmod ?_
    obtain rfl := hsole howns q u hq hmod'.owns hub
    rw [hr, Option.some.injEq] at hq
    exact hq ▸ hmod'
  -- The disk holds what was written last unless the buffer is dirty.
  have hdisk (hdirty : (s.buf r.buf).dirty = false) :
      s.disk (s.buf r.buf).dev (s.buf r.buf).blockno =
        s.written (s.buf r.buf).dev (s.buf r.buf).blockno := by
    refine h.disk _ _ fun c hc => ?_
    by_contra hdirty'
    have hnotFresh : ¬ (s.buf c).Fresh := fun hfresh => hdirty' hfresh.2.1
    obtain rfl := h.unique (h.not_fresh hr) hnotFresh hc
    exact hdirty' hdirty
  have hframe (dev blockno : Nat) (_ : ¬ (s.buf r.buf).Caches dev blockno) :
      s.disk dev blockno = s.disk dev blockno ∧ s.written dev blockno = s.written dev blockno :=
    ⟨rfl, rfl⟩
  cases e with
  | bget q dev blockno => cases ht
  | acquiresleep q =>
    simp only [Block.refStep] at ht
    split at ht
    · next hc =>
      cases ht
      have hfree (q : P) (u : Ref n) (hq : s.client q = some u) (hub : u.buf = r.buf) :
          ¬ u.phase.Owns := fun hu => by
        have hlock := h.lock q u hq hu
        rw [hub, hc.2] at hlock
        cases hlock
      exact ⟨l, h.put hr rfl rfl rfl (fun q u hq hu hub => absurd hu (hfree q u hq hub))
        ⟨rfl, rfl⟩ rfl (fun _ => rfl) (fun _ hne => absurd rfl hne) (h.dirty r.buf)
        (fun hvalid _ => h.data r.buf hvalid fun q u hq hub hmod => hfree q u hq hub hmod.owns)
        hdisk hframe⟩
    · cases ht
  | bread q =>
    simp only [Block.refStep] at ht
    split at ht
    · next hphase =>
      have howns : r.phase.Owns := by simp [hphase, Phase.Owns]
      have hmod : ¬ r.phase.Modifies := by simp [hphase, Phase.Modifies]
      split at ht
      · next hvalid =>
        cases ht
        exact ⟨l, h.put hr rfl rfl rfl (hsole howns) ⟨rfl, rfl⟩ rfl
          (fun _ => h.lock p r hr howns) (fun _ _ => hvalid) (h.dirty r.buf)
          (fun _ _ => hdata howns hmod hvalid) hdisk hframe⟩
      · next hvalid =>
        have hvalid : (s.buf r.buf).valid = false := by simpa using hvalid
        have hdirty : (s.buf r.buf).dirty = false := by
          by_contra hdirty
          simp [h.dirty r.buf (by simpa using hdirty)] at hvalid
        rw [transfer_of_invalid hvalid hdirty] at ht
        cases ht
        exact ⟨l, h.put hr rfl rfl rfl (hsole howns) ⟨rfl, rfl⟩ rfl
          (fun _ => h.lock p r hr howns) (fun _ _ => rfl) (fun _ => rfl)
          (fun _ _ => hdisk hdirty) (fun _ => hdisk hdirty) hframe⟩
    · cases ht
  | modify q x =>
    simp only [Block.refStep] at ht
    split at ht
    · next hphase =>
      obtain ⟨howns, hne⟩ := holding_or_edited hphase
      cases ht
      exact ⟨l, h.put hr rfl rfl rfl (hsole howns) ⟨rfl, rfl⟩ rfl
        (fun _ => h.lock p r hr howns) (fun _ _ => h.ready p r hr howns hne) (h.dirty r.buf)
        (fun _ hmod => absurd trivial hmod) hdisk hframe⟩
    · cases ht
  | logWrite q =>
    simp only [Block.refStep] at ht
    split at ht
    · next hphase =>
      obtain ⟨howns, hne⟩ := holding_or_edited hphase
      cases ht
      exact ⟨l, h.put hr rfl rfl rfl (hsole howns) ⟨rfl, rfl⟩ rfl
        (fun _ => h.lock p r hr howns) (fun _ _ => h.ready p r hr howns hne)
        (fun _ => h.ready p r hr howns hne) (fun _ _ => (setBlock_self ..).symm)
        (fun hdirty => by cases hdirty) fun dev blockno hx => ⟨rfl, setBlock_of_not_caches hx⟩⟩
    · cases ht
  | bwrite q =>
    simp only [Block.refStep] at ht
    split at ht
    · next hphase =>
      obtain ⟨howns, hne⟩ := holding_or_edited hphase.1
      cases ht
      exact ⟨l, h.put hr rfl rfl rfl (hsole howns) ⟨rfl, rfl⟩ rfl
        (fun _ => h.lock p r hr howns) (fun _ _ => h.ready p r hr howns hne)
        (fun _ => h.ready p r hr howns hne) (fun _ hmod => absurd trivial hmod)
        (fun hdirty => by cases hdirty) hframe⟩
    · cases ht
  | iderw q =>
    simp only [Block.refStep] at ht
    split at ht
    · next hphase =>
      have howns : r.phase.Owns := by simp [hphase, Phase.Owns]
      have hvalid := h.ready p r hr howns (by simp [hphase])
      cases hdirty : (s.buf r.buf).dirty with
      | false => simp [transfer, Buf.Synced, hvalid, hdirty] at ht
      | true =>
        rw [transfer_of_dirty hdirty] at ht
        cases ht
        exact ⟨l, h.put hr rfl rfl rfl (hsole howns) ⟨rfl, rfl⟩ rfl
          (fun _ => h.lock p r hr howns) (fun _ _ => rfl) (fun _ => rfl)
          (fun _ _ => (setBlock_self ..).symm)
          (fun _ => (setBlock_self ..).trans (setBlock_self ..).symm)
          fun dev blockno hx => ⟨setBlock_of_not_caches hx, setBlock_of_not_caches hx⟩⟩
    · cases ht
  | releasesleep q =>
    simp only [Block.refStep] at ht
    split at ht
    · next hphase =>
      have howns : r.phase.Owns := by simp [hphase.1, Phase.Owns]
      have hmod : ¬ r.phase.Modifies := by simp [hphase.1, Phase.Modifies]
      cases ht
      exact ⟨l, h.put hr rfl rfl rfl (hsole howns) ⟨rfl, rfl⟩ rfl (fun hrel => absurd hrel id)
        (fun hrel => absurd hrel id) (h.dirty r.buf) (fun hvalid _ => hdata howns hmod hvalid)
        hdisk hframe⟩
    · cases ht
  | brelse q =>
    simp only [Block.refStep] at ht
    split at ht
    · next hphase =>
      cases ht
      exact h.brelse hr hphase
    · cases ht

theorem cacheStep_inv {e : CacheEvent P D} (h : CacheInv s l) (ht : cacheStep s e = some t) :
    ∃ l', CacheInv t l' := by
  unfold cacheStep at ht
  split at ht
  · next p dev blockno hp =>
    obtain ⟨⟨b, u⟩, hu, rfl⟩ := Option.map_eq_some_iff.mp ht
    exact ⟨l, h.bget hp hu⟩
  · cases ht
  · next r hr => exact h.refStep hr ht

omit [Fintype P] [DecidableEq P] in
/-- A buffer may change while every buffer keeps its block. -/
theorem update_block {a : Fin n} {x : CachedBuf D} (b : Fin n)
    (hx : b = a → x.Caches (s.buf a).dev (s.buf a).blockno) :
    (update s.buf a x b).Caches (s.buf b).dev (s.buf b).blockno := by
  rcases eq_or_ne b a with rfl | hb
  · rw [update_self]
    exact hx rfl
  · rw [update_of_ne hb]
    exact ⟨rfl, rfl⟩

theorem transfer_block {disk' : Nat → Nat → D} {b y : Buf D}
    (h : transfer disk b = some (disk', y)) : y.dev = b.dev ∧ y.blockno = b.blockno := by
  unfold transfer at h
  split at h
  · cases h
  split at h <;> cases h <;> exact ⟨rfl, rfl⟩

omit [Fintype P] [DecidableEq P] in
theorem brelse_block (a b : Fin n) :
    ((brelse a s).buf b).Caches (s.buf b).dev (s.buf b).blockno := by
  unfold brelse
  dsimp only
  split <;> exact update_block b fun _ => ⟨rfl, rfl⟩

omit [Fintype P] in
/-- The client of a buffer does not change the block of any buffer. -/
theorem refStep_block {e : CacheEvent P D} (ht : refStep s p r e = some t) (b : Fin n) :
    (t.buf b).Caches (s.buf b).dev (s.buf b).blockno := by
  cases e with
  | bget q dev blockno => cases ht
  | acquiresleep q | modify q x | logWrite q | bwrite q | releasesleep q =>
    simp only [refStep] at ht
    split at ht
    · cases ht
      exact update_block b fun _ => ⟨rfl, rfl⟩
    · cases ht
  | bread q =>
    simp only [refStep] at ht
    split at ht
    · split at ht
      · cases ht
        exact update_block b fun _ => ⟨rfl, rfl⟩
      · obtain ⟨⟨disk, y⟩, hy, rfl⟩ := Option.map_eq_some_iff.mp ht
        exact update_block b fun _ => transfer_block hy
    · cases ht
  | iderw q =>
    simp only [refStep] at ht
    split at ht
    · obtain ⟨⟨disk, y⟩, hy, rfl⟩ := Option.map_eq_some_iff.mp ht
      exact update_block b fun _ => transfer_block hy
    · cases ht
  | brelse q =>
    simp only [refStep] at ht
    split at ht
    · cases ht
      exact brelse_block r.buf b
    · cases ht

omit [DecidableEq P] in
/-- `bget` gives a new block only to a buffer that is neither dirty nor in use. -/
theorem CacheInv.bget_block (h : CacheInv s l) {a : Fin n}
    (ht : Block.bget dev blockno s = some (a, t)) (b : Fin n)
    (hb : (s.buf b).dirty = true ∨ 0 < (s.buf b).refcnt) :
    (t.buf b).Caches (s.buf b).dev (s.buf b).blockno := by
  unfold Block.bget at ht
  rw [h.ring.backward.search_eq (by simpa using h.length_lt)] at ht
  split at ht
  · cases ht
  · cases ht
    exact update_block b fun _ => ⟨rfl, rfl⟩
  · split at ht
    · cases ht
    · cases ht
    · next a hfind =>
      cases ht
      have hfree := List.find?_some (Option.some.inj hfind)
      simp only [Bool.decide_and, Bool.and_eq_true, decide_eq_true_eq] at hfree
      refine update_block b ?_
      rintro rfl
      rcases hb with hdirty | hpos
      · simp [hfree.2] at hdirty
      · omega

/-- In every run of clients that keep the protocol: a client that holds a buffer it has not
modified has the contents last written to the block it asked for; two buffers in use or
valid do not have the same block; a dirty or referenced buffer keeps its block; and the list
is a ring through the head with every buffer exactly once. -/
theorem cache_refines_store {data : Fin n → D} {disk : Nat → Nat → D} {es : List (CacheEvent P D)}
    {s : Cache n P D} (hrun : run cacheStep (cacheInit data disk) es = some s) :
    (∀ p r, s.client p = some r → r.phase = .holding →
      (s.buf r.buf).Caches r.dev r.blockno ∧ (s.buf r.buf).data = s.written r.dev r.blockno) ∧
    (∀ b c, ¬ (s.buf b).Fresh → ¬ (s.buf c).Fresh →
      (s.buf c).Caches (s.buf b).dev (s.buf b).blockno → b = c) ∧
    (∀ e t, cacheStep s e = some t → ∀ b, (s.buf b).dirty = true ∨ 0 < (s.buf b).refcnt →
      (t.buf b).Caches (s.buf b).dev (s.buf b).blockno) ∧
    ∃ l, IsRing s.links.next s.links.prev l ∧ ∀ b, b ∈ l := by
  obtain ⟨l, h⟩ := run_invariant_of_step (I := fun s : Cache n P D => ∃ l, CacheInv s l)
    (fun s e t ⟨l, h⟩ ht => cacheStep_inv h ht) ⟨_, cacheInit_inv data disk⟩ hrun
  refine ⟨fun p r hr hphase => ⟨h.block p r hr, ?_⟩, fun b c => h.unique, fun e t ht b hb => ?_,
    l, h.ring, h.all⟩
  · have howns : r.phase.Owns := by simp [hphase, Phase.Owns]
    have hvalid := h.ready p r hr howns (by simp [hphase])
    obtain ⟨hdev, hblockno⟩ := h.block p r hr
    rw [← hdev, ← hblockno]
    refine h.data r.buf hvalid fun q u hq hub hmod => ?_
    obtain rfl := h.exclusive q p u r hq hr hmod.owns howns hub
    rw [hr, Option.some.injEq] at hq
    rw [← hq, hphase] at hmod
    exact hmod
  · unfold cacheStep at ht
    split at ht
    · obtain ⟨⟨a, u⟩, hu, rfl⟩ := Option.map_eq_some_iff.mp ht
      exact h.bget_block hu b hb
    · cases ht
    · exact refStep_block ht b

/-- A client writes a block, and another one reads it after another block was read. -/
theorem cache_refines_store_two :
    ∃ s : Cache 2 (Fin 2) Nat,
      run cacheStep (cacheInit (fun _ => 0) fun _ _ => 9)
        [.bget 0 1 5, .acquiresleep 0, .bread 0, .modify 0 8, .logWrite 0, .bget 1 1 6,
          .releasesleep 0, .brelse 0, .acquiresleep 1, .bread 1, .releasesleep 1, .brelse 1,
          .bget 1 1 5, .acquiresleep 1, .bread 1] = some s ∧
      s.client 1 = some ⟨.holding, 0, 1, 5⟩ ∧ (s.buf 0).data = s.written 1 5 ∧
      s.written 1 5 = 8 ∧ s.disk 1 5 = 9 := by
  obtain ⟨s, hs, hfacts⟩ := Option.map_eq_some_iff.mp (by decide +kernel :
    (run cacheStep (cacheInit (fun _ => 0) fun _ _ => 9 : Cache 2 (Fin 2) Nat)
        [.bget 0 1 5, .acquiresleep 0, .bread 0, .modify 0 8, .logWrite 0, .bget 1 1 6,
          .releasesleep 0, .brelse 0, .acquiresleep 1, .bread 1, .releasesleep 1, .brelse 1,
          .bget 1 1 5, .acquiresleep 1, .bread 1]).map
        (fun s => (s.client 1, s.written 1 5, s.disk 1 5)) = some (some ⟨.holding, 0, 1, 5⟩, 8, 9))
  simp only [Prod.mk.injEq] at hfacts
  obtain ⟨hclient, hwritten, hdisk⟩ := hfacts
  exact ⟨s, hs, hclient, ((cache_refines_store hs).1 1 _ hclient rfl).2, hwritten, hdisk⟩

end Xv6Containers.Block
