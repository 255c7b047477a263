import Xv6Containers.Block.Cache
import Xv6Containers.Log.Admission

/-!
# How many buffers are in use at once

The buffer cache under the log: operations that `begin_op` admits, `log_write`
that pins the buffers it is given, commits that write them and make them
recyclable again, and readers outside of operations. `bget` needs a buffer that
nobody refers to and that is not pinned.

## Implementation notes

A client is one buffer pointer of a process, since a process holds several
buffers at once. The header of the log is emptied only when every block it
lists has been written to its place, as `install_trans` does before `lh.n = 0`.
The field `pinned` records the blocks that were given to `log_write` and have
not been written to disk since.
-/

namespace Xv6Containers.Block

open Lib.Linked Lib.Runs Lib.Counting Function

/-- `NBUF`. -/
def nbuf : Nat := maxOpBlocks * 3

structure Load (n : Nat) (C P D : Type) where
  log : Group.State P
  cache : Cache n C D
  pinned : Finset (Nat × Nat)

inductive LoadEvent (C P D : Type)
  | log (e : Group.Event P)
  | buf (e : CacheEvent C D)
  | append (c : C)

variable {n : Nat} {C P D : Type}

instance (x : Group.Pc) : Decidable x.InCommit :=
  match x with
  | .commitStart | .commitTail _ | .commitDone => isTrue trivial
  | .idle | .waiting | .inOp _ | .logging _ _ => isFalse id

/-- The log is cleared only when its blocks are in their places. -/
def clearGuard (s : Load n C P D) : Group.Pc → Prop
  | .commitTail _ => ∀ x ∈ s.pinned, x.2 ∉ s.log.lh
  | _ => True

/-- The bookkeeping of `log_write` goes together with the flag of its buffer, so it is not an
event of its own. -/
def logGuard (s : Load n C P D) : Group.Event P → Prop
  | .append _ => False
  | .commit p => clearGuard s (s.log.pc p)
  | _ => True

/-- Only `commit` calls `bwrite`. -/
def bufGuard (owner : C → P) (s : Load n C P D) : CacheEvent C D → Prop
  | .logWrite _ => False
  | .bwrite c => (s.log.pc (owner c)).InCommit
  | _ => True

instance (s : Load n C P D) (x : Group.Pc) : Decidable (clearGuard s x) :=
  match x with
  | .commitTail _ => inferInstanceAs (Decidable (∀ x ∈ s.pinned, x.2 ∉ s.log.lh))
  | .idle | .waiting | .inOp _ | .logging _ _ | .commitStart | .commitDone => isTrue trivial

instance (s : Load n C P D) (e : Group.Event P) : Decidable (logGuard s e) :=
  match e with
  | .append _ => isFalse id
  | .commit p => inferInstanceAs (Decidable (clearGuard s (s.log.pc p)))
  | .beginOp _ | .logWrite _ _ | .endOp _ => isTrue trivial

instance (owner : C → P) (s : Load n C P D) (e : CacheEvent C D) :
    Decidable (bufGuard owner s e) :=
  match e with
  | .logWrite _ => isFalse id
  | .bwrite c => inferInstanceAs (Decidable (s.log.pc (owner c)).InCommit)
  | .bget .. | .acquiresleep _ | .bread _ | .modify .. | .iderw _ | .releasesleep _
  | .brelse _ => isTrue trivial

/-- The block that client `c` asked for. -/
def Cache.blockOf (s : Cache n C D) (c : C) : Option (Nat × Nat) :=
  (s.client c).map fun r => (r.dev, r.blockno)

/-- A block that has been written to disk is not pinned any more. -/
def Load.unpin (s : Load n C P D) : CacheEvent C D → Finset (Nat × Nat)
  | .iderw c => s.pinned \ (s.cache.blockOf c).toFinset
  | _ => s.pinned

section Machine

variable [DecidableEq C] [DecidableEq P]

/-- `log_write` of the buffer of client `c`, after the tests: the header and the flag. -/
def logAppend (owner : C → P) (size : Nat) (s : Load n C P D) (c : C) : Option (Load n C P D) :=
  match s.log.pc (owner c), s.cache.client c with
  | .logging _ b, some r =>
    if r.blockno = b then
      (Group.step size s.log (.append (owner c))).bind fun log =>
        (cacheStep s.cache (.logWrite c)).map fun cache =>
          { log := log, cache := cache, pinned := insert (r.dev, r.blockno) s.pinned }
    else none
  | _, _ => none

def loadStep (owner : C → P) (size : Nat) (s : Load n C P D) :
    LoadEvent C P D → Option (Load n C P D)
  | .log e =>
    if logGuard s e then (Group.step size s.log e).map fun log => { s with log := log } else none
  | .buf e =>
    if bufGuard owner s e then
      (cacheStep s.cache e).map fun cache => { s with cache := cache, pinned := s.unpin e }
    else none
  | .append c => logAppend owner size s c

end Machine

def loadInit (data : Fin n → D) (disk : Nat → Nat → D) : Load n C P D where
  log := Group.init
  cache := cacheInit data disk
  pinned := ∅

/-! ## Which buffers cannot be recycled -/

variable [Fintype C]

/-- The blocks whose buffers somebody has or waits for. -/
def Cache.held (s : Cache n C D) : Finset (Nat × Nat) :=
  Finset.univ.biUnion fun c => (s.blockOf c).toFinset

theorem Cache.mem_held {s : Cache n C D} {x : Nat × Nat} :
    x ∈ s.held ↔ ∃ c r, s.client c = some r ∧ x = (r.dev, r.blockno) := by
  simp [Cache.held, Cache.blockOf, eq_comm]

/-- Somebody is writing the buffer to disk. -/
def Writing (s : Cache n C D) (b : Fin n) : Prop :=
  ∃ c r, s.client c = some r ∧ r.buf = b ∧ r.phase = .writing

/-- The dirty buffers are those of the pinned blocks and those that are being written. -/
structure PinInv (s : Load n C P D) : Prop where
  cache : ∃ l, CacheInv s.cache l
  dirty : ∀ x ∈ s.pinned, ∃ b, (s.cache.buf b).Caches x.1 x.2 ∧ (s.cache.buf b).dirty = true
  pinned : ∀ b, (s.cache.buf b).dirty = true →
    ((s.cache.buf b).dev, (s.cache.buf b).blockno) ∈ s.pinned ∨ Writing s.cache b

/-- The buffers that `bget` must not recycle. -/
def Cache.busy (s : Cache n C D) : Finset (Fin n) :=
  Finset.univ.filter fun b => 0 < (s.buf b).refcnt ∨ (s.buf b).dirty = true

section Counting

variable {s : Cache n C D} {l : List (Fin n)}

/-- A buffer with references has a client. -/
theorem CacheInv.exists_client (h : CacheInv s l) {b : Fin n} (hb : 0 < (s.buf b).refcnt) :
    ∃ c r, s.client c = some r ∧ r.buf = b := by
  by_contra hnone
  have hzero : ∀ c, refsTo b (s.client c) = 0 := by
    intro c
    rw [refsTo, if_neg]
    intro heq
    obtain ⟨r, hr, hrb⟩ := Option.map_eq_some_iff.mp heq
    exact hnone ⟨c, r, hr, hrb⟩
  have hsum := h.refcnt b
  rw [Finset.sum_eq_zero fun c _ => hzero c] at hsum
  omega

theorem bget_isSome_iff (h : CacheInv s l) {dev blockno : Nat} :
    (bget dev blockno s).isSome ↔
      (∃ b, (s.buf b).Caches dev blockno) ∨ s.busy.card < n := by
  have hfree : s.busy.card < n ↔ ∃ b, (s.buf b).refcnt = 0 ∧ (s.buf b).dirty = false := by
    have hcard : s.busy.card < n ↔ s.busy ≠ Finset.univ := by
      rw [← Finset.card_lt_iff_ne_univ, Fintype.card_fin]
    rw [hcard, Ne, Finset.eq_univ_iff_forall, not_forall]
    simp [Cache.busy]
  rw [hfree, bget, h.ring.forward.search_eq h.length_lt,
    h.ring.backward.search_eq (by simpa using h.length_lt)]
  cases hhit : l.find? fun b => (s.buf b).dev = dev ∧ (s.buf b).blockno = blockno with
  | some b =>
    have hb : (s.buf b).Caches dev blockno := by
      simpa [CachedBuf.Caches] using List.find?_some hhit
    exact iff_of_true rfl (Or.inl ⟨b, hb⟩)
  | none =>
    have hmiss : ¬ ∃ b, (s.buf b).Caches dev blockno := by
      rintro ⟨b, hb⟩
      have hnone := List.find?_eq_none.mp hhit b (h.all b)
      exact hnone (by simpa [CachedBuf.Caches] using hb)
    rw [or_iff_right hmiss]
    cases hfind : l.reverse.find? fun b => (s.buf b).refcnt = 0 ∧ (s.buf b).dirty = false with
    | some b => exact iff_of_true rfl ⟨b, by simpa using List.find?_some hfind⟩
    | none =>
      refine iff_of_false (by simp) ?_
      rintro ⟨b, hb⟩
      have hnone := List.find?_eq_none.mp hfind b (List.mem_reverse.mpr (h.all b))
      exact hnone (by simpa using hb)

/-- The busy buffers are those of the blocks that are pinned or held. -/
theorem PinInv.card_busy {s : Load n C P D} (h : PinInv s) :
    s.cache.busy.card = (s.pinned ∪ s.cache.held).card := by
  obtain ⟨l, hl⟩ := h.cache
  have hfresh : ∀ b ∈ s.cache.busy, ¬ (s.cache.buf b).Fresh := by
    intro b hb hf
    rcases (Finset.mem_filter.mp hb).2 with hpos | hdirty
    · exact absurd hf.2.2 (by omega)
    · simp [hf.2.1] at hdirty
  rw [← Finset.card_image_of_injOn (s := s.cache.busy)
    (f := fun b => ((s.cache.buf b).dev, (s.cache.buf b).blockno))]
  · congr 1
    ext x
    simp only [Finset.mem_image, Finset.mem_union, Cache.mem_held, Cache.busy, Finset.mem_filter,
      Finset.mem_univ, true_and]
    constructor
    · rintro ⟨b, hb, rfl⟩
      have hclient : ∀ c r, s.cache.client c = some r → r.buf = b →
          ((s.cache.buf b).dev, (s.cache.buf b).blockno) = (r.dev, r.blockno) := by
        rintro c r hr rfl
        have hblock := hl.block c r hr
        rw [hblock.1, hblock.2]
      rcases hb with hpos | hdirty
      · obtain ⟨c, r, hr, hrb⟩ := hl.exists_client hpos
        exact Or.inr ⟨c, r, hr, hclient c r hr hrb⟩
      · rcases h.pinned b hdirty with hpinned | ⟨c, r, hr, hrb, -⟩
        · exact Or.inl hpinned
        · exact Or.inr ⟨c, r, hr, hclient c r hr hrb⟩
    · rintro (hpinned | ⟨c, r, hr, rfl⟩)
      · obtain ⟨b, hb, hdirty⟩ := h.dirty x hpinned
        exact ⟨b, Or.inr hdirty, by rw [hb.1, hb.2]⟩
      · have hblock := hl.block c r hr
        exact ⟨r.buf, Or.inl (hl.refcnt_pos hr), by rw [hblock.1, hblock.2]⟩
  · intro b hb c hc hbc
    simp only [Prod.mk.injEq] at hbc
    exact hl.unique (hfresh b hb) (hfresh c hc) ⟨hbc.1.symm, hbc.2.symm⟩

end Counting

/-! ## The invariant -/

section Steps

variable {owner : C → P} {size : Nat} {s t : Load n C P D}

/-- Nothing is pinned, written or made dirty. -/
theorem PinInv.frame (h : PinInv s) (hcache : ∃ l, CacheInv t.cache l)
    (hpinned : t.pinned = s.pinned)
    (hdirty : ∀ b, (t.cache.buf b).dirty = (s.cache.buf b).dirty)
    (hblock : ∀ b, (s.cache.buf b).dirty = true →
      (t.cache.buf b).Caches (s.cache.buf b).dev (s.cache.buf b).blockno)
    (hwriting : ∀ b, Writing s.cache b → Writing t.cache b) : PinInv t where
  cache := hcache
  dirty := fun x hx => by
    obtain ⟨b, hb, hd⟩ := h.dirty x (hpinned ▸ hx)
    have hsame := hblock b hd
    exact ⟨b, ⟨hsame.1.trans hb.1, hsame.2.trans hb.2⟩, (hdirty b).trans hd⟩
  pinned := fun b hb => by
    rw [hdirty] at hb
    have hsame := hblock b hb
    rw [hsame.1, hsame.2, hpinned]
    exact (h.pinned b hb).imp id (hwriting b)

theorem PinInv.logStep (h : PinInv s) (log : Group.State P) : PinInv { s with log := log } :=
  ⟨h.cache, h.dirty, h.pinned⟩

variable [DecidableEq C]

omit [Fintype C] in
/-- A client that is not writing changes its place in the protocol. -/
theorem writing_update {k k' : Cache n C D} {c : C} {x : Option (Ref n)}
    (hclient : k'.client = update k.client c x)
    (hc : ∀ r, k.client c = some r → r.phase ≠ .writing) (b : Fin n) (h : Writing k b) :
    Writing k' b := by
  obtain ⟨d, r, hr, hrb, hphase⟩ := h
  have hdc : d ≠ c := by
    rintro rfl
    exact hc r hr hphase
  exact ⟨d, r, by rw [hclient, update_of_ne hdc, hr], hrb, hphase⟩

omit [Fintype C] [DecidableEq C] in
theorem dirty_update {k : Cache n C D} {a : Fin n} {x : CachedBuf D}
    (hx : x.dirty = (k.buf a).dirty) (b : Fin n) :
    (update k.buf a x b).dirty = (k.buf b).dirty := by
  rcases eq_or_ne b a with rfl | hb
  · rw [update_self, hx]
  · rw [update_of_ne hb]

omit [DecidableEq C] in
/-- `bget` makes no buffer dirty or clean. -/
theorem bget_dirty {k k' : Cache n C D} {l : List (Fin n)} (hk : CacheInv k l)
    {dev blockno : Nat} {a : Fin n} (h : bget dev blockno k = some (a, k')) (b : Fin n) :
    (k'.buf b).dirty = (k.buf b).dirty := by
  unfold bget at h
  rw [hk.ring.backward.search_eq (by simpa using hk.length_lt)] at h
  split at h
  · cases h
  · cases h
    exact dirty_update (by rfl) b
  · split at h
    · cases h
    · cases h
    · next a hfind =>
      cases h
      have hfree := List.find?_some (Option.some.inj hfind)
      simp only [Bool.decide_and, Bool.and_eq_true, decide_eq_true_eq] at hfree
      exact dirty_update hfree.2.symm b

/-- The events that neither write a block nor begin to. -/
def Calm : CacheEvent C D → Prop
  | .logWrite _ | .bwrite _ | .iderw _ => False
  | _ => True

/-- A buffer that has been transferred is clean. -/
theorem transfer_dirty {disk disk' : Nat → Nat → D} {b y : Buf D}
    (h : transfer disk b = some (disk', y)) : y.dirty = false := by
  unfold transfer at h
  split at h
  · cases h
  split at h
  · cases h
    rfl
  · next hclean =>
    cases h
    simpa using hclean

omit [Fintype C] in
/-- A calm step of a client changes no flag, and none that is writing. -/
theorem refStep_calm {k k' : Cache n C D} {c : C} {r : Ref n} {e : CacheEvent C D}
    (hcalm : Calm e) (hvalid : ∀ b, (k.buf b).dirty = true → (k.buf b).valid = true)
    (h : refStep k c r e = some k') :
    (∀ b, (k'.buf b).dirty = (k.buf b).dirty) ∧ r.phase ≠ .writing ∧
      ∃ x, k'.client = update k.client c x := by
  cases e with
  | bget q dev blockno => cases h
  | logWrite q => exact hcalm.elim
  | bwrite q => exact hcalm.elim
  | iderw q => exact hcalm.elim
  | acquiresleep q =>
    simp only [refStep] at h
    split at h
    · next hphase =>
      cases h
      exact ⟨dirty_update rfl, by simp [hphase.1], _, rfl⟩
    · cases h
  | bread q =>
    simp only [refStep] at h
    split at h
    · next hphase =>
      split at h
      · cases h
        exact ⟨dirty_update rfl, by simp [hphase], _, rfl⟩
      · next hinvalid =>
        obtain ⟨⟨disk, y⟩, hy, rfl⟩ := Option.map_eq_some_iff.mp h
        have hclean : (k.buf r.buf).dirty = false := by
          cases hd : (k.buf r.buf).dirty with
          | false => rfl
          | true => exact absurd (hvalid _ hd) hinvalid
        exact ⟨dirty_update ((transfer_dirty hy).trans hclean.symm), by simp [hphase], _, rfl⟩
    · cases h
  | modify q x =>
    simp only [refStep] at h
    split at h
    · next hphase =>
      cases h
      refine ⟨dirty_update rfl, ?_, _, rfl⟩
      rcases hphase with hp | hp <;> simp [hp]
    · cases h
  | releasesleep q =>
    simp only [refStep] at h
    split at h
    · next hphase =>
      cases h
      exact ⟨dirty_update rfl, by simp [hphase.1], _, rfl⟩
    · cases h
  | brelse q =>
    simp only [refStep] at h
    split at h
    · next hphase =>
      cases h
      refine ⟨fun b => ?_, by simp [hphase], _, rfl⟩
      unfold brelse
      dsimp only
      split <;> exact dirty_update (by rfl) b
    · cases h

/-- The buffer of a client becomes dirty: it is pinned, or it is being written. -/
theorem PinInv.mark (h : PinInv s) {c : C} {r : Ref n} (phase : Phase)
    (hr : s.cache.client c = some r) (hphase : r.phase ≠ .writing)
    (hcache : ∃ l, CacheInv t.cache l)
    (hbuf : t.cache.buf = update s.cache.buf r.buf { s.cache.buf r.buf with dirty := true })
    (hclient : t.cache.client = update s.cache.client c (some { r with phase := phase }))
    (hmark : (phase = .writing ∧ t.pinned = s.pinned) ∨
      t.pinned = insert (r.dev, r.blockno) s.pinned) : PinInv t := by
  obtain ⟨l, hl⟩ := h.cache
  have hblock := hl.block c r hr
  have hsub : s.pinned ⊆ t.pinned := by
    rcases hmark with ⟨-, hp⟩ | hp
    · rw [hp]
    · rw [hp]
      exact Finset.subset_insert ..
  have hself : t.cache.buf r.buf = { s.cache.buf r.buf with dirty := true } := by
    rw [hbuf, update_self]
  refine ⟨hcache, fun x hx => ?_, fun b hb => ?_⟩
  · have hcases : x ∈ s.pinned ∨ x = (r.dev, r.blockno) := by
      rcases hmark with ⟨-, hp⟩ | hp
      · exact Or.inl (hp ▸ hx)
      · rw [hp, Finset.mem_insert] at hx
        exact hx.symm
    rcases hcases with hold | rfl
    · obtain ⟨b, hb, hd⟩ := h.dirty x hold
      rcases eq_or_ne b r.buf with rfl | hne
      · exact ⟨r.buf, by rw [hself]; exact hb, by rw [hself]⟩
      · exact ⟨b, by rw [hbuf, update_of_ne hne]; exact hb,
          by rw [hbuf, update_of_ne hne]; exact hd⟩
    · exact ⟨r.buf, by rw [hself]; exact hblock, by rw [hself]⟩
  · rcases eq_or_ne b r.buf with rfl | hne
    · rcases hmark with ⟨hwriting, -⟩ | hp
      · refine Or.inr ⟨c, { r with phase := phase }, ?_, rfl, hwriting⟩
        rw [hclient, update_self]
      · left
        rw [hself, hp, Finset.mem_insert]
        exact Or.inl (Prod.ext hblock.1 hblock.2)
    · rw [hbuf, update_of_ne hne] at hb ⊢
      refine (h.pinned b hb).imp (fun hp => hsub hp) (writing_update hclient (fun u hu => ?_) b)
      rw [hr, Option.some.injEq] at hu
      exact hu ▸ hphase

/-- A block is written to disk. -/
theorem PinInv.wrote (h : PinInv s) {c : C} {r : Ref n} {y : Buf D}
    (hr : s.cache.client c = some r) (hcache : ∃ l, CacheInv t.cache l)
    (hbuf : t.cache.buf = update s.cache.buf r.buf { s.cache.buf r.buf with toBuf := y })
    (hclean : y.dirty = false)
    (hclient : t.cache.client = update s.cache.client c (some { r with phase := .holding }))
    (hpinned : t.pinned = s.pinned \ {(r.dev, r.blockno)}) : PinInv t := by
  obtain ⟨l, hl⟩ := h.cache
  have hblock := hl.block c r hr
  refine ⟨hcache, fun x hx => ?_, fun b hb => ?_⟩
  · rw [hpinned, Finset.mem_sdiff, Finset.mem_singleton] at hx
    obtain ⟨b, hb, hd⟩ := h.dirty x hx.1
    have hne : b ≠ r.buf := by
      rintro rfl
      exact hx.2 (Prod.ext (hb.1.symm.trans hblock.1) (hb.2.symm.trans hblock.2))
    refine ⟨b, ?_, ?_⟩
    · rw [hbuf, update_of_ne hne]
      exact hb
    · rw [hbuf, update_of_ne hne]
      exact hd
  · have hne : b ≠ r.buf := by
      rintro rfl
      rw [hbuf, update_self] at hb
      simp [hclean] at hb
    rw [hbuf, update_of_ne hne] at hb ⊢
    rcases h.pinned b hb with hp | ⟨d, u, hu, hub, huphase⟩
    · left
      rw [hpinned, Finset.mem_sdiff, Finset.mem_singleton]
      refine ⟨hp, fun heq => hne ?_⟩
      have hfresh : ¬ (s.cache.buf b).Fresh := fun hf => by simp [hf.2.1] at hb
      exact hl.unique hfresh (hl.not_fresh hr)
        ⟨hblock.1.trans (congrArg Prod.fst heq).symm, hblock.2.trans (congrArg Prod.snd heq).symm⟩
    · right
      have hdc : d ≠ c := by
        rintro rfl
        rw [hr, Option.some.injEq] at hu
        exact hne (by rw [hu, hub])
      exact ⟨d, u, by rw [hclient, update_of_ne hdc, hu], hub, huphase⟩

/-- A step of a client that has a buffer. -/
theorem PinInv.refStep (h : PinInv s) {e : CacheEvent C D} {r : Ref n} {k : Cache n C D}
    (hr : s.cache.client e.client = some r) (hcache : ∃ l, CacheInv k l)
    (he : ∀ c, e ≠ .logWrite c) (hk : Block.refStep s.cache e.client r e = some k) :
    PinInv { s with cache := k, pinned := s.unpin e } := by
  obtain ⟨l, hl⟩ := h.cache
  by_cases hcalm : Calm e
  · obtain ⟨hdirty, hphase, x, hclient⟩ := refStep_calm hcalm hl.dirty hk
    refine h.frame hcache ?_ hdirty (fun b _ => refStep_block hk b)
      (writing_update hclient fun u hu => ?_)
    · cases e with
      | iderw c => exact hcalm.elim
      | _ => rfl
    · rw [hr, Option.some.injEq] at hu
      exact hu ▸ hphase
  cases e with
  | logWrite c => exact absurd rfl (he c)
  | bwrite c =>
    simp only [Block.refStep] at hk
    split at hk
    · next hphase =>
      cases hk
      refine h.mark .writing hr ?_ hcache rfl rfl (Or.inl ⟨rfl, rfl⟩)
      rcases hphase.1 with hp | hp <;> simp [hp]
    · cases hk
  | iderw c =>
    simp only [Block.refStep] at hk
    split at hk
    · obtain ⟨⟨disk, y⟩, hy, rfl⟩ := Option.map_eq_some_iff.mp hk
      refine h.wrote hr hcache rfl (transfer_dirty hy) rfl ?_
      have hblock : s.cache.blockOf c = some (r.dev, r.blockno) := by
        rw [Cache.blockOf, show s.cache.client c = some r from hr, Option.map_some]
      simp [Load.unpin, hblock]
    · cases hk
  | _ => exact absurd trivial hcalm

/-- A step of the cache that is not `log_write`. -/
theorem PinInv.bufStep (h : PinInv s) {e : CacheEvent C D} {k : Cache n C D}
    (he : ∀ c, e ≠ .logWrite c) (hk : cacheStep s.cache e = some k) :
    PinInv { s with cache := k, pinned := s.unpin e } := by
  obtain ⟨l, hl⟩ := h.cache
  have hcache := cacheStep_inv hl hk
  unfold cacheStep at hk
  split at hk
  · next c dev blockno hc =>
    obtain ⟨⟨b, u⟩, hu, rfl⟩ := Option.map_eq_some_iff.mp hk
    refine h.frame hcache rfl (fun a => bget_dirty hl hu a) (fun a ha => ?_) ?_
    · exact hl.bget_block hu a (Or.inl ha)
    · refine writing_update rfl fun r hr => ?_
      rw [show s.cache.client c = none from hc] at hr
      cases hr
  · cases hk
  · next r hr => exact h.refStep hr hcache he hk

variable [DecidableEq P]

theorem PinInv.append (h : PinInv s) {c : C} (ht : logAppend owner size s c = some t) :
    PinInv t := by
  obtain ⟨l, hl⟩ := h.cache
  unfold logAppend at ht
  split at ht
  · next o b r _ hr =>
    split at ht
    · obtain ⟨log, -, ht⟩ := Option.bind_eq_some_iff.mp ht
      obtain ⟨k, hk, rfl⟩ := Option.map_eq_some_iff.mp ht
      have hcache := cacheStep_inv hl hk
      simp only [cacheStep, CacheEvent.client, hr, Block.refStep] at hk
      split at hk
      · next hphase =>
        cases hk
        refine h.mark .holding hr ?_ hcache rfl rfl (Or.inr rfl)
        rcases hphase with hp | hp <;> simp [hp]
      · cases hk
    · cases ht
  · cases ht

theorem PinInv.step {e : LoadEvent C P D} (h : PinInv s)
    (ht : loadStep owner size s e = some t) : PinInv t := by
  cases e with
  | log e =>
    simp only [loadStep] at ht
    split at ht
    · obtain ⟨log, -, rfl⟩ := Option.map_eq_some_iff.mp ht
      exact h.logStep log
    · cases ht
  | buf e =>
    simp only [loadStep] at ht
    split at ht
    · next hguard =>
      obtain ⟨k, hk, rfl⟩ := Option.map_eq_some_iff.mp ht
      refine h.bufStep (fun c hc => ?_) hk
      rw [hc] at hguard
      exact hguard
    · cases ht
  | append c => exact h.append ht

end Steps

omit [Fintype C] in
theorem pinInv_init [Fintype C] (data : Fin n → D) (disk : Nat → Nat → D) :
    PinInv (loadInit data disk : Load n C P D) where
  cache := ⟨_, cacheInit_inv data disk⟩
  dirty := fun x hx => by simp [loadInit] at hx
  pinned := fun b hb => by simp [loadInit, cacheInit] at hb

/-! ## Runs -/

/-- `bget`, when it is called, finds a buffer. -/
def FindsBuffer (s : Load n C P D) : LoadEvent C P D → Prop
  | .buf (.bget c dev blockno) =>
    s.cache.client c = none → (bget dev blockno s.cache).isSome = true
  | _ => True

/-- When a block that is not cached is read, the blocks that are pinned by the log and those
whose buffers are held are fewer than the buffers. -/
def HasRoom (s : Load n C P D) : LoadEvent C P D → Prop
  | .buf (.bget c dev blockno) =>
    s.cache.client c = none → (∃ b, (s.cache.buf b).Caches dev blockno) ∨
      (s.pinned ∪ s.cache.held).card < n
  | _ => True

theorem PinInv.findsBuffer_iff {s : Load n C P D} (h : PinInv s) (e : LoadEvent C P D) :
    FindsBuffer s e ↔ HasRoom s e := by
  obtain ⟨l, hl⟩ := h.cache
  cases e with
  | log e => exact Iff.rfl
  | append c => exact Iff.rfl
  | buf e =>
    cases e with
    | bget c dev blockno =>
      simp only [FindsBuffer, HasRoom]
      rw [bget_isSome_iff hl, h.card_busy]
    | _ => exact Iff.rfl

/-- In every run of operations, commits and readers: `bget` finds a buffer at every call
exactly when at every call for a block that is not cached the pinned and the held blocks are
fewer than the buffers. -/
theorem bget_finds_iff {n : Nat} {C P D : Type} [DecidableEq C] [DecidableEq P] [Fintype C]
    (owner : C → P) (size : Nat) (data : Fin n → D) (disk : Nat → Nat → D)
    (es : List (LoadEvent C P D)) :
    Always (loadStep owner size) FindsBuffer (loadInit data disk) es ↔
      Always (loadStep owner size) HasRoom (loadInit data disk) es :=
  always_congr (I := PinInv) (fun _ _ _ h ht => h.step ht) (fun _ e h => h.findsBuffer_iff e)
    (pinInv_init data disk)

/-- Every operation keeps within the blocks that `begin_op` reserves for it. -/
def Reserved (s : Load n C P D) : LoadEvent C P D → Prop
  | .log e => Group.WithinReservation maxOpBlocks s.log e
  | _ => True

instance (s : Load n C P D) (e : LoadEvent C P D) : Decidable (Reserved s e) :=
  match e with
  | .log e => inferInstanceAs (Decidable (Group.WithinReservation maxOpBlocks s.log e))
  | .buf _ | .append _ => isTrue trivial

/-- Five processes with one buffer pointer each. -/
def emptyLoad : Load nbuf (Fin 5) (Fin 5) Unit := loadInit (fun _ => ()) fun _ _ => ()

/-- Process `p` reads, changes, logs and releases a block. -/
def logBlock (p : Fin 5) (blockno : Nat) : List (LoadEvent (Fin 5) (Fin 5) Unit) :=
  [.buf (.bget p 1 blockno), .buf (.acquiresleep p), .buf (.bread p), .buf (.modify p ()),
    .log (.logWrite p blockno), .append p, .buf (.releasesleep p), .buf (.brelse p)]

/-- Three operations log 29 blocks, at most ten each, and a reader waits for its block. -/
def threeOperations : List (LoadEvent (Fin 5) (Fin 5) Unit) :=
  [.log (.beginOp 0), .log (.beginOp 1), .log (.beginOp 2)] ++
    (List.range 29).flatMap (fun k => logBlock (Fin.ofNat 5 (k / 10)) (100 + k)) ++
    [.buf (.bget 3 1 50)]

/-- With `NBUF` buffers and the log that `mkfs` makes, three admitted operations and a reader
leave no buffer for a second reader. -/
theorem buffers_run_out :
    Always (loadStep id logSize) Reserved emptyLoad threeOperations ∧
      ∃ s, run (loadStep id logSize) emptyLoad threeOperations = some s ∧
        s.log.fault = none ∧ ¬ FindsBuffer s (.buf (.bget 4 1 51)) := by
  constructor
  · decide +kernel
  · obtain ⟨s, hs, hfacts⟩ := Option.map_eq_some_iff.mp (by decide +kernel :
      (run (loadStep id logSize) emptyLoad threeOperations).map (fun s =>
          (s.log.fault, (s.cache.client 4).isSome, (bget 1 51 s.cache).isSome)) =
        some (none, false, false))
    simp only [Prod.mk.injEq] at hfacts
    refine ⟨s, hs, hfacts.1, fun hfinds => ?_⟩
    have hfound := hfinds (by simpa using hfacts.2.1)
    rw [hfacts.2.2] at hfound
    cases hfound

end Xv6Containers.Block
