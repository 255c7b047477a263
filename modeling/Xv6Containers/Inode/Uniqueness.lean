import Xv6Containers.Inode.Droppers
import Xv6Containers.Lib.Counting

/-!
# Uniqueness in the inode cache

In every interleaving an inode has at most one entry in use, an entry in use
keeps its identity, its valid copy is the one on disk, and no inode is freed
twice.
-/

namespace Xv6Containers

open Lib.Runs Lib.Counting Function

namespace Droppers

variable {P : Type}

/-- One for an `iput` of entry `i` in progress. -/
def drops (i : Slot) (x : Pc) : Int := if x.target = some i then 1 else 0

/-- A reference is owned or on its way through an `iput`. -/
def RefInv [Fintype P] (s : State P) : Prop :=
  ∀ i, (s.cache i).ref = s.owned i + ∑ p, drops i (s.pc p)

/-- The sleep locks: held by one process, which has a reference to the entry. -/
structure LockInv (s : State P) : Prop where
  holder : ∀ i p, s.holder i = some p →
    (s.cache i).locked = true ∧ 0 < s.owned i ∧ (s.cache i).valid = true
  iput : ∀ p i, (s.pc p).lock = some i → (s.cache i).locked = true
  apart : ∀ i p q, s.holder i = some p → (s.pc q).lock ≠ some i
  single : ∀ p q i, (s.pc p).lock = some i → (s.pc q).lock = some i → p = q
  freeing : ∀ p i, s.pc p = .freeing i →
    (s.cache i).valid = true ∧ (s.cache i).d.nlink = 0

/-- At most one entry in use for an inode. -/
def Unique (s : State P) : Prop :=
  ∀ i j dev inum, s.cache.Caches i dev inum → s.cache.Caches j dev inum → i = j

/-- The valid copies are those on disk, and `freed` lists the inodes freed since `disk₀`. -/
structure DiskInv (disk₀ : Nat → Nat → Dinode) (s : State P) : Prop where
  coherent : ∀ i, 0 < (s.cache i).ref → (s.cache i).valid = true →
    s.disk (s.cache i).dev (s.cache i).inum = (s.cache i).d ∧ (s.cache i).d.type ≠ .free
  allocated : ∀ dev inum, (s.disk dev inum).type ≠ .free → (disk₀ dev inum).type ≠ .free
  once : ∀ dev inum, s.freed.count (dev, inum) =
    if (disk₀ dev inum).type ≠ .free ∧ (s.disk dev inum).type = .free then 1 else 0
  truncated : ∀ dev inum, (disk₀ dev inum).type ≠ .free → (s.disk dev inum).type = .free →
    (s.disk dev inum).size = 0 ∧ (s.disk dev inum).addrs = fun _ => 0

theorem drops_nonneg (i : Slot) (x : Pc) : 0 ≤ drops i x := by
  unfold drops
  split <;> omega

section Refs

variable [Fintype P]

variable {s : State P}

theorem RefInv.owned_le (h : RefInv s) (i : Slot) : s.owned i ≤ (s.cache i).ref := by
  have hsum : 0 ≤ ∑ p, drops i (s.pc p) := Finset.sum_nonneg fun p _ => drops_nonneg i (s.pc p)
  have hi := h i
  omega

theorem RefInv.pos_of_owned (h : RefInv s) {i : Slot} (hown : 0 < s.owned i) :
    0 < (s.cache i).ref := by
  have hle := h.owned_le i
  omega

theorem RefInv.pos_of_target (h : RefInv s) {p : P} {i : Slot} (hp : (s.pc p).target = some i) :
    s.owned i < (s.cache i).ref := by
  have hle := le_sum_of_nonneg (fun q => drops_nonneg i (s.pc q)) p
  have hone : drops i (s.pc p) = 1 := by simp [drops, hp]
  have hi := h i
  omega

variable [DecidableEq P]

theorem RefInv.moveTo {t : State P} (h : RefInv s) {p : P} {x : Pc} (hpc : t.pc = update s.pc p x)
    (href : ∀ j, (t.cache j).ref - t.owned j =
      (s.cache j).ref - s.owned j - drops j (s.pc p) + drops j x) : RefInv t := by
  intro j
  have hj := h j
  have hsum := sum_update (drops j) s.pc p x
  have hstep := href j
  rw [hpc]
  omega

/-- Every step moves the count of an entry together with its references. -/
theorem step_refs {t : State P} {e : Event P} (h : RefInv s) (hs : Step s e t) : RefInv t := by
  cases hs with
  | iget p dev inum i c hget =>
    intro j
    have hj := h j
    by_cases hji : j = i
    · subst hji
      have hself := (Icache.iget_self hget).1
      simp only [update_self]
      push_cast
      omega
    · simp only [Icache.iget_frame hget hji, update_of_ne hji]
      exact hj
  | panic e f => exact h
  | idup p i hown =>
    intro j
    have hj := h j
    by_cases hji : j = i
    · subst hji
      simp only [idup, Icache.idup, Icache.addRef, update_self]
      push_cast
      omega
    · simpa only [idup, Icache.idup, Icache.addRef, update_of_ne hji] using hj
  | ilockValid p i hown hfree hvalid =>
    intro j
    have hj := h j
    by_cases hji : j = i
    · subst hji
      simpa [State.setInode] using hj
    · simpa [State.setInode, update_of_ne hji] using hj
  | ilockLoad p i hown hfree hvalid htype =>
    intro j
    have hj := h j
    by_cases hji : j = i
    · subst hji
      simpa [State.setInode] using hj
    · simpa [State.setInode, update_of_ne hji] using hj
  | iunlock p i hhold =>
    intro j
    have hj := h j
    by_cases hji : j = i
    · subst hji
      simpa [iunlock, State.setInode] using hj
    · simpa [iunlock, State.setInode, update_of_ne hji] using hj
  | unlink p i hhold hlink =>
    intro j
    have hj := h j
    by_cases hji : j = i
    · subst hji
      simpa [State.iupdate, State.setDisk, State.setInode] using hj
    · simpa [State.iupdate, State.setDisk, State.setInode, update_of_ne hji] using hj
  | iputLock p i hp hown hfree =>
    refine h.moveTo (x := .testing i) rfl fun j => ?_
    by_cases hji : j = i
    · subst hji
      simp [iputLock, State.setInode, State.own, State.moveTo, drops, hp, Pc.target]
      omega
    · simp [iputLock, State.setInode, State.own, State.moveTo, drops, hp, Pc.target,
        update_of_ne hji, Ne.symm hji]
  | iputLast p i hp =>
    exact h.moveTo (x := .freeing i) rfl fun j => by simp [State.moveTo, drops, hp, Pc.target]
  | iputKeep p i hp =>
    exact h.moveTo (x := .releasing i) rfl fun j => by simp [State.moveTo, drops, hp, Pc.target]
  | iputFree p i hp =>
    refine h.moveTo (x := .releasing i) rfl fun j => ?_
    by_cases hji : j = i
    · subst hji
      simp [iputFree, State.iupdate, State.setDisk, State.setInode, State.moveTo, drops, hp,
        Pc.target]
    · simp [iputFree, State.iupdate, State.setDisk, State.setInode, State.moveTo, drops, hp,
        Pc.target, update_of_ne hji]
  | iputRelease p i hp =>
    refine h.moveTo (x := .dropping i) rfl fun j => ?_
    by_cases hji : j = i
    · subst hji
      simp [iputRelease, State.setInode, State.moveTo, drops, hp, Pc.target]
    · simp [iputRelease, State.setInode, State.moveTo, drops, hp, Pc.target,
        update_of_ne hji]
  | iputDrop p i hp =>
    refine h.moveTo (x := .idle) rfl fun j => ?_
    by_cases hji : j = i
    · subst hji
      simp [iputDrop, Icache.dropRef, State.moveTo, drops, hp, Pc.target]
      omega
    · simp [iputDrop, Icache.dropRef, State.moveTo, drops, hp, Pc.target,
        update_of_ne hji, Ne.symm hji]

end Refs

/-- The entry keeps its inode, and comes into use by no other step than `iget`. -/
def SameInode (x y : Inode Dinode) : Prop :=
  y.dev = x.dev ∧ y.inum = x.inum ∧ (0 < y.ref → 0 < x.ref)

theorem sameInode_update {c : Icache Dinode} {i : Slot} {x : Inode Dinode}
    (hx : SameInode (c i) x) (j : Slot) : SameInode (c j) (update c i x j) := by
  by_cases hji : j = i
  · subst hji
    simpa using hx
  · simp [update_of_ne hji, SameInode]

section Identity

variable [Fintype P] [DecidableEq P]

variable {s t : State P} {e : Event P} {i : Slot} {disk₀ : Nat → Nat → Dinode}

/-- Only `iget` gives an entry to another inode, and then the entry has no references. -/
theorem step_sameInode (h : RefInv s) (hs : Step s e t) :
    (∀ j, SameInode (s.cache j) (t.cache j)) ∨
    ∃ i dev inum, (s.cache i).ref = 0 ∧ (∀ j, ¬ s.cache.Caches j dev inum) ∧
      t.cache = update s.cache i (Icache.recycled (s.cache i) dev inum) := by
  have hself (j : Slot) : SameInode (s.cache j) (s.cache j) := ⟨rfl, rfl, id⟩
  cases hs with
  | iget p dev inum i c hget =>
    rcases Icache.iget_cases hget with ⟨hc, rfl⟩ | ⟨hnone, hzero, rfl⟩
    · exact Or.inl (sameInode_update ⟨rfl, rfl, fun _ => hc.1⟩)
    · exact Or.inr ⟨i, dev, inum, hzero, hnone, rfl⟩
  | panic e f => exact Or.inl hself
  | idup p i hown =>
    exact Or.inl (sameInode_update ⟨rfl, rfl, fun _ => h.pos_of_owned hown⟩)
  | ilockValid p i => exact Or.inl (sameInode_update ⟨rfl, rfl, id⟩)
  | ilockLoad p i => exact Or.inl (sameInode_update ⟨rfl, rfl, id⟩)
  | iunlock p i => exact Or.inl (sameInode_update ⟨rfl, rfl, id⟩)
  | unlink p i => exact Or.inl (sameInode_update ⟨rfl, rfl, id⟩)
  | iputLock p i => exact Or.inl (sameInode_update ⟨rfl, rfl, id⟩)
  | iputLast p i => exact Or.inl hself
  | iputKeep p i => exact Or.inl hself
  | iputFree p i hp =>
    left
    intro j
    simp only [iputFree, State.iupdate, State.setDisk, State.setInode, State.moveTo,
      update_idem]
    refine sameInode_update ?_ j
    exact ⟨rfl, rfl, id⟩
  | iputRelease p i => exact Or.inl (sameInode_update ⟨rfl, rfl, id⟩)
  | iputDrop p i =>
    exact Or.inl (sameInode_update ⟨rfl, rfl, fun hpos => by simp only at hpos; omega⟩)

/-- An entry in use is never given to another inode. -/
theorem step_identity (h : RefInv s) (hs : Step s e t) (hpos : 0 < (s.cache i).ref) :
    (t.cache i).dev = (s.cache i).dev ∧ (t.cache i).inum = (s.cache i).inum := by
  rcases step_sameInode h hs with hsame | ⟨j, dev, inum, hzero, _, hcache⟩
  · exact ⟨(hsame i).1, (hsame i).2.1⟩
  · have hij : i ≠ j := by
      rintro rfl
      omega
    rw [hcache, update_of_ne hij]
    exact ⟨rfl, rfl⟩

theorem step_unique (h : RefInv s) (hu : Unique s) (hs : Step s e t) : Unique t := by
  rcases step_sameInode h hs with hsame | ⟨i₀, dev₀, inum₀, hzero, hnone, hcache⟩
  · intro i j dev inum hi hj
    have hback (k : Slot) (hk : t.cache.Caches k dev inum) : s.cache.Caches k dev inum := by
      obtain ⟨hdev, hinum, hpos⟩ := hsame k
      exact ⟨hpos hk.1, hdev ▸ hk.2.1, hinum ▸ hk.2.2⟩
    exact hu i j dev inum (hback i hi) (hback j hj)
  · intro i j dev inum hi hj
    -- the recycled entry is the only one for the new inode
    have hcase (k : Slot) (hk : t.cache.Caches k dev inum) :
        (k = i₀ ∧ dev = dev₀ ∧ inum = inum₀) ∨ (k ≠ i₀ ∧ s.cache.Caches k dev inum) := by
      unfold Icache.Caches at hk
      rw [hcache] at hk
      by_cases hki : k = i₀
      · subst hki
        simp only [update_self, Icache.recycled] at hk
        exact Or.inl ⟨rfl, hk.2.1.symm, hk.2.2.symm⟩
      · rw [update_of_ne hki] at hk
        exact Or.inr ⟨hki, hk⟩
    rcases hcase i hi with ⟨rfl, rfl, rfl⟩ | ⟨_, hci⟩
    · rcases hcase j hj with ⟨rfl, _⟩ | ⟨_, hcj⟩
      · rfl
      · exact absurd hcj (hnone j)
    · rcases hcase j hj with ⟨_, rfl, rfl⟩ | ⟨_, hcj⟩
      · exact absurd hci (hnone i)
      · exact hu i j dev inum hci hcj

omit [DecidableEq P] in
/-- A recycled entry has no lock holder, and no `iput` works on it. -/
theorem RefInv.unused (h : RefInv s) (hzero : (s.cache i).ref = 0) :
    s.owned i = 0 ∧ ∀ p, (s.pc p).target ≠ some i := by
  constructor
  · have hle := h.owned_le i
    omega
  · intro p hp
    have hlt := h.pos_of_target hp
    omega

omit [DecidableEq P] [Fintype P] in
theorem target_of_lock {x : Pc} (h : x.lock = some i) : x.target = some i := by
  cases x <;> simp_all [Pc.lock, Pc.target]

/-- Every step keeps the sleep locks exclusive. -/
theorem step_locks (hr : RefInv s) (h : LockInv s) (hs : Step s e t) : LockInv t := by
  obtain ⟨hholder, hiput, hapart, hsingle, hfreeing⟩ := h
  cases hs with
  | iget p dev inum i c hget =>
    rcases Icache.iget_cases hget with ⟨hc, rfl⟩ | ⟨hnone, hzero, rfl⟩
    · constructor <;> simp only [Icache.addRef, update_apply] <;> grind
    · obtain ⟨howned, htarget⟩ := hr.unused hzero
      have hlock (p : P) : (s.pc p).lock ≠ some i := fun hp => htarget p (target_of_lock hp)
      have hpc (p : P) : s.pc p ≠ .freeing i := fun hp => htarget p (by simp [hp, Pc.target])
      constructor <;> simp only [Icache.recycled, update_apply] <;> grind
  | panic e f => exact ⟨hholder, hiput, hapart, hsingle, hfreeing⟩
  | idup p i hown =>
    constructor <;> simp only [idup, Icache.idup, Icache.addRef, update_apply] <;> grind
  | ilockValid p i => constructor <;> simp only [State.setInode, update_apply] <;> grind
  | ilockLoad p i => constructor <;> simp only [State.setInode, update_apply] <;> grind
  | iunlock p i =>
    constructor <;> simp only [iunlock, State.setInode, update_apply] <;> grind
  | unlink p i hhold hlink =>
    -- the holder excludes a process that is about to free the inode
    have hpc (q : P) : s.pc q ≠ .freeing i :=
      fun hq => hapart i p q hhold (by simp [hq, Pc.lock])
    constructor <;>
      simp only [State.iupdate, State.setDisk, State.setInode, update_apply] <;> grind
  | iputLock p i =>
    constructor <;>
      simp only [iputLock, State.own, State.moveTo, State.setInode, update_apply] <;>
      grind [Pc.lock]
  | iputLast p i => constructor <;> simp only [State.moveTo, update_apply] <;> grind [Pc.lock]
  | iputKeep p i => constructor <;> simp only [State.moveTo, update_apply] <;> grind [Pc.lock]
  | iputFree p i hp =>
    constructor <;>
      simp only [iputFree, State.iupdate, State.setDisk, State.moveTo, State.setInode,
        update_apply] <;>
      grind [Pc.lock]
  | iputRelease p i =>
    constructor <;>
      simp only [iputRelease, State.moveTo, State.setInode, update_apply] <;>
      grind [Pc.lock]
  | iputDrop p i =>
    constructor <;>
      simp only [iputDrop, Icache.dropRef, State.moveTo, update_apply] <;>
      grind [Pc.lock]

omit [DecidableEq P] [Fintype P] in
/-- A step that writes neither a disk inode nor a valid copy keeps the disk invariant. -/
theorem DiskInv.of_same (h : DiskInv disk₀ s) (hdisk : t.disk = s.disk)
    (hfreed : t.freed = s.freed) (hcache : ∀ i, 0 < (t.cache i).ref → (t.cache i).valid = true →
      0 < (s.cache i).ref ∧ (s.cache i).valid = true ∧ (t.cache i).d = (s.cache i).d ∧
        (t.cache i).dev = (s.cache i).dev ∧ (t.cache i).inum = (s.cache i).inum) :
    DiskInv disk₀ t where
  coherent := by
    intro i hpos hvalid
    obtain ⟨hpos, hvalid, hd, hdev, hinum⟩ := hcache i hpos hvalid
    rw [hdisk, hd, hdev, hinum]
    exact h.coherent i hpos hvalid
  allocated := by
    rw [hdisk]
    exact h.allocated
  once := by
    rw [hdisk, hfreed]
    exact h.once
  truncated := by
    rw [hdisk]
    exact h.truncated

omit [DecidableEq P] [Fintype P] in
/-- The write-through of a changed copy, which may free the inode. -/
theorem DiskInv.write (h : DiskInv disk₀ s) (hu : Unique s) (hpos : 0 < (s.cache i).ref)
    (hvalid : (s.cache i).valid = true) {d : Dinode} {v : Bool}
    (hcache : t.cache = update s.cache i { s.cache i with d := d, valid := v })
    (hdisk : ∀ dev inum, t.disk dev inum =
      if dev = (s.cache i).dev ∧ inum = (s.cache i).inum then d else s.disk dev inum)
    (hfreed : t.freed =
      if d.type = .free then s.freed ++ [((s.cache i).dev, (s.cache i).inum)] else s.freed)
    (hv : v = true → d.type ≠ .free) (htrunc : d.type = .free → d.size = 0 ∧ d.addrs = fun _ => 0) :
    DiskInv disk₀ t := by
  obtain ⟨hsame, htype⟩ := h.coherent i hpos hvalid
  constructor
  · intro j hposj hvalidj
    rw [hdisk]
    by_cases hji : j = i
    · subst hji
      rw [hcache, update_self] at hvalidj ⊢
      exact ⟨if_pos ⟨rfl, rfl⟩, hv hvalidj⟩
    · rw [hcache, update_of_ne hji] at hposj hvalidj ⊢
      have hne : ¬ ((s.cache j).dev = (s.cache i).dev ∧ (s.cache j).inum = (s.cache i).inum) :=
        fun heq => hji (hu j i _ _ ⟨hposj, heq⟩ ⟨hpos, rfl, rfl⟩)
      rw [if_neg hne]
      exact h.coherent j hposj hvalidj
  · intro dev inum hfree
    rw [hdisk] at hfree
    split at hfree
    · next heq =>
      obtain ⟨rfl, rfl⟩ := heq
      exact h.allocated _ _ (hsame ▸ htype)
    · exact h.allocated dev inum hfree
  · intro dev inum
    have hold := h.once dev inum
    rw [hdisk, hfreed]
    by_cases heq : dev = (s.cache i).dev ∧ inum = (s.cache i).inum
    · obtain ⟨rfl, rfl⟩ := heq
      have hstart := h.allocated _ _ (hsame ▸ htype)
      rw [hsame, if_neg fun hboth => htype hboth.2] at hold
      by_cases hd : d.type = .free
      · simp [hd, hold, hstart]
      · simp [hd, hold]
    · have hne : ((s.cache i).dev, (s.cache i).inum) ≠ (dev, inum) :=
        fun hpair => heq ⟨(Prod.ext_iff.mp hpair).1.symm, (Prod.ext_iff.mp hpair).2.symm⟩
      rw [if_neg heq]
      split
      · rw [List.count_append, hold, List.count_singleton]
        simp [hne]
      · exact hold
  · intro dev inum hfree hgone
    rw [hdisk] at hgone ⊢
    split at hgone
    · next heq =>
      rw [if_pos heq]
      exact htrunc hgone
    · next hne =>
      rw [if_neg hne]
      exact h.truncated dev inum hfree hgone

theorem step_disk (hr : RefInv s) (hl : LockInv s) (hu : Unique s) (h : DiskInv disk₀ s)
    (hs : Step s e t) : DiskInv disk₀ t := by
  cases hs with
  | iget p dev inum i c hget =>
    refine h.of_same rfl rfl fun j hpos hvalid => ?_
    rcases Icache.iget_cases hget with ⟨hc, rfl⟩ | ⟨hnone, hzero, rfl⟩
    · have hc := hc.1
      simp only [Icache.addRef, update_apply] at hpos hvalid ⊢
      grind
    · simp only [Icache.recycled, update_apply] at hpos hvalid ⊢
      grind
  | panic e f => exact { h with }
  | idup p i hown =>
    have hpos := hr.pos_of_owned hown
    refine h.of_same rfl rfl fun j hposj hvalid => ?_
    simp only [idup, Icache.idup, Icache.addRef, update_apply] at hposj hvalid ⊢
    grind
  | ilockValid p i =>
    refine h.of_same rfl rfl fun j hpos hvalid => ?_
    simp only [State.setInode, update_apply] at hpos hvalid ⊢
    grind
  | ilockLoad p i hown hfree hvalid htype =>
    constructor
    · intro j hposj hvalidj
      by_cases hji : j = i
      · subst hji
        simp only [State.setInode, update_self]
        exact ⟨trivial, htype⟩
      · simp only [State.setInode, update_of_ne hji] at hposj hvalidj ⊢
        exact h.coherent j hposj hvalidj
    · exact h.allocated
    · exact h.once
    · exact h.truncated
  | iunlock p i hhold =>
    refine h.of_same rfl rfl fun j hpos hvalid => ?_
    simp only [iunlock, State.setInode, update_apply] at hpos hvalid ⊢
    grind
  | unlink p i hhold hlink =>
    obtain ⟨_, hown, hvalid⟩ := hl.holder i p hhold
    have hpos := hr.pos_of_owned hown
    have htype := (h.coherent i hpos hvalid).2
    refine h.write hu hpos hvalid (v := (s.cache i).valid) rfl ?_ ?_ (fun _ => htype)
      (fun hfree => absurd hfree htype)
    · intro dev inum
      simp [State.iupdate, State.setDisk_disk, State.setInode]
    · exact (if_neg htype).symm
  | iputLock p i hp hown hfree =>
    refine h.of_same rfl rfl fun j hpos hvalid => ?_
    simp only [iputLock, State.own, State.moveTo, State.setInode, update_apply]
      at hpos hvalid ⊢
    grind
  | iputLast p i => exact { h with }
  | iputKeep p i => exact { h with }
  | iputFree p i hp =>
    have hvalid := (hl.freeing p i hp).1
    have hpos : 0 < (s.cache i).ref := by
      have hlt := hr.pos_of_target (p := p) (i := i) (by simp [hp, Pc.target])
      omega
    refine h.write hu hpos hvalid (d := { itrunc (s.cache i).d with type := .free }) (v := false)
      ?_ ?_ rfl (by simp) (fun _ => ⟨rfl, rfl⟩)
    · simp [iputFree, State.iupdate, State.setDisk, State.setInode, State.moveTo]
    · intro dev inum
      simp [iputFree, State.iupdate, State.setDisk_disk, State.setInode, State.moveTo]
  | iputRelease p i hp =>
    refine h.of_same rfl rfl fun j hpos hvalid => ?_
    simp only [iputRelease, State.moveTo, State.setInode, update_apply]
      at hpos hvalid ⊢
    grind
  | iputDrop p i hp =>
    refine h.of_same rfl rfl fun j hpos hvalid => ?_
    simp only [iputDrop, Icache.dropRef, State.moveTo, update_apply] at hpos hvalid ⊢
    grind

end Identity

/-- Everything that holds of every interleaving. -/
structure Inv [Fintype P] (disk₀ : Nat → Nat → Dinode) (s : State P) : Prop where
  refs : RefInv s
  locks : LockInv s
  unique : Unique s
  disk : DiskInv disk₀ s

section Runs

variable [Fintype P] [DecidableEq P] {disk₀ : Nat → Nat → Dinode}

omit [DecidableEq P] in
theorem Inv.boot (stale : Dinode) : Inv disk₀ (boot disk₀ stale : State P) where
  refs := by
    intro i
    simp [Droppers.boot, drops, Pc.target]
  locks := by constructor <;> simp [Droppers.boot, Pc.lock]
  unique := by
    intro i j dev inum hi
    exact absurd hi.1 (by simp [Droppers.boot])
  disk := by
    constructor
    · intro i hpos
      simp [Droppers.boot] at hpos
    · exact fun _ _ h => h
    · intro dev inum
      simp [Droppers.boot]
    · exact fun _ _ h h' => absurd h' h

theorem step_inv (s : State P) (e : Event P) (t : State P) (h : Inv disk₀ s)
    (hstep : step s e = some t) : Inv disk₀ t := by
  obtain ⟨_, hs⟩ := step_cases hstep
  exact
    { refs := step_refs h.refs hs
      locks := step_locks h.refs h.locks hs
      unique := step_unique h.refs h.unique hs
      disk := step_disk h.refs h.locks h.unique h.disk hs }

end Runs

end Droppers

end Xv6Containers
