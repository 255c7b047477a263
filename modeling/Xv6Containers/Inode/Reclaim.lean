import Xv6Containers.Inode.Uniqueness

/-!
# Reclamation of unlinked inodes

An unlinked inode is freed when its last reference goes, unless two `iput`s pass
each other between test and decrement: then each counts the reference that the
other is about to drop, and the inode stays allocated for good.
-/

namespace Xv6Containers

open Lib.Runs Lib.Counting Function

namespace Droppers

variable {P : Type}

/-- An unlinked inode in use keeps an owned reference or an `iput` that has yet to decide;
an unlinked allocated inode is in use. -/
structure Reclaimed (s : State P) : Prop where
  kept : ∀ i, 0 < (s.cache i).ref → (s.cache i).valid = true → (s.cache i).d.nlink = 0 →
    0 < s.owned i ∨ ∃ p, s.pc p = .testing i ∨ s.pc p = .freeing i
  used : ∀ dev inum, (s.disk dev inum).type ≠ .free → (s.disk dev inum).nlink = 0 →
    ∃ i, s.cache.Caches i dev inum ∧ (s.cache i).valid = true

/-- An `iput` that tests an unlinked inode and counts other references finds one of them
outside every `iput`. -/
def NotPassed (s : State P) : Event P → Prop
  | .proceed p =>
    match s.pc p with
    | .testing i =>
      (s.cache i).valid = true → (s.cache i).d.nlink = 0 → (s.cache i).ref ≠ 1 → 0 < s.owned i
    | _ => True
  | _ => True

instance (s : State P) (e : Event P) : Decidable (NotPassed s e) := by
  unfold NotPassed
  split
  · split <;> infer_instance
  · infer_instance

section Runs

variable [Fintype P] [DecidableEq P] {disk₀ : Nat → Nat → Dinode}

omit [Fintype P] [DecidableEq P] in
theorem Reclaimed.boot (stale : Dinode)
    (hlinked : ∀ dev inum, (disk₀ dev inum).type ≠ .free → (disk₀ dev inum).nlink ≠ 0) :
    Reclaimed (boot disk₀ stale : State P) where
  kept := by
    intro i hpos
    simp [Droppers.boot] at hpos
  used := fun dev inum htype hlink => absurd hlink (hlinked dev inum htype)

omit [Fintype P] [DecidableEq P] in
/-- A step that writes no disk inode and takes no reference away without a new decider. -/
theorem Reclaimed.of_same {s t : State P} (hk : Reclaimed s) (hdisk : t.disk = s.disk)
    (hused : ∀ j, 0 < (s.cache j).ref → (s.cache j).valid = true →
      0 < (t.cache j).ref ∧ (t.cache j).valid = true ∧ (t.cache j).dev = (s.cache j).dev ∧
        (t.cache j).inum = (s.cache j).inum)
    (hback : ∀ j, 0 < (t.cache j).ref → (t.cache j).valid = true → (t.cache j).d.nlink = 0 →
      0 < t.owned j ∨ (∃ p, t.pc p = .testing j ∨ t.pc p = .freeing j) ∨
        (0 < (s.cache j).ref ∧ (s.cache j).valid = true ∧ (s.cache j).d.nlink = 0 ∧
          s.owned j = t.owned j ∧
          ∀ q, s.pc q = .testing j ∨ s.pc q = .freeing j → t.pc q = s.pc q)) :
    Reclaimed t where
  kept := by
    intro j hpos hvalid hlink
    rcases hback j hpos hvalid hlink with hown | hpc | ⟨hpos', hvalid', hlink', howned, hsame⟩
    · exact Or.inl hown
    · exact Or.inr hpc
    · rcases hk.kept j hpos' hvalid' hlink' with hown | ⟨q, hq⟩
      · exact Or.inl (howned ▸ hown)
      · exact Or.inr ⟨q, by rwa [hsame q hq]⟩
  used := by
    intro dev inum htype hlink
    rw [hdisk] at htype hlink
    obtain ⟨j, ⟨hpos, hdev, hinum⟩, hvalid⟩ := hk.used dev inum htype hlink
    obtain ⟨hpos', hvalid', hdev', hinum'⟩ := hused j hpos hvalid
    exact ⟨j, ⟨hpos', hdev'.trans hdev, hinum'.trans hinum⟩, hvalid'⟩

/-- What the last decrement leaves: a reference that is owned, or that another `iput` has yet
to drop, is still counted. -/
theorem Reclaimed.drop {s : State P} (h : Inv disk₀ s) (hk : Reclaimed s) {p : P} {i : Slot}
    (hp : s.pc p = .dropping i) : Reclaimed (iputDrop s p i) := by
  have hrefs : RefInv (iputDrop s p i) := step_refs h.refs (Step.iputDrop p i hp)
  have hpc (q : P) (j : Slot) (hq : s.pc q = .testing j ∨ s.pc q = .freeing j) :
      (iputDrop s p i).pc q = s.pc q := by
    have hqp : q ≠ p := by
      rintro rfl
      rcases hq with hq | hq <;> rw [hp] at hq <;> cases hq
    simp [iputDrop, State.moveTo, update_of_ne hqp]
  have hentry (j : Slot) : (iputDrop s p i).cache j =
      { s.cache j with ref := if j = i then (s.cache j).ref - 1 else (s.cache j).ref } := by
    by_cases hji : j = i
    · subst hji
      simp [iputDrop, Icache.dropRef]
    · simp [iputDrop, Icache.dropRef, hji]
  constructor
  · intro j hpos hvalid hlink
    rw [hentry] at hpos hvalid hlink
    have hold : 0 < (s.cache j).ref := by
      simp only at hpos
      split at hpos <;> omega
    rcases hk.kept j hold hvalid hlink with hown | ⟨q, hq⟩
    · exact Or.inl hown
    · exact Or.inr ⟨q, by rwa [hpc q j hq]⟩
  · intro dev inum htype hlink
    obtain ⟨j, hc, hvalid⟩ := hk.used dev inum htype hlink
    obtain ⟨hpos, hdev, hinum⟩ := hc
    have hnlink : (s.cache j).d.nlink = 0 := by
      rw [← (h.disk.coherent j hpos hvalid).1, hdev, hinum]
      exact hlink
    have hstill : 0 < ((iputDrop s p i).cache j).ref := by
      rcases hk.kept j hpos hvalid hnlink with hown | ⟨q, hq⟩
      · exact hrefs.pos_of_owned hown
      · have htarget : ((iputDrop s p i).pc q).target = some j := by
          rw [hpc q j hq]
          rcases hq with hq | hq <;> simp [hq, Pc.target]
        have hlt := hrefs.pos_of_target htarget
        omega
    refine ⟨j, ⟨hstill, ?_, ?_⟩, ?_⟩
    · rw [hentry]
      exact hdev
    · rw [hentry]
      exact hinum
    · rw [hentry]
      exact hvalid

omit [Fintype P] in
/-- The freed inode is no longer allocated; the others keep their entry. -/
theorem Reclaimed.free {s : State P} (hk : Reclaimed s) {p : P} {i : Slot}
    (hp : s.pc p = .freeing i) : Reclaimed (iputFree s p i) := by
  have hentry (j : Slot) (hji : j ≠ i) : (iputFree s p i).cache j = s.cache j := by
    simp [iputFree, State.iupdate, State.setDisk, State.setInode, State.moveTo,
      update_of_ne hji]
  have hself : ((iputFree s p i).cache i).valid = false := by
    simp [iputFree, State.iupdate, State.setDisk, State.setInode, State.moveTo]
  have hdisk (dev inum : Nat) : (iputFree s p i).disk dev inum =
      if dev = (s.cache i).dev ∧ inum = (s.cache i).inum then
        { itrunc (s.cache i).d with type := .free } else s.disk dev inum := by
    simp [iputFree, State.iupdate, State.setDisk_disk, State.setInode, State.moveTo]
  constructor
  · intro j hpos hvalid hlink
    have hji : j ≠ i := by
      rintro rfl
      rw [hself] at hvalid
      cases hvalid
    rw [hentry j hji] at hpos hvalid hlink
    rcases hk.kept j hpos hvalid hlink with hown | ⟨q, hq⟩
    · exact Or.inl hown
    · have hqp : q ≠ p := by
        rintro rfl
        rcases hq with hq | hq <;> rw [hp] at hq <;> cases hq
        exact hji rfl
      refine Or.inr ⟨q, ?_⟩
      simpa [iputFree, State.iupdate, State.setDisk, State.setInode, State.moveTo,
        update_of_ne hqp] using hq
  · intro dev inum htype hlink
    rw [hdisk] at htype hlink
    by_cases heq : dev = (s.cache i).dev ∧ inum = (s.cache i).inum
    · simp [heq] at htype
    · rw [if_neg heq] at htype hlink
      obtain ⟨j, hc, hvalid⟩ := hk.used dev inum htype hlink
      have hji : j ≠ i := by
        rintro rfl
        exact heq ⟨hc.2.1.symm, hc.2.2.symm⟩
      refine ⟨j, ?_, ?_⟩
      · unfold Icache.Caches
        rw [hentry j hji]
        exact hc
      · rw [hentry j hji]
        exact hvalid

omit [DecidableEq P] in
/-- The holder of the lock has a reference to the inode it unlinks. -/
theorem Reclaimed.unlink {s : State P} (h : Inv disk₀ s) (hk : Reclaimed s) {p : P} {i : Slot}
    (hhold : s.holder i = some p) (n : Int) :
    Reclaimed ((s.setInode i { s.cache i with
      d := { (s.cache i).d with nlink := n } }).iupdate i) := by
  obtain ⟨_, hown, hvalid⟩ := h.locks.holder i p hhold
  have hpos := h.refs.pos_of_owned hown
  constructor
  · intro j hposj hvalidj hlinkj
    by_cases hji : j = i
    · subst hji
      exact Or.inl hown
    · simp only [State.iupdate, State.setDisk, State.setInode, update_of_ne hji]
        at hposj hvalidj hlinkj
      exact hk.kept j hposj hvalidj hlinkj
  · intro dev inum htype hlink
    have hcaches (j : Slot) (hc : s.cache.Caches j dev inum) (hv : (s.cache j).valid = true) :
        ((s.setInode i { s.cache i with
          d := { (s.cache i).d with nlink := n } }).iupdate i).cache.Caches j dev inum ∧
        (((s.setInode i { s.cache i with
          d := { (s.cache i).d with nlink := n } }).iupdate i).cache j).valid = true := by
      by_cases hji : j = i
      · subst hji
        simpa [State.iupdate, State.setDisk, State.setInode, Icache.Caches, hv] using hc
      · simpa [State.iupdate, State.setDisk, State.setInode, Icache.Caches,
          update_of_ne hji, hv] using hc
    by_cases heq : dev = (s.cache i).dev ∧ inum = (s.cache i).inum
    · obtain ⟨rfl, rfl⟩ := heq
      exact ⟨i, hcaches i ⟨hpos, rfl, rfl⟩ hvalid⟩
    · simp only [State.iupdate, State.setDisk_disk, State.setInode, update_self,
        if_neg heq] at htype hlink
      obtain ⟨j, hc, hv⟩ := hk.used dev inum htype hlink
      exact ⟨j, hcaches j hc hv⟩

/-- Every step in which no two `iput`s pass each other keeps reclamation. -/
theorem step_reclaimed {s t : State P} {e : Event P} (h : Inv disk₀ s) (hk : Reclaimed s)
    (hc : NotPassed s e) (hs : Step s e t) : Reclaimed t := by
  cases hs with
  | iget p dev inum i c hget =>
    rcases Icache.iget_cases hget with ⟨hin, rfl⟩ | ⟨hnone, hzero, rfl⟩
    · refine hk.of_same rfl ?_ ?_ <;> simp only [Icache.addRef, update_apply] <;> grind
    · refine hk.of_same rfl ?_ ?_ <;> simp only [Icache.recycled, update_apply] <;> grind
  | panic e f => exact { hk with }
  | idup p i hown =>
    refine hk.of_same rfl ?_ ?_ <;>
      simp only [idup, Icache.idup, Icache.addRef, update_apply] <;> grind
  | ilockValid p i =>
    refine hk.of_same rfl ?_ ?_ <;> simp only [State.setInode, update_apply] <;> grind
  | ilockLoad p i =>
    refine hk.of_same rfl ?_ ?_ <;> simp only [State.setInode, update_apply] <;> grind
  | iunlock p i =>
    refine hk.of_same rfl ?_ ?_ <;>
      simp only [iunlock, State.setInode, update_apply] <;> grind
  | unlink p i hhold hlink => exact hk.unlink h hhold _
  | iputLock p i hp hown hfree =>
    refine hk.of_same rfl ?_ ?_ <;>
      simp only [iputLock, State.own, State.moveTo, State.setInode, update_apply] <;>
      grind
  | iputLast p i hp =>
    refine hk.of_same rfl ?_ ?_ <;> simp only [State.moveTo, update_apply] <;> grind
  | iputKeep p i hp hkeep =>
    simp only [NotPassed, hp] at hc
    refine hk.of_same rfl ?_ ?_ <;> simp only [State.moveTo, update_apply] <;> grind
  | iputFree p i hp => exact hk.free hp
  | iputRelease p i hp =>
    refine hk.of_same rfl ?_ ?_ <;>
      simp only [iputRelease, State.moveTo, State.setInode, update_apply] <;> grind
  | iputDrop p i hp => exact hk.drop h hp

/-- Every interleaving that starts with linked inodes only: at most one entry is in use for
an inode; `iget` returns it; an entry in use keeps its inode in the next step; no inode is freed
twice; and if no two `iput`s pass each other, an unlinked inode without references has been
truncated and freed, once. -/
theorem unique_and_reclaimed_when_not_passed (disk₀ : Nat → Nat → Dinode) (stale : Dinode)
    (hlinked : ∀ dev inum, (disk₀ dev inum).type ≠ .free → (disk₀ dev inum).nlink ≠ 0)
    (es : List (Event P)) (s : State P) (hrun : run step (boot disk₀ stale) es = some s) :
    (∀ i j dev inum, s.cache.Caches i dev inum → s.cache.Caches j dev inum → i = j) ∧
    (∀ i dev inum, s.cache.Caches i dev inum →
      s.cache.iget dev inum = some (i, s.cache.addRef i)) ∧
    (∀ e t i, step s e = some t → 0 < (s.cache i).ref →
      (t.cache i).dev = (s.cache i).dev ∧ (t.cache i).inum = (s.cache i).inum) ∧
    (∀ dev inum, s.freed.count (dev, inum) ≤ 1) ∧
    (Always step NotPassed (boot disk₀ stale) es →
      ∀ dev inum, (disk₀ dev inum).type ≠ .free → (s.disk dev inum).nlink = 0 →
        (∀ i, ¬ s.cache.Caches i dev inum) →
        (s.disk dev inum).type = .free ∧ (s.disk dev inum).size = 0 ∧
          (s.disk dev inum).addrs = (fun _ => 0) ∧ s.freed.count (dev, inum) = 1) := by
  have hinv : Inv disk₀ s := run_invariant_of_step step_inv (Inv.boot stale) hrun
  refine ⟨hinv.unique, ?_, ?_, ?_, ?_⟩
  · intro i dev inum hi
    exact Icache.iget_of_caches (fun j hj => hinv.unique j i dev inum hj hi) hi
  · intro e t i hstep hpos
    exact step_identity hinv.refs (step_cases hstep).2 hpos
  · intro dev inum
    rw [hinv.disk.once]
    split <;> omega
  · intro hpassed dev inum hstart hlink hnone
    have hboth : Inv disk₀ s ∧ Reclaimed s :=
      run_invariant (C := NotPassed) (I := fun s => Inv disk₀ s ∧ Reclaimed s)
        (fun u e t hu hc hstep =>
          ⟨step_inv u e t hu.1 hstep, step_reclaimed hu.1 hu.2 hc (step_cases hstep).2⟩)
        ⟨Inv.boot stale, Reclaimed.boot stale hlinked⟩ hpassed hrun
    have htype : (s.disk dev inum).type = .free := by
      by_contra hne
      obtain ⟨i, hi, _⟩ := hboth.2.used dev inum hne hlink
      exact hnone i hi
    obtain ⟨hsize, haddrs⟩ := hinv.disk.truncated dev inum hstart htype
    exact ⟨htype, hsize, haddrs, by rw [hinv.disk.once, if_pos ⟨hstart, htype⟩]⟩

end Runs

/-- A disk with one linked file, inode 2 of device 1. -/
def oneFile (dev inum : Nat) : Dinode :=
  if dev = 1 ∧ inum = 2 then ⟨.file, 0, 0, 1, 0, fun _ => 0⟩ else ⟨.free, 0, 0, 0, 0, fun _ => 0⟩

theorem oneFile_linked (dev inum : Nat) (h : (oneFile dev inum).type ≠ .free) :
    (oneFile dev inum).nlink ≠ 0 := by
  unfold oneFile at h ⊢
  split
  · decide
  · next hne => simp [hne] at h

/-- Two references are taken, the file is unlinked, and the references go one after the
other. -/
def dropInTurn : List (Event (Fin 2)) :=
  [.iget 0 1 2, .idup 1 0, .ilock 0 0, .unlink 0 0, .iunlock 0 0,
    .iput 0 0, .proceed 0, .proceed 0, .proceed 0,
    .iput 1 0, .proceed 1, .proceed 1, .proceed 1, .proceed 1]

theorem reclaimed_in_turn :
    ∃ s, run step (boot oneFile (oneFile 0 0)) dropInTurn = some s ∧
      (s.disk 1 2).type = .free ∧ s.freed.count (1, 2) = 1 := by
  obtain ⟨s, hs⟩ := Option.isSome_iff_exists.mp
    (by decide +kernel : (run step (boot oneFile (oneFile 0 0)) dropInTurn).isSome = true)
  have hall := (unique_and_reclaimed_when_not_passed oneFile (oneFile 0 0) oneFile_linked
    dropInTurn s hs).2.2.2.2 (by decide +kernel) 1 2 (by decide)
  have hlink : (run step (boot oneFile (oneFile 0 0)) dropInTurn).map
      (fun s => ((s.disk 1 2).nlink, decide (∀ i, ¬ s.cache.Caches i 1 2))) =
      some (0, true) := by decide +kernel
  rw [hs, Option.map_some, Option.some.injEq, Prod.mk.injEq, decide_eq_true_iff] at hlink
  have hfreed := hall hlink.1 hlink.2
  exact ⟨s, hs, hfreed.1, hfreed.2.2.2⟩

/-- The same two references, but both `iput`s test before either decrements. -/
def dropTogether : List (Event (Fin 2)) :=
  [.iget 0 1 2, .idup 1 0, .ilock 0 0, .unlink 0 0, .iunlock 0 0,
    .iput 0 0, .proceed 0, .proceed 0, .iput 1 0, .proceed 1, .proceed 1,
    .proceed 0, .proceed 1]

/-- The inode is left allocated without links and without references. -/
theorem leaked_together :
    (∀ dev inum, (oneFile dev inum).type ≠ .free → (oneFile dev inum).nlink ≠ 0) ∧
    (run step (boot oneFile (oneFile 0 0)) dropTogether).map
      (fun s => ((s.disk 1 2).type, (s.disk 1 2).nlink,
        decide (∀ i, ¬ s.cache.Caches i 1 2), s.fault)) =
      some (.file, 0, true, none) :=
  ⟨oneFile_linked, by decide +kernel⟩

end Droppers

end Xv6Containers
