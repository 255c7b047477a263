import Xv6Containers.Fs.Contents
import Xv6Containers.Fs.RefusedWrite

/-!
# Reading back what was written

A call of `writei` on a regular file, within the bounds of a file and of the
quota, stores its bytes where `readi` finds them and leaves the rest of the file
and all other files as they were. `balloc` panics when no block is free, so
`writei` returns only while the disk has room; every call outside the bounds
returns `-1`.
-/

namespace Xv6Containers

open Lib.Memory Lib.Program

namespace Disk

variable {sb : Superblock} {s t : Disk} {d e : Dinode} {b bn : Nat}

/-! ## Free blocks -/

/-- The number of free blocks. -/
def freeBlocks (sb : Superblock) (s : Disk) : Nat :=
  ((Finset.range sb.size).filter fun b => s.used b = false).card

/-- The blocks that a range needs at most: one for each block it touches. -/
def blocksIn (off n : Nat) : Nat := if n = 0 then 0 else (off % bsize + n + bsize - 1) / bsize

/-- The indirect block counts if there is none yet. -/
def indirectNeeded (d : Dinode) : Nat := if d.addrs ndirect = 0 then 1 else 0

theorem freeBlocks_balloc (h : s.balloc sb = .ok (b, t)) : t.freeBlocks sb + 1 = s.freeBlocks sb := by
  obtain ⟨hfree, hlt, hused, -⟩ := balloc_ok h
  have hmem : b ∈ (Finset.range sb.size).filter fun b => s.used b = false :=
    Finset.mem_filter.mpr ⟨Finset.mem_range.mpr hlt, hfree⟩
  have herase : ((Finset.range sb.size).filter fun b => t.used b = false) =
      ((Finset.range sb.size).filter fun b => s.used b = false).erase b := by
    ext c
    simp only [Finset.mem_filter, Finset.mem_erase, Finset.mem_range, hused, Function.update_apply]
    by_cases hc : c = b
    · simp [hc]
    · simp [hc]
  rw [freeBlocks, herase, Finset.card_erase_of_mem hmem, freeBlocks]
  have hpos := Finset.card_pos.mpr ⟨b, hmem⟩
  omega

/-- `balloc` finds a block while one is free. -/
theorem balloc_progress (h : 0 < s.freeBlocks sb) : ∃ b t, s.balloc sb = .ok (b, t) := by
  obtain ⟨b, hb⟩ := Finset.card_pos.mp h
  obtain ⟨hlt, hfree⟩ := Finset.mem_filter.mp hb
  unfold balloc
  cases hfind : (List.range sb.size).find? fun b => s.used b = false with
  | some c => exact ⟨_, _, rfl⟩
  | none =>
    rw [List.find?_eq_none] at hfind
    exact absurd (decide_eq_true hfree) (hfind b (List.mem_range.mpr (Finset.mem_range.mp hlt)))

theorem freeBlocks_setData (b : Nat) (m : Mem) : (s.setData b m).freeBlocks sb = s.freeBlocks sb := rfl

/-- A direct address takes one free block at most. -/
theorem addrSlot_progress (hfree : 0 < s.freeBlocks sb) (k : Nat) : ∃ b t e,
    s.addrSlot sb d k = .ok (b, t, e) ∧ (∀ j, j ≠ k → e.addrs j = d.addrs j) ∧ e.addrs k = b ∧
      (d.addrs k = 0 ∧ t.freeBlocks sb + 1 = s.freeBlocks sb ∧ s.used b = false ∨
        d.addrs k = b ∧ b ≠ 0 ∧ t = s) := by
  unfold addrSlot
  by_cases hzero : d.addrs k = 0
  · rw [if_pos hzero]
    obtain ⟨b, t, halloc⟩ := balloc_progress hfree
    rw [halloc]
    refine ⟨b, t, _, rfl, fun j hj => ?_, ?_, Or.inl ⟨hzero, freeBlocks_balloc halloc,
      (balloc_ok halloc).1⟩⟩
    · exact Function.update_of_ne hj ..
    · exact Function.update_self ..
  · rw [if_neg hzero]
    exact ⟨_, s, d, rfl, fun _ _ => rfl, rfl, Or.inr ⟨rfl, hzero, rfl⟩⟩

/-- `bmap` succeeds while there is a free block for the address and, if it is missing, for the
indirect block. -/
theorem bmap_progress (hs : s.Sound d) (hbn : bn < maxFile)
    (hfree : 1 + indirectNeeded d ≤ s.freeBlocks sb) : ∃ b t e, s.bmap sb d bn = .ok (b, t, e) ∧
      s.freeBlocks sb + indirectNeeded e ≤ t.freeBlocks sb + 1 + indirectNeeded d := by
  have hpos : 0 < s.freeBlocks sb := by omega
  unfold bmap
  by_cases hdir : bn < ndirect
  · rw [if_pos hdir]
    obtain ⟨b, t, e, hslot, hother, -, hcost⟩ := addrSlot_progress (d := d) hpos bn
    have hneed : indirectNeeded e = indirectNeeded d := by
      rw [indirectNeeded, hother ndirect (by omega), indirectNeeded]
    refine ⟨b, t, e, hslot, ?_⟩
    rcases hcost with ⟨-, hcost, -⟩ | ⟨-, -, rfl⟩ <;> omega
  · have hind : bn - ndirect < nindirect := by
      simp only [maxFile] at hbn
      omega
    rw [if_neg hdir, if_pos hind]
    obtain ⟨ind, t, e, hslot, -, haddr, hcost⟩ := addrSlot_progress (d := d) hpos ndirect
    rw [hslot]
    have hne : ind ≠ 0 := by
      rcases hcost with ⟨-, -, hunused⟩ | ⟨-, hne, -⟩
      · exact hs.zero_ne hunused
      · exact hne
    have hneed : indirectNeeded e = 0 := by rw [indirectNeeded, haddr, if_neg hne]
    have hleft : s.freeBlocks sb ≤ t.freeBlocks sb + indirectNeeded d := by
      rcases hcost with ⟨hzero, hcost, -⟩ | ⟨-, -, rfl⟩
      · rw [indirectNeeded, if_pos hzero]
        omega
      · omega
    simp only [bind, Except.bind]
    by_cases hentry : t.entry ind (bn - ndirect) = 0
    · obtain ⟨b, u, halloc⟩ := balloc_progress (s := t) (by omega : 0 < t.freeBlocks sb)
      have hcost' := freeBlocks_balloc halloc
      rw [if_pos hentry, halloc]
      refine ⟨b, _, e, rfl, ?_⟩
      dsimp only
      rw [freeBlocks_setData]
      omega
    · rw [if_neg hentry]
      exact ⟨_, t, e, rfl, by omega⟩

variable {rounds off : Nat} {bs : List Byte}

/-- The loop of `writei` ends while the blocks it may need are free. -/
theorem writeLoop_progress (hsize : sb.size ≤ 2 ^ 32) (hs : s.Sound d)
    (hfit : off + bs.length ≤ maxFileBytes)
    (hfree : blocksIn off bs.length + indirectNeeded d ≤ s.freeBlocks sb) :
    ∃ r, writeLoop sb rounds s d off bs = .ok r := by
  induction rounds generalizing s d off bs with
  | zero => exact ⟨_, rfl⟩
  | succ rounds ih =>
    unfold writeLoop
    by_cases hnil : bs = []
    · rw [if_pos hnil]
      exact ⟨_, rfl⟩
    · rw [if_neg hnil]
      have hpos : 0 < bs.length := List.length_pos_iff.mpr hnil
      have hbn : off / bsize < maxFile := div_lt_maxFile (by omega)
      have hblocks : blocksIn off bs.length = (off % bsize + bs.length + bsize - 1) / bsize :=
        if_neg (by omega)
      have hone : 1 ≤ blocksIn off bs.length := by
        rw [hblocks]
        simp only [bsize]
        omega
      have hroom : 1 + indirectNeeded d ≤ s.freeBlocks sb := by omega
      obtain ⟨b, t, e, hmap, hcost⟩ := bmap_progress hs hbn hroom
      obtain ⟨hext, hb, haddr⟩ := bmap_spec hsize hs hbn hmap
      subst haddr
      rw [hmap]
      simp only [bind, Except.bind]
      generalize hm : min bs.length (bsize - off % bsize) = m
      have hrest : blocksIn (off + m) (bs.drop m).length + 1 ≤ blocksIn off bs.length := by
        rw [List.length_drop, hblocks]
        unfold blocksIn
        simp only [bsize] at *
        split <;> omega
      apply ih (setData_spec hext.sound hbn hb _).1
      · rw [List.length_drop]
        omega
      · rw [freeBlocks_setData]
        omega

/-! ## Blocks that are there already -/

/-- Every block below the size of the file has an address. -/
def Filled (s : Disk) (d : Dinode) : Prop := ∀ k < d.size, s.addrOf d (k / bsize) ≠ 0

/-- `bmap` of a block that is there changes nothing. -/
theorem bmap_present (hbn : bn < maxFile) (h : s.addrOf d bn ≠ 0) :
    s.bmap sb d bn = .ok (s.addrOf d bn, s, d) := by
  unfold bmap
  by_cases hdir : bn < ndirect
  · rw [addrOf_direct _ _ hdir] at h ⊢
    rw [if_pos hdir, addrSlot, if_neg h]
  · have hind : d.addrs ndirect ≠ 0 := by
      intro hzero
      rw [addrOf, if_neg hdir, if_pos hzero] at h
      exact h rfl
    rw [addrOf_indirect _ hdir hind] at h ⊢
    simp only [maxFile] at hbn
    rw [if_neg hdir, if_pos (by omega), addrSlot, if_neg hind]
    exact if_neg h

theorem readLoop_present {n : Nat} (hfit : off + n ≤ maxFileBytes)
    (h : ∀ k, off ≤ k → k < off + n → s.addrOf d (k / bsize) ≠ 0) :
    ∃ bs, readLoop sb rounds s d off n = .ok (bs, s, d) := by
  induction rounds generalizing off n with
  | zero => exact ⟨_, rfl⟩
  | succ rounds ih =>
    unfold readLoop
    by_cases hzero : n = 0
    · rw [if_pos hzero]
      exact ⟨_, rfl⟩
    · rw [if_neg hzero,
        bmap_present (div_lt_maxFile (by omega)) (h off (Nat.le_refl _) (by omega))]
      simp only [bind, Except.bind]
      generalize hm : min n (bsize - off % bsize) = m
      have hfit' : off + m + (n - m) ≤ maxFileBytes := by omega
      obtain ⟨rest, hrest⟩ := ih hfit' fun k hk hk' => h k (by omega) (by omega)
      rw [hrest]
      exact ⟨_, rfl⟩

/-- `readi` of a file without holes does not allocate. -/
theorem readi_present {n : Nat} (hfit : d.size ≤ maxFileBytes) (hn : n < 2 ^ 32) (h : s.Filled d) :
    ∃ r, s.readi sb d off n = .ok (r, s, d) := by
  have hmax : maxFileBytes < 2 ^ 32 := by decide
  unfold readi
  split
  · exact ⟨_, rfl⟩
  · next hbounds =>
    dsimp only
    generalize hm : (if d.size < (off + n) % 2 ^ 32 then d.size - off else n) = m
    have hend : off + m ≤ d.size := by
      split at hm <;> omega
    obtain ⟨bs, hbs⟩ : ∃ bs, readLoop sb m s d off m = .ok (bs, s, d) :=
      readLoop_present (by omega) fun k _ hk => h k (by omega)
    rw [hbs]
    exact ⟨_, rfl⟩

/-- After the loop of `writei` all blocks of its range are there, and those that were. -/
theorem writeLoop_present (hsize : sb.size ≤ 2 ^ 32) (hs : s.Sound d)
    (hrounds : bs.length ≤ rounds) (hfit : off + bs.length ≤ maxFileBytes)
    (h : writeLoop sb rounds s d off bs = .ok (t, e)) {k : Nat} (hk : k < maxFileBytes)
    (hthere : s.addrOf d (k / bsize) ≠ 0 ∨ off ≤ k ∧ k < off + bs.length) :
    t.addrOf e (k / bsize) ≠ 0 := by
  induction rounds generalizing s d off bs with
  | zero =>
    cases h
    rcases hthere with hthere | hthere
    · exact hthere
    · omega
  | succ rounds ih =>
    unfold writeLoop at h
    split at h
    · next hnil =>
      cases h
      subst hnil
      rcases hthere with hthere | hthere
      · exact hthere
      · simp only [List.length_nil] at hthere
        omega
    · next hnil =>
      have hpos : 0 < bs.length := List.length_pos_iff.mpr hnil
      have hbn : off / bsize < maxFile := div_lt_maxFile (by omega)
      obtain ⟨⟨b, u, d₁⟩, hmap, hrest⟩ := except_bind_eq_ok.mp h
      obtain ⟨hext, hb, haddr⟩ := bmap_spec hsize hs hbn hmap
      subst haddr
      dsimp only at hrest
      generalize hm : min bs.length (bsize - off % bsize) = m at hrest
      have hmod : off % bsize < bsize := Nat.mod_lt _ (by decide)
      have hlen : (bs.drop m).length = bs.length - m := List.length_drop
      apply ih (setData_spec hext.sound hbn hb _).1 (by omega) (by omega) hrest
      rw [setData_addrOf hext.sound hbn]
      rcases hthere with hthere | ⟨hlow, hhigh⟩
      · left
        rw [hext.kept _ (div_lt_maxFile hk) hthere]
        exact hthere
      · by_cases hnear : k < off + m
        · left
          have hsame : k / bsize = off / bsize := by
            have hin := (div_mod_within off (k - off) (by omega)).1
            rwa [Nat.add_sub_cancel' hlow] at hin
          rw [hsame]
          exact hb
        · right
          omega

/-! ## The inodes of other files -/

theorem balloc_inode (h : s.balloc sb = .ok (b, t)) : t.inode = s.inode := by
  unfold balloc at h
  split at h
  · cases h
    rfl
  · cases h

theorem addrSlot_inode {k : Nat} (h : s.addrSlot sb d k = .ok (b, t, e)) : t.inode = s.inode := by
  unfold addrSlot at h
  split at h
  · obtain ⟨⟨b', t'⟩, halloc, hret⟩ := except_bind_eq_ok.mp h
    cases hret
    exact balloc_inode halloc
  · cases h
    rfl

theorem bmap_inode (h : s.bmap sb d bn = .ok (b, t, e)) : t.inode = s.inode := by
  unfold bmap at h
  split at h
  · exact addrSlot_inode h
  · split at h
    · obtain ⟨⟨ind, s₁, d₁⟩, hslot, hrest⟩ := except_bind_eq_ok.mp h
      dsimp only at hrest
      split at hrest
      · obtain ⟨⟨b', s₂⟩, halloc, hret⟩ := except_bind_eq_ok.mp hrest
        cases hret
        exact (balloc_inode halloc).trans (addrSlot_inode hslot)
      · cases hrest
        exact addrSlot_inode hslot
    · cases h

theorem writeLoop_inode (h : writeLoop sb rounds s d off bs = .ok (t, e)) : t.inode = s.inode := by
  induction rounds generalizing s d off bs with
  | zero =>
    cases h
    rfl
  | succ rounds ih =>
    unfold writeLoop at h
    split at h
    · cases h
      rfl
    · obtain ⟨⟨b, u, d₁⟩, hmap, hrest⟩ := except_bind_eq_ok.mp h
      have hkept : t.inode = (u.setData b _).inode := ih hrest
      exact hkept.trans (bmap_inode hmap : u.inode = s.inode)

/-- The end of `writei` touches nothing but the size of the file and its inode on the disk. -/
theorem grow_inode (s : Disk) (n : Nat) (d : Dinode) (off len : Nat) {m : Nat} (h : m ≠ n) :
    (s.grow sb n d off len).1.inode m = s.inode m := by
  unfold grow
  split
  · exact Function.update_of_ne h ..
  · rfl

theorem grow_addrOf (s : Disk) (n : Nat) (d : Dinode) (off len bn : Nat) :
    (s.grow sb n d off len).1.addrOf (s.grow sb n d off len).2 bn = s.addrOf d bn := by
  unfold grow
  split <;> rfl

end Disk

/-! ## The whole call -/

namespace Fs

open Disk

variable {sb : Superblock} {devsw : Nat → Option (List Byte → Int)} {me : ProcSlot}
  {s : Target} {off : Nat} {bs : List Byte}

/-- The byte that the file has at offset `k` once `bs` is written at `off`. -/
def written (s : Target) (off : Nat) (bs : List Byte) (k : Nat) : Byte :=
  if off ≤ k ∧ k < off + bs.length then bs.getD (k - off) 0 else s.disk.byteAt s.d k

/-- What `readi` returns for `n` bytes at `o` from a file of `size` bytes with the given bytes:
nothing past the end or if the range wraps around, and no more than the file has. -/
def clipped (size : Nat) (byte : Nat → Byte) (o n : Nat) : Option (List Byte) :=
  if size < o ∨ 2 ^ 32 ≤ o + n then none
  else some ((List.range (min n (size - o))).map fun i => byte (o + i))

/-- The file of `t` is the file of `s` with `bs` written at `off`, as `readi` sees it, and every
file apart from it is as it was. -/
structure ReadsBack (sb : Superblock) (inum : Nat) (s t : Target) (off : Nat) (bs : List Byte) :
    Prop where
  size : t.d.size = max s.d.size (off + bs.length)
  reads : ∀ o < 2 ^ 32, ∀ n < 2 ^ 32,
    Yields NoBlocks (fun r => r.1 = clipped t.d.size (written s off bs) o n)
      (t.disk.readi sb t.d o n)
  present : s.disk.Filled s.d → ∀ o, ∀ n < 2 ^ 32, ∃ r, t.disk.readi sb t.d o n = .ok (r, t.disk, t.d)
  others : ∀ d, s.disk.Sound d → s.disk.Apart s.d d →
    t.disk.Sound d ∧ t.disk.Apart t.d d ∧ ∀ k < maxFileBytes, t.disk.byteAt d k = s.disk.byteAt d k
  inodes : ∀ m, m ≠ inum → t.disk.inode m = s.disk.inode m

/-- The offset and the length are those of a write that a file can take. -/
def InBounds (d : Dinode) (off n : Nat) : Prop := off ≤ d.size ∧ off + n ≤ maxFileBytes

instance (d : Dinode) (off n : Nat) : Decidable (InBounds d off n) :=
  inferInstanceAs (Decidable (_ ∧ _))

theorem accepts_iff_inBounds {d : Dinode} {n : Nat} (hsz : d.size ≤ maxFileBytes)
    (hn : n < 2 ^ 32) : Accepts d off n ↔ InBounds d off n := by
  have hmax : maxFileBytes < 2 ^ 32 := by decide
  unfold Accepts InBounds
  constructor
  · rintro ⟨hcheck, hend⟩
    omega
  · rintro ⟨hoff, hend⟩
    rw [Nat.mod_eq_of_lt (by omega)]
    omega

/-- `writei` of an accepted write within the quota. -/
theorem writei_accepted (inum : Nat) (hfile : s.d.type = .file) (haccepts : Accepts s.d off bs.length)
    (hlen : bs.length < 2 ^ 32) (hquota : ¬ OverQuota s.cs me bs.length) :
    writei sb devsw me inum off bs s = (do
      let r ← s.disk.writeLoop sb bs.length s.d off bs
      return ((bs.length : Int),
        ⟨(r.1.grow sb inum r.2 off bs.length).1, (r.1.grow sb inum r.2 off bs.length).2,
          (Container.charge s.cs me bs.length).2, setOs s.diskUsed bs.length⟩)) := by
  have hfires : ¬ (Container.charge s.cs me bs.length).1 = true :=
    (charge_fires_iff hlen).not.mpr hquota
  unfold writei
  rw [if_neg (by simp [hfile]), if_neg (not_not.mpr haccepts)]
  generalize Container.charge s.cs me bs.length = p at hfires
  obtain ⟨fires, cs⟩ := p
  obtain rfl : fires = false := by simpa using hfires
  rfl

/-- What an accepted write leaves behind. -/
theorem readsBack (hsize : sb.size ≤ 2 ^ 32) (inum : Nat) (hs : s.disk.Sound s.d)
    (hfile : s.d.type = .file) (hsz : s.d.size ≤ maxFileBytes) (hin : InBounds s.d off bs.length)
    {disk : Disk} {d : Dinode} (h : s.disk.writeLoop sb bs.length s.d off bs = .ok (disk, d))
    (cs : Container.State) (u : Int) :
    ReadsBack sb inum s ⟨(disk.grow sb inum d off bs.length).1, (disk.grow sb inum d off bs.length).2,
      cs, u⟩ off bs := by
  obtain ⟨hoff, hfit⟩ := hin
  have hdev : s.d.type ≠ .dev := by simp [hfile]
  have hwrite : s.disk.write sb inum s.d off bs false =
      .ok (.done, disk.grow sb inum d off bs.length) := by
    unfold write
    rw [if_pos ⟨hdev, (accepts_iff hoff hsz (by omega)).mpr hfit⟩, h]
    rfl
  obtain ⟨-, hsound, hwithin, htype, hgrown, hbytes⟩ :=
    (yields_iff.mp (write_spec hsize inum hs hdev hoff hsz hfit)).1 _ hwrite
  have hthere := fun k hk => writeLoop_present hsize hs (Nat.le_refl _) hfit h (k := k) hk
  have hinode : ∀ m, m ≠ inum →
      (disk.grow sb inum d off bs.length).1.inode m = s.disk.inode m := by
    intro m hm
    rw [grow_inode _ _ _ _ _ hm, writeLoop_inode h]
  have haddr : ∀ bn, (disk.grow sb inum d off bs.length).1.addrOf
      (disk.grow sb inum d off bs.length).2 bn = disk.addrOf d bn :=
    grow_addrOf disk inum d off bs.length
  dsimp only at hsound hwithin htype hgrown hbytes
  generalize disk.grow sb inum d off bs.length = p at *
  obtain ⟨t, e⟩ := p
  dsimp only at *
  have hend : e.size ≤ maxFileBytes := by omega
  constructor
  · exact hgrown
  · intro o ho n hn
    apply (readi_spec hsize hsound (by rw [htype]; exact hdev) hend ho hn).mono fun _ h => h
    rintro ⟨r, u, d'⟩ ⟨-, hr⟩
    rw [hr, clipped]
    dsimp only
    split
    · rfl
    · congr 1
      apply List.map_congr_left
      intro i hi
      rw [List.mem_range] at hi
      exact hbytes (o + i) (by omega)
  · intro hfilled o n hn
    apply readi_present hend hn
    intro k hk
    rw [haddr]
    apply hthere k (by omega)
    by_cases hold : k < s.d.size
    · exact .inl (hfilled k hold)
    · exact .inr (by omega)
  · intro d' hd hapart
    exact hwithin.other hd hapart
  · exact hinode

theorem almostFull_inQuota : ¬ OverQuota almostFull 1 1 := by decide +kernel

theorem emptyFile_sound : emptyFile.disk.Sound emptyFile.d := by
  have haddr : ∀ bn, emptyFile.disk.addrOf emptyFile.d bn = 0 := by
    intro bn
    unfold addrOf
    split <;> rfl
  constructor
  · intro bn _ hne
    exact absurd (haddr bn) hne
  · intro bn _ bn' _ hne
    exact absurd (haddr bn) hne
  · intro hne
    exact absurd rfl hne
  · rfl

end Fs

end Xv6Containers
