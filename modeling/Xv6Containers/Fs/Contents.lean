import Xv6Containers.Fs.Disk

/-!
# Contents of files

What a file on the disk in blocks consists of, byte by byte: the address of each
of its blocks, and the byte at each offset. `bmap` may allocate blocks and leaves
every byte as it is; the loops of `readi` and `writei` read and write exactly the
bytes of their range.

## Implementation notes

A block that has no address yet counts as zeros, which is what `bmap` puts there.
A file is sound if its blocks are marked in the free map, no two of its addresses
are the same and block 0 is not free; without that, a write to one offset could
show up at another.
-/

namespace Xv6Containers

open Lib.Memory Lib.Program Function

namespace Disk

/-- The address of block `bn` of a file, or `0`. -/
def addrOf (s : Disk) (d : Dinode) (bn : Nat) : Nat :=
  if bn < ndirect then d.addrs bn
  else if d.addrs ndirect = 0 then 0
  else s.entry (d.addrs ndirect) (bn - ndirect)

/-- The byte of a file at offset `k`. -/
def byteAt (s : Disk) (d : Dinode) (k : Nat) : Byte :=
  if s.addrOf d (k / bsize) = 0 then 0 else s.data (s.addrOf d (k / bsize)) (k % bsize)

/-- The bytes of a file. -/
def contents (s : Disk) (d : Dinode) : List Byte := (List.range d.size).map (s.byteAt d)

@[simp] theorem contents_length (s : Disk) (d : Dinode) : (s.contents d).length = d.size := by
  simp [contents]

/-- The addresses of a file are in use, and each is used once. -/
structure Sound (s : Disk) (d : Dinode) : Prop where
  used : ∀ bn < maxFile, s.addrOf d bn ≠ 0 → s.used (s.addrOf d bn) = true
  inj : ∀ bn < maxFile, ∀ bn' < maxFile, s.addrOf d bn ≠ 0 → s.addrOf d bn = s.addrOf d bn' →
    bn = bn'
  indirect : d.addrs ndirect ≠ 0 → s.used (d.addrs ndirect) = true ∧
    ∀ bn < maxFile, s.addrOf d bn ≠ d.addrs ndirect
  boot : s.used 0 = true

/-- The block belongs to the file. -/
def Owns (s : Disk) (d : Dinode) (b : Nat) : Prop :=
  b ≠ 0 ∧ ((∃ bn < maxFile, s.addrOf d bn = b) ∨ d.addrs ndirect = b)

/-- Only blocks of the file and free blocks were touched. -/
structure Within (s : Disk) (d : Dinode) (t : Disk) (e : Dinode) : Prop where
  used : ∀ b, s.used b = true → t.used b = true
  data : ∀ b, s.used b = true → ¬ s.Owns d b → t.data b = s.data b
  owns : ∀ b, t.Owns e b → s.Owns d b ∨ s.used b = false

/-- Blocks may have been allocated, and the file is the same. -/
structure Extends (s : Disk) (d : Dinode) (t : Disk) (e : Dinode) : Prop where
  sound : t.Sound e
  within : s.Within d t e
  size : e.size = d.size
  type : e.type = d.type
  kept : ∀ bn < maxFile, s.addrOf d bn ≠ 0 → t.addrOf e bn = s.addrOf d bn
  bytes : ∀ k < maxFileBytes, t.byteAt e k = s.byteAt d k

variable {sb : Superblock} {s t u : Disk} {d e e' : Dinode} {b bn : Nat}

theorem Within.refl (s : Disk) (d : Dinode) : s.Within d s d :=
  ⟨fun _ h => h, fun _ _ _ => rfl, fun _ h => .inl h⟩

theorem Within.trans (h : s.Within d t e) (h' : t.Within e u e') : s.Within d u e' where
  used := fun b hb => h'.used b (h.used b hb)
  data := fun b hb hown => by
    have hown' : ¬ t.Owns e b := by
      intro ht
      rcases h.owns b ht with hs | hfree
      · exact hown hs
      · rw [hb] at hfree
        cases hfree
    exact (h'.data b (h.used b hb) hown').trans (h.data b hb hown)
  owns := fun b hb => by
    rcases h'.owns b hb with ht | hfree
    · exact h.owns b ht
    · refine .inr (Bool.eq_false_iff.mpr fun hused => ?_)
      rw [h.used b hused] at hfree
      cases hfree

theorem Extends.refl (hs : s.Sound d) : s.Extends d s d :=
  ⟨hs, .refl s d, rfl, rfl, fun _ _ _ => rfl, fun _ _ => rfl⟩

theorem Extends.trans (h : s.Extends d t e) (h' : t.Extends e u e') : s.Extends d u e' where
  sound := h'.sound
  within := h.within.trans h'.within
  size := h'.size.trans h.size
  type := h'.type.trans h.type
  kept := fun bn hbn hne => by
    have hkept := h.kept bn hbn hne
    exact (h'.kept bn hbn (hkept ▸ hne)).trans hkept
  bytes := fun k hk => (h'.bytes k hk).trans (h.bytes k hk)

theorem div_lt_maxFile {k : Nat} (h : k < maxFileBytes) : k / bsize < maxFile :=
  Nat.div_lt_of_lt_mul (by rwa [Nat.mul_comm] : k < bsize * maxFile)

/-! ## Allocation -/

/-- There was no block to allocate. -/
def NoBlocks (h : Halt) : Prop := h = .panic .ballocOutOfBlocks

theorem balloc_ok (h : s.balloc sb = .ok (b, t)) :
    s.used b = false ∧ b < sb.size ∧ t.used = update s.used b true ∧
      t.data = update s.data b fun _ => 0 := by
  unfold balloc at h
  split at h
  · next b' hfind =>
    cases h
    have hfree := List.find?_some hfind
    have hmem := List.mem_of_find?_eq_some hfind
    exact ⟨by simpa using hfree, by simpa using hmem, rfl, rfl⟩
  · cases h

theorem Sound.addr_ne (hs : s.Sound d) (hfree : s.used b = false) (hbn : bn < maxFile) :
    s.addrOf d bn ≠ b := by
  intro he
  by_cases hzero : s.addrOf d bn = 0
  · have hboot := hs.boot
    rw [← hzero, he, hfree] at hboot
    cases hboot
  · have hused := hs.used bn hbn hzero
    rw [he, hfree] at hused
    cases hused

theorem Sound.zero_ne (hs : s.Sound d) (hfree : s.used b = false) : b ≠ 0 := by
  rintro rfl
  rw [hs.boot] at hfree
  cases hfree

theorem Sound.indirect_ne (hs : s.Sound d) (hfree : s.used b = false) : d.addrs ndirect ≠ b := by
  intro he
  by_cases hzero : d.addrs ndirect = 0
  · exact hs.zero_ne hfree (he ▸ hzero)
  · have hused := (hs.indirect hzero).1
    rw [he, hfree] at hused
    cases hused

/-- A fresh block becomes the one block of the file that had no address. -/
theorem Extends.point (hs : s.Sound d) (hbn : bn < maxFile) (hzero : s.addrOf d bn = 0)
    (hfree : s.used b = false) (hused : t.used = update s.used b true)
    (haddr : ∀ bn' < maxFile, t.addrOf e bn' = if bn' = bn then b else s.addrOf d bn')
    (hind : e.addrs ndirect = d.addrs ndirect)
    (hdata : ∀ b', b' ≠ b → (d.addrs ndirect ≠ 0 → b' ≠ d.addrs ndirect) → t.data b' = s.data b')
    (hblank : t.data b = fun _ => 0) (hsize : e.size = d.size) (htype : e.type = d.type) :
    s.Extends d t e where
  sound := by
    refine ⟨fun bn' hbn' hne => ?_, fun m hm m' hm' hne heq => ?_, fun hne => ?_, ?_⟩
    · rw [haddr bn' hbn'] at hne ⊢
      rw [hused]
      split
      · exact update_self ..
      · next hother =>
        rw [if_neg hother] at hne
        rw [update_of_ne (hs.addr_ne hfree hbn')]
        exact hs.used bn' hbn' hne
    · rw [haddr m hm] at hne heq
      rw [haddr m' hm'] at heq
      split at heq
      · next hmb =>
        split at heq
        · next hmb' => rw [hmb, hmb']
        · exact absurd heq.symm (hs.addr_ne hfree hm')
      · next hmb =>
        rw [if_neg hmb] at hne
        split at heq
        · exact absurd heq (hs.addr_ne hfree hm)
        · exact hs.inj m hm m' hm' hne heq
    · rw [hind] at hne ⊢
      obtain ⟨hu, hdistinct⟩ := hs.indirect hne
      refine ⟨?_, fun bn' hbn' => ?_⟩
      · rw [hused, update_of_ne (hs.indirect_ne hfree)]
        exact hu
      · rw [haddr bn' hbn']
        split
        · exact (hs.indirect_ne hfree).symm
        · exact hdistinct bn' hbn'
    · rw [hused, update_of_ne (hs.zero_ne hfree).symm]
      exact hs.boot
  within := by
    refine ⟨fun b' hb' => ?_, fun b' hb' hown => ?_, fun b' hb' => ?_⟩
    · rw [hused, update_apply]
      split
      · rfl
      · exact hb'
    · refine hdata b' (fun he => ?_) fun hne he => hown ⟨he ▸ hne, .inr he.symm⟩
      rw [he, hfree] at hb'
      cases hb'
    · obtain ⟨hne, ⟨m, hm, hmb⟩ | hmb⟩ := hb'
      · rw [haddr m hm] at hmb
        split at hmb
        · exact .inr (hmb ▸ hfree)
        · exact .inl ⟨hne, .inl ⟨m, hm, hmb⟩⟩
      · exact .inl ⟨hne, .inr (hind ▸ hmb)⟩
  size := hsize
  type := htype
  kept := fun bn' hbn' hne => by
    rw [haddr bn' hbn', if_neg]
    rintro rfl
    exact hne hzero
  bytes := fun k hk => by
    have hbk := div_lt_maxFile hk
    unfold byteAt
    rw [haddr _ hbk]
    by_cases heq : k / bsize = bn
    · rw [if_pos heq, heq, if_neg (hs.zero_ne hfree), if_pos hzero, hblank]
    · rw [if_neg heq]
      split
      · rfl
      · rw [hdata _ (hs.addr_ne hfree hbk) fun hne => (hs.indirect hne).2 _ hbk]

theorem addrOf_direct (s : Disk) (d : Dinode) (h : bn < ndirect) : s.addrOf d bn = d.addrs bn :=
  if_pos h

variable {off : Nat} {bs : List Byte} {d' : Dinode}

theorem addrOf_indirect (s : Disk) (h : ¬ bn < ndirect) (hind : d.addrs ndirect ≠ 0) :
    s.addrOf d bn = s.entry (d.addrs ndirect) (bn - ndirect) := by
  rw [addrOf, if_neg h, if_neg hind]

/-- A change outside the indirect block keeps the addresses. -/
theorem addrOf_congr (hind : e.addrs ndirect = d.addrs ndirect)
    (hdata : d.addrs ndirect ≠ 0 → t.data (d.addrs ndirect) = s.data (d.addrs ndirect))
    (h : ¬ bn < ndirect) : t.addrOf e bn = s.addrOf d bn := by
  unfold addrOf
  rw [if_neg h, if_neg h, hind]
  split
  · rfl
  · next hne => rw [entry, entry, hdata hne]

/-- A direct address. -/
theorem addrSlot_direct (hs : s.Sound d) (hbn : bn < ndirect)
    (h : s.addrSlot sb d bn = .ok (b, t, e)) : s.Extends d t e ∧ b ≠ 0 ∧ t.addrOf e bn = b := by
  have hmax : bn < maxFile := Nat.lt_of_lt_of_le hbn (by decide)
  unfold addrSlot at h
  split at h
  · next hzero =>
    obtain ⟨⟨b', t'⟩, halloc, hret⟩ := except_bind_eq_ok.mp h
    cases hret
    obtain ⟨hfree, -, hused, hdata⟩ := balloc_ok halloc
    have hnew : t.addrOf { d with addrs := update d.addrs bn b } bn = b := by
      rw [addrOf_direct _ _ hbn]
      exact update_self ..
    refine ⟨.point hs hmax ((addrOf_direct s d hbn).trans hzero) hfree hused (fun m hm => ?_) ?_
      (fun m hm _ => ?_) ?_ rfl rfl, hs.zero_ne hfree, hnew⟩
    · by_cases hmb : m = bn
      · subst hmb
        rw [if_pos rfl, hnew]
      · rw [if_neg hmb]
        by_cases hdir : m < ndirect
        · rw [addrOf_direct _ _ hdir, addrOf_direct _ _ hdir]
          exact update_of_ne hmb ..
        · refine addrOf_congr (update_of_ne (Nat.ne_of_gt hbn) ..) (fun _ => ?_) hdir
          rw [hdata, update_of_ne (hs.indirect_ne hfree)]
    · exact update_of_ne (Nat.ne_of_gt hbn) ..
    · rw [hdata, update_of_ne hm]
    · rw [hdata, update_self]
  · next hne =>
    cases h
    exact ⟨.refl hs, hne, addrOf_direct s d hbn⟩

theorem readWord_zero (a : Nat) : readWord (fun _ => 0) a = 0 := rfl

/-- The indirect block. A new one lists no addresses. -/
theorem addrSlot_indirect (hs : s.Sound d) (h : s.addrSlot sb d ndirect = .ok (b, t, e)) :
    s.Extends d t e ∧ b ≠ 0 ∧ e.addrs ndirect = b := by
  unfold addrSlot at h
  split at h
  · next hzero =>
    obtain ⟨⟨b', t'⟩, halloc, hret⟩ := except_bind_eq_ok.mp h
    cases hret
    obtain ⟨hfree, -, hused, hdata⟩ := balloc_ok halloc
    have hb := hs.zero_ne hfree
    have hind : update d.addrs ndirect b ndirect = b := update_self ..
    have haddr : ∀ m, t.addrOf { d with addrs := update d.addrs ndirect b } m =
        s.addrOf d m := by
      intro m
      unfold addrOf
      split
      · next hm => exact update_of_ne (Nat.ne_of_lt hm) ..
      · simp only [hind, if_neg hb, entry, hdata, update_self]
        exact readWord_zero _
    refine ⟨⟨⟨fun m hm hne => ?_, fun m hm m' hm' hne heq => ?_, fun _ => ⟨?_, fun m hm => ?_⟩, ?_⟩,
      ⟨fun b' hb' => ?_, fun b' hb' _ => ?_, fun b' hb' => ?_⟩,
      rfl, rfl, fun m _ _ => haddr m, fun k hk => ?_⟩, hb, hind⟩
    · rw [haddr] at hne ⊢
      rw [hused, update_of_ne (hs.addr_ne hfree hm)]
      exact hs.used m hm hne
    · rw [haddr] at hne heq
      rw [haddr] at heq
      exact hs.inj m hm m' hm' hne heq
    · simp only [hused, update_self]
    · rw [haddr]
      simpa only [hind] using hs.addr_ne hfree hm
    · rw [hused, update_of_ne hb.symm]
      exact hs.boot
    · rw [hused, update_apply]
      split
      · rfl
      · exact hb'
    · have hne : b' ≠ b := by
        rintro rfl
        rw [hfree] at hb'
        cases hb'
      rw [hdata, update_of_ne hne]
    · obtain ⟨hne, ⟨m, hm, hmb⟩ | hmb⟩ := hb'
      · rw [haddr] at hmb
        exact .inl ⟨hne, .inl ⟨m, hm, hmb⟩⟩
      · have hbb : b = b' := hind.symm.trans hmb
        exact .inr (hbb ▸ hfree)
    · unfold byteAt
      rw [haddr, hdata, update_of_ne (hs.addr_ne hfree (div_lt_maxFile hk))]
  · next hne =>
    cases h
    exact ⟨.refl hs, hne, rfl⟩

/-- A new entry of the indirect block. -/
theorem newEntry (hsize : sb.size ≤ 2 ^ 32) (hs : s.Sound d) (hind : d.addrs ndirect ≠ 0)
    (hbn : bn < maxFile) (hdir : ¬ bn < ndirect)
    (hzero : s.entry (d.addrs ndirect) (bn - ndirect) = 0)
    (halloc : s.balloc sb = .ok (b, t)) :
    s.Extends d (t.setData (d.addrs ndirect)
        (writeWord (t.data (d.addrs ndirect)) (4 * (bn - ndirect)) b)) d ∧ b ≠ 0 ∧
      (t.setData (d.addrs ndirect)
        (writeWord (t.data (d.addrs ndirect)) (4 * (bn - ndirect)) b)).addrOf d bn = b := by
  obtain ⟨hfree, hlt, hused, hdata⟩ := balloc_ok halloc
  have hblock : t.data (d.addrs ndirect) = s.data (d.addrs ndirect) := by
    rw [hdata, update_of_ne (hs.indirect_ne hfree)]
  have haddr : ∀ m < maxFile, (t.setData (d.addrs ndirect)
      (writeWord (t.data (d.addrs ndirect)) (4 * (bn - ndirect)) b)).addrOf d m =
        if m = bn then b else s.addrOf d m := by
    intro m _
    by_cases hm : m < ndirect
    · rw [addrOf_direct _ _ hm, addrOf_direct _ _ hm, if_neg (by omega)]
    · rw [addrOf_indirect _ hm hind, addrOf_indirect _ hm hind, entry, setData, logWrite]
      simp only [update_self, hblock]
      by_cases heq : m = bn
      · subst heq
        rw [if_pos rfl, readWord_writeWord, Nat.mod_eq_of_lt (Nat.lt_of_lt_of_le hlt hsize)]
      · rw [if_neg heq, entry]
        exact readWord_writeWord_disjoint _ _ (by omega)
  refine ⟨.point hs hbn ?_ hfree hused haddr rfl (fun m hm hne => ?_) ?_ rfl rfl, hs.zero_ne hfree, ?_⟩
  · rw [addrOf_indirect s hdir hind, hzero]
  · simp only [setData, logWrite, update_of_ne (hne hind), hdata, update_of_ne hm]
  · simp only [setData, logWrite, update_of_ne (hs.indirect_ne hfree).symm, hdata,
      update_self]
  · rw [haddr bn hbn, if_pos rfl]

/-- `bmap` finds or allocates the block, and the file stays the same. -/
theorem bmap_spec (hsize : sb.size ≤ 2 ^ 32) (hs : s.Sound d) (hbn : bn < maxFile)
    (h : s.bmap sb d bn = .ok (b, t, e)) : s.Extends d t e ∧ b ≠ 0 ∧ t.addrOf e bn = b := by
  unfold bmap at h
  split at h
  · next hdir => exact addrSlot_direct hs hdir h
  · next hdir =>
    rw [if_pos (by simp only [maxFile] at hbn; omega)] at h
    obtain ⟨⟨ind, s₁, d₁⟩, hslot, hrest⟩ := except_bind_eq_ok.mp h
    obtain ⟨hext, hind, haddr⟩ := addrSlot_indirect hs hslot
    subst haddr
    simp only at hrest
    split at hrest
    · next hzero =>
      obtain ⟨⟨b', s₂⟩, halloc, hret⟩ := except_bind_eq_ok.mp hrest
      cases hret
      obtain ⟨hnew, hb, haddr⟩ := newEntry hsize hext.sound hind hbn hdir hzero halloc
      exact ⟨hext.trans hnew, hb, haddr⟩
    · next hne =>
      cases hrest
      exact ⟨hext, hne, addrOf_indirect _ hdir hind⟩

/-- `bmap` fails only for lack of blocks. -/
theorem bmap_error {h : Halt} (hbn : bn < maxFile) (herr : s.bmap sb d bn = .error h) :
    h = .panic .ballocOutOfBlocks := by
  have halloc : ∀ {s : Disk} {h}, s.balloc sb = .error h → h = .panic .ballocOutOfBlocks := by
    intro s h herr
    unfold balloc at herr
    split at herr
    · cases herr
    · cases herr
      rfl
  have hslot : ∀ {k h}, s.addrSlot sb d k = .error h → h = .panic .ballocOutOfBlocks := by
    intro k h herr
    unfold addrSlot at herr
    split at herr
    · cases hb : s.balloc sb with
      | error h' =>
        rw [hb] at herr
        cases herr
        exact halloc hb
      | ok r =>
        rw [hb] at herr
        cases herr
    · cases herr
  unfold bmap at herr
  split at herr
  · exact hslot herr
  · rw [if_pos (by simp only [maxFile] at hbn; omega)] at herr
    cases hb : s.addrSlot sb d ndirect with
    | error h' =>
      rw [hb] at herr
      cases herr
      exact hslot hb
    | ok r =>
      obtain ⟨ind, s₁, d₁⟩ := r
      rw [hb] at herr
      simp only [bind, Except.bind] at herr
      split at herr
      · cases hb' : s₁.balloc sb with
        | error h' =>
          rw [hb'] at herr
          cases herr
          exact halloc hb'
        | ok r =>
          rw [hb'] at herr
          cases herr
      · cases herr

/-! ## The loops of `readi` and `writei` -/

/-- Offsets within one block. -/
theorem div_mod_within (off i : Nat) (h : off % bsize + i < bsize) :
    (off + i) / bsize = off / bsize ∧ (off + i) % bsize = off % bsize + i := by
  simp only [bsize] at *
  omega

/-- `readi` returns the bytes of its range. -/
theorem readLoop_spec (hsize : sb.size ≤ 2 ^ 32) {rounds n : Nat} (hs : s.Sound d)
    (hrounds : n ≤ rounds) (hfit : off + n ≤ maxFileBytes)
    (h : readLoop sb rounds s d off n = .ok (bs, t, e)) :
    s.Extends d t e ∧ bs = (List.range n).map fun i => s.byteAt d (off + i) := by
  induction rounds generalizing s d off n bs with
  | zero =>
    obtain rfl : n = 0 := by omega
    cases h
    exact ⟨.refl hs, rfl⟩
  | succ rounds ih =>
    unfold readLoop at h
    split at h
    · next hzero =>
      subst hzero
      cases h
      exact ⟨.refl hs, rfl⟩
    · next hzero =>
      obtain ⟨⟨b, s₁, d₁⟩, hmap, hrest⟩ := except_bind_eq_ok.mp h
      obtain ⟨⟨rest, s₂, d₂⟩, hloop, hret⟩ := except_bind_eq_ok.mp hrest
      cases hret
      have hmod : off % bsize < bsize := Nat.mod_lt _ (by decide)
      obtain ⟨hext, hb, haddr⟩ :=
        bmap_spec hsize hs (div_lt_maxFile (k := off) (by omega)) hmap
      obtain ⟨hext', hbytes⟩ := ih hext.sound (by omega) (by omega) hloop
      refine ⟨hext.trans hext', ?_⟩
      generalize hm : min n (bsize - off % bsize) = m at *
      obtain ⟨k, rfl⟩ : ∃ k, n = m + k := ⟨n - m, by omega⟩
      rw [Nat.add_sub_cancel_left] at hbytes
      rw [hbytes, List.range_add, List.map_append, List.map_map]
      congr 1
      · refine List.map_congr_left fun i hi => ?_
        have hi : i < m := List.mem_range.mp hi
        obtain ⟨hdiv, hmod'⟩ := div_mod_within off i (by omega)
        rw [← hext.bytes _ (by omega), byteAt, hdiv, haddr, if_neg hb, hmod']
      · refine List.map_congr_left fun i hi => ?_
        have hi : i < k := List.mem_range.mp hi
        rw [hext.bytes _ (by omega), Nat.add_assoc]
        rfl

/-- The loop of `readi` fails only for lack of blocks. -/
theorem readLoop_error (hsize : sb.size ≤ 2 ^ 32) {rounds m : Nat} {h : Halt} (hs : s.Sound d)
    (hfit : off + m ≤ maxFileBytes) (herr : readLoop sb rounds s d off m = .error h) :
    NoBlocks h := by
  induction rounds generalizing s d off m with
  | zero => cases herr
  | succ rounds ih =>
    unfold readLoop at herr
    split at herr
    · cases herr
    · next hpos =>
      have hbn : off / bsize < maxFile := div_lt_maxFile (by omega)
      cases hmap : s.bmap sb d (off / bsize) with
      | error h' =>
        rw [hmap] at herr
        cases herr
        exact bmap_error hbn hmap
      | ok r =>
        obtain ⟨b, s₁, d₁⟩ := r
        rw [hmap] at herr
        obtain ⟨hext, -, -⟩ := bmap_spec hsize hs hbn hmap
        generalize hm : min m (bsize - off % bsize) = m' at herr
        cases hloop : readLoop sb rounds s₁ d₁ (off + m') (m - m') with
        | error h' =>
          simp only [bind, Except.bind, hloop] at herr
          cases herr
          exact ih hext.sound (by omega) hloop
        | ok r =>
          simp only [bind, Except.bind, hloop] at herr
          cases herr

theorem setData_addrOf (hs : s.Sound d) (hbn : bn < maxFile) (m : Mem) (bn' : Nat) :
    (s.setData (s.addrOf d bn) m).addrOf d bn' = s.addrOf d bn' := by
  by_cases hdir : bn' < ndirect
  · rw [addrOf_direct _ _ hdir, addrOf_direct _ _ hdir]
  · refine addrOf_congr rfl (fun hind => ?_) hdir
    exact update_of_ne ((hs.indirect hind).2 bn hbn).symm ..

/-- Bytes of one block are stored. -/
theorem setData_spec (hs : s.Sound d) (hbn : bn < maxFile) (hb : s.addrOf d bn ≠ 0) (m : Mem) :
    (s.setData (s.addrOf d bn) m).Sound d ∧ s.Within d (s.setData (s.addrOf d bn) m) d ∧
    ∀ k < maxFileBytes,
      (s.setData (s.addrOf d bn) m).byteAt d k =
        if k / bsize = bn then m (k % bsize) else s.byteAt d k := by
  have haddr := setData_addrOf hs hbn m
  refine ⟨⟨fun m hm hne => ?_, fun m hm m' hm' hne heq => ?_, fun hind => ?_, hs.boot⟩,
    ⟨fun _ h => h, fun b _ hown => ?_, fun b hown => .inl ?_⟩, fun k hk => ?_⟩
  · rw [haddr] at hne ⊢
    exact hs.used m hm hne
  · rw [haddr] at hne heq
    rw [haddr] at heq
    exact hs.inj m hm m' hm' hne heq
  · refine ⟨(hs.indirect hind).1, fun m hm => ?_⟩
    rw [haddr]
    exact (hs.indirect hind).2 m hm
  · have hne : b ≠ s.addrOf d bn := by
      rintro rfl
      exact hown ⟨hb, .inl ⟨bn, hbn, rfl⟩⟩
    simp only [setData, logWrite, update_of_ne hne]
  · simpa only [Owns, haddr] using hown
  · unfold byteAt
    rw [haddr]
    by_cases heq : k / bsize = bn
    · rw [if_pos heq, heq, if_neg hb]
      simp only [setData, logWrite, update_self]
    · rw [if_neg heq]
      split
      · rfl
      · next hne =>
        have hother : s.addrOf d (k / bsize) ≠ s.addrOf d bn := fun he =>
          heq (hs.inj _ (div_lt_maxFile hk) bn hbn hne he)
        simp only [setData, logWrite, update_of_ne hother]

/-- `writei` stores the bytes of its range. -/
theorem writeLoop_spec (hsize : sb.size ≤ 2 ^ 32) {rounds : Nat} (hs : s.Sound d)
    (hrounds : bs.length ≤ rounds) (hfit : off + bs.length ≤ maxFileBytes)
    (h : writeLoop sb rounds s d off bs = .ok (t, e)) :
    t.Sound e ∧ s.Within d t e ∧ e.size = d.size ∧ e.type = d.type ∧
    ∀ k < maxFileBytes, t.byteAt e k =
      if off ≤ k ∧ k < off + bs.length then bs.getD (k - off) 0 else s.byteAt d k := by
  induction rounds generalizing s d off bs with
  | zero =>
    obtain rfl : bs = [] := List.length_eq_zero_iff.mp (by omega)
    cases h
    exact ⟨hs, .refl _ _, rfl, rfl, fun k _ => by rw [if_neg (by simp)]⟩
  | succ rounds ih =>
    unfold writeLoop at h
    split at h
    · next hnil =>
      subst hnil
      cases h
      exact ⟨hs, .refl _ _, rfl, rfl, fun k _ => by rw [if_neg (by simp)]⟩
    · next hnil =>
      have hpos : 0 < bs.length := List.length_pos_iff.mpr hnil
      obtain ⟨⟨b, s₁, d₁⟩, hmap, hloop⟩ := except_bind_eq_ok.mp h
      have hmod : off % bsize < bsize := Nat.mod_lt _ (by decide)
      have hbn : off / bsize < maxFile := div_lt_maxFile (by omega)
      obtain ⟨hext, hb, haddr⟩ := bmap_spec hsize hs hbn hmap
      subst haddr
      generalize hm : min bs.length (bsize - off % bsize) = m at *
      have hlen : (bs.take m).length = m := by rw [List.length_take]; omega
      obtain ⟨hsound, hwithin, hstored⟩ := setData_spec hext.sound hbn hb
        (blit (s₁.data (s₁.addrOf d₁ (off / bsize))) (off % bsize) (bs.take m))
      obtain ⟨ht, hwithin', hsz, hty, hbytes⟩ := ih hsound (by rw [List.length_drop]; omega)
        (by rw [List.length_drop]; omega) hloop
      refine ⟨ht, (hext.within.trans hwithin).trans hwithin', hsz.trans hext.size,
        hty.trans hext.type, fun k hk => ?_⟩
      rw [hbytes k hk, hstored k hk, List.length_drop]
      by_cases hlater : off + m ≤ k ∧ k < off + m + (bs.length - m)
      · rw [if_pos hlater, if_pos (by omega), List.getD_eq_getElem?_getD, List.getElem?_drop,
          ← List.getD_eq_getElem?_getD]
        congr 1
        omega
      · rw [if_neg hlater]
        by_cases hin : off ≤ k ∧ k < off + bs.length
        · obtain ⟨i, rfl⟩ := Nat.exists_eq_add_of_le hin.1
          obtain ⟨hdiv, hmod'⟩ := div_mod_within off i (by omega)
          rw [if_pos hin, if_pos hdiv, hmod', blit_inside _ _ _ (by omega),
            Nat.add_sub_cancel_left, List.getD_eq_getElem?_getD,
            List.getElem?_take_of_lt (by omega), ← List.getD_eq_getElem?_getD]
        · rw [if_neg hin, ← hext.bytes k hk]
          split
          · next hblock =>
            have hdisjoint : k % bsize < off % bsize ∨ off % bsize + m ≤ k % bsize := by
              simp only [bsize] at *
              omega
            rw [blit_disjoint _ _ (by rwa [hlen]), byteAt, hblock, if_neg hb]
          · rfl

/-- The loop of `writei` fails only for lack of blocks. -/
theorem writeLoop_error (hsize : sb.size ≤ 2 ^ 32) {rounds : Nat} {h : Halt} (hs : s.Sound d)
    (hfit : off + bs.length ≤ maxFileBytes) (herr : writeLoop sb rounds s d off bs = .error h) :
    h = .panic .ballocOutOfBlocks := by
  induction rounds generalizing s d off bs with
  | zero => cases herr
  | succ rounds ih =>
    unfold writeLoop at herr
    split at herr
    · cases herr
    · next hnil =>
      have hpos : 0 < bs.length := List.length_pos_iff.mpr hnil
      have hbn : off / bsize < maxFile := div_lt_maxFile (by omega)
      cases hmap : s.bmap sb d (off / bsize) with
      | error h' =>
        rw [hmap] at herr
        cases herr
        exact bmap_error hbn hmap
      | ok r =>
        obtain ⟨b, s₁, d₁⟩ := r
        rw [hmap] at herr
        obtain ⟨hext, hb, haddr⟩ := bmap_spec hsize hs hbn hmap
        subst haddr
        refine ih (setData_spec hext.sound hbn hb _).1 ?_ herr
        rw [List.length_drop]
        omega

/-- `readi` returns the bytes of its range that lie in the file. -/
theorem readi_spec (hsize : sb.size ≤ 2 ^ 32) {n : Nat} (hs : s.Sound d) (hfile : d.type ≠ .dev)
    (hfit : d.size ≤ maxFileBytes) (hoff : off < 2 ^ 32) (hn : n < 2 ^ 32) :
    Yields NoBlocks (fun r => s.Extends d r.2.1 r.2.2 ∧
        r.1 = if d.size < off ∨ 2 ^ 32 ≤ off + n then none
          else some ((List.range (min n (d.size - off))).map fun i => s.byteAt d (off + i)))
      (s.readi sb d off n) := by
  have hmax : maxFileBytes < 2 ^ 32 := by decide
  have htest : (d.type = .dev ∨ d.size < off ∨ (off + n) % 2 ^ 32 < off) ↔
      d.size < off ∨ 2 ^ 32 ≤ off + n := by
    simp only [hfile, false_or]
    omega
  unfold readi
  by_cases hout : d.size < off ∨ 2 ^ 32 ≤ off + n
  · rw [if_pos (htest.mpr hout), if_pos hout]
    exact ⟨.refl hs, rfl⟩
  · rw [if_neg fun h => hout (htest.mp h), if_neg hout, Nat.mod_eq_of_lt (by omega)]
    have hclip : (if d.size < off + n then d.size - off else n) = min n (d.size - off) := by
      split <;> omega
    rw [hclip]
    have hrange : off + min n (d.size - off) ≤ maxFileBytes := by omega
    apply Yields.bind (yields_iff.mpr ⟨fun r hr => readLoop_spec hsize hs (Nat.le_refl _) hrange hr,
      fun h herr => readLoop_error hsize hs hrange herr⟩)
    rintro ⟨bs, t, e⟩ ⟨hext, hbytes⟩
    exact ⟨hext, congrArg some hbytes⟩

/-! ## Other files -/

/-- No block belongs to both files. -/
def Apart (s : Disk) (d d' : Dinode) : Prop := ∀ b, s.Owns d b → ¬ s.Owns d' b

/-- A change within one file leaves a file apart from it as it was. -/
theorem Within.addrOf_other (h : s.Within d t e) (hs : s.Sound d') (hapart : s.Apart d d')
    (bn : Nat) : t.addrOf d' bn = s.addrOf d' bn := by
  by_cases hdir : bn < ndirect
  · rw [addrOf_direct _ _ hdir, addrOf_direct _ _ hdir]
  · apply addrOf_congr rfl _ hdir
    intro hind
    apply h.data _ (hs.indirect hind).1
    exact fun hown => hapart _ hown ⟨hind, .inr rfl⟩

theorem Within.owns_other (h : s.Within d t e) (hs : s.Sound d') (hapart : s.Apart d d') (b : Nat) :
    t.Owns d' b ↔ s.Owns d' b := by
  simp only [Owns, h.addrOf_other hs hapart]

theorem Sound.used_of_owns (hs : s.Sound d) (h : s.Owns d b) : s.used b = true := by
  obtain ⟨hne, ⟨bn, hbn, rfl⟩ | rfl⟩ := h
  · exact hs.used bn hbn hne
  · exact (hs.indirect hne).1

theorem Within.other (h : s.Within d t e) (hs : s.Sound d') (hapart : s.Apart d d') :
    t.Sound d' ∧ t.Apart e d' ∧ ∀ k < maxFileBytes, t.byteAt d' k = s.byteAt d' k := by
  have haddr := h.addrOf_other hs hapart
  refine ⟨⟨?_, ?_, ?_, h.used 0 hs.boot⟩, ?_, ?_⟩
  · intro bn hbn hne
    rw [haddr] at hne ⊢
    exact h.used _ (hs.used bn hbn hne)
  · intro bn hbn bn' hbn' hne heq
    rw [haddr] at hne heq
    rw [haddr] at heq
    exact hs.inj bn hbn bn' hbn' hne heq
  · intro hind
    refine ⟨h.used _ (hs.indirect hind).1, fun bn hbn => ?_⟩
    rw [haddr]
    exact (hs.indirect hind).2 bn hbn
  · intro b hown hown'
    have hold := (h.owns_other hs hapart b).mp hown'
    rcases h.owns b hown with hd | hfree
    · exact hapart b hd hold
    · rw [hs.used_of_owns hold] at hfree
      cases hfree
  · intro k hk
    unfold byteAt
    rw [haddr]
    split
    · rfl
    · next hne =>
      have hown : s.Owns d' (s.addrOf d' (k / bsize)) :=
        ⟨hne, .inl ⟨_, div_lt_maxFile hk, rfl⟩⟩
      rw [h.data _ (hs.used_of_owns hown) fun hd => hapart _ hd hown]

/-! ## Appending -/

theorem Sound.iupdate (hs : s.Sound d) (n : Nat) (d' : Dinode) : (s.iupdate sb n d').Sound d :=
  ⟨hs.used, hs.inj, hs.indirect, hs.boot⟩

theorem Sound.resize (hs : s.Sound d) (n : Nat) : s.Sound { d with size := n } :=
  ⟨hs.used, hs.inj, hs.indirect, hs.boot⟩

theorem Within.iupdate (h : s.Within d t e) (n : Nat) (d' : Dinode) :
    s.Within d (t.iupdate sb n d') e :=
  ⟨h.used, h.data, h.owns⟩

theorem Within.resize (h : s.Within d t e) (n : Nat) : s.Within d t { e with size := n } :=
  ⟨h.used, h.data, h.owns⟩

theorem accepts_iff {n : Nat} (hoff : off ≤ d.size) (hfit : d.size ≤ maxFileBytes)
    (hn : n ≤ maxFileBytes) : Accepts d off n ↔ off + n ≤ maxFileBytes := by
  have hmax : maxFileBytes + maxFileBytes < 2 ^ 32 := by decide
  unfold Accepts
  rw [Nat.mod_eq_of_lt (by omega)]
  omega

/-- A write that is accepted stores its bytes and extends the file to them. -/
theorem write_spec (hsize : sb.size ≤ 2 ^ 32) (inum : Nat) (hs : s.Sound d)
    (hfile : d.type ≠ .dev) (hoff : off ≤ d.size) (hsz : d.size ≤ maxFileBytes)
    (hfit : off + bs.length ≤ maxFileBytes) :
    Yields NoBlocks (fun r => r.1 = .done ∧ r.2.1.Sound r.2.2 ∧ s.Within d r.2.1 r.2.2 ∧
        r.2.2.type = d.type ∧ r.2.2.size = max d.size (off + bs.length) ∧
        ∀ k < maxFileBytes, r.2.1.byteAt r.2.2 k =
          if off ≤ k ∧ k < off + bs.length then bs.getD (k - off) 0 else s.byteAt d k)
      (s.write sb inum d off bs false) := by
  unfold write
  rw [if_pos ⟨hfile, (accepts_iff hoff hsz (by omega)).mpr hfit⟩]
  refine Yields.bind (yields_iff.mpr ⟨fun r hr => writeLoop_spec hsize hs (Nat.le_refl _) hfit hr,
    fun h herr => writeLoop_error hsize hs hfit herr⟩) fun r hr => ?_
  obtain ⟨t, e⟩ := r
  obtain ⟨hsound, hwithin, hsame, htype, hbytes⟩ := hr
  dsimp only at hsound hwithin hsame htype hbytes
  simp only [Bool.false_eq_true, if_false, grow]
  split
  · exact ⟨rfl, (hsound.resize _).iupdate _ _, (hwithin.resize _).iupdate _ _, htype, by
      dsimp only; omega, hbytes⟩
  · exact ⟨rfl, hsound, hwithin, htype, by dsimp only; omega, hbytes⟩

/-- A write at the end of a file puts its bytes behind the contents. -/
theorem write_append (hsize : sb.size ≤ 2 ^ 32) {inum : Nat} {w : Written} (hs : s.Sound d)
    (hfile : d.type ≠ .dev) (hfit : d.size + bs.length ≤ maxFileBytes)
    (h : s.write sb inum d d.size bs false = .ok (w, t, e)) :
    w = .done ∧ t.Sound e ∧ e.type = d.type ∧ t.contents e = s.contents d ++ bs := by
  obtain ⟨hw, hsound, -, htype, hsz, hbytes⟩ := (yields_iff.mp
    (write_spec hsize inum hs hfile (Nat.le_refl _) (by omega) hfit)).1 _ h
  dsimp only at hw hsound htype hsz hbytes
  rw [Nat.max_eq_right (by omega)] at hsz
  refine ⟨hw, hsound, htype, ?_⟩
  rw [contents, hsz, List.range_add, List.map_append, List.map_map]
  congr 1
  · refine List.map_congr_left fun k hk => ?_
    have hk : k < d.size := List.mem_range.mp hk
    rw [hbytes k (by omega), if_neg (by omega)]
  · refine List.ext_getElem (by simp) fun i hi hi' => ?_
    simp only [List.getElem_map, List.getElem_range, comp_apply]
    rw [hbytes _ (by omega), if_pos (by omega), Nat.add_sub_cancel_left,
      List.getD_eq_getElem _ _ hi']

end Disk

end Xv6Containers
