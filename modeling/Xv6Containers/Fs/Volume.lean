import Xv6Containers.Fs.ReadBack
import Xv6Containers.Lib.Refinement

/-!
# Files of a volume

The disk in blocks together with the copies of inodes in memory, under any sequence of the calls
of `fs.c` that work on inodes. Every block marked in the free map belongs to the metadata or to
exactly one file, so `bfree` never meets a free block and no block is lost. The calls cannot be
told from calls on a table of byte strings, except when the disk is full.

## Implementation notes

No quota check fires here: `writei` that is stopped by one leaves the new addresses in memory
only.
-/

namespace Xv6Containers

open Lib.Memory Lib.Program Lib.Refinement Function

namespace Disk

variable {sb : Superblock} {s t u : Disk} {d e e' : Dinode} {b bn off : Nat} {bs : List Byte}

/-! ## Blocks taken from the free map -/

/-- A block that was taken belongs to the file, and the file has the blocks it had. -/
structure Takes (sb : Superblock) (s : Disk) (d : Dinode) (t : Disk) (e : Dinode) : Prop where
  new : ∀ b, t.used b = true → s.used b = true ∨ t.Owns e b ∧ b < sb.size
  kept : ∀ b, s.Owns d b → t.Owns e b

theorem Takes.refl (sb : Superblock) (s : Disk) (d : Dinode) : Takes sb s d s d :=
  ⟨fun _ h => .inl h, fun _ h => h⟩

theorem Takes.trans (h : Takes sb s d t e) (h' : Takes sb t e u e') : Takes sb s d u e' where
  new := fun b hb => by
    rcases h'.new b hb with hused | hnew
    · rcases h.new b hused with hused | hnew
      · exact .inl hused
      · exact .inr ⟨h'.kept b hnew.1, hnew.2⟩
    · exact .inr hnew
  kept := fun b hb => h'.kept b (h.kept b hb)

theorem addrSlot_new {k : Nat} (h : s.addrSlot sb d k = .ok (b, t, e)) :
    (∀ b', t.used b' = true → s.used b' = true ∨ b' = b ∧ b' < sb.size) ∧
      (∀ j, d.addrs j ≠ 0 → e.addrs j = d.addrs j) ∧ e.addrs k = b ∧
      e = { d with addrs := e.addrs } := by
  unfold addrSlot at h
  split at h
  · next hzero =>
    obtain ⟨⟨b', t'⟩, halloc, hret⟩ := except_bind_eq_ok.mp h
    cases hret
    obtain ⟨-, hlt, hused, -⟩ := balloc_ok halloc
    refine ⟨fun c hc => ?_, fun j hj => ?_, update_self .., rfl⟩
    · rw [hused, update_apply] at hc
      split at hc
      · next hcb => exact .inr ⟨hcb, hcb ▸ hlt⟩
      · exact .inl hc
    · apply update_of_ne
      rintro rfl
      exact hj hzero
  · cases h
    exact ⟨fun _ hc => .inl hc, fun _ _ => rfl, rfl, rfl⟩

/-- `bmap` takes the block it returns and the indirect block, if any. -/
theorem bmap_new (h : s.bmap sb d bn = .ok (b, t, e)) :
    (∀ b', t.used b' = true → s.used b' = true ∨ (b' = b ∨ b' = e.addrs ndirect) ∧ b' < sb.size) ∧
      (d.addrs ndirect ≠ 0 → e.addrs ndirect = d.addrs ndirect) ∧ e = { d with addrs := e.addrs } := by
  unfold bmap at h
  split at h
  · obtain ⟨hnew, hkept, -, he⟩ := addrSlot_new h
    exact ⟨fun c hc => (hnew c hc).imp_right fun hcb => ⟨.inl hcb.1, hcb.2⟩, hkept ndirect, he⟩
  · split at h
    · obtain ⟨⟨ind, s₁, d₁⟩, hslot, hrest⟩ := except_bind_eq_ok.mp h
      obtain ⟨hnew, hkept, rfl, he⟩ := addrSlot_new hslot
      dsimp only at hrest
      split at hrest
      · obtain ⟨⟨b', s₂⟩, halloc, hret⟩ := except_bind_eq_ok.mp hrest
        cases hret
        obtain ⟨-, hlt, hused, -⟩ := balloc_ok halloc
        refine ⟨fun c hc => ?_, hkept ndirect, he⟩
        have hc' : update s₁.used b' true c = true := hused ▸ hc
        rw [update_apply] at hc'
        split at hc'
        · next hcb => exact .inr ⟨.inl hcb, hcb ▸ hlt⟩
        · exact (hnew c hc').imp_right fun hcb => ⟨.inr hcb.1, hcb.2⟩
      · cases hrest
        exact ⟨fun c hc => (hnew c hc).imp_right fun hcb => ⟨.inr hcb.1, hcb.2⟩, hkept ndirect, he⟩
    · cases h

theorem bmap_takes (hsize : sb.size ≤ 2 ^ 32) (hs : s.Sound d) (hbn : bn < maxFile)
    (h : s.bmap sb d bn = .ok (b, t, e)) : Takes sb s d t e := by
  obtain ⟨hext, hb, haddr⟩ := bmap_spec hsize hs hbn h
  obtain ⟨hnew, hkept, -⟩ := bmap_new h
  constructor
  · intro c hc
    by_cases hzero : c = 0
    · exact .inl (hzero ▸ hs.boot)
    · refine (hnew c hc).imp_right fun ⟨hwhich, hlt⟩ => ⟨⟨hzero, ?_⟩, hlt⟩
      rcases hwhich with rfl | rfl
      · exact .inl ⟨bn, hbn, haddr⟩
      · exact .inr rfl
  · rintro c ⟨hne, ⟨bn', hbn', rfl⟩ | rfl⟩
    · exact ⟨hne, .inl ⟨bn', hbn', hext.kept bn' hbn' hne⟩⟩
    · exact ⟨hne, .inr (hkept hne)⟩

/-- A write over blocks that are there leaves the inode as it is. -/
theorem writeLoop_takes (hsize : sb.size ≤ 2 ^ 32) {rounds : Nat} (hs : s.Sound d)
    (hfit : off + bs.length ≤ maxFileBytes) (h : writeLoop sb rounds s d off bs = .ok (t, e)) :
    Takes sb s d t e ∧ e = { d with addrs := e.addrs } ∧
      ((∀ k, off ≤ k → k < off + bs.length → s.addrOf d (k / bsize) ≠ 0) → e = d) := by
  induction rounds generalizing s d off bs with
  | zero =>
    cases h
    exact ⟨.refl .., rfl, fun _ => rfl⟩
  | succ rounds ih =>
    unfold writeLoop at h
    split at h
    · cases h
      exact ⟨.refl .., rfl, fun _ => rfl⟩
    · next hnil =>
      have hpos : 0 < bs.length := List.length_pos_iff.mpr hnil
      have hbn : off / bsize < maxFile := div_lt_maxFile (by omega)
      obtain ⟨⟨b, u, d₁⟩, hmap, hrest⟩ := except_bind_eq_ok.mp h
      obtain ⟨hext, hb, haddr⟩ := bmap_spec hsize hs hbn hmap
      subst haddr
      have hstored : ∀ m, Takes sb u d₁ (u.setData (u.addrOf d₁ (off / bsize)) m) d₁ := by
        intro m
        refine ⟨fun _ hused => .inl hused, fun c hc => ?_⟩
        simpa only [Owns, setData_addrOf hext.sound hbn] using hc
      obtain ⟨htakes, he, hsame⟩ := ih (setData_spec hext.sound hbn hb _).1
        (by rw [List.length_drop]; omega) hrest
      refine ⟨((bmap_takes hsize hs hbn hmap).trans (hstored _)).trans htakes, ?_, fun hthere => ?_⟩
      · rw [he, (bmap_new hmap).2.2]
      · have hfound := hmap.symm.trans (bmap_present hbn (hthere off (Nat.le_refl _) (by omega)))
        obtain ⟨-, rfl, rfl⟩ : _ ∧ u = s ∧ d₁ = d := by simpa using hfound
        refine hsame fun k hk hk' => ?_
        rw [setData_addrOf hs hbn]
        rw [List.length_drop] at hk'
        exact hthere k (by omega) (by omega)

/-! ## Truncation -/

theorem bfreeAll_frame {bs : List Nat} (h : s.bfreeAll sb bs = .ok t) :
    t.data = s.data ∧ t.inode = s.inode := by
  induction bs generalizing s with
  | nil =>
    cases h
    exact ⟨rfl, rfl⟩
  | cons b bs ih =>
    unfold bfreeAll at h
    split at h
    · exact ih h
    · obtain ⟨u, hu, hrest⟩ := except_bind_eq_ok.mp h
      unfold bfree at hu
      split at hu
      · cases hu
      · cases hu
        have h := ih hrest
        exact h

/-- The loops of `itrunc` free the blocks they are given, each of which is in use once. -/
theorem bfreeAll_spec (sb : Superblock) {bs : List Nat} (honce : bs.Pairwise fun b c => b ≠ 0 → b ≠ c)
    (hused : ∀ b ∈ bs, b ≠ 0 → s.used b = true) :
    ∃ t, s.bfreeAll sb bs = .ok t ∧ ∀ c, t.used c = true ↔ s.used c = true ∧ (c ≠ 0 → c ∉ bs) := by
  induction bs generalizing s with
  | nil => exact ⟨s, rfl, fun c => by simp⟩
  | cons b bs ih =>
    obtain ⟨hfirst, honce⟩ := List.pairwise_cons.mp honce
    unfold bfreeAll
    split
    · next hzero =>
      obtain ⟨t, ht, hiff⟩ := ih honce fun c hc => hused c (List.mem_cons_of_mem _ hc)
      refine ⟨t, ht, fun c => (hiff c).trans ?_⟩
      simp +contextual [hzero]
    · next hne =>
      have hb := hused b (List.mem_cons_self ..) hne
      rw [bfree, if_neg (by simp [hb])]
      obtain ⟨t, ht, hiff⟩ := ih (s := s.setUsed sb b false) honce fun c hc hc0 => by
        have hcb : c ≠ b := fun hcb => hfirst c hc hne hcb.symm
        exact (update_of_ne hcb ..).trans (hused c (List.mem_cons_of_mem _ hc) hc0)
      refine ⟨t, ht, fun c => (hiff c).trans ?_⟩
      change update s.used b false c = true ∧ _ ↔ _
      by_cases hcb : c = b
      · simp [hcb, hne]
      · simp [hcb]

theorem bfreeAll_append (bs cs : List Nat) :
    s.bfreeAll sb (bs ++ cs) = s.bfreeAll sb bs >>= fun t => t.bfreeAll sb cs := by
  induction bs generalizing s with
  | nil => rfl
  | cons b bs ih =>
    rw [List.cons_append, bfreeAll, bfreeAll]
    split
    · exact ih
    · cases s.bfree sb b with
      | error e => rfl
      | ok t => exact ih

/-- The addresses of a file, in the order in which `itrunc` frees them. -/
def blocks (s : Disk) (d : Dinode) : List Nat :=
  (List.range maxFile).map (s.addrOf d) ++ [d.addrs ndirect]

theorem mem_blocks (hb : b ≠ 0) : b ∈ s.blocks d ↔ s.Owns d b := by
  simp [blocks, Owns, hb, eq_comm]

theorem bfreeAll_zeros {bs : List Nat} (h : ∀ b ∈ bs, b = 0) : s.bfreeAll sb bs = .ok s := by
  induction bs with
  | nil => rfl
  | cons b bs ih =>
    rw [bfreeAll, if_pos (h b (List.mem_cons_self ..))]
    exact ih fun c hc => h c (List.mem_cons_of_mem _ hc)

/-- `itrunc` frees the blocks of the file and no others. -/
theorem itrunc_spec (sb : Superblock) (hs : s.Sound d) (n : Nat) :
    ∃ t e, s.itrunc sb n d = .ok (t, e) ∧ t.data = s.data ∧ t.inode = update s.inode n e ∧
      ∀ c, t.used c = true ↔ s.used c = true ∧ ¬ s.Owns d c := by
  have honce : (s.blocks d).Pairwise fun b c => b ≠ 0 → b ≠ c := by
    rw [blocks, List.pairwise_append, List.pairwise_map]
    refine ⟨List.pairwise_lt_range.imp_of_mem fun {i j} hi hj hij hne heq => ?_, by simp, ?_⟩
    · rw [List.mem_range] at hi hj
      exact Nat.ne_of_lt hij (hs.inj i hi j hj hne heq)
    · simp only [List.mem_map, List.mem_range, List.mem_singleton]
      rintro _ ⟨bn, hbn, rfl⟩ _ rfl hne heq
      exact (hs.indirect (heq ▸ hne)).2 bn hbn heq
  obtain ⟨t, ht, hused⟩ := bfreeAll_spec sb honce fun b hb hne =>
    hs.used_of_owns ((mem_blocks hne).mp hb)
  obtain ⟨hdata, hinode⟩ := bfreeAll_frame ht
  have hsplit : s.blocks d = (List.range ndirect).map d.addrs ++
      ((List.range nindirect).map (fun j => s.addrOf d (ndirect + j)) ++ [d.addrs ndirect]) := by
    have hdirect : (List.range ndirect).map (s.addrOf d) = (List.range ndirect).map d.addrs :=
      List.map_congr_left fun i hi => addrOf_direct s d (List.mem_range.mp hi)
    rw [blocks, maxFile, List.range_add, List.map_append, List.map_map, List.append_assoc, hdirect]
    rfl
  rw [hsplit, bfreeAll_append] at ht
  obtain ⟨u, hu, hrest⟩ := except_bind_eq_ok.mp ht
  have hind : u.freeIndirect sb (d.addrs ndirect) = .ok t := by
    rw [← hrest, freeIndirect]
    split
    · next hzero =>
      refine (bfreeAll_zeros fun b hb => ?_).symm
      simp only [List.mem_append, List.mem_map, List.mem_singleton, hzero] at hb
      rcases hb with ⟨j, -, rfl⟩ | rfl
      · rw [addrOf, if_neg (by omega), if_pos hzero]
      · rfl
    · next hne =>
      have hlist : (List.range nindirect).map (u.entry (d.addrs ndirect)) =
          (List.range nindirect).map fun j => s.addrOf d (ndirect + j) := by
        apply List.map_congr_left
        intro j _
        rw [addrOf_indirect s (by omega) hne, Nat.add_sub_cancel_left, entry, entry,
          (bfreeAll_frame hu).1]
      rw [hlist, bfreeAll_append]
      refine congrArg (bind _) (funext fun v => ?_)
      rw [bfreeAll, if_neg hne]
      cases v.bfree sb (d.addrs ndirect) <;> rfl
  unfold itrunc
  rw [hu]
  simp only [bind, Except.bind, hind]
  refine ⟨_, _, rfl, hdata, congrArg (update · n _) hinode, fun c => (hused c).trans ?_⟩
  refine and_congr_right fun _ => ⟨fun hfree hown => hfree hown.1 ((mem_blocks hown.1).mpr hown), ?_⟩
  exact fun hown hc hmem => hown ((mem_blocks hc).mp hmem)

end Disk

/-! ## Calls on inodes -/

/-- The first block behind the metadata. -/
def Superblock.dataStart (sb : Superblock) : Nat := sb.bmapstart + (sb.size / bpb + 1)

/-- The disk, and the valid copies of inodes in memory. -/
structure Volume where
  disk : Disk
  core : Nat → Option Dinode

/-- A call on inode `n`, on behalf of a system call that holds its lock. -/
inductive InodeCall
  | ialloc (type : FileType)
  | setLinks (n : Nat) (major minor nlink : Int)
  | readi (n off len : Nat)
  | writei (n off : Nat) (bs : List Byte)
  | iput (n : Nat)
  | recycle (n : Nat)

inductive InodeReply
  | done
  | inum (n : Nat)
  | bytes (r : Option (List Byte))
  | written (w : Written)

/-- The arguments are those that the types of the source admit. -/
def InodeCall.Typed : InodeCall → Prop
  | .ialloc type => type ≠ .free
  | .readi _ off len => off < 2 ^ 32 ∧ len < 2 ^ 32
  | .writei _ off bs => off < 2 ^ 32 ∧ bs.length < 2 ^ 32
  | _ => True

namespace Volume

variable (sb : Superblock)

/-- `ilock` reads the inode from the disk if there is no valid copy. -/
def ilock (s : Volume) (n : Nat) : Except Halt Dinode :=
  match s.core n with
  | some d => .ok d
  | none => if (s.disk.inode n).type = .free then .error (.panic .ilockNoType)
    else .ok (s.disk.inode n)

def put (s : Volume) (n : Nat) (disk : Disk) (d : Option Dinode) : Volume :=
  ⟨disk, update s.core n d⟩

/-- One call. `setLinks` is the assignment to fields followed by `iupdate` that is in `create`,
`sys_link` and `sys_unlink`, `iput` drops the last reference, and `recycle` is `iget` taking the
cache entry for another inode. -/
def step (s : Volume) : InodeCall → Except Halt (InodeReply × Volume)
  | .ialloc type => do
    let (n, disk) ← s.disk.ialloc sb type
    return (.inum n, { s with disk := disk })
  | .setLinks n major minor nlink => do
    let d ← s.ilock n
    let d := { d with major := major, minor := minor, nlink := nlink }
    return (.done, s.put n (s.disk.iupdate sb n d) (some d))
  | .readi n off len => do
    let d ← s.ilock n
    let (r, disk, d) ← s.disk.readi sb d off len
    return (.bytes r, s.put n disk (some d))
  | .writei n off bs => do
    let d ← s.ilock n
    let (w, disk, d) ← s.disk.write sb n d off bs false
    return (.written w, s.put n disk (some d))
  | .iput n =>
    match s.core n with
    | none => .ok (.done, s)
    | some d => if d.nlink = 0 then do
        let (disk, d) ← s.disk.itrunc sb n d
        return (.done, s.put n (disk.iupdate sb n { d with type := .free }) none)
      else .ok (.done, s)
  | .recycle n => .ok (.done, s.put n s.disk none)

end Volume

/-! ## The table of byte strings -/

structure FileState where
  type : FileType
  major : Int
  minor : Int
  nlink : Int
  bytes : List Byte

/-- The files by inode number, and which of them are in memory. -/
structure Files where
  file : Nat → Option FileState
  cached : Nat → Bool

namespace Files

/-- The bytes of a range, or `none` for a range outside of the file. -/
def read (x : FileState) (off len : Nat) : Option (List Byte) :=
  if x.type = .dev ∨ x.bytes.length < off ∨ 2 ^ 32 ≤ off + len then none
  else some ((x.bytes.drop off).take len)

/-- A write within a file, or at its end. -/
def write (x : FileState) (off : Nat) (bs : List Byte) : Written × FileState :=
  if x.type ≠ .dev ∧ off ≤ x.bytes.length ∧ off + bs.length ≤ maxFileBytes then
    (.done, { x with bytes := x.bytes.take off ++ bs ++ x.bytes.drop (off + bs.length) })
  else (.refused, x)

def put (f : Files) (n : Nat) (x : Option FileState) (c : Bool) : Files :=
  ⟨update f.file n x, update f.cached n c⟩

def find (f : Files) (n : Nat) : Except Halt FileState :=
  match f.file n with
  | some x => .ok x
  | none => .error (.panic .ilockNoType)

def step (ninodes : Nat) (f : Files) : InodeCall → Except Halt (InodeReply × Files)
  | .ialloc type =>
    match (List.range' 1 (ninodes - 1)).find? fun n => (f.file n).isNone with
    | some n => .ok (.inum n, { f with file := update f.file n (some ⟨type, 0, 0, 0, []⟩) })
    | none => .error (.panic .iallocNoInodes)
  | .setLinks n major minor nlink => do
    let x ← f.find n
    return (.done, f.put n (some { x with major := major, minor := minor, nlink := nlink }) true)
  | .readi n off len => do
    let x ← f.find n
    return (.bytes (read x off len), f.put n (some x) true)
  | .writei n off bs => do
    let x ← f.find n
    return (.written (write x off bs).1, f.put n (some (write x off bs).2) true)
  | .iput n =>
    match f.file n with
    | none => .ok (.done, f)
    | some x => if f.cached n ∧ x.nlink = 0 then .ok (.done, f.put n none false) else .ok (.done, f)
  | .recycle n => .ok (.done, f.put n (f.file n) false)

end Files

/-! ## Every block has one owner -/

namespace Disk

variable {sb : Superblock} {s t : Disk} {d e : Dinode} {n off : Nat} {bs : List Byte}

/-- All blocks of the file are there, and are its own. -/
structure Intact (s : Disk) (d : Dinode) : Prop where
  sound : s.Sound d
  filled : s.Filled d
  fits : d.size ≤ maxFileBytes

def Live (s : Disk) (n : Nat) : Prop := (s.inode n).type ≠ .free

/-- Block `b` belongs to inode `n`. -/
def Has (s : Disk) (n b : Nat) : Prop := s.Live n ∧ s.Owns (s.inode n) b

/-- The blocks in use are those of the metadata and those of files, and no two files share one. -/
structure Owned (sb : Superblock) (s : Disk) : Prop where
  boot : s.used 0 = true
  intact : ∀ n, s.Live n → s.Intact (s.inode n)
  data : ∀ n b, s.Has n b → sb.dataStart ≤ b ∧ b < sb.size
  once : ∀ n m b, s.Has n b → s.Has m b → n = m
  used : ∀ b < sb.size, s.used b = true ↔ b < sb.dataStart ∨ ∃ n, s.Has n b

def stateOf (s : Disk) (d : Dinode) : FileState := ⟨d.type, d.major, d.minor, d.nlink, s.contents d⟩

def fileState (s : Disk) (n : Nat) : Option FileState :=
  if (s.inode n).type = .free then none else some (s.stateOf (s.inode n))

/-- The disk is still in order, and the other files are as they were. -/
structure Keeps (sb : Superblock) (s : Disk) (n : Nat) (t : Disk) : Prop where
  owned : t.Owned sb
  inode : ∀ m, m ≠ n → t.inode m = s.inode m
  file : ∀ m, m ≠ n → t.fileState m = s.fileState m

/-- Inode `n` is `e` now, on blocks of its own and blocks that were free. -/
structure Rewrites (sb : Superblock) (s : Disk) (n : Nat) (t : Disk) (e : Dinode) : Prop where
  inode : t.inode = update s.inode n e
  within : s.Within (s.inode n) t e
  takes : Takes sb s (s.inode n) t e
  intact : t.Intact e
  type : e.type = (s.inode n).type

/-- A file is where it was if its blocks are. -/
theorem Intact.keep (h : s.Intact d) (hboot : t.used 0 = true)
    (hkeep : ∀ b, s.Owns d b → t.data b = s.data b ∧ t.used b = true) :
    t.Intact d ∧ (∀ b, t.Owns d b ↔ s.Owns d b) ∧ t.contents d = s.contents d := by
  obtain ⟨hs, hfilled, hfits⟩ := h
  have haddr : ∀ bn, t.addrOf d bn = s.addrOf d bn := by
    intro bn
    by_cases hdir : bn < ndirect
    · rw [addrOf_direct _ _ hdir, addrOf_direct _ _ hdir]
    · exact addrOf_congr rfl (fun hind => (hkeep _ ⟨hind, .inr rfl⟩).1) hdir
  refine ⟨⟨⟨fun bn hbn hne => ?_, fun bn hbn bn' hbn' => ?_, fun hind => ?_, hboot⟩, fun k hk => ?_,
    hfits⟩, fun b => ?_, ?_⟩
  · rw [haddr] at hne ⊢
    exact (hkeep _ ⟨hne, .inl ⟨bn, hbn, rfl⟩⟩).2
  · rw [haddr, haddr]
    exact hs.inj bn hbn bn' hbn'
  · refine ⟨(hkeep _ ⟨hind, .inr rfl⟩).2, fun bn hbn => ?_⟩
    rw [haddr]
    exact (hs.indirect hind).2 bn hbn
  · rw [haddr]
    exact hfilled k hk
  · simp only [Owns, haddr]
  · apply List.map_congr_left
    intro k hk
    rw [List.mem_range] at hk
    have hbn := div_lt_maxFile (show k < maxFileBytes by omega)
    simp only [byteAt, haddr, (hkeep _ ⟨hfilled k hk, .inl ⟨_, hbn, rfl⟩⟩).1]

theorem Owned.used_of_has (h : s.Owned sb) {b : Nat} (hb : s.Has n b) : s.used b = true :=
  (h.intact n hb.1).sound.used_of_owns hb.2

/-- One file is exchanged for another, or for none, and the others keep their blocks. -/
theorem Owned.exchange (h : s.Owned sb) (hinode : t.inode = update s.inode n e)
    (hboot : t.used 0 = true) (hintact : e.type ≠ .free → t.Intact e)
    (hkeep : ∀ m b, m ≠ n → s.Has m b → t.data b = s.data b ∧ t.used b = true)
    (hnew : ∀ b, e.type ≠ .free → t.Owns e b →
      (sb.dataStart ≤ b ∧ b < sb.size) ∧ ∀ m, m ≠ n → ¬ s.Has m b)
    (hused : ∀ b < sb.size, t.used b = true ↔ b < sb.dataStart ∨
      (e.type ≠ .free ∧ t.Owns e b) ∨ ∃ m, m ≠ n ∧ s.Has m b) : s.Keeps sb n t := by
  have hself : t.inode n = e := by rw [hinode, update_self]
  have hne {m : Nat} (hm : m ≠ n) : t.inode m = s.inode m := by rw [hinode, update_of_ne hm]
  have hother {m : Nat} (hm : m ≠ n) (hl : s.Live m) :=
    (h.intact m hl).keep hboot fun b hb => hkeep m b hm ⟨hl, hb⟩
  have hhas (m b : Nat) : t.Has m b ↔ if m = n then e.type ≠ .free ∧ t.Owns e b else s.Has m b := by
    split
    · next hm => rw [hm, Has, Live, hself]
    · next hm =>
      rw [Has, Live, hne hm]
      exact and_congr_right fun hl => (hother hm hl).2.1 b
  refine ⟨⟨hboot, fun m hm => ?_, fun m b hb => ?_, fun m m' b hb hb' => ?_, fun b hlt => ?_⟩,
    fun _ hm => hne hm, fun m hm => ?_⟩
  · by_cases hmn : m = n
    · rw [hmn, Live, hself] at hm
      rw [hmn, hself]
      exact hintact hm
    · rw [Live, hne hmn] at hm
      rw [hne hmn]
      exact (hother hmn hm).1
  · rw [hhas] at hb
    split at hb
    · exact (hnew b hb.1 hb.2).1
    · exact h.data m b hb
  · rw [hhas] at hb hb'
    split at hb
    · next hm =>
      split at hb'
      · next hm' => rw [hm, hm']
      · next hm' => exact absurd hb' ((hnew b hb.1 hb.2).2 m' hm')
    · next hm =>
      split at hb'
      · exact absurd hb ((hnew b hb'.1 hb'.2).2 m hm)
      · exact h.once m m' b hb hb'
  · rw [hused b hlt]
    refine or_congr_right ⟨?_, fun ⟨m, hb⟩ => ?_⟩
    · rintro (hb | ⟨m, hm, hb⟩)
      · exact ⟨n, (hhas n b).mpr (by rwa [if_pos rfl])⟩
      · exact ⟨m, (hhas m b).mpr (by rwa [if_neg hm])⟩
    · rw [hhas] at hb
      split at hb
      · exact .inl hb
      · next hm => exact .inr ⟨m, hm, hb⟩
  · unfold fileState
    rw [hne hm]
    split
    · rfl
    · next hl => rw [stateOf, (hother hm hl).2.2, stateOf]

/-- A call that changes one file within its own and free blocks. -/
theorem Owned.change (h : s.Owned sb) (hn : s.Live n) (hw : s.Rewrites sb n t e) :
    s.Keeps sb n t := by
  obtain ⟨hinode, hwithin, htakes, he, htype⟩ := hw
  refine h.exchange hinode he.sound.boot (fun _ => he) (fun m b hm hb => ?_) (fun b _ hb => ?_)
    fun b hlt => ⟨fun hb => ?_, ?_⟩
  · exact ⟨hwithin.data b (h.used_of_has hb) fun hown => hm (h.once m n b hb ⟨hn, hown⟩),
      hwithin.used b (h.used_of_has hb)⟩
  · rcases hwithin.owns b hb with hold | hfree
    · exact ⟨h.data n b ⟨hn, hold⟩, fun m hm hb' => hm (h.once m n b hb' ⟨hn, hold⟩)⟩
    · have hlt := ((htakes.new b (he.sound.used_of_owns hb)).resolve_left (by simp [hfree])).2
      refine ⟨⟨Nat.not_lt.mp fun hmeta => ?_, hlt⟩, fun m _ hb' => ?_⟩
      · simp [(h.used b hlt).mpr (.inl hmeta)] at hfree
      · simp [h.used_of_has hb'] at hfree
  · rcases htakes.new b hb with hold | hnew
    · rcases (h.used b hlt).mp hold with hmeta | ⟨m, hm⟩
      · exact .inl hmeta
      · by_cases hmn : m = n
        · exact .inr (.inl ⟨htype ▸ hn, htakes.kept b (hmn ▸ hm.2)⟩)
        · exact .inr (.inr ⟨m, hmn, hm⟩)
    · exact .inr (.inl ⟨htype ▸ hn, hnew.1⟩)
  · rintro (hmeta | ⟨-, hown⟩ | ⟨m, -, hm⟩)
    · exact hwithin.used b ((h.used b hlt).mpr (.inl hmeta))
    · exact he.sound.used_of_owns hown
    · exact hwithin.used b (h.used_of_has hm)

/-- The blocks of one file are free again, and its inode is. -/
theorem Owned.release (h : s.Owned sb) (hn : s.Live n) (hinode : t.inode = update s.inode n e)
    (hdata : t.data = s.data) (hfree : e.type = .free)
    (hused : ∀ b, t.used b = true ↔ s.used b = true ∧ ¬ s.Owns (s.inode n) b) :
    s.Keeps sb n t := by
  have hkept {m b : Nat} (hm : m ≠ n) (hb : s.Has m b) : t.used b = true :=
    (hused b).mpr ⟨h.used_of_has hb, fun hown => hm (h.once m n b hb ⟨hn, hown⟩)⟩
  refine h.exchange hinode ((hused 0).mpr ⟨h.boot, fun hown => hown.1 rfl⟩)
    (fun he => absurd hfree he) (fun m b hm hb => ⟨by rw [hdata], hkept hm hb⟩)
    (fun b he => absurd hfree he) fun b hlt => ⟨fun hb => ?_, ?_⟩
  · obtain ⟨hb, hown⟩ := (hused b).mp hb
    refine ((h.used b hlt).mp hb).imp_right fun ⟨m, hm⟩ => .inr ⟨m, fun hmn => ?_, hm⟩
    exact hown (hmn ▸ hm.2)
  · rintro (hmeta | ⟨he, -⟩ | ⟨m, hm, hb⟩)
    · exact (hused b).mpr ⟨(h.used b hlt).mpr (.inl hmeta),
        fun hown => Nat.not_lt.mpr (h.data n b ⟨hn, hown⟩).1 hmeta⟩
    · exact absurd hfree he
    · exact hkept hm hb

theorem Owned.create (h : s.Owned sb) (hn : ¬ s.Live n) (type : FileType) :
    s.Keeps sb n (s.iupdate sb n (newDinode type)) := by
  have hnone (bn : Nat) : (s.iupdate sb n (newDinode type)).addrOf (newDinode type) bn = 0 := by
    unfold addrOf
    split <;> rfl
  have howns (b : Nat) : ¬ (s.iupdate sb n (newDinode type)).Owns (newDinode type) b := by
    rintro ⟨hne, ⟨bn, -, rfl⟩ | rfl⟩
    · exact hne (hnone bn)
    · exact hne rfl
  refine h.exchange rfl h.boot (fun _ => ?_) (fun m b _ hb => ⟨rfl, h.used_of_has hb⟩)
    (fun b _ hb => absurd hb (howns b)) fun b hlt => (h.used b hlt).trans (or_congr_right ⟨?_, ?_⟩)
  · exact ⟨⟨fun bn _ hne => absurd (hnone bn) hne, fun bn _ _ _ hne => absurd (hnone bn) hne,
      fun hne => absurd rfl hne, h.boot⟩, fun k hk => absurd hk (Nat.not_lt_zero k), Nat.zero_le _⟩
  · exact fun ⟨m, hm⟩ => .inr ⟨m, fun hmn => hn (hmn ▸ hm.1), hm⟩
  · rintro (⟨-, hb⟩ | ⟨m, -, hm⟩)
    · exact absurd hb (howns b)
    · exact ⟨m, hm⟩

/-! ## Contents as lists -/

theorem contents_getElem? (s : Disk) (d : Dinode) (k : Nat) :
    (s.contents d)[k]? = if k < d.size then some (s.byteAt d k) else none := by
  rw [contents, List.getElem?_map]
  split
  · next hk => rw [List.getElem?_range hk, Option.map_some]
  · next hk => rw [List.getElem?_eq_none (by simpa using hk), Option.map_none]

theorem contents_slice (s : Disk) (d : Dinode) (off len : Nat) :
    ((s.contents d).drop off).take len =
      (List.range (min len (d.size - off))).map fun i => s.byteAt d (off + i) := by
  apply List.ext_getElem
  · simp
  · intro i _ _
    simp [contents]

theorem contents_splice (hoff : off ≤ d.size) (hsize : e.size = max d.size (off + bs.length))
    (hfits : e.size ≤ maxFileBytes) (hbytes : ∀ k < maxFileBytes, t.byteAt e k =
      if off ≤ k ∧ k < off + bs.length then bs.getD (k - off) 0 else s.byteAt d k) :
    t.contents e =
      (s.contents d).take off ++ bs ++ (s.contents d).drop (off + bs.length) := by
  have hlen : ((s.contents d).take off).length = off := by simp [hoff]
  apply List.ext_getElem?
  intro k
  rw [contents_getElem?, List.getElem?_append, List.getElem?_append, List.length_append, hlen,
    List.getElem?_take, List.getElem?_drop, contents_getElem?, contents_getElem?]
  by_cases hlow : k < off
  · rw [if_pos (by omega), if_pos (by omega), if_pos hlow, if_pos hlow, if_pos (by omega),
      hbytes k (by omega), if_neg (by omega)]
  · by_cases hhigh : k < off + bs.length
    · rw [if_pos (by omega), if_pos hhigh, if_neg hlow, hbytes k (by omega), if_pos (by omega),
        List.getD_eq_getElem?_getD, List.getElem?_eq_getElem (by omega)]
      rfl
    · rw [if_neg hhigh, Nat.add_sub_cancel' (by omega)]
      by_cases hin : k < d.size
      · rw [if_pos (by omega), if_pos hin, hbytes k (by omega), if_neg (by omega)]
      · rw [if_neg (by omega), if_neg hin]

theorem Intact.readi (hsize : sb.size ≤ 2 ^ 32) (h : s.Intact d) {len : Nat} (hoff : off < 2 ^ 32)
    (hlen : len < 2 ^ 32) : s.readi sb d off len = .ok (Files.read (s.stateOf d) off len, s, d) := by
  obtain ⟨r, hr⟩ : ∃ r, s.readi sb d off len = .ok (r, s, d) := readi_present h.fits hlen h.filled
  rw [hr]
  congr 2
  unfold Files.read stateOf
  dsimp only
  rw [contents_length, contents_slice]
  by_cases hdev : d.type = .dev
  · rw [Disk.readi, if_pos (.inl hdev)] at hr
    cases hr
    exact (if_pos (.inl hdev)).symm
  · have hspec := readi_spec hsize h.sound hdev h.fits hoff hlen
    rw [hr] at hspec
    exact hspec.2.trans (if_congr (by simp [hdev]) rfl rfl)

/-- What an accepted `writei` leaves: the disk and the copy in memory. -/
theorem write_rewrites (hsize : sb.size ≤ 2 ^ 32) (h : s.Intact (s.inode n))
    (hdev : (s.inode n).type ≠ .dev) (hoff : off ≤ (s.inode n).size)
    (hfit : off + bs.length ≤ maxFileBytes) :
    Yields NoBlocks (fun r => r.1 = .done ∧ s.Rewrites sb n r.2.1 r.2.2 ∧
        r.2.1.stateOf r.2.2 = { s.stateOf (s.inode n) with
          bytes := (s.contents (s.inode n)).take off ++ bs ++
            (s.contents (s.inode n)).drop (off + bs.length) })
      (s.write sb n (s.inode n) off bs false) := by
  obtain ⟨hs, hfilled, hsz⟩ := h
  unfold write
  rw [if_pos ⟨hdev, (accepts_iff hoff hsz (by omega)).mpr hfit⟩]
  refine Yields.bind (P := fun r => s.writeLoop sb bs.length (s.inode n) off bs = .ok r)
    (yields_iff.mpr ⟨fun r hr => hr, fun h herr => writeLoop_error hsize hs hfit herr⟩) ?_
  rintro ⟨t, e⟩ hloop
  obtain ⟨hsound, hwithin, hsame, htype, hbytes⟩ := writeLoop_spec hsize hs (Nat.le_refl _) hfit hloop
  obtain ⟨htakes, hfields, hkept⟩ := writeLoop_takes hsize hs hfit hloop
  have hinode := writeLoop_inode hloop
  have hattrs (x : List Byte) : (⟨e.type, e.major, e.minor, e.nlink, x⟩ : FileState) =
      { s.stateOf (s.inode n) with bytes := x } := by
    rw [hfields]
    rfl
  have hthere (k : Nat) (hk : k < max (s.inode n).size (off + bs.length)) :
      t.addrOf e (k / bsize) ≠ 0 := by
    apply writeLoop_present hsize hs (Nat.le_refl _) hfit hloop (by omega)
    by_cases hold : k < (s.inode n).size
    · exact .inl (hfilled k hold)
    · exact .inr (by omega)
  simp only [Bool.false_eq_true, if_false, grow]
  refine ⟨by split <;> rfl, ?_⟩
  split
  · next hgrows =>
    have hmax : off + bs.length = max (s.inode n).size (off + bs.length) := by omega
    refine ⟨⟨congrArg (update · n _) hinode, (hwithin.resize _).iupdate _ _,
      ⟨htakes.new, htakes.kept⟩,
      ⟨(hsound.resize _).iupdate _ _, fun k hk => hthere k (hmax ▸ hk), hfit⟩, htype⟩, ?_⟩
    refine (hattrs _).trans (congrArg (fun x => { s.stateOf (s.inode n) with bytes := x }) ?_)
    exact contents_splice hoff hmax hfit hbytes
  · next hgrows =>
    have hmax : e.size = max (s.inode n).size (off + bs.length) := by omega
    have hfit' : e.size ≤ maxFileBytes := hmax ▸ max_le hsz hfit
    -- Nothing is written through here, and nothing has to be.
    have he : e = s.inode n := hkept fun k _ hk => hfilled k (by omega)
    refine ⟨⟨?_, hwithin, htakes, ⟨hsound, fun k hk => hthere k (hmax ▸ hk), hfit'⟩, htype⟩, ?_⟩
    · rw [he, update_eq_self]
      exact hinode
    · rw [stateOf, contents_splice hoff hmax hfit' hbytes]
      exact hattrs _

end Disk

/-! ## Calls on a volume -/

namespace Volume

variable {sb : Superblock} {s : Volume} {n : Nat}

/-- The blocks of the disk have one owner each, and a copy in memory is the inode on the disk. -/
structure Consistent (sb : Superblock) (s : Volume) : Prop where
  owned : s.disk.Owned sb
  through : ∀ n d, s.core n = some d → s.disk.inode n = d ∧ s.disk.Live n

def files (s : Volume) : Files := ⟨s.disk.fileState, fun n => (s.core n).isSome⟩

variable (sb) in
/-- A volume stands for the table of its files. -/
def Shows (s : Volume) (f : Files) : Prop := s.Consistent sb ∧ s.files = f

theorem fileState_live (hn : s.disk.Live n) :
    s.disk.fileState n = some (s.disk.stateOf (s.disk.inode n)) := if_neg hn

theorem Consistent.core_free (h : s.Consistent sb) (hn : ¬ s.disk.Live n) : s.core n = none := by
  cases hcore : s.core n with
  | none => rfl
  | some d => exact absurd (h.through n d hcore).2 hn

/-- Calls that begin with `ilock`. -/
theorem Consistent.locked {E : Halt → Prop} {R : Volume → Files → Prop}
    {f : Dinode → Except Halt (InodeReply × Volume)}
    {g : FileState → Except Halt (InodeReply × Files)} (h : s.Consistent sb)
    (hfg : s.disk.Live n →
      Follows E R (f (s.disk.inode n)) (g (s.disk.stateOf (s.disk.inode n)))) :
    Follows E R (s.ilock n >>= f) (s.files.find n >>= g) := by
  by_cases hn : s.disk.Live n
  · have hlock : s.ilock n = .ok (s.disk.inode n) := by
      unfold ilock
      split
      · next d hd => rw [(h.through n d hd).1]
      · exact if_neg hn
    have hfind : s.files.find n = .ok (s.disk.stateOf (s.disk.inode n)) := by
      simp only [Files.find, files, fileState_live hn]
    rw [hlock, hfind]
    exact hfg hn
  · have hlock : s.ilock n = .error (.panic .ilockNoType) := by
      simp only [ilock, h.core_free hn]
      exact if_pos (not_not.mp hn)
    have hfind : s.files.find n = .error (.panic .ilockNoType) := by
      have hnone : s.disk.fileState n = none := if_pos (not_not.mp hn)
      simp only [Files.find, files, hnone]
    rw [hlock, hfind]
    exact .inr rfl

/-- A call that works on one inode changes the table at one place. -/
theorem Consistent.put (h : s.Consistent sb) {t : Disk} {d : Option Dinode}
    (ht : s.disk.Keeps sb n t) (hd : ∀ e, d = some e → t.inode n = e ∧ t.Live n) :
    (s.put n t d).Shows sb (s.files.put n (t.fileState n) d.isSome) := by
  constructor
  · refine ⟨ht.owned, fun m e (hm : update s.core n d m = some e) => ?_⟩
    by_cases hmn : m = n
    · subst hmn
      rw [update_self] at hm
      exact hd e hm
    · rw [update_of_ne hmn] at hm
      obtain ⟨he, hl⟩ := h.through m e hm
      exact ⟨(ht.inode m hmn).trans he, show (t.inode m).type ≠ .free from ht.inode m hmn ▸ hl⟩
  · unfold files Files.put Volume.put
    congr 1
    · funext m
      rw [update_apply]
      split
      · next hmn => rw [hmn]
      · next hmn => exact ht.file m hmn
    · funext m
      simp only [update_apply]
      split <;> rfl

theorem Consistent.unchanged (h : s.Consistent sb) {d : Option Dinode}
    (hd : ∀ e, d = some e → s.disk.inode n = e ∧ s.disk.Live n) :
    (s.put n s.disk d).Shows sb (s.files.put n (s.disk.fileState n) d.isSome) :=
  h.put ⟨h.owned, fun _ _ => rfl, fun _ _ => rfl⟩ hd

theorem Consistent.changed (h : s.Consistent sb) (hn : s.disk.Live n) {t : Disk} {e : Dinode}
    (hw : s.disk.Rewrites sb n t e) :
    (s.put n t (some e)).Shows sb (s.files.put n (some (t.stateOf e)) true) := by
  have hself : t.inode n = e := by rw [hw.inode, update_self]
  have hlive : t.Live n := by rwa [Disk.Live, hself, hw.type]
  have hput := h.put (h.owned.change hn hw) fun d hd => ⟨hself.trans (Option.some.inj hd), hlive⟩
  rwa [show t.fileState n = some (t.stateOf e) by rw [← hself]; exact if_neg hlive] at hput

theorem ialloc_follows (h : s.Consistent sb) {type : FileType} (htype : type ≠ .free) :
    Follows Disk.NoBlocks (Shows sb) (s.step sb (.ialloc type))
      (s.files.step sb.ninodes (.ialloc type)) := by
  have hpred : (fun n => (s.files.file n).isNone) =
      fun n => decide ((s.disk.inode n).type = .free) := by
    funext n
    by_cases hn : (s.disk.inode n).type = .free <;> simp [files, Disk.fileState, hn]
  simp only [step, Files.step, Disk.ialloc, hpred]
  cases hfind : (List.range' 1 (sb.ninodes - 1)).find? fun n =>
      decide ((s.disk.inode n).type = .free) with
  | none => exact .inr rfl
  | some n =>
    have hn : ¬ s.disk.Live n := by simpa [Disk.Live] using List.find?_some hfind
    have hcore := h.core_free hn
    have hput := h.put (d := none) (h.owned.create hn type) fun e he => by cases he
    have hstate : (s.disk.iupdate sb n (newDinode type)).fileState n =
        some ⟨type, 0, 0, 0, []⟩ := by
      simp only [Disk.fileState, Disk.iupdate, Disk.logWrite, update_self]
      exact if_neg htype
    have hcached : update s.files.cached n false = s.files.cached := by
      rw [← show s.files.cached n = false by simp [files, hcore], update_eq_self]
    rw [hstate, Files.put, Option.isSome_none, hcached, put, ← hcore, update_eq_self] at hput
    exact ⟨_, rfl, hput⟩

theorem writei_follows (hsize : sb.size ≤ 2 ^ 32) (h : s.Consistent sb) {off : Nat}
    {bs : List Byte} (hlen : bs.length < 2 ^ 32) :
    Follows Disk.NoBlocks (Shows sb) (s.step sb (.writei n off bs))
      (s.files.step sb.ninodes (.writei n off bs)) := by
  apply h.locked
  intro hn
  have hintact := h.owned.intact n hn
  have hiff : (s.disk.inode n).type ≠ .dev ∧ Disk.Accepts (s.disk.inode n) off bs.length ↔
      (s.disk.stateOf (s.disk.inode n)).type ≠ .dev ∧
        off ≤ (s.disk.stateOf (s.disk.inode n)).bytes.length ∧ off + bs.length ≤ maxFileBytes := by
    rw [Fs.accepts_iff_inBounds hintact.fits hlen]
    simp [Disk.stateOf, Fs.InBounds]
  unfold Files.write
  split
  · next hok =>
    have hoff : off ≤ (s.disk.inode n).size := by simpa [Disk.stateOf] using hok.2.1
    have hwrite := Disk.write_rewrites hsize hintact hok.1 hoff hok.2.2
    apply (hwrite.mono (fun _ he => .inl he) fun _ hr => hr).bind
    rintro ⟨w, t, e⟩ ⟨rfl, hw, hstate⟩
    have hput := h.changed hn hw
    rw [hstate] at hput
    exact ⟨_, rfl, hput⟩
  · next hno =>
    rw [Disk.write, if_neg (mt hiff.mp hno)]
    refine ⟨_, rfl, ?_⟩
    rw [← fileState_live hn]
    exact h.unchanged fun e he => ⟨Option.some.inj he, hn⟩

theorem iput_follows (h : s.Consistent sb) : Follows Disk.NoBlocks (Shows sb) (s.step sb (.iput n))
    (s.files.step sb.ninodes (.iput n)) := by
  cases hcore : s.core n with
  | none =>
    have hcached : s.files.cached n = false := by simp [files, hcore]
    simp only [step, Files.step, hcore, hcached]
    refine ⟨s.files, ?_, h, rfl⟩
    split <;> rfl
  | some d =>
    obtain ⟨rfl, hn⟩ := h.through n d hcore
    have hcached : s.files.cached n = true := by simp [files, hcore]
    have hfile : s.files.file n = some (s.disk.stateOf (s.disk.inode n)) := fileState_live hn
    simp only [step, Files.step, hcore, hfile, hcached, true_and, Disk.stateOf]
    split
    · obtain ⟨t, e, ht, hdata, hinode, hused⟩ :=
        Disk.itrunc_spec sb (h.owned.intact n hn).sound n
      rw [ht]
      have hfreed : (t.iupdate sb n { e with type := .free }).inode =
          update s.disk.inode n { e with type := .free } := by
        change update t.inode n _ = _
        rw [hinode, update_idem]
      have hput := h.put (d := none) (h.owned.release hn hfreed hdata rfl hused)
        fun e he => by cases he
      rw [Disk.fileState, hfreed, update_self, if_pos rfl] at hput
      exact ⟨_, rfl, hput⟩
    · exact ⟨_, rfl, h, rfl⟩

/-- A call does to the table of files what it does to the blocks. -/
theorem step_follows (hsize : sb.size ≤ 2 ^ 32) {f : Files} (h : s.Shows sb f) {c : InodeCall}
    (hc : c.Typed) : Follows Disk.NoBlocks (Shows sb) (s.step sb c) (f.step sb.ninodes c) := by
  obtain ⟨h, rfl⟩ := h
  cases c with
  | ialloc type => exact ialloc_follows h hc
  | setLinks n major minor nlink =>
    apply h.locked
    intro hn
    obtain ⟨hs, hfilled, hfits⟩ := h.owned.intact n hn
    exact ⟨_, rfl, h.changed hn ⟨rfl, ⟨fun _ hb => hb, fun _ _ _ => rfl, fun _ hb => .inl hb⟩,
      ⟨fun _ hb => .inl hb, fun _ hb => hb⟩,
      ⟨⟨hs.used, hs.inj, hs.indirect, hs.boot⟩, hfilled, hfits⟩, rfl⟩⟩
  | readi n off len =>
    apply h.locked
    intro hn
    rw [(h.owned.intact n hn).readi hsize hc.1 hc.2]
    refine ⟨_, rfl, ?_⟩
    rw [← fileState_live hn]
    exact h.unchanged fun e he => ⟨Option.some.inj he, hn⟩
  | writei n off bs => exact writei_follows hsize h hc.2
  | iput n => exact iput_follows h
  | recycle n => exact ⟨_, rfl, h.unchanged fun e he => by cases he⟩

theorem answers_shows (hsize : sb.size ≤ 2 ^ 32) (hs : s.Consistent sb) {cs : List InodeCall}
    (hcs : ∀ c ∈ cs, c.Typed) : Follows Disk.NoBlocks (Shows sb) (answers (step sb) s cs)
      (answers (Files.step sb.ninodes) s.files cs) := by
  apply answers_follows _ ⟨hs, rfl⟩ hcs
  intro s f c hc h
  exact step_follows hsize h hc

/-- A volume of four blocks, the first of them metadata, without files. -/
def emptyVolume : Volume :=
  ⟨⟨fun _ => newDinode .free, fun b => b == 0, fun _ _ => 0, []⟩, fun _ => none⟩

theorem emptyVolume_consistent : emptyVolume.Consistent Fs.fourBlocks where
  owned :=
    { boot := rfl
      intact := fun _ h => absurd rfl h
      data := fun _ _ h => absurd rfl h.1
      once := fun _ _ _ h => absurd rfl h.1
      used := fun b _ => ⟨fun h => .inl (eq_of_beq h ▸ Nat.one_pos), fun h =>
        h.elim (fun h => beq_iff_eq.mpr (Nat.lt_one_iff.mp h)) fun ⟨_, h⟩ => absurd rfl h.1⟩ }
  through := fun _ _ h => by cases h

def writeAndDrop : List InodeCall :=
  [.ialloc .file, .writei 1 0 [98, 99], .recycle 1, .readi 1 1 9, .iput 1]

theorem writeAndDrop_typed : ∀ c ∈ writeAndDrop, c.Typed := by
  simp [writeAndDrop, InodeCall.Typed]

end Volume

end Xv6Containers
