import Xv6Containers.Container.Table

/-!
# What the container calls store

The system calls that change `containers`, over all of memory. Nothing checks an
index or the length of a name, and `find` returns `-1` for a name that no record
has, so a call may store outside of the record that it was asked to change.

## Implementation notes

Addresses have 32 bits and wrap as those of the machine, and every address can be
stored to. A word of the user's stack that a call fetches in the place of an
argument is an argument of its own here. Only what the calls do to memory through
`containers` is kept: the processes that `cstop` kills and the file system behind
`unlink` are left out, and `namei` and the size of the unlinked file are inputs.
-/

namespace Xv6Containers.Container.Frame

open Lib.Memory Lib.Strings Lib.Search

abbrev Address := BitVec 32

/-- The bytes of memory. -/
abbrev Bytes := Address → Byte

def store (m : Bytes) (a : Address) (bs : List Byte) : Bytes :=
  fun x => if (x - a).toNat < bs.length then bs.getD (x - a).toNat 0 else m x

/-- The memory from `a` on. -/
def view (m : Bytes) (a : Address) : Mem := fun i => m (a + BitVec.ofNat 32 i)

def load (m : Bytes) (a : Address) : BitVec 32 := BitVec.ofNat 32 (readWord (view m a) 0)

def storeWord (m : Bytes) (a : Address) (v : BitVec 32) : Bytes := store m a (wordBytes v.toNat)

/-- `strcmp` with a string in memory. -/
def strcmpAt (m : Bytes) : List Byte → Address → Int
  | [], a => -(m a).toNat
  | p :: ps, a => if p = m a then strcmpAt m ps (a + 1) else (p.toNat : Int) - (m a).toNat

/-- `&containers[vc]`, where `base` is the address of `containers`. -/
def record (base : Address) (vc : BitVec 32) : Address := base + BitVec.ofNat 32 recordSize * vc

/-- The address of a field of `containers[vc]`. -/
def entry (base : Address) (vc : BitVec 32) (offset : Nat) : Address :=
  record base vc + BitVec.ofNat 32 offset

/-- The offset of `root`. -/
def rootOffset : Nat := 60

/-- The record that an index selects. -/
def index (vc : BitVec 32) : Option Cont :=
  if h : vc.toNat < maxContainers then some ⟨vc.toNat, h⟩ else none

/-- `find`. -/
def find (base : Address) (m : Bytes) (s : CString) : Option Cont :=
  first fun c => strcmp s.bytes [] ≠ 0 ∧
    strcmpAt m s.bytes (entry base (BitVec.ofNat 32 c) nameOffset) = 0

/-- What `find` returns. -/
def found (base : Address) (m : Bytes) (s : CString) : BitVec 32 :=
  ((find base m s).map fun c : Cont => BitVec.ofNat 32 c).getD (-1)

/-! ## The functions of `container.c` -/

def setName (base : Address) (s : CString) (vc : BitVec 32) (m : Bytes) : Bytes :=
  store m (entry base vc nameOffset) (toBytes s)

def setField (f : Field) (base : Address) (v vc : BitVec 32) (m : Bytes) : Bytes :=
  storeWord m (entry base vc f.offset) v

def setMaxMem : Address → BitVec 32 → BitVec 32 → Bytes → Bytes := setField .maxMem

def setMaxDisk : Address → BitVec 32 → BitVec 32 → Bytes → Bytes := setField .maxDisk

def setMaxProc : Address → BitVec 32 → BitVec 32 → Bytes → Bytes := setField .maxProc

/-- The test for an exceeded resource, which is counted in units of `unit`. -/
def exceeds (counter limit : Field) (unit : Int) (base : Address) (v vc : BitVec 32) (m : Bytes) :
    Bool :=
  (load m (entry base vc limit.offset)).toInt <
    (load m (entry base vc counter.offset) + v).toInt.tdiv unit

/-- Add `v` to a counter, if that does not exceed the limit. -/
def charge (counter limit : Field) (unit : Int) (base : Address) (v vc : BitVec 32) (m : Bytes) :
    Bytes :=
  if exceeds counter limit unit base v vc m then m
  else setField counter base (load m (entry base vc counter.offset) + v) vc m

/-- `set_curr_mem`, which does not use its first argument. -/
def setCurrMem (base : Address) (_mem vc : BitVec 32) : Bytes → Bytes :=
  charge .currMem .maxMem 1 base 1 vc

def setCurrDisk : Address → BitVec 32 → BitVec 32 → Bytes → Bytes := charge .currDisk .maxDisk 1024

def setCurrProc : Address → BitVec 32 → BitVec 32 → Bytes → Bytes := charge .currProc .maxProc 1

/-- What `container_reset` stores, with the offsets in the record. -/
def resetStores : List (Nat × List Byte) :=
  (nameOffset, toBytes emptyName) :: resetFields.map fun fv => (fv.1.offset, wordBytes (word fv.2))

def storeAll (m : Bytes) (a : Address) : List (Nat × List Byte) → Bytes
  | [] => m
  | (offset, bs) :: rest => storeAll (store m (a + BitVec.ofNat 32 offset) bs) a rest

def containerReset (base : Address) (vc : BitVec 32) (m : Bytes) : Bytes :=
  storeAll m (record base vc) resetStores

/-- `set_root_inode`, with the pointer that `namei` returns. -/
def setRootInode (base : Address) (s : CString) (root : Address) (m : Bytes) : Bytes :=
  storeWord m (entry base (found base m s) rootOffset) root

/-! ## System calls -/

inductive Call
  | setName (s : CString) (vc : BitVec 32)
  | setMaxMem (v vc : BitVec 32)
  | setMaxDisk (v vc : BitVec 32)
  | setMaxProc (v vc : BitVec 32)
  | setCurrMem (v vc : BitVec 32)
  | setCurrDisk (v vc : BitVec 32)
  | setCurrProc (v vc : BitVec 32)
  | reduceCurrMem (v vc : BitVec 32)
  /-- The argument, and the word of the user's stack behind it. -/
  | containerReset (vc word1 : BitVec 32)
  | setRootInode (s : CString) (root : Address)
  /-- The container of the caller, and the name. -/
  | cstop (cont : Address) (s : CString)
  /-- The name of the caller's container, and the size of the file. -/
  | unlink (s : CString) (size : BitVec 32)

/-- The test of `sys_cstop` for a caller in a container. -/
def authorised (cont : Address) (s : CString) (m : Bytes) : Bool :=
  cont = 0 ∨ strcmpAt m s.bytes (cont + BitVec.ofNat 32 nameOffset) = 0

def Call.exec (base : Address) (m : Bytes) : Call → Bytes
  | .setName s vc => Frame.setName base s vc m
  | .setMaxMem v vc => Frame.setMaxMem base v vc m
  | .setMaxDisk v vc => Frame.setMaxDisk base v vc m
  | .setMaxProc v vc => Frame.setMaxProc base v vc m
  | .setCurrMem v vc => Frame.setCurrMem base v vc m
  | .setCurrDisk v vc => Frame.setCurrDisk base v vc m
  | .setCurrProc v vc => Frame.setCurrProc base v vc m
  -- `sys_reduce_curr_mem` calls `set_curr_mem`.
  | .reduceCurrMem v vc => Frame.setCurrMem base v vc m
  -- `sys_container_reset` fetches argument 1, where its only argument is argument 0.
  | .containerReset _ word1 => Frame.containerReset base word1 m
  | .setRootInode s root => Frame.setRootInode base s root m
  | .cstop cont s =>
    if authorised cont s m then Frame.containerReset base (found base m s) m else m
  | .unlink s size => Frame.setCurrDisk base (-size) (found base m s) m

/-- The record that a call is asked to change. -/
def Call.asked (base : Address) (m : Bytes) : Call → Option Cont
  | .setName _ vc | .setMaxMem _ vc | .setMaxDisk _ vc | .setMaxProc _ vc | .setCurrMem _ vc
  | .setCurrDisk _ vc | .setCurrProc _ vc | .reduceCurrMem _ vc | .containerReset vc _ => index vc
  | .setRootInode s _ | .cstop _ s | .unlink s _ => find base m s

/-! ## Frames -/

/-- The byte belongs to record `c`. -/
def InRecord (base : Address) (c : Cont) (x : Address) : Prop :=
  (x - record base (BitVec.ofNat 32 c)).toNat < recordSize

/-- Only bytes of the record asked for change; without one, nothing changes. -/
def Kept (base : Address) (asked : Option Cont) (m m' : Bytes) : Prop :=
  ∀ x, (∀ c, asked = some c → ¬ InRecord base c x) → m' x = m x

/-- Each byte that is stored lies in the record asked for or is there already. -/
def Lands (base : Address) (asked : Option Cont) (m : Bytes) (a : Address) (bs : List Byte) : Prop :=
  ∀ x, (x - a).toNat < bs.length →
    (∃ c, asked = some c ∧ InRecord base c x) ∨ m x = bs.getD (x - a).toNat 0

theorem kept_self (base : Address) (asked : Option Cont) (m : Bytes) : Kept base asked m m :=
  fun _ _ => rfl

variable {base a : Address} {asked : Option Cont} {m : Bytes}

variable {bs : List Byte} {x : Address} {vc v : BitVec 32} {c : Cont} {s : CString} {f : Field}
  {unit : Int}

theorem store_inside (h : (x - a).toNat < bs.length) :
    store m a bs x = bs.getD (x - a).toNat 0 := if_pos h

theorem store_outside (h : ¬ (x - a).toNat < bs.length) :
    store m a bs x = m x := if_neg h

/-- A call that leaves `b` wherever `W x b`, and nothing else. -/
theorem kept_iff {m' : Bytes} {W : Address → Byte → Prop} (hin : ∀ x b, W x b → m' x = b)
    (hout : ∀ x, (∀ b, ¬ W x b) → m' x = m x) :
    Kept base asked m m' ↔
      ∀ x b, W x b → (∃ c, asked = some c ∧ InRecord base c x) ∨ m x = b := by
  constructor
  · intro h x b hx
    by_cases hrec : ∃ c, asked = some c ∧ InRecord base c x
    · exact .inl hrec
    · have hsame := h x fun c hc hin => hrec ⟨c, hc, hin⟩
      exact .inr (hsame.symm.trans (hin x b hx))
  · intro h x hrec
    by_cases hx : ∃ b, W x b
    · obtain ⟨b, hx⟩ := hx
      rcases h x b hx with ⟨c, hc, hin⟩ | hsame
      · exact absurd hin (hrec c hc)
      · rw [hin x b hx, hsame]
    · exact hout x fun b hb => hx ⟨b, hb⟩

theorem kept_store : Kept base asked m (store m a bs) ↔ Lands base asked m a bs := by
  rw [kept_iff (W := fun x b => (x - a).toNat < bs.length ∧ b = bs.getD (x - a).toNat 0)]
  · exact ⟨fun h x hx => h x _ ⟨hx, rfl⟩, fun h x b hx => hx.2 ▸ h x hx.1⟩
  · rintro x b ⟨hx, rfl⟩
    exact store_inside hx
  · exact fun x hx => store_outside fun hlt => hx _ ⟨hlt, rfl⟩

/-- The bytes at an offset, seen from the start. -/
theorem sub_offset_lt_iff {offset n : Nat} (h : offset + n ≤ recordSize) :
    (x - (a + BitVec.ofNat 32 offset)).toNat < n ↔
      offset ≤ (x - a).toNat ∧ (x - a).toNat < offset + n := by
  have hx := x.isLt
  have ha := a.isLt
  simp only [recordSize] at h
  simp only [BitVec.toNat_sub, BitVec.toNat_add, BitVec.toNat_ofNat]
  omega

/-- Stores to different parts of a record do not disturb each other. -/
theorem storeAll_apply {l : List (Nat × List Byte)}
    (hfit : ∀ st ∈ l, st.1 + st.2.length ≤ recordSize)
    (hl : l.Pairwise fun st st' => st.1 + st.2.length ≤ st'.1 ∨ st'.1 + st'.2.length ≤ st.1)
    (m : Bytes) (x : Address) :
    (∀ st ∈ l, (x - (a + BitVec.ofNat 32 st.1)).toNat < st.2.length →
      storeAll m a l x = st.2.getD (x - (a + BitVec.ofNat 32 st.1)).toNat 0) ∧
    ((∀ st ∈ l, ¬ (x - (a + BitVec.ofNat 32 st.1)).toNat < st.2.length) → storeAll m a l x = m x) := by
  induction l generalizing m with
  | nil => exact ⟨nofun, fun _ => rfl⟩
  | cons st l ih =>
    obtain ⟨hhead, htail⟩ := List.pairwise_cons.mp hl
    have hrest := ih (fun st' h => hfit st' (List.mem_cons_of_mem _ h)) htail
      (store m (a + BitVec.ofNat 32 st.1) st.2)
    refine ⟨fun st' hst' hx => ?_, fun hout => ?_⟩
    · rcases List.mem_cons.mp hst' with rfl | hmem
      · have hother : ∀ st ∈ l, ¬ (x - (a + BitVec.ofNat 32 st.1)).toNat < st.2.length := by
          intro st hst hin
          rw [sub_offset_lt_iff (hfit st (List.mem_cons_of_mem _ hst))] at hin
          rw [sub_offset_lt_iff (hfit st' (List.mem_cons_self ..))] at hx
          have hdisjoint := hhead st hst
          omega
        exact (hrest.2 hother).trans (store_inside hx)
      · exact hrest.1 st' hmem hx
    · exact (hrest.2 fun st' h => hout st' (List.mem_cons_of_mem _ h)).trans
        (store_outside (hout st (List.mem_cons_self ..)))

theorem kept_storeAll {l : List (Nat × List Byte)}
    (hfit : ∀ st ∈ l, st.1 + st.2.length ≤ recordSize)
    (hl : l.Pairwise fun st st' => st.1 + st.2.length ≤ st'.1 ∨ st'.1 + st'.2.length ≤ st.1) :
    Kept base asked m (storeAll m a l) ↔
      ∀ st ∈ l, Lands base asked m (a + BitVec.ofNat 32 st.1) st.2 := by
  rw [kept_iff (W := fun x b => ∃ st ∈ l, (x - (a + BitVec.ofNat 32 st.1)).toNat < st.2.length ∧
    b = st.2.getD (x - (a + BitVec.ofNat 32 st.1)).toNat 0)]
  · exact ⟨fun h st hst x hx => h x _ ⟨st, hst, hx, rfl⟩,
      fun h x b ⟨st, hst, hx, hb⟩ => hb ▸ h st hst x hx⟩
  · rintro x b ⟨st, hst, hx, rfl⟩
    exact (storeAll_apply hfit hl m x).1 st hst hx
  · exact fun x hx => (storeAll_apply hfit hl m x).2 fun st hst hlt => hx _ ⟨st, hst, hlt, rfl⟩

theorem resetStores_fit : ∀ st ∈ resetStores, st.1 + st.2.length ≤ recordSize := by decide

theorem resetStores_disjoint : resetStores.Pairwise fun st st' =>
    st.1 + st.2.length ≤ st'.1 ∨ st'.1 + st'.2.length ≤ st.1 := by decide

/-! ## Stores inside of the record -/

theorem index_eq_some : index vc = some c ↔ vc = BitVec.ofNat 32 c := by
  have hc := c.isLt
  simp only [maxContainers] at hc
  unfold index
  constructor
  · intro h
    split at h
    · cases h
      simp
    · cases h
  · rintro rfl
    have hval : (BitVec.ofNat 32 c.val).toNat = c.val := by
      rw [BitVec.toNat_ofNat]
      omega
    rw [dif_pos (by rw [hval]; exact c.isLt)]
    exact congrArg some (Fin.ext hval)

/-- What fits behind its offset lands in the record. -/
theorem lands_of_fit {offset : Nat} (h : offset + bs.length ≤ recordSize) :
    Lands base (some c) m (entry base (BitVec.ofNat 32 c) offset) bs := by
  intro x hx
  rw [entry, sub_offset_lt_iff h] at hx
  refine .inl ⟨c, rfl, ?_⟩
  unfold InRecord
  omega

theorem lands_reset : ∀ st ∈ resetStores,
    Lands base (some c) m (entry base (BitVec.ofNat 32 c) st.1) st.2 :=
  fun st hst => lands_of_fit (resetStores_fit st hst)

/-! ## Stores without a record -/

/-- A word that no record was asked for may be stored only where it is already. -/
theorem lands_word_iff : Lands base none m a (wordBytes v.toNat) ↔ load m a = v := by
  have hview : ∀ x, (x - a).toNat < 4 → m x = view m a (x - a).toNat := by
    intro x _
    rw [view, BitVec.ofNat_toNat, BitVec.setWidth_eq, BitVec.add_comm, BitVec.sub_add_cancel]
  constructor
  · intro h
    have hread : readWord (view m a) 0 = readWord (writeWord (view m a) 0 v.toNat) 0 := by
      refine readWord_congr fun i _ hi => ?_
      have hi : i < (wordBytes v.toNat).length := by simpa using hi
      have hsub : (a + BitVec.ofNat 32 i - a).toNat = i := by
        rw [wordBytes_length] at hi
        rw [BitVec.add_comm, BitVec.add_sub_cancel, BitVec.toNat_ofNat]
        omega
      have hstored := h (a + BitVec.ofNat 32 i) (by rw [hsub]; exact hi)
      rcases hstored with ⟨c, hc, -⟩ | hstored
      · cases hc
      · rw [hsub] at hstored
        rw [writeWord, ← Nat.zero_add i, blit_inside _ 0 _ hi, Nat.zero_add, ← hstored, view]
    rw [load, hread, readWord_writeWord, Nat.mod_eq_of_lt v.isLt, BitVec.ofNat_toNat,
      BitVec.setWidth_eq]
  · rintro rfl x hx
    rw [wordBytes_length] at hx
    have hlt := readWord_lt (view m a) 0
    refine .inr ?_
    rw [load, BitVec.toNat_ofNat, Nat.mod_eq_of_lt hlt, wordBytes_readWord _ _ hx, Nat.zero_add]
    exact hview x hx

theorem kept_storeWord_none : Kept base none m (storeWord m a v) ↔ load m a = v :=
  kept_store.trans lands_word_iff

/-! ## The calls -/

/-- The index is one of the table. -/
def InTable (vc : BitVec 32) : Prop := vc.toNat < maxContainers

theorem inTable_iff : InTable vc ↔ ∃ c, index vc = some c := by
  unfold InTable index
  split
  · next h => exact ⟨fun _ => ⟨_, rfl⟩, fun _ => h⟩
  · next h => exact ⟨fun h' => absurd h' h, nofun⟩

theorem index_eq_none (h : ¬ InTable vc) : index vc = none := dif_neg h

theorem found_of_some (h : find base m s = some c) : found base m s = BitVec.ofNat 32 c := by
  rw [found, h]
  rfl

theorem found_of_none (h : find base m s = none) : found base m s = -1 := by
  rw [found, h]
  rfl

/-- Storing a field of the record asked for. -/
theorem kept_setField_some : Kept base (some c) m (setField f base v (BitVec.ofNat 32 c) m) :=
  kept_store.mpr (lands_of_fit (by simpa using field_offset_le f))

theorem kept_setField :
    Kept base (index vc) m (setField f base v vc m) ↔
      InTable vc ∨ load m (entry base vc f.offset) = v := by
  by_cases hvc : InTable vc
  · obtain ⟨c, hc⟩ := inTable_iff.mp hvc
    rw [hc, index_eq_some.mp hc]
    exact iff_of_true kept_setField_some (.inl (index_eq_some.mp hc ▸ hvc))
  · rw [index_eq_none hvc, or_iff_right hvc]
    exact kept_storeWord_none

theorem kept_charge_some {g : Field} :
    Kept base (some c) m (charge f g unit base v (BitVec.ofNat 32 c) m) := by
  unfold charge
  split
  · exact kept_self _ _ _
  · exact kept_setField_some

/-- Without a record, a counter must not change: the limit is exceeded, or nothing is added. -/
theorem kept_charge_none {g : Field} :
    Kept base none m (charge f g unit base v vc m) ↔ v = 0 ∨ exceeds f g unit base v vc m = true := by
  unfold charge
  split
  · next h => exact iff_of_true (kept_self _ _ _) (.inr h)
  · next h =>
    rw [or_iff_left h]
    refine kept_storeWord_none.trans ⟨fun heq => ?_, fun hv => ?_⟩
    · exact BitVec.add_right_eq_self.mp heq.symm
    · rw [hv]
      exact (BitVec.add_zero _).symm

theorem kept_charge {g : Field} :
    Kept base (index vc) m (charge f g unit base v vc m) ↔
      InTable vc ∨ v = 0 ∨ exceeds f g unit base v vc m = true := by
  by_cases hvc : InTable vc
  · obtain ⟨c, hc⟩ := inTable_iff.mp hvc
    rw [hc, index_eq_some.mp hc]
    exact iff_of_true kept_charge_some (.inl (index_eq_some.mp hc ▸ hvc))
  · rw [index_eq_none hvc, or_iff_right hvc]
    exact kept_charge_none

theorem kept_setName :
    Kept base (index vc) m (setName base s vc m) ↔
      InTable vc ∧ nameOffset + strlen s < recordSize ∨
        Lands base (index vc) m (entry base vc nameOffset) (toBytes s) := by
  refine kept_store.trans (or_iff_right_iff_imp.mpr ?_).symm
  rintro ⟨hvc, hlen⟩
  obtain ⟨c, hc⟩ := inTable_iff.mp hvc
  rw [hc, index_eq_some.mp hc]
  refine lands_of_fit ?_
  rw [toBytes, List.length_append, List.length_singleton]
  exact hlen

theorem root_fits {v : Nat} : rootOffset + (wordBytes v).length ≤ recordSize := by
  rw [wordBytes_length]
  decide

/-- What `container_reset` stores at index `vc` lands in the record asked for. -/
def ResetLands (base : Address) (asked : Option Cont) (m : Bytes) (vc : BitVec 32) : Prop :=
  ∀ st ∈ resetStores, Lands base asked m (entry base vc st.1) st.2

theorem kept_containerReset :
    Kept base asked m (containerReset base vc m) ↔ ResetLands base asked m vc :=
  kept_storeAll resetStores_fit resetStores_disjoint

/-- The condition under which a call changes at most the record that it was asked to
change. -/
def Call.Confined (base : Address) (m : Bytes) : Call → Prop
  | .setName s vc =>
    InTable vc ∧ nameOffset + strlen s < recordSize ∨
      Lands base (index vc) m (entry base vc nameOffset) (toBytes s)
  | .setMaxMem v vc => InTable vc ∨ load m (entry base vc Field.maxMem.offset) = v
  | .setMaxDisk v vc => InTable vc ∨ load m (entry base vc Field.maxDisk.offset) = v
  | .setMaxProc v vc => InTable vc ∨ load m (entry base vc Field.maxProc.offset) = v
  | .setCurrMem _ vc | .reduceCurrMem _ vc =>
    InTable vc ∨ exceeds .currMem .maxMem 1 base 1 vc m = true
  | .setCurrDisk v vc => InTable vc ∨ v = 0 ∨ exceeds .currDisk .maxDisk 1024 base v vc m = true
  | .setCurrProc v vc => InTable vc ∨ v = 0 ∨ exceeds .currProc .maxProc 1 base v vc m = true
  | .containerReset vc word1 => InTable vc ∧ word1 = vc ∨ ResetLands base (index vc) m word1
  | .setRootInode s root =>
    (find base m s).isSome ∨ load m (entry base (-1) rootOffset) = root
  | .cstop cont s =>
    authorised cont s m = false ∨ (find base m s).isSome ∨ ResetLands base none m (-1)
  | .unlink s size =>
    (find base m s).isSome ∨ size = 0 ∨ exceeds .currDisk .maxDisk 1024 base (-size) (-1) m = true

/-- A call changes at most the record that it was asked to change exactly when its index is
one of the table, or some record has its name, and its name fits into the record, or what it
stores elsewhere is there already. -/
theorem call_frame_iff (base : Address) (m : Bytes) (x : Call) :
    Kept base (x.asked base m) m (x.exec base m) ↔ x.Confined base m := by
  have hone : (1 : BitVec 32) ≠ 0 := by decide
  cases x with
  | setName s vc => exact kept_setName
  | setMaxMem v vc => exact kept_setField
  | setMaxDisk v vc => exact kept_setField
  | setMaxProc v vc => exact kept_setField
  | setCurrMem v vc => exact kept_charge.trans (or_congr_right (or_iff_right hone))
  | setCurrDisk v vc => exact kept_charge
  | setCurrProc v vc => exact kept_charge
  | reduceCurrMem v vc => exact kept_charge.trans (or_congr_right (or_iff_right hone))
  | containerReset vc word1 =>
    refine kept_containerReset.trans (or_iff_right_iff_imp.mpr ?_).symm
    rintro ⟨hvc, rfl⟩
    obtain ⟨c, hc⟩ := inTable_iff.mp hvc
    change ResetLands base (index word1) m word1
    rw [hc, index_eq_some.mp hc]
    exact lands_reset
  | setRootInode s root =>
    change Kept base (find base m s) m (storeWord m (entry base (found base m s) rootOffset) root) ↔
      (find base m s).isSome ∨ load m (entry base (-1) rootOffset) = root
    cases hfind : find base m s with
    | none =>
      rw [found_of_none hfind]
      exact kept_storeWord_none.trans (or_iff_right Bool.false_ne_true).symm
    | some c =>
      rw [found_of_some hfind]
      exact iff_of_true (kept_store.mpr (lands_of_fit root_fits)) (.inl rfl)
  | cstop cont s =>
    change Kept base (find base m s) m
        (if authorised cont s m then containerReset base (found base m s) m else m) ↔
      authorised cont s m = false ∨ (find base m s).isSome ∨ ResetLands base none m (-1)
    cases hauth : authorised cont s m with
    | false => exact iff_of_true (kept_self _ _ _) (.inl rfl)
    | true =>
      rw [if_pos rfl, or_iff_right (by decide), kept_containerReset]
      cases hfind : find base m s with
      | none =>
        rw [found_of_none hfind]
        exact (or_iff_right Bool.false_ne_true).symm
      | some c =>
        rw [found_of_some hfind]
        exact iff_of_true lands_reset (.inl rfl)
  | unlink s size =>
    change Kept base (find base m s) m (setCurrDisk base (-size) (found base m s) m) ↔
      (find base m s).isSome ∨ size = 0 ∨
        exceeds .currDisk .maxDisk 1024 base (-size) (-1) m = true
    cases hfind : find base m s with
    | none =>
      rw [found_of_none hfind]
      refine kept_charge_none.trans ((or_congr_left ?_).trans (or_iff_right Bool.false_ne_true).symm)
      exact BitVec.neg_eq_zero_iff
    | some c =>
      rw [found_of_some hfind]
      exact iff_of_true kept_charge_some (.inl rfl)

/-- A table of empty records, in the middle of zeros. -/
def zeros : Bytes := fun _ => 0

/-- A name of `n` bytes. -/
def longName (n : Nat) : CString := ⟨List.replicate n 97, by simp [List.mem_replicate]⟩

/-- On a table of zeros the call stores outside of the record it is asked to change. -/
def Strays (x : Call) : Prop :=
  ¬ Kept 0x80112000 (x.asked 0x80112000 zeros) zeros (x.exec 0x80112000 zeros)

/-- A long name runs into the next record; an index or a missing name stores before the
table; `container_reset` resets another record. -/
theorem calls_store_elsewhere :
    Strays (.setName (longName 41) 0) ∧ Strays (.setMaxMem 7 (-1)) ∧
      Strays (.setRootInode (longName 1) 5) ∧ Strays (.containerReset 1 0) ∧
      Strays (.cstop 0 (longName 1)) := by
  refine ⟨fun h => ?_, fun h => ?_, fun h => ?_, fun h => ?_, fun h => ?_⟩
  · exact absurd (h (0x80112000 + 68) (by rintro c ⟨⟩; unfold InRecord; decide)) (by decide)
  · exact absurd (h (0x80112000 - 68) nofun) (by decide)
  · exact absurd (h (0x80112000 - 8) nofun) (by decide)
  · exact absurd (h (0x80112000 + 4) (by rintro c ⟨⟩; unfold InRecord; decide)) (by decide)
  · exact absurd (h (0x80112000 - 64) nofun) (by decide)

end Xv6Containers.Container.Frame
