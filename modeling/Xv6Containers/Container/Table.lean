import Xv6Containers.Param
import Xv6Containers.Lib.CString
import Xv6Containers.Lib.Search

/-!
# The container table

`containers[MAX_CONTAINERS]` of `container.c` as the bytes it occupies, so that
an unbounded `strcpy` into a name runs into the fields behind it.

## Implementation notes

A function returns `none` where the source writes outside the array. What lies
behind the array is not modelled: a name that reaches its end ends there.
-/

namespace Xv6Containers

open Lib.Memory Lib.Strings Lib.Search

instance : NeZero maxContainers := ⟨by decide⟩

/-- An index into `containers`, which is what a `struct container *` is here. -/
abbrev Cont := Fin maxContainers

namespace Container

/-- `sizeof(struct container)`. -/
def recordSize : Nat := 68

/-- The offsets of the fields of `struct container`. -/
inductive Field
  | maxMem
  | maxProc
  | maxDisk
  | currMem
  | currProc
  | currDisk
  | ticks
  deriving DecidableEq

def Field.offset : Field → Nat
  | .maxMem => 0
  | .maxProc => 4
  | .maxDisk => 8
  | .currMem => 12
  | .currProc => 16
  | .currDisk => 20
  | .ticks => 64

/-- The offset of `name`. -/
def nameOffset : Nat := 28

/-- The length of the array `name`. -/
def nameSize : Nat := 32

/-- The bytes of the array. -/
def tableSize : Nat := recordSize * maxContainers

/-- The bytes of `containers`. -/
abbrev Table := Mem

def address (c : Nat) (offset : Nat) : Nat := recordSize * c + offset

/-- `containers[c].name`. -/
def name (m : Table) (c : Cont) : CString :=
  ofBytes ((List.range (tableSize - address c nameOffset)).map fun i => m (address c nameOffset + i))

def field (m : Table) (c : Cont) (f : Field) : Nat := readWord m (address c f.offset)

/-- The bits of an `int`. -/
def word (v : Int) : Nat := (v % 2 ^ 32).toNat

/-- The record that an `int` index selects. -/
def index (vc : Int) : Option Cont :=
  if h : 0 ≤ vc ∧ vc < maxContainers then some ⟨vc.toNat, by omega⟩ else none

/-- `find`: the first record of that name; no record for the empty name. -/
def find (m : Table) (s : CString) : Option Cont :=
  first fun c => strcmp s.bytes [] ≠ 0 ∧ strcmp s.bytes (name m c).bytes = 0

def setField (f : Field) (v vc : Int) (m : Table) : Option Table :=
  (index vc).map fun c : Cont => writeWord m (address c f.offset) (word v)

def setMaxMem (mem vc : Int) : Table → Option Table := setField .maxMem mem vc

def setMaxDisk (disk vc : Int) : Table → Option Table := setField .maxDisk disk vc

def setMaxProc (procs vc : Int) : Table → Option Table := setField .maxProc procs vc

/-- `set_name`, with the `strcpy` it consists of. -/
def setName (s : CString) (vc : Int) (m : Table) : Option Table :=
  (index vc).bind fun c : Cont =>
    if address c nameOffset + (toBytes s).length ≤ tableSize then
      some (blit m (address c nameOffset) (toBytes s))
    else none

/-- The empty string. -/
def emptyName : CString := ⟨[], nul_not_mem_nil⟩

/-- The `int` fields that `container_reset` stores, in its order. -/
def resetFields : List (Field × Int) :=
  [(.maxProc, 6), (.maxDisk, 100), (.maxMem, 500), (.currProc, 1), (.currDisk, 0), (.currMem, 0),
    (.ticks, 0)]

def storeFields (c : Cont) (m : Table) : List (Field × Int) → Table
  | [] => m
  | (f, v) :: rest => storeFields c (writeWord m (address c f.offset) (word v)) rest

/-- The stores of `container_reset` to record `c`. -/
def reset (m : Table) (c : Cont) : Table :=
  storeFields c (blit m (address c nameOffset) (toBytes emptyName)) resetFields

/-- `container_reset`. -/
def containerReset (vc : Int) (m : Table) : Option Table :=
  (index vc).map (reset m)

/-- `containers[c]` is the same in both tables. -/
def SameRecord (m m' : Table) (c : Cont) : Prop :=
  ∀ i < recordSize, m' (address c i) = m (address c i)

/-- Every record but `a` is the same in both tables. -/
def OthersKept (a : Cont) (m m' : Table) : Prop := ∀ c, c ≠ a → SameRecord m m' c

theorem OthersKept.refl (a : Cont) (m : Table) : OthersKept a m m := fun _ _ _ _ => rfl

variable {c : Cont} {m : Table}

theorem index_eq_some {vc : Int} : index vc = some c ↔ vc = c := by
  unfold index
  constructor
  · intro h
    split at h
    · next hrange =>
      cases h
      simp only
      omega
    · cases h
  · rintro rfl
    have hc := c.isLt
    rw [dif_pos ⟨by omega, by omega⟩]
    simp

theorem find_eq_some {s : CString} :
    find m s = some c ↔ s ≠ emptyName ∧ name m c = s ∧ ∀ d < c, name m d ≠ s := by
  have hempty : strcmp s.bytes [] = 0 ↔ s = emptyName := strcmp_eq_zero_iff s emptyName
  unfold find
  rw [first_eq_some]
  simp only [ne_eq, hempty, strcmp_eq_zero_iff, decide_eq_true_eq, decide_eq_false_iff_not]
  grind

/-! ## What a write changes -/

/-- A write leaves the other records alone exactly when each byte lies in record `a` or is
there already. -/
theorem othersKept_blit {a : Cont} {offset : Nat} {bs : List Byte}
    (hfit : address c offset + bs.length ≤ tableSize) :
    OthersKept a m (blit m (address c offset) bs) ↔
      ∀ i < bs.length, (address c offset + i) / recordSize = a ∨
        m (address c offset + i) = bs.getD i 0 := by
  constructor
  · intro h i hi
    by_contra hne
    push Not at hne
    have hlt : (address c offset + i) / recordSize < maxContainers := by
      simp only [tableSize, recordSize] at *
      omega
    have hrec : (⟨(address c offset + i) / recordSize, hlt⟩ : Cont) ≠ a :=
      fun heq => hne.1 (by rw [← heq])
    have hat : address ((address c offset + i) / recordSize)
        ((address c offset + i) % recordSize) = address c offset + i := Nat.div_add_mod _ _
    have hsame := h _ hrec ((address c offset + i) % recordSize) (Nat.mod_lt _ (by decide))
    rw [hat, blit_inside m _ bs hi] at hsame
    exact hne.2 hsame.symm
  · intro h d hd j hj
    by_cases hin : address c offset ≤ address d j ∧ address d j < address c offset + bs.length
    · obtain ⟨i, hi⟩ := Nat.exists_eq_add_of_le hin.1
      rw [hi, blit_inside m _ bs (by omega)]
      rcases h i (by omega) with hrec | hbyte
      · have hdiv : address d j / recordSize = d := by
          simp only [address, recordSize] at hj ⊢
          omega
        rw [← hi, hdiv] at hrec
        exact absurd (Fin.ext hrec) hd
      · exact hbyte.symm
    · exact blit_disjoint m bs (by omega)

theorem field_offset_le (f : Field) : f.offset + 4 ≤ recordSize := by
  cases f <;> decide

theorem address_fit (c : Cont) {offset n : Nat} (h : offset + n ≤ recordSize) :
    address c offset + n ≤ tableSize := by
  have hc := c.isLt
  simp only [address, tableSize, recordSize, maxContainers] at *
  omega

theorem address_div (c : Cont) {offset i : Nat} (h : offset + i < recordSize) :
    (address c offset + i) / recordSize = c := by
  simp only [address, recordSize] at *
  omega

/-- Storing a field leaves the other records alone exactly when it is a field of `a` or
holds the value already. -/
theorem othersKept_writeWord {a : Cont} {f : Field} {v : Nat} (hv : v < 2 ^ 32) :
    OthersKept a m (writeWord m (address c f.offset) v) ↔ c = a ∨ field m c f = v := by
  have hoff := field_offset_le f
  constructor
  · intro h
    by_cases hca : c = a
    · exact Or.inl hca
    · right
      have hsame : readWord (writeWord m (address c f.offset) v) (address c f.offset) =
          readWord m (address c f.offset) := by
        refine readWord_congr fun x hlo hhi => ?_
        obtain ⟨i, rfl⟩ := Nat.exists_eq_add_of_le hlo
        have hrec := h c hca (f.offset + i) (by omega)
        simpa [address, Nat.add_assoc] using hrec
      rw [readWord_writeWord, Nat.mod_eq_of_lt hv] at hsame
      exact hsame.symm
  · rintro (rfl | hfield)
    · unfold writeWord
      rw [othersKept_blit (address_fit c (by simpa using hoff))]
      intro i hi
      rw [wordBytes_length] at hi
      exact Or.inl (address_div c (by omega))
    · rw [← hfield, field, writeWord_readWord]
      exact OthersKept.refl a m

theorem word_lt (v : Int) : word v < 2 ^ 32 := by
  unfold word
  omega

/-- Storing fields of record `c` disturbs nothing else. -/
theorem storeFields_frame (c : Cont) (m : Table) (l : List (Field × Int)) {x : Nat}
    (hx : ∀ fv ∈ l, x < address c fv.1.offset ∨ address c fv.1.offset + 4 ≤ x) :
    storeFields c m l x = m x := by
  induction l generalizing m with
  | nil => rfl
  | cons fv l ih =>
    obtain ⟨f, v⟩ := fv
    rw [storeFields, ih _ fun gw hgw => hx gw (by simp [hgw])]
    exact blit_disjoint m _ (by simpa using hx (f, v) (by simp))

/-- The bytes of two fields do not overlap. -/
theorem field_disjoint {f g : Field} (h : f ≠ g) :
    f.offset + 4 ≤ g.offset ∨ g.offset + 4 ≤ f.offset := by
  cases f <;> cases g <;> first | exact absurd rfl h | decide

theorem name_disjoint (f : Field) : nameOffset < f.offset ∨ f.offset + 4 ≤ nameOffset := by
  cases f <;> decide

/-- Each stored field reads back. -/
theorem field_storeFields (c : Cont) (m : Table) (l : List (Field × Int))
    (hl : (l.map Prod.fst).Nodup) {f : Field} {v : Int} (hfv : (f, v) ∈ l) :
    field (storeFields c m l) c f = word v := by
  induction l generalizing m with
  | nil => simp at hfv
  | cons gw l ih =>
    obtain ⟨g, w⟩ := gw
    simp only [List.map_cons, List.nodup_cons] at hl
    rw [storeFields]
    by_cases htail : (f, v) ∈ l
    · exact ih _ hl.2 htail
    · have heq : (f, v) = (g, w) := (List.mem_cons.mp hfv).resolve_right htail
      cases heq
      unfold field
      have hframe : readWord (storeFields c (writeWord m (address c f.offset) (word v)) l)
          (address c f.offset) =
          readWord (writeWord m (address c f.offset) (word v)) (address c f.offset) := by
        refine readWord_congr fun x hlo hhi => storeFields_frame c _ l fun hu hmem => ?_
        have hne : f ≠ hu.1 := by
          rintro rfl
          exact hl.1 (List.mem_map_of_mem hmem)
        have hdis := field_disjoint hne
        simp only [address] at *
        omega
      rw [hframe, readWord_writeWord, Nat.mod_eq_of_lt (word_lt v)]

/-- The record is as `container_reset` leaves it. -/
def IsReset (m : Table) (c : Cont) : Prop :=
  m (address c nameOffset) = 0 ∧ ∀ fv ∈ resetFields, field m c fv.1 = word fv.2

/-- Storing what is there already changes nothing. -/
theorem storeFields_of_same (c : Cont) (m : Table) (l : List (Field × Int))
    (h : ∀ fv ∈ l, field m c fv.1 = word fv.2) : storeFields c m l = m := by
  induction l with
  | nil => rfl
  | cons fv l ih =>
    obtain ⟨f, v⟩ := fv
    have hfield := h (f, v) (by simp)
    simp only [field] at hfield
    rw [storeFields, ← hfield, writeWord_readWord]
    exact ih fun gw hgw => h gw (by simp [hgw])

theorem reset_name (m : Table) (c : Cont) : reset m c (address c nameOffset) = 0 := by
  have hframe : reset m c (address c nameOffset) =
      blit m (address c nameOffset) (toBytes emptyName) (address c nameOffset) := by
    refine storeFields_frame c _ resetFields fun fv _ => ?_
    have hdis := name_disjoint fv.1
    simp only [address]
    omega
  rw [hframe]
  exact blit_inside m _ (toBytes emptyName) (i := 0) (by decide)

theorem reset_other (m : Table) {d : Cont} (h : d ≠ c) : SameRecord m (reset m c) d := by
  intro i hi
  have hne : d.val ≠ c.val := fun heq => h (Fin.ext heq)
  have hout (offset : Nat) (hoff : offset + 4 ≤ recordSize) :
      address d i < address c offset ∨ address c offset + 4 ≤ address d i := by
    simp only [address, recordSize] at *
    omega
  unfold reset
  rw [storeFields_frame c _ _ fun fv _ => hout _ (field_offset_le fv.1)]
  refine blit_disjoint m _ ?_
  have hname := hout nameOffset (by decide)
  have hlen : (toBytes emptyName).length = 1 := rfl
  omega

/-- Resetting a record leaves the others alone exactly when it is `a` or reset already. -/
theorem othersKept_reset {a : Cont} : OthersKept a m (reset m c) ↔ c = a ∨ IsReset m c := by
  constructor
  · intro h
    by_cases hca : c = a
    · exact Or.inl hca
    right
    have hsame := h c hca
    constructor
    · rw [← hsame nameOffset (by decide)]
      exact reset_name m c
    · intro fv hfv
      have hread := field_storeFields c (blit m (address c nameOffset) (toBytes emptyName))
        resetFields (by decide) hfv
      rw [← hread]
      refine readWord_congr fun x hlo hhi => ?_
      obtain ⟨i, rfl⟩ := Nat.exists_eq_add_of_le hlo
      have hoff := field_offset_le fv.1
      have hbyte := hsame (fv.1.offset + i) (by omega)
      simp only [address, ← Nat.add_assoc] at hbyte ⊢
      exact hbyte.symm
  · rintro (rfl | ⟨hname, hfields⟩)
    · exact fun d hd => reset_other m hd
    · have hblit : blit m (address c nameOffset) (toBytes emptyName) = m := by
        funext x
        by_cases hx : x = address c nameOffset
        · subst hx
          rw [hname]
          exact blit_inside m _ (toBytes emptyName) (i := 0) (by decide)
        · refine blit_disjoint m _ ?_
          have hlen : (toBytes emptyName).length = 1 := rfl
          omega
      unfold reset
      rw [hblit, storeFields_of_same c m resetFields hfields]
      exact OthersKept.refl a m

/-- The empty name is a zero byte at its start. -/
theorem name_eq_empty_iff : name m c = emptyName ↔ m (address c nameOffset) = 0 := by
  have hpos : 0 < tableSize - address c nameOffset := by
    have hfit : address c nameOffset + 1 ≤ tableSize := address_fit c (by decide)
    omega
  obtain ⟨k, hk⟩ := Nat.exists_eq_succ_of_ne_zero hpos.ne'
  rw [CString.ext_iff]
  simp only [name, ofBytes, emptyName, hk, List.range_succ_eq_map, List.map_cons, Nat.add_zero,
    List.takeWhile_cons]
  split
  · next h => simpa using h
  · next h => simpa using h

end Container

end Xv6Containers
