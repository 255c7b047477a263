import Xv6Containers.Container.Quota

/-!
# The counters of a container

`set_curr_mem`, `reduce_curr_mem` and `set_curr_proc`, with what the stores of
the container functions leave alone. A name that ends inside its array is not
touched by a store to a field.

## Implementation notes

`set_curr_mem` and `reduce_curr_mem` do not read their first argument.
-/

namespace Xv6Containers

open Lib.Memory Lib.Strings Lib.Search

namespace Container

/-- `containers[c].f += n`. -/
def addField (m : Table) (c : Cont) (f : Field) (n : Int) : Table :=
  writeWord m (address c f.offset) (word (intField m c f + n))

/-- `containers[c].cur += n`, unless that passes `containers[c].max`. -/
def addBounded (m : Table) (c : Cont) (cur max : Field) (n : Int) : Table :=
  if intField m c cur + n > intField m c max then m else addField m c cur n

/-- `set_curr_mem`. -/
def setCurrMem (m : Table) (c : Cont) : Table := addBounded m c .currMem .maxMem 1

/-- `reduce_curr_mem`. -/
def reduceCurrMem (m : Table) (c : Cont) : Table := addField m c .currMem (-1)

/-- `set_curr_proc`. -/
def setCurrProc (m : Table) (procs : Int) (c : Cont) : Table :=
  addBounded m c .currProc .maxProc procs

/-- `cstop_container_helper(myproc()->cont)`, which reads its own name through the same pointer
as `find` did. -/
def stopOwn (s : State) (me : ProcSlot) : Option State :=
  resetFound (killLoop me (s.contName me me) (fun _ => false) (List.finRange nproc) s)
    (s.contName me me)

/-- `container_init`. -/
def containerInit (m : Table) : Table := (List.finRange maxContainers).foldl reset m

/-! ## Names -/

/-- The container is in use: its name is not empty. -/
def InUse (m : Table) (c : Cont) : Prop := name m c ≠ emptyName

instance (m : Table) (c : Cont) : Decidable (InUse m c) := by
  unfold InUse
  infer_instance

/-- The name ends inside its array. -/
def NameFits (m : Table) (c : Cont) : Prop :=
  ∃ i < nameSize, m (address c nameOffset + i) = 0

instance (m : Table) (c : Cont) : Decidable (NameFits m c) := by
  unfold NameFits
  infer_instance

/-- The names of the records end inside their arrays, and no two containers in use have one
name. -/
structure NamesOk (m : Table) : Prop where
  fits : ∀ c, NameFits m c
  distinct : ∀ c d, InUse m c → name m c = name m d → c = d

theorem takeWhile_of_take {p : Byte → Bool} {l l' : List Byte} {n : Nat}
    (htake : l'.take n = l.take n) (hstop : ∃ b ∈ l.take n, p b = false) :
    l'.takeWhile p = l.takeWhile p := by
  have hcut (k : List Byte) (hk : ∃ b ∈ k.take n, p b = false) :
      k.takeWhile p = (k.take n).takeWhile p := by
    conv_lhs => rw [← List.take_append_drop n k, List.takeWhile_append]
    rw [if_neg]
    intro hall
    obtain ⟨b, hb, hp⟩ := hk
    have heq := List.takeWhile_prefix p |>.eq_of_length hall
    rw [← heq] at hb
    have htrue := List.mem_takeWhile_imp hb
    rw [hp] at htrue
    cases htrue
  rw [hcut l hstop, hcut l' (by rw [htake]; exact hstop), htake]

variable {m m' : Table} {c : Cont} {nm : CString} {fs : List Field}

/-- The bytes of the array decide a name that ends inside it. -/
theorem name_of_agree (hfit : NameFits m c)
    (h : ∀ i < nameSize, m' (address c nameOffset + i) = m (address c nameOffset + i)) :
    name m' c = name m c := by
  have hlen : nameSize ≤ tableSize - address c nameOffset := by
    have hfits : address c nameOffset + nameSize ≤ tableSize := address_fit c (by decide)
    omega
  have htake (k : Table) : ((List.range (tableSize - address c nameOffset)).map fun i =>
      k (address c nameOffset + i)).take nameSize =
      (List.range nameSize).map fun i => k (address c nameOffset + i) := by
    rw [← List.map_take, List.take_range, Nat.min_eq_left hlen]
  rw [CString.ext_iff]
  refine takeWhile_of_take (n := nameSize) ?_ ?_
  · rw [htake, htake]
    refine List.map_congr_left fun i hi => h i (List.mem_range.mp hi)
  · obtain ⟨i, hi, hzero⟩ := hfit
    rw [htake]
    exact ⟨0, List.mem_map.mpr ⟨i, List.mem_range.mpr hi, hzero⟩, by simp⟩

theorem NameFits.of_agree (hfit : NameFits m c)
    (h : ∀ i < nameSize, m' (address c nameOffset + i) = m (address c nameOffset + i)) :
    NameFits m' c := by
  obtain ⟨i, hi, hzero⟩ := hfit
  exact ⟨i, hi, (h i hi).trans hzero⟩

/-- The array `name` lies between the counters and `ticks`. -/
theorem name_array_disjoint (f : Field) : f.offset + 4 ≤ nameOffset ∨ nameOffset + nameSize ≤ f.offset := by
  cases f <;> decide

/-- A store to a field misses every name. -/
theorem writeWord_name (m : Table) (c d : Cont) (f : Field) (v : Nat) {i : Nat} (hi : i < nameSize) :
    writeWord m (address c f.offset) v (address d nameOffset + i) = m (address d nameOffset + i) := by
  refine blit_disjoint m _ ?_
  have hoff := field_offset_le f
  have hdis := name_array_disjoint f
  simp only [address, recordSize, nameOffset, nameSize, wordBytes_length] at *
  omega

theorem field_writeWord_self (m : Table) (c : Cont) (f : Field) (v : Int) :
    field (writeWord m (address c f.offset) (word v)) c f = word v := by
  rw [field, readWord_writeWord, Nat.mod_eq_of_lt (word_lt v)]

theorem field_writeWord_of_ne (m : Table) {d : Cont} {f g : Field} (v : Nat) (h : d = c → g ≠ f) :
    field (writeWord m (address c f.offset) v) d g = field m d g := by
  refine readWord_writeWord_disjoint m v ?_
  have hf := field_offset_le f
  have hg := field_offset_le g
  by_cases hcd : d = c
  · subst hcd
    have hdis := field_disjoint (h rfl)
    simp only [address]
    omega
  · have hne : d.val ≠ c.val := fun heq => hcd (Fin.ext heq)
    simp only [address, recordSize] at *
    omega

/-- An `int` that fits reads back. -/
theorem toSigned_word {v : Int} (hlo : -2147483648 ≤ v) (hhi : v < 2147483648) :
    toSigned (word v) = v := by
  unfold toSigned word
  split <;> omega

theorem intField_range (m : Table) (c : Cont) (f : Field) :
    -2147483648 ≤ intField m c f ∧ intField m c f < 2147483648 := by
  have hlt := readWord_lt m (address c f.offset)
  unfold intField toSigned field
  split <;> omega

/-! ## What the counters leave alone -/

/-- The two tables have the same names. -/
structure SameNames (m m' : Table) : Prop where
  name : ∀ c, name m' c = name m c
  fits : ∀ c, NameFits m' c

theorem SameNames.refl (h : NamesOk m) : SameNames m m := ⟨fun _ => rfl, h.fits⟩

theorem SameNames.inUse (h : SameNames m m') (c : Cont) : InUse m' c ↔ InUse m c := by
  rw [InUse, InUse, h.name]

theorem SameNames.ok (h : SameNames m m') (hm : NamesOk m) : NamesOk m' := by
  refine ⟨h.fits, fun c d hc hcd => hm.distinct c d ((h.inUse c).mp hc) ?_⟩
  rw [← h.name c, ← h.name d]
  exact hcd

theorem sameNames_writeWord_of_fits (hm : ∀ c, NameFits m c) (c : Cont) (f : Field) (v : Nat) :
    SameNames m (writeWord m (address c f.offset) v) := by
  have hagree (d : Cont) (i : Nat) (hi : i < nameSize) := writeWord_name m c d f v hi
  exact ⟨fun d => name_of_agree (hm d) (hagree d), fun d => (hm d).of_agree (hagree d)⟩

theorem sameNames_writeWord (hm : NamesOk m) (c : Cont) (f : Field) (v : Nat) :
    SameNames m (writeWord m (address c f.offset) v) :=
  sameNames_writeWord_of_fits hm.fits c f v

theorem sameNames_addBounded (hm : NamesOk m) (c : Cont) (cur max : Field) (n : Int) :
    SameNames m (addBounded m c cur max n) := by
  unfold addBounded
  split
  · exact .refl hm
  · exact sameNames_writeWord hm c cur _

theorem intField_addField_of_ne (m : Table) {d : Cont} {f g : Field} (n : Int) (h : d = c → g ≠ f) :
    intField (addField m c f n) d g = intField m d g := by
  unfold intField addField
  rw [field_writeWord_of_ne m _ h]

theorem intField_addField (m : Table) (c : Cont) (f : Field) (n : Int)
    (hlo : -2147483648 ≤ intField m c f + n) (hhi : intField m c f + n < 2147483648) :
    intField (addField m c f n) c f = intField m c f + n := by
  rw [intField, addField, field_writeWord_self, toSigned_word hlo hhi]

theorem intField_addBounded_of_ne (m : Table) {d : Cont} {cur max g : Field} (n : Int)
    (h : d = c → g ≠ cur) : intField (addBounded m c cur max n) d g = intField m d g := by
  unfold addBounded
  split
  · rfl
  · exact intField_addField_of_ne m n h

/-- The container that an in-use name leads to. -/
theorem find_name (hm : NamesOk m) (hc : InUse m c) : find m (name m c) = some c := by
  refine find_eq_some.mpr ⟨hc, rfl, fun d hd heq => ?_⟩
  have hcd := hm.distinct c d hc heq.symm
  exact absurd hcd hd.ne'

theorem find_emptyName (m : Table) : find m emptyName = none := by
  cases hf : find m emptyName with
  | none => rfl
  | some c => exact absurd rfl (find_eq_some.mp hf).1

/-- What `find` returns is in use under that name. -/
theorem inUse_of_find (h : find m nm = some c) : InUse m c ∧ name m c = nm := by
  obtain ⟨hne, hname, _⟩ := find_eq_some.mp h
  exact ⟨by rw [InUse, hname]; exact hne, hname⟩

/-! ## Records that are renamed or reset -/

theorem OthersKept.name {a d : Cont} (h : OthersKept a m m') (hd : d ≠ a) (hfit : NameFits m d) :
    name m' d = name m d ∧ NameFits m' d := by
  have hagree (i : Nat) (hi : i < nameSize) :
      m' (address d nameOffset + i) = m (address d nameOffset + i) := by
    have hbyte := h d hd (nameOffset + i) (by
      simp only [recordSize, nameOffset, nameSize] at *
      omega)
    simpa only [address, Nat.add_assoc] using hbyte
  exact ⟨name_of_agree hfit hagree, hfit.of_agree hagree⟩

theorem OthersKept.intField {a d : Cont} (h : OthersKept a m m') (hd : d ≠ a) (f : Field) :
    intField m' d f = intField m d f := by
  have hoff := field_offset_le f
  have hword : field m' d f = field m d f := by
    refine readWord_congr fun x hlo hhi => ?_
    obtain ⟨i, rfl⟩ := Nat.exists_eq_add_of_le hlo
    have hbyte := h d hd (f.offset + i) (by simp only [address] at *; omega)
    simpa only [address, Nat.add_assoc] using hbyte
  rw [Container.intField, Container.intField, hword]

theorem othersKept_reset_self (m : Table) (c : Cont) : OthersKept c m (reset m c) :=
  othersKept_reset.mpr (Or.inl rfl)

theorem name_reset (m : Table) (c : Cont) : name (reset m c) c = emptyName :=
  name_eq_empty_iff.mpr (reset_name m c)

/-- A record that is reset is no longer in use; the other names stay. -/
theorem namesOk_reset (hm : NamesOk m) (c : Cont) : NamesOk (reset m c) := by
  have hkept := othersKept_reset_self m c
  refine ⟨fun d => ?_, fun d e hd hde => ?_⟩
  · by_cases hdc : d = c
    · subst hdc
      exact ⟨0, by decide, reset_name m d⟩
    · exact (hkept.name hdc (hm.fits d)).2
  · have hdc : d ≠ c := by
      rintro rfl
      exact hd (name_reset m d)
    have hec : e ≠ c := by
      rintro rfl
      rw [name_reset] at hde
      exact hd hde
    rw [(hkept.name hdc (hm.fits d)).1, (hkept.name hec (hm.fits e)).1] at hde
    refine hm.distinct d e ?_ hde
    rw [InUse, ← (hkept.name hdc (hm.fits d)).1]
    exact hd

/-- `container_init` clears every name. -/
theorem containerInit_name (m : Table) (c : Cont) :
    containerInit m (address c nameOffset) = 0 := by
  have hloop (cs : List Cont) (m : Table) (h : c ∈ cs ∨ m (address c nameOffset) = 0) :
      cs.foldl reset m (address c nameOffset) = 0 := by
    induction cs generalizing m with
    | nil => simpa using h
    | cons d cs ih =>
      refine ih (reset m d) ?_
      by_cases hdc : c = d
      · subst hdc
        exact Or.inr (reset_name m c)
      · rcases h with hmem | hzero
        · exact Or.inl ((List.mem_cons.mp hmem).resolve_left hdc)
        · right
          rw [reset_other m hdc nameOffset (by decide)]
          exact hzero
  exact hloop _ m (Or.inl (List.mem_finRange c))

/-- The bytes of a string and its zero spell the string. -/
theorem takeWhile_toBytes (nm : CString) (l : List Byte)
    (h : l.take (toBytes nm).length = toBytes nm) : l.takeWhile (· ≠ 0) = nm.bytes := by
  have hsame : l.takeWhile (· ≠ 0) = (toBytes nm).takeWhile (· ≠ 0) :=
    takeWhile_of_take (n := (toBytes nm).length) (by rw [h, List.take_length])
      ⟨0, by rw [List.take_length]; simp [toBytes], by simp⟩
  rw [hsame, toBytes, List.takeWhile_append_of_pos, List.takeWhile_cons]
  · simp
  · intro b hb
    simp only [decide_eq_true_eq]
    rintro rfl
    exact nm.no_nul hb

/-- `strcpy` of a name that fits. -/
theorem name_blit (hnm : strlen nm < nameSize) :
    name (blit m (address c nameOffset) (toBytes nm)) c = nm ∧
      NameFits (blit m (address c nameOffset) (toBytes nm)) c := by
  have hlen : (toBytes nm).length = strlen nm + 1 := by simp [toBytes, strlen]
  have hbyte (i : Nat) (hi : i < strlen nm + 1) :
      blit m (address c nameOffset) (toBytes nm) (address c nameOffset + i) =
        (toBytes nm).getD i 0 := blit_inside m _ _ (by omega)
  constructor
  · rw [CString.ext_iff]
    refine takeWhile_toBytes nm _ ?_
    have hroom : strlen nm + 1 ≤ tableSize - address c nameOffset := by
      have hfits : address c nameOffset + nameSize ≤ tableSize := address_fit c (by decide)
      omega
    rw [← List.map_take, List.take_range, hlen, Nat.min_eq_left hroom]
    refine List.ext_getElem (by simp [hlen]) fun i hi hi' => ?_
    rw [List.getElem_map, List.getElem_range, hbyte i (by simpa using hi),
      List.getD_eq_getElem _ _ hi']
  · refine ⟨strlen nm, hnm, ?_⟩
    rw [hbyte _ (by omega)]
    simp [toBytes, strlen]

theorem othersKept_setName (hnm : strlen nm < nameSize) :
    OthersKept c m (blit m (address c nameOffset) (toBytes nm)) := by
  have hlen : (toBytes nm).length = strlen nm + 1 := by simp [toBytes, strlen]
  have hroom : nameOffset + (strlen nm + 1) ≤ recordSize := by
    simp only [nameOffset, nameSize, recordSize] at *
    omega
  rw [othersKept_blit (by rw [hlen]; exact address_fit c hroom)]
  intro i hi
  exact Or.inl (address_div c (by omega))

theorem intField_blit_name (hnm : strlen nm < nameSize) (d : Cont) (f : Field) :
    intField (blit m (address c nameOffset) (toBytes nm)) d f = intField m d f := by
  by_cases hd : d = c
  · subst hd
    have hlen : (toBytes nm).length = strlen nm + 1 := by simp [toBytes, strlen]
    have hdis := name_array_disjoint f
    have hword : field (blit m (address d nameOffset) (toBytes nm)) d f = field m d f := by
      refine readWord_blit_disjoint m _ ?_
      simp only [address]
      omega
    rw [intField, intField, hword]
  · exact (othersKept_setName hnm).intField hd f

theorem setName_eq_some {vc : Int} (h : setName nm vc m = some m') :
    ∃ c : Cont, vc = c ∧ m' = blit m (address c nameOffset) (toBytes nm) := by
  obtain ⟨c, hindex, hm⟩ := Option.bind_eq_some_iff.mp h
  split at hm
  · exact ⟨c, index_eq_some.mp hindex, (Option.some.inj hm).symm⟩
  · cases hm

/-- A record gets a name that no other record has. -/
theorem namesOk_setName (hm : NamesOk m) (hnm : strlen nm < nameSize)
    (hnew : nm = emptyName ∨ ∀ d, d ≠ c → name m d ≠ nm) :
    NamesOk (blit m (address c nameOffset) (toBytes nm)) := by
  have hkept := othersKept_setName (m := m) (c := c) hnm
  have hself := name_blit (m := m) (c := c) hnm
  refine ⟨fun d => ?_, fun d e hd hde => ?_⟩
  · by_cases hdc : d = c
    · subst hdc
      exact hself.2
    · exact (hkept.name hdc (hm.fits d)).2
  · by_cases hdc : d = c
    · by_cases hec : e = c
      · rw [hdc, hec]
      · subst hdc
        rw [hself.1, (hkept.name hec (hm.fits e)).1] at hde
        rw [InUse, hself.1] at hd
        rcases hnew with hempty | hnew
        · exact absurd hempty hd
        · exact absurd hde.symm (hnew e hec)
    · rw [InUse, (hkept.name hdc (hm.fits d)).1] at hd
      rw [(hkept.name hdc (hm.fits d)).1] at hde
      by_cases hec : e = c
      · subst hec
        rw [hself.1] at hde
        rcases hnew with hempty | hnew
        · exact absurd (hde.trans hempty) hd
        · exact absurd hde (hnew d hdc)
      · rw [(hkept.name hec (hm.fits e)).1] at hde
        exact hm.distinct d e hd hde

/-! ## Records that stay -/

/-- The containers in use afterwards were in use before, with the same fields `fs`. -/
structure RecordsKept (fs : List Field) (m m' : Table) : Prop where
  names : NamesOk m'
  inUse : ∀ c, InUse m' c → InUse m c
  field : ∀ c, InUse m' c → ∀ f ∈ fs, intField m' c f = intField m c f

theorem RecordsKept.refl (hm : NamesOk m) : RecordsKept fs m m :=
  ⟨hm, fun _ hc => hc, fun _ _ _ _ => rfl⟩

theorem recordsKept_writeWord (hm : NamesOk m) (c : Cont) {f : Field} (v : Nat) (hf : f ∉ fs) :
    RecordsKept fs m (writeWord m (address c f.offset) v) := by
  have hnames := sameNames_writeWord hm c f v
  refine ⟨hnames.ok hm, fun d hd => (hnames.inUse d).mp hd, fun d _ g hg => ?_⟩
  rw [intField, intField, field_writeWord_of_ne m v]
  rintro _ rfl
  exact hf hg

theorem recordsKept_addBounded (hm : NamesOk m) (c : Cont) {cur : Field} (max : Field) (n : Int)
    (hf : cur ∉ fs) : RecordsKept fs m (addBounded m c cur max n) := by
  unfold addBounded
  split
  · exact .refl hm
  · exact recordsKept_writeWord hm c _ hf

theorem recordsKept_reset (hm : NamesOk m) (fs : List Field) (x : Cont) :
    RecordsKept fs m (reset m x) := by
  have hkept := othersKept_reset_self m x
  have hother (c : Cont) (hc : InUse (reset m x) c) : c ≠ x := by
    rintro rfl
    exact hc (name_reset m c)
  refine ⟨namesOk_reset hm x, fun c hc => ?_, fun c hc f _ => hkept.intField (hother c hc) f⟩
  rw [InUse, ← (hkept.name (hother c hc) (hm.fits c)).1]
  exact hc

/-- A record in use is renamed, or a name is cleared. -/
theorem recordsKept_setName (hm : NamesOk m) (fs : List Field) (hnm : strlen nm < nameSize)
    (hnew : nm = emptyName ∨ InUse m c ∧ ∀ d, d ≠ c → name m d ≠ nm) :
    RecordsKept fs m (blit m (address c nameOffset) (toBytes nm)) := by
  refine ⟨namesOk_setName hm hnm (hnew.imp id And.right), fun d hd => ?_,
    fun d _ f _ => intField_blit_name hnm d f⟩
  by_cases hdc : d = c
  · subst hdc
    rcases hnew with rfl | ⟨hin, _⟩
    · exact absurd (name_blit hnm).1 hd
    · exact hin
  · have hkept := ((othersKept_setName (m := m) (c := c) hnm).name hdc (hm.fits d)).1
    rw [InUse, ← hkept]
    exact hd

end Container

end Xv6Containers
