import Xv6Containers.Container.SlotOwnership

/-!
# `ctool start` is all or nothing

A `start` that is not rejected either leaves a complete container or breaks off with
some of its stores done; none of its calls is undone. It is complete exactly when
every call succeeds.
-/

namespace Xv6Containers.Container.Ctool

open Lib.Memory Lib.Strings Lib.Program Prog
open Lib.Runs (Always run_invariant)

variable {P : Type} [DecidableEq P] {m : Table} {i : Cont}

/-! ## The stores of a command that runs alone -/

/-- `containers[c].root`. -/
def rootOf (m : Table) (c : Cont) : UInt32 := UInt32.ofNat (readWord m (address c rootOffset))

def setGiven (f : Field) (v : Int) (i : Cont) (m : Table) : Table :=
  if v ≠ 0 then writeWord m (address i f.offset) (word v) else m

/-- The limits. -/
def limited (x : Args) (i : Cont) (m : Table) : Table :=
  setGiven .maxDisk x.maxDisk i (setGiven .maxMem x.maxMem i (setGiven .maxProc x.maxProc i m))

/-- The limits and the name. -/
def prepared (x : Args) (i : Cont) (m : Table) : Table :=
  blit (limited x i m) (address i nameOffset) (toBytes x.dir)

def rooted (x : Args) (m : Table) : Table :=
  match Container.find m x.dir with
  | none => m
  | some c => writeWord m (address c rootOffset) x.root.toNat

/-- The charge of one file. -/
def chargeFile (nm : CString) (m : Table) (size : Nat) : Table :=
  match Container.find m nm with
  | none => m
  | some z =>
    let m' := Container.setCurrDisk m size z
    if intField m z .currDisk = intField m' z .currDisk then resetNamed m' nm else m'

/-- The table before `fork`. -/
def charged (x : Args) (i : Cont) (m : Table) : Table :=
  x.sizes.foldl (chargeFile x.dir) (rooted x (prepared x i m))

theorem addSize_run (p : P) (nm : CString) (size : Nat) (s : State P) :
    (addSize nm size).run (execOp p) s = .ok ((), { s with table := chargeFile nm s.table size }) := by
  unfold addSize chargeFile
  split
  · next h =>
    rw [h, find_emptyName]
    rfl
  · have hexec : execOp p (.find nm) s = .ok (Container.find s.table nm, s) := rfl
    refine (run_op_bind hexec _).trans ?_
    cases Container.find s.table nm with
    | none => rfl
    | some z =>
      change Prog.run (execOp p) (if intField s.table z .currDisk =
        intField (Container.setCurrDisk s.table size z) z .currDisk then cstop nm else return () :
          CtoolProg Unit) { s with table := Container.setCurrDisk s.table size z } = _
      dsimp only
      split <;> rfl

theorem addFileSize_run (p : P) (nm : CString) (sizes : List Nat) (s : State P) :
    (addFileSize nm sizes).run (execOp p) s =
      .ok ((), { s with table := sizes.foldl (chargeFile nm) s.table }) := by
  induction sizes generalizing s with
  | nil => rfl
  | cons size rest ih =>
    rw [addFileSize, run_bind, addSize_run]
    exact ih _

theorem setMaxGiven_run (p : P) (f : Field) (v : Int) (i : Cont) (s : State P) :
    (setMaxGiven f v i).run (execOp p) s = .ok ((), { s with table := setGiven f v i s.table }) := by
  unfold setMaxGiven setGiven
  split <;> rfl

variable {x : Args} {s : State P} {m' : Table} {nm : CString} {D : UInt32 → Prop}

theorem start_run_rejected (p : P)
    (h : Container.isFull s.table = none ∨ Container.find s.table x.dir = some 0) :
    (start x).run (execOp p) s = .ok (0, s) := by
  unfold start
  have hexec : execOp p .isFull s = .ok (Container.isFull s.table, s) := rfl
  refine (run_op_bind hexec _).trans ?_
  cases hfull : Container.isFull s.table with
  | none => rfl
  | some i =>
    have hfind := h.resolve_left (by rw [hfull]; exact Option.some_ne_none i)
    have hcheck : execOp p (.check x.dir i) s = .ok (true, s) := by
      simp only [execOp, if_pos hfind]
    exact run_op_bind hcheck _

/-- An accepted `start` comes to `attach_vc` with its slot prepared. -/
theorem start_run (p : P) (hfull : Container.isFull s.table = some i)
    (hfind : Container.find s.table x.dir ≠ some 0) :
    ∃ u : State P, (start x).run (execOp p) s = (attachVc x i).run (execOp p) u ∧
      u.table = rooted x (prepared x i s.table) ∧ u.cont = s.cont ∧ u.child = s.child := by
  have hexec : execOp p .isFull s = .ok (some i, s) := by simp only [execOp, hfull]
  have hcheck : execOp p (.check x.dir i) s =
      .ok (false, { s with claim := Function.update s.claim p (some ⟨i, x.dir, .chosen⟩) }) := by
    simp only [execOp, if_neg hfind]
  have hroot (u : State P) : execOp p (.setRootInode x.dir x.root) u =
      .ok ((), { u with table := rooted x u.table }) := by
    unfold rooted
    simp only [execOp]
    cases Container.find u.table x.dir <;> rfl
  let s₁ : State P := { s with claim := Function.update s.claim p (some ⟨i, x.dir, .chosen⟩) }
  refine ⟨{ s with
    table := rooted x (prepared x i s.table)
    claim := s₁.setStage p .named }, ?_, rfl, rfl, rfl⟩
  unfold start
  refine (run_op_bind hexec _).trans ((run_op_bind hcheck _).trans ?_)
  change Prog.run (execOp p) (setMaxGiven .maxProc x.maxProc i >>= fun _ => _) s₁ = _
  rw [run_bind, setMaxGiven_run]
  change Prog.run (execOp p) (setMaxGiven .maxMem x.maxMem i >>= fun _ => _) _ = _
  rw [run_bind, setMaxGiven_run]
  change Prog.run (execOp p) (setMaxGiven .maxDisk x.maxDisk i >>= fun _ => _) _ = _
  rw [run_bind, setMaxGiven_run]
  exact run_op_bind (hroot _) _

theorem attachVc_run (p : P) (hlen : strlen x.dir < cNameSize) :
    ∃ t : State P, (attachVc x i).run (execOp p) s = .ok (0, t) ∧
      t.table = (chargeFork (x.sizes.foldl (chargeFile x.dir) s.table) (some i)).1 ∧
      t.cont p = some i ∧
      t.child p =
        if (chargeFork (x.sizes.foldl (chargeFile x.dir) s.table) (some i)).2 && x.room then some i
        else s.child p := by
  let s₁ : State P := { s with
    table := x.sizes.foldl (chargeFile x.dir) s.table
    cont := Function.update s.cont p (some i)
    claim := s.setStage p .attached }
  let c := chargeFork s₁.table (some i)
  have hself : s₁.cont p = some i := Function.update_self ..
  refine ⟨{ s₁ with
    table := c.1
    child := if c.2 && x.room then Function.update s.child p (some i) else s.child
    claim := Function.update s₁.claim p none }, ?_, rfl, hself, ?_⟩
  · unfold attachVc
    rw [if_neg (Nat.not_le.mpr hlen), run_bind, addFileSize_run]
    change Prog.run (execOp p) (do let _ ← fork x.room; return 0 : CtoolProg Int) s₁ = _
    refine run_op_bind (r := c.2 && x.room) ?_ _
    simp only [execOp, hself]
    rfl
  · change (if c.2 && x.room then Function.update s.child p (some i) else s.child) p = _
    split
    · exact Function.update_self ..
    · rfl

theorem attachVc_run_overflow (p : P) (s : State P) (hlen : cNameSize ≤ strlen x.dir) :
    (attachVc x i).run (execOp p) s = .error () := by
  unfold attachVc
  rw [if_pos hlen]
  rfl

/-! ## Stores into one record -/

theorem othersKept_trans {m'' : Table} (h : OthersKept i m m') (h' : OthersKept i m' m'') :
    OthersKept i m m'' := fun c hc j hj => (h' c hc j hj).trans (h c hc j hj)

/-- The tables differ in field `f` of record `i` at most. -/
structure Tuned (i : Cont) (f : Field) (m m' : Table) : Prop where
  names : SameNames m m'
  others : OthersKept i m m'
  root : rootOf m' i = rootOf m i
  field : ∀ g ≠ f, intField m' i g = intField m i g

theorem Tuned.refl (hm : ∀ c, NameFits m c) (f : Field) : Tuned i f m m :=
  ⟨⟨fun _ => rfl, hm⟩, .refl i m, rfl, fun _ _ => rfl⟩

theorem Tuned.trans {m'' : Table} {f : Field} (h : Tuned i f m m') (h' : Tuned i f m' m'') :
    Tuned i f m m'' where
  names := ⟨fun c => (h'.names.name c).trans (h.names.name c), h'.names.fits⟩
  others := othersKept_trans h.others h'.others
  root := h'.root.trans h.root
  field g hg := (h'.field g hg).trans (h.field g hg)

theorem tuned_writeWord (hm : ∀ c, NameFits m c) (f : Field) (v : Int) :
    Tuned i f m (writeWord m (address i f.offset) (word v)) where
  names := sameNames_writeWord_of_fits hm i f _
  others := (othersKept_writeWord (word_lt v)).mpr (.inl rfl)
  root := by
    have hdis : rootOffset + 4 ≤ f.offset ∨ f.offset + 4 ≤ rootOffset := by cases f <;> decide
    unfold rootOf
    rw [readWord_writeWord_disjoint m _ (by simp only [address]; omega)]
  field g hg := by rw [intField, intField, field_writeWord_of_ne m _ fun _ => hg]

/-- What `find` returns depends on the names only. -/
theorem find_of_sameNames (h : SameNames m m') (nm : CString) :
    Container.find m' nm = Container.find m nm := by
  unfold Container.find
  simp only [h.name]

theorem setGiven_tuned (hm : ∀ c, NameFits m c) (f : Field) (v : Int) :
    Tuned i f m (setGiven f v i m) ∧
      intField (setGiven f v i m) i f = if v ≠ 0 then toSigned (word v) else intField m i f := by
  unfold setGiven
  split
  · exact ⟨tuned_writeWord hm f v, by rw [intField, field_writeWord_self]⟩
  · exact ⟨.refl hm f, rfl⟩

/-- The limit of the new container: the one that is given, or what the slot has. -/
def limitOf (x : Args) (i : Cont) (m : Table) (f : Field) : Int :=
  if Processes.givenLimit x.maxProc x.maxMem x.maxDisk f ≠ 0 then
    toSigned (word (Processes.givenLimit x.maxProc x.maxMem x.maxDisk f))
  else intField m i f

theorem limited_spec (hm : ∀ c, NameFits m c) (x : Args) :
    SameNames m (limited x i m) ∧ OthersKept i m (limited x i m) ∧
      ∀ f, intField (limited x i m) i f = limitOf x i m f := by
  unfold limited
  obtain ⟨h₁, hf₁⟩ := setGiven_tuned (i := i) hm .maxProc x.maxProc
  obtain ⟨h₂, hf₂⟩ := setGiven_tuned (i := i) h₁.names.fits .maxMem x.maxMem
  obtain ⟨h₃, hf₃⟩ := setGiven_tuned (i := i) h₂.names.fits .maxDisk x.maxDisk
  refine ⟨⟨fun c => ?_, h₃.names.fits⟩, othersKept_trans h₁.others (othersKept_trans h₂.others h₃.others), fun f => ?_⟩
  · rw [h₃.names.name, h₂.names.name, h₁.names.name]
  · unfold limitOf
    cases f with
    | maxDisk => rw [hf₃, h₂.field _ (by decide), h₁.field _ (by decide)]; rfl
    | maxMem => rw [h₃.field _ (by decide), hf₂, h₁.field _ (by decide)]; rfl
    | maxProc => rw [h₃.field _ (by decide), h₂.field _ (by decide), hf₁]; rfl
    | _ => rw [h₃.field _ (by decide), h₂.field _ (by decide), h₁.field _ (by decide)]; rfl

/-- The slot before `set_root_inode`. -/
structure Named (x : Args) (i : Cont) (m m' : Table) : Prop where
  fits : ∀ c, NameFits m' c
  named : name m' i = x.dir
  others : OthersKept i m m'
  field : ∀ f, intField m' i f = limitOf x i m f

theorem prepared_named (hm : ∀ c, NameFits m c) (hlen : strlen x.dir < cNameSize) :
    Named x i m (prepared x i m) := by
  have hnm : strlen x.dir < nameSize := Nat.lt_trans hlen (by decide)
  obtain ⟨hnames, hothers, hfield⟩ := limited_spec (i := i) hm x
  have hkept := othersKept_setName (m := limited x i m) (c := i) hnm
  have hself := name_blit (m := limited x i m) (c := i) hnm
  refine ⟨fun c => ?_, hself.1, othersKept_trans hothers hkept, fun f => ?_⟩
  · by_cases hc : c = i
    · rw [hc]
      exact hself.2
    · exact (hkept.name hc (hnames.fits c)).2
  · unfold prepared
    rw [intField_blit_name hnm, hfield]

/-- The new name leads to its slot unless a slot before it has the name. -/
theorem Named.find_iff (h : Named x i m m') (hm : ∀ c, NameFits m c) :
    Container.find m' x.dir = some i ↔ x.dir ≠ emptyName ∧ ∀ k < i, Container.name m k ≠ x.dir := by
  rw [find_eq_some]
  constructor
  · rintro ⟨hne, -, hfirst⟩
    refine ⟨hne, fun k hk => ?_⟩
    rw [← (h.others.name hk.ne (hm k)).1]
    exact fun heq => hfirst k hk heq
  · rintro ⟨hne, hfirst⟩
    refine ⟨hne, h.named, fun k hk heq => hfirst k hk ?_⟩
    rw [← (h.others.name hk.ne (hm k)).1]
    exact heq

theorem rooted_spec (hm : ∀ c, NameFits m c) (hfind : Container.find m x.dir = some i) :
    SameNames m (rooted x m) ∧ OthersKept i m (rooted x m) ∧
      (∀ f, intField (rooted x m) i f = intField m i f) ∧ rootOf (rooted x m) i = x.root := by
  unfold rooted
  rw [hfind]
  refine ⟨sameNames_root hm i _, ?_, fun f => ?_, ?_⟩
  · unfold writeWord
    rw [othersKept_blit (address_fit i (by simp [rootOffset, recordSize]))]
    intro j hj
    rw [wordBytes_length] at hj
    exact .inl (address_div i (by simp only [rootOffset, recordSize]; omega))
  · have hdis : f.offset + 4 ≤ rootOffset ∨ rootOffset + 4 ≤ f.offset := by cases f <;> decide
    rw [intField, intField, field, field,
      readWord_writeWord_disjoint m _ (by simp only [address]; omega)]
  · rw [rootOf, readWord_writeWord, Nat.mod_eq_of_lt x.root.toNat_lt]
    exact UInt32.ofNat_toNat

/-! ## The charge for the files -/

theorem fits_reset (hm : ∀ c, NameFits m c) (z c : Cont) : NameFits (reset m z) c := by
  by_cases hc : c = z
  · subst hc
    exact ⟨0, by decide, reset_name m c⟩
  · exact ((othersKept_reset_self m z).name hc (hm c)).2

/-- The store of `set_curr_disk`, if it makes one. -/
theorem setCurrDisk_tuned (hm : ∀ c, NameFits m c) (size : Int) :
    Tuned i .currDisk m (Container.setCurrDisk m size i) := by
  unfold Container.setCurrDisk
  split
  · exact .refl hm _
  · exact tuned_writeWord hm .currDisk _

/-- One charge is either kept or stops the container. -/
theorem chargeFile_cases (hm : ∀ c, NameFits m c) (hfind : Container.find m nm = some i)
    (size : Nat) :
    (∀ c, NameFits (chargeFile nm m size) c) ∧ OthersKept i m (chargeFile nm m size) ∧
      (name (chargeFile nm m size) i = emptyName ∨
        (intField m i .currDisk + size).tdiv 1024 ≤ intField m i .maxDisk ∧ 0 < size ∧
          Tuned i .currDisk m (chargeFile nm m size) ∧
          intField (chargeFile nm m size) i .currDisk =
            toSigned (word (intField m i .currDisk + size))) := by
  have htuned := setCurrDisk_tuned (i := i) hm size
  unfold chargeFile
  rw [hfind]
  dsimp only
  split
  · unfold resetNamed
    rw [find_of_sameNames htuned.names, hfind]
    exact ⟨fits_reset htuned.names.fits i,
      othersKept_trans htuned.others (othersKept_reset_self _ i), .inl (name_reset _ i)⟩
  · next hne =>
    refine ⟨htuned.names.fits, htuned.others, .inr ?_⟩
    unfold Container.setCurrDisk at hne htuned ⊢
    split at hne
    · exact absurd rfl hne
    · next hle =>
      rw [if_neg hle] at htuned ⊢
      have hself : intField (writeWord m (address i Field.currDisk.offset)
          (word (intField m i .currDisk + size))) i .currDisk =
          toSigned (word (intField m i .currDisk + size)) := by
        rw [intField, field_writeWord_self]
      refine ⟨not_lt.mp hle, Nat.pos_of_ne_zero fun hzero => hne ?_, htuned, hself⟩
      obtain ⟨hlo, hhi⟩ := intField_range m i .currDisk
      rw [hself, hzero, Int.natCast_zero, add_zero, toSigned_word hlo hhi]

theorem chargeFile_accepted (hm : ∀ c, NameFits m c) (hfind : Container.find m nm = some i)
    {size : Nat} (hsize : 0 < size) (hlo : 0 ≤ intField m i .currDisk)
    (hhi : intField m i .currDisk + size < 2147483648)
    (hmax : (intField m i .currDisk + size).tdiv 1024 ≤ intField m i .maxDisk) :
    Tuned i .currDisk m (chargeFile nm m size) ∧
      intField (chargeFile nm m size) i .currDisk = intField m i .currDisk + size := by
  have hself : intField (writeWord m (address i Field.currDisk.offset)
      (word (intField m i .currDisk + size))) i .currDisk = intField m i .currDisk + size := by
    rw [intField, field_writeWord_self, toSigned_word (by omega) hhi]
  unfold chargeFile
  rw [hfind]
  dsimp only
  rw [Container.setCurrDisk, if_neg (not_lt.mpr hmax), if_neg (by rw [hself]; omega)]
  exact ⟨tuned_writeWord hm .currDisk _, hself⟩

/-- A stopped container stays stopped. -/
theorem chargeFile_stopped (nm : CString) (hm : ∀ c, NameFits m c) (hempty : name m i = emptyName)
    (size : Nat) :
    (∀ c, NameFits (chargeFile nm m size) c) ∧ name (chargeFile nm m size) i = emptyName := by
  cases hfind : Container.find m nm with
  | none =>
    unfold chargeFile
    rw [hfind]
    exact ⟨hm, hempty⟩
  | some z =>
    obtain ⟨hfits, hothers, -⟩ := chargeFile_cases hm hfind size
    have hz : i ≠ z := by
      rintro rfl
      exact (inUse_of_find hfind).1 hempty
    exact ⟨hfits, (hothers.name hz (hm i)).1.trans hempty⟩

theorem charges_stopped (hm : ∀ c, NameFits m c) (hempty : name m i = emptyName)
    (sizes : List Nat) : name (sizes.foldl (chargeFile nm) m) i = emptyName := by
  induction sizes generalizing m with
  | nil => exact hempty
  | cons size rest ih =>
    obtain ⟨hfits, hempty⟩ := chargeFile_stopped nm hm hempty size
    exact ih hfits hempty

theorem toSigned_word_mod (v : Int) : ∃ k : Int, toSigned (word v) = v + k * 4294967296 := by
  unfold toSigned word
  refine ⟨if 2147483648 ≤ v % 4294967296 then -(v / 4294967296) - 1 else -(v / 4294967296), ?_⟩
  split <;> split <;> omega

/-- If the container still has its name after all the charges, none of them was refused. -/
theorem charges_kept (hm : ∀ c, NameFits m c) (hfind : Container.find m nm = some i)
    (sizes : List Nat) (hname : name (sizes.foldl (chargeFile nm) m) i ≠ emptyName) :
    Tuned i .currDisk m (sizes.foldl (chargeFile nm) m) ∧ (∀ size ∈ sizes, 0 < size) ∧
      ∃ k : Int, intField (sizes.foldl (chargeFile nm) m) i .currDisk =
        intField m i .currDisk + (sizes.sum : Nat) + k * 4294967296 := by
  induction sizes generalizing m with
  | nil => exact ⟨.refl hm _, nofun, 0, by simp⟩
  | cons size rest ih =>
    obtain ⟨hfits, -, hempty | ⟨-, hpos, htuned, hdisk⟩⟩ := chargeFile_cases hm hfind size
    · exact absurd (charges_stopped hfits hempty rest) hname
    · have hfind' := (find_of_sameNames htuned.names nm).trans hfind
      obtain ⟨hrest, hall, k, hk⟩ := ih hfits hfind' hname
      obtain ⟨k', hk'⟩ := toSigned_word_mod (intField m i .currDisk + size)
      refine ⟨htuned.trans hrest, List.forall_mem_cons.mpr ⟨hpos, hall⟩, k + k', ?_⟩
      rw [List.foldl_cons, hk, hdisk, hk', List.sum_cons]
      omega

/-- Charges that stay within the limit are all kept. -/
theorem charges_accepted (hm : ∀ c, NameFits m c) (hfind : Container.find m nm = some i)
    {sizes : List Nat} (hpos : ∀ size ∈ sizes, 0 < size) (hlo : 0 ≤ intField m i .currDisk)
    (hhi : intField m i .currDisk + (sizes.sum : Nat) < 2147483648)
    (hmax : (intField m i .currDisk + (sizes.sum : Nat)).tdiv 1024 ≤ intField m i .maxDisk) :
    Tuned i .currDisk m (sizes.foldl (chargeFile nm) m) ∧
      intField (sizes.foldl (chargeFile nm) m) i .currDisk =
        intField m i .currDisk + (sizes.sum : Nat) := by
  induction sizes generalizing m with
  | nil => exact ⟨.refl hm _, by simp⟩
  | cons size rest ih =>
    obtain ⟨hsize, hrest⟩ := List.forall_mem_cons.mp hpos
    rw [List.sum_cons, Int.natCast_add] at hhi hmax ⊢
    have hstep : (intField m i .currDisk + size).tdiv 1024 ≤ intField m i .maxDisk := by
      refine le_trans ?_ hmax
      rw [Int.tdiv_eq_ediv_of_nonneg (by omega), Int.tdiv_eq_ediv_of_nonneg (by omega)]
      omega
    obtain ⟨htuned, hdisk⟩ := chargeFile_accepted hm hfind hsize hlo (by omega) hstep
    have hfind' := (find_of_sameNames htuned.names nm).trans hfind
    have hfield := htuned.field .maxDisk (by decide)
    obtain ⟨hall, htotal⟩ := ih htuned.names.fits hfind' hrest (by omega) (by omega)
      (by rw [hdisk, hfield, add_assoc]; exact hmax)
    exact ⟨htuned.trans hall, by rw [List.foldl_cons, htotal, hdisk, add_assoc]⟩

/-! ## The charge for the child -/

theorem chargeFork_goes (hm : ∀ c, NameFits m c) (hfind : Container.find m (name m i) = some i)
    (hle : intField m i .currProc + 1 ≤ intField m i .maxProc) :
    Tuned i .currProc m (chargeFork m (some i)).1 ∧ (chargeFork m (some i)).2 = true := by
  obtain ⟨hlo, -⟩ := intField_range m i .currProc
  obtain ⟨-, hhi⟩ := intField_range m i .maxProc
  have hset : setCurrProc m 1 i = addField m i .currProc 1 := if_neg (not_lt.mpr hle)
  have hself := intField_addField m i .currProc 1 (by omega) (by omega)
  unfold chargeFork
  rw [Option.bind_some, hfind]
  dsimp only
  rw [hset, if_neg (by rw [hself]; omega)]
  exact ⟨tuned_writeWord hm .currProc _, rfl⟩

theorem chargeFork_refused (hfind : Container.find m (name m i) = some i)
    (hlt : intField m i .maxProc < intField m i .currProc + 1) :
    (chargeFork m (some i)).2 = false := by
  have hset : setCurrProc m 1 i = m := if_pos hlt
  unfold chargeFork
  rw [Option.bind_some, hfind]
  dsimp only
  rw [hset, if_pos rfl]

theorem chargeFork_stopped (hempty : name m i = emptyName) : (chargeFork m (some i)).1 = m := by
  unfold chargeFork
  rw [Option.bind_some, hempty, find_emptyName]

/-! ## All or nothing -/

/-- `t` has a complete container for `x` in slot `i`, which was free in `s`; `D` says which
inode pointers are those of existing directories. -/
structure Complete (D : UInt32 → Prop) (p : P) (x : Args) (i : Cont) (s t : State P) : Prop where
  free : ¬ InUse s.table i
  named : Container.find t.table x.dir = some i
  root : rootOf t.table i ≠ 0 ∧ D (rootOf t.table i)
  disk : intField t.table i .currDisk = (x.sizes.sum : Nat)
  within : (intField t.table i .currDisk).tdiv 1024 ≤ intField t.table i .maxDisk
  attached : t.child p = some i
  others : OthersKept i s.table t.table

/-- A `start` ends with a complete container, or it changes no record and attaches nobody. -/
def AllOrNothing (D : UInt32 → Prop) (p : P) (x : Args) (s : State P) : Prop :=
  ∃ r t, (start x).run (execOp p) s = .ok (r, t) ∧
    ((∃ i, Complete D p x i s t) ∨ t.table = s.table ∧ t.cont p = none ∧ t.child p = none)

/-- Nothing fails for a `start` that gets slot `i`: the directory exists, its name fits and
does not lead to another slot, none of its files is empty, and the files and the child are
within the limits. -/
structure Unfailing (D : UInt32 → Prop) (x : Args) (i : Cont) (m : Table) : Prop where
  dir : x.dir ≠ emptyName
  short : strlen x.dir < cNameSize
  first : ∀ k < i, name m k ≠ x.dir
  root : x.root ≠ 0 ∧ D x.root
  uncharged : intField m i .currDisk = 0
  sizes : ∀ size ∈ x.sizes, 0 < size
  total : x.sizes.sum < 2147483648
  disk : x.sizes.sum / 1024 ≤ limitOf x i m .maxDisk
  proc : intField m i .currProc + 1 ≤ limitOf x i m .maxProc
  room : x.room = true

/-- The `start` is rejected, or nothing fails. -/
def Smooth (D : UInt32 → Prop) (x : Args) (m : Table) : Prop :=
  Container.isFull m = none ∨ Container.find m x.dir = some 0 ∨
    ∃ i, Container.isFull m = some i ∧ Unfailing D x i m

theorem tdiv_total (n : Nat) : (n : Int).tdiv 1024 = (n / 1024 : Nat) := by
  rw [Int.tdiv_eq_ediv_of_nonneg (Int.natCast_nonneg n)]
  rfl

/-- The table before the charges. -/
theorem rooted_prepared (hm : ∀ c, NameFits m c) (hdir : x.dir ≠ emptyName)
    (hlen : strlen x.dir < cNameSize) (hfirst : ∀ k < i, name m k ≠ x.dir) :
    (∀ c, NameFits (rooted x (prepared x i m)) c) ∧
      Container.find (rooted x (prepared x i m)) x.dir = some i ∧
      OthersKept i m (rooted x (prepared x i m)) ∧
      (∀ f, intField (rooted x (prepared x i m)) i f = limitOf x i m f) ∧
      rootOf (rooted x (prepared x i m)) i = x.root := by
  have hnamed := prepared_named (i := i) hm hlen
  have hfind := (hnamed.find_iff hm).mpr ⟨hdir, hfirst⟩
  obtain ⟨hnames, hothers, hfield, hroot⟩ := rooted_spec hnamed.fits hfind
  exact ⟨hnames.fits, (find_of_sameNames hnames _).trans hfind,
    othersKept_trans hnamed.others hothers, fun f => (hfield f).trans (hnamed.field f), hroot⟩

/-- How a `start` ends that is not rejected. -/
theorem start_run_accepted (p : P) (hfull : Container.isFull s.table = some i)
    (hfind : Container.find s.table x.dir ≠ some 0) (hlen : strlen x.dir < cNameSize) :
    ∃ t : State P, (start x).run (execOp p) s = .ok (0, t) ∧
      t.table = (chargeFork (charged x i s.table) (some i)).1 ∧ t.cont p = some i ∧
      t.child p =
        if (chargeFork (charged x i s.table) (some i)).2 && x.room then some i else s.child p := by
  obtain ⟨u, hrun, htable, -, hu⟩ := start_run p hfull hfind
  obtain ⟨t, ht, hrest⟩ := attachVc_run (i := i) (s := u) p hlen
  rw [htable, hu] at hrest
  exact ⟨t, hrun.trans ht, hrest⟩

omit [DecidableEq P] in
/-- A `start` for which nothing fails is complete. -/
theorem Unfailing.complete {p : P} {t : State P} (h : Unfailing D x i s.table)
    (hm : ∀ c, NameFits s.table c) (hfree : ¬ InUse s.table i)
    (htable : t.table = (chargeFork (charged x i s.table) (some i)).1) (hchild : t.child p =
      if (chargeFork (charged x i s.table) (some i)).2 && x.room then some i else s.child p) :
    Complete D p x i s t ∧ ∀ c, NameFits t.table c := by
  obtain ⟨hfits, hfind, hothers, hfield, hroot⟩ := rooted_prepared hm h.dir h.short h.first
  have hzero : intField (rooted x (prepared x i s.table)) i .currDisk = 0 :=
    (hfield _).trans h.uncharged
  obtain ⟨hfiles, hdisk⟩ := charges_accepted hfits hfind h.sizes hzero.ge
    (by rw [hzero, zero_add]; exact Int.ofNat_lt.mpr h.total)
    (by rw [hzero, zero_add, tdiv_total, hfield]; exact h.disk)
  rw [hzero, zero_add] at hdisk
  have hfind' := (find_of_sameNames hfiles.names x.dir).trans hfind
  have hname := (inUse_of_find hfind').2
  obtain ⟨hfork, hgoes⟩ := chargeFork_goes hfiles.names.fits
    (by rw [hname]; exact hfind')
    (by rw [hfiles.field _ (by decide), hfiles.field _ (by decide), hfield, hfield]; exact h.proc)
  have hcurr : intField t.table i .currDisk = (x.sizes.sum : Nat) := by
    rw [htable]
    exact (hfork.field _ (by decide)).trans hdisk
  have hroot' : rootOf t.table i = x.root := by
    rw [htable]
    exact hfork.root.trans (hfiles.root.trans hroot)
  refine ⟨⟨hfree, ?_, ?_, hcurr, ?_, ?_, ?_⟩, ?_⟩
  · rw [htable]
    exact (find_of_sameNames hfork.names x.dir).trans hfind'
  · rw [hroot']
    exact h.root
  · rw [hcurr, tdiv_total, htable, charged, hfork.field _ (by decide), hfiles.field _ (by decide), hfield]
    exact h.disk
  · rw [hchild, charged, hgoes, h.room]
    rfl
  · rw [htable]
    exact othersKept_trans hothers (othersKept_trans hfiles.others hfork.others)
  · rw [htable]
    exact hfork.names.fits

omit [DecidableEq P] in
/-- A complete container was started without a failure. -/
theorem Complete.unfailing {p : P} {j : Cont} {t : State P} (h : Complete D p x j s t)
    (hm : ∀ c, NameFits s.table c) (hp : s.child p = none) (hlen : strlen x.dir < cNameSize)
    (htable : t.table = (chargeFork (charged x i s.table) (some i)).1) (hchild : t.child p =
      if (chargeFork (charged x i s.table) (some i)).2 && x.room then some i else s.child p) :
    Unfailing D x i s.table := by
  -- The child is in slot `i`, so this is the slot of the complete container.
  have hattached := h.attached
  rw [hchild] at hattached
  split at hattached
  · next hgoes =>
    obtain rfl := Option.some.inj hattached
    obtain ⟨hgoes, hroom⟩ := Bool.and_eq_true_iff.mp hgoes
    obtain ⟨hdir, hname, hfirst⟩ := find_eq_some.mp h.named
    have hfirst' (k : Cont) (hk : k < i) : name s.table k ≠ x.dir := by
      rw [← (h.others.name hk.ne (hm k)).1]
      exact fun heq => hfirst k hk heq
    obtain ⟨hfits, hfind, -, hfield, hroot⟩ := rooted_prepared hm hdir hlen hfirst'
    have hkept : name (charged x i s.table) i ≠ emptyName := by
      intro hempty
      rw [htable, chargeFork_stopped hempty, hempty] at hname
      exact hdir hname.symm
    obtain ⟨hfiles, hpos, k, hk⟩ := charges_kept hfits hfind x.sizes hkept
    have hfind' := (find_of_sameNames hfiles.names x.dir).trans hfind
    have hname' := (inUse_of_find hfind').2
    have hproc : intField (charged x i s.table) i .currProc + 1 ≤
        intField (charged x i s.table) i .maxProc := by
      by_contra hlt
      have hrefused := chargeFork_refused (m := charged x i s.table) (i := i)
        (by rw [charged, hname']; exact hfind') (not_le.mp hlt)
      rw [hrefused] at hgoes
      cases hgoes
    obtain ⟨hfork, -⟩ := chargeFork_goes (m := charged x i s.table) hfiles.names.fits
      (by rw [charged, hname']; exact hfind') hproc
    have hroot' : rootOf t.table i = x.root := by
      rw [htable]
      exact hfork.root.trans (hfiles.root.trans hroot)
    have hcurr := h.disk
    have hwithin := h.within
    have hrange := intField_range t.table i .currDisk
    have hbefore := intField_range s.table i .currDisk
    rw [h.disk, tdiv_total, htable, hfork.field _ (by decide), charged,
      hfiles.field _ (by decide), hfield] at hwithin
    rw [charged, hfiles.field _ (by decide), hfiles.field _ (by decide), hfield, hfield] at hproc
    rw [htable, hfork.field _ (by decide), charged, hk, hfield] at hcurr
    change intField s.table i .currDisk + _ + _ = _ at hcurr
    refine ⟨hdir, hlen, hfirst', ?_, by omega, hpos, ?_, hwithin, hproc, hroom⟩
    · rw [← hroot']
      exact h.root
    · rw [h.disk] at hrange
      omega
  · rw [hp] at hattached
    cases hattached

/-! ## Every container in use has a root directory -/

def Rooted (m : Table) : Prop := ∀ c, InUse m c → rootOf m c ≠ 0

/-- One command, run alone. -/
def commandStep (s : State P) (e : P × Command) : Option (State P) :=
  ((code e.2).run (execOp e.1) s).toOption.map Prod.snd

/-- The condition on a command. -/
def SmoothCommand (D : UInt32 → Prop) (s : State P) (e : P × Command) : Prop :=
  ∀ x, e.2 = .start x → Smooth D x s.table

theorem rootOf_of_othersKept {c : Cont} (h : OthersKept i m m') (hc : c ≠ i) :
    rootOf m' c = rootOf m c := by
  unfold rootOf
  rw [readWord_congr fun y hlo hhi => ?_]
  obtain ⟨j, rfl⟩ := Nat.exists_eq_add_of_le hlo
  have hbyte := h c hc (rootOffset + j) (by
    simp only [address, rootOffset, recordSize] at *
    omega)
  simpa only [address, Nat.add_assoc] using hbyte

theorem Rooted.of_othersKept (h : Rooted m) (hm : ∀ c, NameFits m c) (hkept : OthersKept i m m')
    (hi : InUse m' i → rootOf m' i ≠ 0) : Rooted m' := by
  intro c hc
  by_cases hci : c = i
  · subst hci
    exact hi hc
  · rw [rootOf_of_othersKept hkept hci]
    refine h c ?_
    rw [InUse, ← (hkept.name hci (hm c)).1]
    exact hc

theorem Rooted.resetNamed (h : Rooted m) (hm : ∀ c, NameFits m c) (nm : CString) :
    (∀ c, NameFits (resetNamed m nm) c) ∧ Rooted (resetNamed m nm) := by
  unfold Ctool.resetNamed
  split
  · exact ⟨hm, h⟩
  · next z hfind =>
    exact ⟨fits_reset hm z,
      h.of_othersKept hm (othersKept_reset_self m z) fun hin => absurd (name_reset m z) hin⟩

theorem commandStep_rooted (s : State P) (e : P × Command) (t : State P)
    (h : (∀ c, NameFits s.table c) ∧ Rooted s.table) (hsmooth : SmoothCommand D s e)
    (ht : commandStep s e = some t) : (∀ c, NameFits t.table c) ∧ Rooted t.table := by
  obtain ⟨hm, hroot⟩ := h
  obtain ⟨p, cmd⟩ := e
  unfold commandStep at ht
  cases cmd with
  | stop nm =>
    cases ht
    exact hroot.resetNamed hm nm
  | start x =>
    have hrejected (hr : Container.isFull s.table = none ∨ Container.find s.table x.dir = some 0) :
        t = s := by
      rw [code, start_run_rejected p hr] at ht
      exact (Option.some.inj ht).symm
    rcases hsmooth x rfl with hr | hr | ⟨i, hfull, hun⟩
    · rw [hrejected (.inl hr)]
      exact ⟨hm, hroot⟩
    · rw [hrejected (.inr hr)]
      exact ⟨hm, hroot⟩
    · by_cases hfind : Container.find s.table x.dir = some 0
      · rw [hrejected (.inr hfind)]
        exact ⟨hm, hroot⟩
      · obtain ⟨u, hrun, htable, -, hchild⟩ := start_run_accepted p hfull hfind hun.short
        obtain ⟨hcomplete, hfits⟩ :=
          hun.complete (D := D) (p := p) hm (Processes.isFull_eq_some hfull) htable hchild
        rw [code, hrun] at ht
        obtain rfl := Option.some.inj ht
        exact ⟨hfits, hroot.of_othersKept hm hcomplete.others fun _ => hcomplete.root.1⟩

/-- A directory with one file of ten bytes. -/
def oneFile : Args := ⟨nameA, 0, 0, 0, 5, [10], true⟩

theorem oneFile_unfailing : Unfailing (· = 5) oneFile 0 fresh.table where
  dir := by decide
  short := by decide
  first := by decide +kernel
  root := by decide
  uncharged := by decide +kernel
  sizes := by decide
  total := by decide
  disk := by decide +kernel
  proc := by decide +kernel
  room := rfl

/-- A `start` on a directory that does not exist: there are no files to charge. -/
def missing : Args := ⟨nameA, 0, 0, 0, 0, [], true⟩

/-- A directory with an empty file. -/
def emptyFile : Args := ⟨nameA, 0, 0, 0, 5, [0], true⟩

end Xv6Containers.Container.Ctool
