import Xv6Containers.Container.MemoryCount
import Xv6Containers.Fs.ReferenceBalance

/-!
# Processes without a container

`sys_fork`, `sys_exit`, `sys_write`, `sys_unlink`, `kalloc` and `kfree` of a
process without a container, in two kernels that differ in the memory of that
process only. The accounting of these calls looks for a container by the string
that stands at the offset of `name` in that memory; the calls agree, and leave
the containers alone, exactly when no accounting comes to bear in either kernel.

## Implementation notes

The memory of a process is seen through the string and the word that the kernel
reads through a null pointer; the arguments of the calls are given apart from it.
`set_curr_disk` for the index `-1` writes in front of the table, which is not
modelled.
-/

namespace Xv6Containers

open Lib.Memory Lib.Strings Lib.Search Lib.Program

variable {S Page : Type}

/-! ## Kernels that differ in the memory of a process -/

/-- The containers and processes, with the memory of `me` forgotten. -/
def Container.State.forget (s : Container.State) (me : ProcSlot) : Container.State :=
  { s with low := Function.update s.low me Container.emptyName }

/-- The kernel with the memory of `me` forgotten. -/
def Kernel.forget (s : Kernel S) (me : ProcSlot) : Kernel S :=
  { s with cs := s.cs.forget me, lowInum := Function.update s.lowInum me 0 }

namespace RootProcess

open Container

/-- The kernel with its files, its process numbers and its pages. -/
structure Image (S Page : Type) where
  kernel : Kernel S
  nextpid : Int
  freelist : List Page
  i : Int
  ticks : Nat

namespace Image

def table (s : Image S Page) : Table := s.kernel.cs.table

def book (s : Image S Page) : Book := ⟨s.kernel.cs, s.nextpid⟩

def heap (s : Image S Page) : Heap Page := ⟨s.book, s.freelist, s.i, s.ticks⟩

def setCs (s : Image S Page) (cs : State) : Image S Page :=
  { s with kernel := { s.kernel with cs := cs } }

def setBook (s : Image S Page) (b : Book) : Image S Page :=
  { s.setCs b.cs with nextpid := b.nextpid }

def setHeap (s : Image S Page) (h : Heap Page) : Image S Page :=
  { s.setBook h.book with freelist := h.freelist, i := h.i, ticks := h.ticks }

def forget (s : Image S Page) (me : ProcSlot) : Image S Page :=
  { s with kernel := s.kernel.forget me }

end Image

/-- What is done on behalf of the process. -/
inductive Act (Page : Type)
  | fork (mem : ForkMemory)
  | exit
  | write (fd : Fd) (bs : List Byte)
  | unlink (path : CString) (name : Name)
  | kalloc
  | kfree (v : Page)

/-- What it returns. -/
inductive Outcome (Page : Type)
  | child (q : Option ProcSlot)
  | returned (n : Int)
  | page (v : Option Page)
  | none
  deriving DecidableEq

/-- The system calls that are programs over the file system. -/
def Act.prog : Act Page → Option (FsProg Int)
  | .write fd bs => some (Fs.sysWrite fd bs)
  | .unlink path name => some (Fs.sysUnlink path name)
  | _ => none

variable (st : Store S) (me : ProcSlot)

/-- A file-system call. -/
def runProg (s : Image S Page) (x : FsProg Int) : Except Halt (Outcome Page × Image S Page) :=
  (x.run (execOp st me) s.kernel).map fun r => (.returned r.1, { s with kernel := r.2 })

def perform (s : Image S Page) : Act Page → Except Halt (Outcome Page × Image S Page)
  | .fork mem =>
    match sysFork s.book me mem with
    | some (q, b) => .ok (.child q, s.setBook b)
    | none => .error .undefined
  | .exit => .ok (.none, s.setCs (sysExit s.kernel.cs me))
  | .write fd bs => runProg st me s (Fs.sysWrite fd bs)
  | .unlink path name => runProg st me s (Fs.sysUnlink path name)
  | .kalloc =>
    match kalloc s.heap me with
    | some (v, h) => .ok (.page v, s.setHeap h)
    | none => .error .undefined
  | .kfree v => .ok (.none, s.setHeap (kfree s.heap me v))

/-- The records have the same names, limits and counters. -/
def SameRecords (m m' : Table) : Prop :=
  ∀ c, name m' c = name m c ∧ ∀ f, field m' c f = field m c f

/-- The records are the same in every state that the call passes through. -/
def Untouched (s : Image S Page) (a : Act Page) : Prop :=
  match a.prog with
  | some x => x.Passes (execOp st me) (fun t => SameRecords s.table t.cs.table) s.kernel
  | none => ∀ r t, perform st me s a = .ok (r, t) → SameRecords s.table t.table

/-- The call returns the same and leaves the same table in both kernels, and touches no record. -/
def Independent (a : Act Page) (s s' : Image S Page) : Prop :=
  (perform st me s a).map (fun r => (r.1, r.2.table)) =
      (perform st me s' a).map (fun r => (r.1, r.2.table)) ∧
    Untouched st me s a ∧ Untouched st me s' a

/-! ## Where the accounting comes to bear -/

/-- The memory of the process spells no name of a container. -/
def Nameless (s : State) (me : ProcSlot) : Prop := find s.table (s.low me) = none

instance (s : State) (me : ProcSlot) : Decidable (Nameless s me) := by
  unfold Nameless
  infer_instance

/-- `writei` gets through its checks and its loop. -/
def Carried (x : Except Halt (Written × S × Dinode)) : Prop :=
  match x with
  | .ok (w, _) => w ≠ .refused
  | .error _ => False

instance (x : Except Halt (Written × S × Dinode)) : Decidable (Carried x) := by
  unfold Carried
  split <;> infer_instance

/-- The `writei` of `filewrite` gets through its checks and its loop. -/
def WriteCarried (fd : Fd) (bs : List Byte) (s : Kernel S) : Prop :=
  match s.fdFile me fd with
  | .error _ => False
  | .ok f =>
    (s.file f).writable = true ∧ (s.file f).type = .inode ∧
      match execIlock st (s.file f).ip s with
      | .error _ => False
      | .ok (_, u) =>
        Carried (st.writeData u.store (u.icache (s.file f).ip).inum
          (u.icache (s.file f).ip).d (s.file f).off bs false)

instance (fd : Fd) (bs : List Byte) (s : Kernel S) : Decidable (WriteCarried st me fd bs s) := by
  unfold WriteCarried
  split
  · infer_instance
  · split <;> infer_instance

/-- `set_curr_disk(-size, find(name))` stores nothing new. -/
def RefundSpared (s : State) (me : ProcSlot) (size : Nat) : Prop :=
  ∀ x, find s.table (s.low me) = some x →
    intField s.table x .maxDisk < (intField s.table x .currDisk - size).tdiv 1024 ∨
      size % 2 ^ 32 = 0

instance (s : State) (me : ProcSlot) (size : Nat) : Decidable (RefundSpared s me size) := by
  unfold RefundSpared
  infer_instance

/-- No container is charged or credited by the operation. -/
def OpSpared : Op → Kernel S → Prop
  | .writeDirent i k de, s => Nameless s.cs me ∨
      ¬ Carried (st.writeDirent s.store (s.icache i).inum (s.icache i).d k de false)
  | .writeFd fd bs, s => Nameless s.cs me ∨ bs = [] ∨ ¬ WriteCarried st me fd bs s
  | .refund i, s => RefundSpared s.cs me (s.icache i).d.size
  | _, _ => True

instance (o : Op) (s : Kernel S) : Decidable (OpSpared st me o s) := by
  unfold OpSpared
  split <;> infer_instance

/-- No container is charged or credited. -/
def Spared (s : Image S Page) : Act Page → Prop
  | .fork _ => Nameless s.kernel.cs me
  | .exit => ∀ x, find s.table (s.kernel.cs.low me) = some x →
      intField s.table x .maxProc < intField s.table x .currProc - 1
  | .write fd bs => (Fs.sysWrite fd bs).Meets (execOp st me) (OpSpared st me) s.kernel
  | .unlink path name => (Fs.sysUnlink path name).Meets (execOp st me) (OpSpared st me) s.kernel
  | .kalloc => s.freelist = [] ∨ s.ticks = 0 ∨ Nameless s.kernel.cs me
  | .kfree _ => s.ticks = 0 ∨ Nameless s.kernel.cs me

instance [DecidableEq Page] (s : Image S Page) (a : Act Page) : Decidable (Spared st me s a) := by
  unfold Spared
  split <;> infer_instance

/-- The quota check comes after everything else that `writei` does: two writes that differ in
it fail alike, are refused alike, or are both carried out. -/
def Alike (x y : Except Halt (Written × S × Dinode)) : Prop :=
  x = y ∨ Carried x ∧ Carried y

structure Impartial (st : Store S) : Prop where
  dirent : ∀ s n d k de, Alike (st.writeDirent s n d k de true) (st.writeDirent s n d k de false)
  data : ∀ s n d off bs, Alike (st.writeData s n d off bs true) (st.writeData s n d off bs false)

/-! ### What the accounting does to a record -/

theorem SameRecords.refl (m : Table) : SameRecords m m := fun _ => ⟨rfl, fun _ => rfl⟩

variable {m : Table} {x : Cont} {s : State}

theorem SameRecords.intField {m' : Table} (h : SameRecords m m') (c : Cont) (f : Field) :
    intField m' c f = intField m c f :=
  congrArg toSigned ((h c).2 f)

theorem field_eq_word (m : Table) (c : Cont) (f : Field) : field m c f = word (intField m c f) := by
  have hlt : field m c f < 2 ^ 32 := readWord_lt m (address c f.offset)
  unfold intField toSigned word
  split <;> omega

theorem not_sameRecords_reset (hx : InUse m x) : ¬ SameRecords m (reset m x) := by
  intro h
  have hname := (h x).1
  rw [name_reset] at hname
  exact hx hname.symm

/-- A counter that is stored anew with a difference is another one. -/
theorem sameRecords_addField {f : Field} {n : Int} (h : SameRecords m (addField m x f n)) :
    n % 2 ^ 32 = 0 := by
  have hfield := (h x).2 f
  rw [addField, field_writeWord_self, field_eq_word] at hfield
  unfold word at hfield
  omega

theorem addField_eq_self {f : Field} {n : Int} (hn : n % 2 ^ 32 = 0) : addField m x f n = m := by
  have hword : word (intField m x f + n) = field m x f := by
    rw [field_eq_word]
    unfold word
    omega
  rw [addField, hword, field, writeWord_readWord]

variable {st} {me}

/-- A container that is found is stopped: its record is reset. -/
theorem stopOwn_found (h : find s.table (s.contName me me) = some x) :
    ∃ t, stopOwn s me = some t ∧ t.table = reset s.table x := by
  have htable := (Processes.killLoop_count me (s.contName me me) (fun _ => false)
    (List.finRange nproc) s).1
  rw [stopOwn, resetFound, htable, h, Option.map_some]
  exact ⟨_, rfl, rfl⟩

/-- A bounded counter keeps its record exactly when the bound stops it. -/
theorem addBounded_spared {cur max : Field} {n : Int} (hn : n % 2 ^ 32 ≠ 0) :
    (intField m x max < intField m x cur + n → addBounded m x cur max n = m) ∧
      (SameRecords m (addBounded m x cur max n) → intField m x max < intField m x cur + n) := by
  unfold addBounded
  constructor
  · exact fun h => if_pos h
  · intro h
    by_contra hle
    rw [if_neg hle] at h
    exact hn (sameRecords_addField h)

theorem charge_found {tot : Nat} (h : find s.table (s.contName me me) = some x) (htot : 0 < tot) :
    ¬ SameRecords s.table (charge s me tot).2.table := by
  have hin := (inUse_of_find h).1
  obtain ⟨t, hstop, htable⟩ := stopOwn_found h
  simp only [charge, h, gt_iff_lt, htot, if_true]
  split
  · change ¬ SameRecords s.table ((stopOwn s me).getD s).table
    rw [hstop, Option.getD_some, htable]
    exact not_sameRecords_reset hin
  · next hne =>
    intro hsame
    exact hne (hsame.intField x .currDisk).symm

theorem charge_none {tot : Nat} (h : find s.table (s.contName me me) = none ∨ tot = 0) :
    charge s me tot = (false, s) := by
  rcases h with h | rfl
  · simp only [charge, h]
  · cases h : find s.table (s.contName me me) with
    | none => simp only [charge, h]
    | some x => simp [charge, h]

theorem contName_root (hroot : (s.proc me).cont = none) : s.contName me me = s.low me := by
  rw [State.contName, hroot]

/-- The refund changes nothing, or a counter. -/
theorem refund_spared (hroot : (s.proc me).cont = none) {size : Nat} :
    (RefundSpared s me size → refund s me size = s) ∧
      (SameRecords s.table (refund s me size).table → RefundSpared s me size) := by
  simp only [refund, RefundSpared, contName_root hroot]
  cases hfind : find s.table (s.low me) with
  | none => simp
  | some x =>
    have hset : setCurrDisk s.table (-size) x =
        if intField s.table x .maxDisk < (intField s.table x .currDisk - size).tdiv 1024 then
          s.table
        else addField s.table x .currDisk (-size) := rfl
    simp only [Option.some.injEq, forall_eq', hset]
    constructor
    · rintro (hmax | hsize)
      · rw [if_pos hmax]
      · rw [addField_eq_self (by omega), ite_self]
    · intro hsame
      by_cases hmax : intField s.table x .maxDisk <
          (intField s.table x .currDisk - size).tdiv 1024
      · exact Or.inl hmax
      · rw [if_neg hmax] at hsame
        have hzero := sameRecords_addField hsame
        exact Or.inr (by omega)

/-! ### The operations of the calls -/

@[simp] theorem forget_low (s : State) : (s.forget me).low me = emptyName := by
  simp [State.forget]

theorem charge_forget (hroot : (s.proc me).cont = none) (tot : Nat) :
    charge (s.forget me) me tot = (false, s.forget me) := by
  refine charge_none (Or.inl ?_)
  rw [contName_root (s := s.forget me) hroot, forget_low]
  exact find_emptyName _

theorem refund_forget (hroot : (s.proc me).cont = none) (size : Nat) :
    refund (s.forget me) me size = s.forget me := by
  refine (refund_spared (s := s.forget me) hroot).1 fun x hx => ?_
  rw [forget_low, find_emptyName] at hx
  cases hx

/-- The first computation is the second with the memory of `me` forgotten, and the second leaves
processes and containers at `cs`. -/
structure Forgets {α : Type} (me : ProcSlot) (cs : State) (x' x : Except Halt (α × Kernel S)) :
    Prop where
  eq : x' = x.map (Prod.map id (Kernel.forget · me))
  kept : ∀ r t, x = .ok (r, t) → t.cs = cs

section Forgets

variable {α β : Type} {cs : State}

theorem forgets_ok (a : α) {s' s : Kernel S} (hs : s' = s.forget me) (h : s.cs = cs) :
    Forgets me cs (.ok (a, s')) (.ok (a, s)) := by
  subst hs
  refine ⟨rfl, fun r t ht => ?_⟩
  cases ht
  exact h

theorem forgets_error (e : Halt) :
    Forgets me cs (.error e : Except Halt (α × Kernel S)) (.error e) :=
  ⟨rfl, fun _ _ h => nomatch h⟩

theorem Forgets.bind {x' x : Except Halt (α × Kernel S)}
    {g' g : α × Kernel S → Except Halt (β × Kernel S)} (hx : Forgets me cs x' x)
    (hg : ∀ a t, x = .ok (a, t) → t.cs = cs → Forgets me cs (g' (a, t.forget me)) (g (a, t))) :
    Forgets me cs (x' >>= g') (x >>= g) := by
  obtain ⟨rfl, hkept⟩ := hx
  cases x with
  | error e => exact forgets_error e
  | ok r => exact hg r.1 r.2 rfl (hkept r.1 r.2 rfl)

/-- A step that does not change the kernel. -/
theorem forgets_bind {y : Except Halt α} {g' g : α → Except Halt (β × Kernel S)}
    (hg : ∀ a, y = .ok a → Forgets me cs (g' a) (g a)) : Forgets me cs (y >>= g') (y >>= g) := by
  cases y with
  | error e => exact forgets_error e
  | ok a => exact hg a rfl

theorem forgets_ite {p : Prop} [Decidable p] {x' x y' y : Except Halt (α × Kernel S)}
    (hx : p → Forgets me cs x' x) (hy : ¬ p → Forgets me cs y' y) :
    Forgets me cs (if p then x' else y') (if p then x else y) := by
  split
  · next h => exact hx h
  · next h => exact hy h

end Forgets

/-- The operations out of which `sys_write` and `sys_unlink` are made. -/
def Plain : Op → Prop
  | .addLink _ _ | .writeDirent _ _ _ | .refund _ | .argfd _ | .writeFd _ _ => True
  | o => Fs.Lookup o

theorem forgets_ilock (i : Slot) {s' s : Kernel S} (hs : s' = s.forget me) :
    Forgets me s.cs (execIlock st i s') (execIlock st i s) := by
  subst hs
  exact forgets_ite (fun _ => forgets_error _) fun _ =>
    forgets_ite (fun _ => forgets_error _) fun _ =>
      forgets_ite (fun _ => forgets_ok () rfl rfl) fun _ =>
        forgets_ite (fun _ => forgets_error _) fun _ => forgets_ok () rfl rfl

theorem forgets_iunlock (i : Slot) {cs : State} {s' s : Kernel S} (hs : s' = s.forget me)
    (hcs : s.cs = cs) : Forgets me cs (execIunlock i s') (execIunlock i s) := by
  subst hs hcs
  exact forgets_ite (fun _ => forgets_error _) fun _ => forgets_ok () rfl rfl

/-- A write that is not carried out does not depend on the quota. -/
theorem Alike.eq {x y : Except Halt (Written × S × Dinode)} (h : Alike x y) (hy : ¬ Carried y) :
    x = y :=
  h.resolve_right fun hboth => hy hboth.2

/-- A `writei` whose charge does not come to bear is one without a charge. -/
theorem charge_spared {s : State} {n : Nat} {f : Bool → Except Halt (Written × S × Dinode)}
    (hf : Alike (f true) (f false))
    (h : find s.table (s.contName me me) = none ∨ n = 0 ∨ ¬ Carried (f false)) :
    f (charge s me n).1 = f false ∧
      ∀ w store d, f false = .ok (w, store, d) →
        (if w = .refused then s else (charge s me n).2) = s := by
  have hnone (hn : find s.table (s.contName me me) = none ∨ n = 0) :
      f (charge s me n).1 = f false ∧
        ∀ w store d, f false = .ok (w, store, d) →
          (if w = .refused then s else (charge s me n).2) = s := by
    rw [charge_none hn]
    exact ⟨rfl, fun w _ _ _ => ite_self s⟩
  rcases h with h | h | h
  · exact hnone (Or.inl h)
  · exact hnone (Or.inr h)
  · constructor
    · cases (charge s me n).1 with
      | true => exact hf.eq h
      | false => rfl
    · intro w store d hok
      rw [hok] at h
      rw [if_pos (not_not.mp h)]

theorem execWriteDirent_spared (hst : Impartial st) {i : Slot} {k : Nat} {de : Dirent}
    {s : Kernel S} (hroot : (s.cs.proc me).cont = none)
    (h : OpSpared st me (.writeDirent i k de) s) :
    execWriteDirent st me i k de s =
      (st.writeDirent s.store (s.icache i).inum (s.icache i).d k de false).map fun r =>
        (r.1, s.setNode i { s.icache i with d := r.2.2 } r.2.1) := by
  obtain ⟨hflag, hcs⟩ := charge_spared (n := direntSize)
    (f := st.writeDirent s.store (s.icache i).inum (s.icache i).d k de)
    (hst.dirent _ _ _ _ _) (by
      rw [contName_root hroot]
      exact h.imp_right Or.inr)
  simp only [execWriteDirent]
  generalize charge s.cs me direntSize = p at hflag hcs ⊢
  rw [hflag]
  cases hok : st.writeDirent s.store (s.icache i).inum (s.icache i).d k de false with
  | error e => rfl
  | ok r =>
    have hkept := hcs r.1 r.2.1 r.2.2 hok
    simp only [bind, Except.bind, pure, Except.pure, Except.map, hkept]
    rfl

theorem nameless_forget (s : State) : Nameless (s.forget me) me := by
  rw [Nameless, forget_low]
  exact find_emptyName _

theorem forgets_writeDirent (hst : Impartial st) {i : Slot} {k : Nat} {de : Dirent}
    {s : Kernel S} (hroot : (s.cs.proc me).cont = none)
    (h : OpSpared st me (.writeDirent i k de) s) :
    Forgets me s.cs (execWriteDirent st me i k de (s.forget me)) (execWriteDirent st me i k de s) := by
  rw [execWriteDirent_spared hst hroot h,
    execWriteDirent_spared (s := s.forget me) hst hroot (Or.inl (nameless_forget s.cs))]
  exact forgets_bind fun r _ => forgets_ok r.1 rfl rfl

theorem forgets_writeFd (hst : Impartial st) {fd : Fd} {bs : List Byte} {s : Kernel S}
    (hroot : (s.cs.proc me).cont = none) (h : OpSpared st me (.writeFd fd bs) s) :
    Forgets me s.cs (execWriteFd st me fd bs (s.forget me)) (execWriteFd st me fd bs s) := by
  refine forgets_bind fun f hf => forgets_ite (fun _ => forgets_ok none rfl rfl) fun hw =>
    forgets_ite (fun _ => forgets_error _) fun htype =>
      (forgets_ilock _ rfl).bind fun _ u hu hcs => ?_
  have hspared : find u.cs.table (u.cs.contName me me) = none ∨ bs.length = 0 ∨
      ¬ Carried (st.writeData u.store (u.icache (s.file f).ip).inum (u.icache (s.file f).ip).d
        (s.file f).off bs false) := by
    rw [hcs, contName_root hroot]
    refine h.imp_right (Or.imp (fun hbs => by rw [hbs]; rfl) fun hcarried hc => hcarried ?_)
    have hf : s.fdFile me fd = .ok f := hf
    have hu : execIlock st (s.file f).ip s = .ok ((), u) := hu
    have hw : (s.file f).writable = true := by simpa using (show ¬ (s.file f).writable = false from hw)
    rw [WriteCarried, hf]
    refine ⟨hw, not_not.mp htype, ?_⟩
    rw [hu]
    exact hc
  obtain ⟨hflag, hkept⟩ := charge_spared (hst.data u.store (u.icache (s.file f).ip).inum
    (u.icache (s.file f).ip).d (s.file f).off bs) hspared
  have hnone : charge (u.forget me).cs me bs.length = (false, (u.forget me).cs) :=
    charge_forget (by rw [hcs]; exact hroot) _
  dsimp only
  rw [hnone]
  generalize charge u.cs me bs.length = p at hflag hkept ⊢
  rw [hflag]
  refine forgets_bind fun r hr => ?_
  dsimp only
  rw [hkept r.1 r.2.1 r.2.2 hr, ite_self]
  refine Forgets.bind (forgets_iunlock _ rfl hcs) fun _ t _ ht => ?_
  exact forgets_ok _ rfl ht

theorem forgets_reclaim (i : Slot) (s : Kernel S) :
    Forgets me s.cs (execReclaim st i (s.forget me)) (execReclaim st i s) :=
  forgets_ite (fun _ => forgets_error _) fun _ =>
    forgets_ite (fun _ => forgets_bind fun _ _ => forgets_ok true rfl rfl) fun _ =>
      forgets_ok false rfl rfl

/-- An operation whose accounting does not come to bear reads nothing of the memory of `me`. -/
theorem forgets_exec (hst : Impartial st) {o : Op} (ho : Plain o) {s : Kernel S}
    (hroot : (s.cs.proc me).cont = none) (h : OpSpared st me o s) :
    Forgets me s.cs (execOp st me o (s.forget me)) (execOp st me o s) := by
  cases o with
  | iget inum =>
    simp only [execOp, show (s.forget me).icache = s.icache from rfl]
    cases s.icache.iget 1 inum with
    | none => exact forgets_error _
    | some r => exact forgets_ok _ rfl rfl
  | dupCwd =>
    simp only [execOp, show (s.forget me).cwd = s.cwd from rfl]
    cases s.cwd me with
    | none => exact forgets_error _
    | some i => exact forgets_ok _ rfl rfl
  | ilock i => exact forgets_ilock i rfl
  | iunlock i => exact forgets_iunlock i rfl rfl
  | reclaim i => exact forgets_reclaim i s
  | drop i => exact forgets_ok _ rfl rfl
  | inumOf i => exact forgets_ok _ rfl rfl
  | fields i => exact forgets_ok _ rfl rfl
  | addLink i n => exact forgets_ok _ rfl rfl
  | readDirent i k => exact forgets_bind fun _ _ => forgets_ok _ rfl rfl
  | writeDirent i k de => exact forgets_writeDirent hst hroot h
  | refund i =>
    have hsame := (refund_spared hroot).1 h
    have hblank := refund_forget hroot (s.icache i).d.size
    refine forgets_ok _ ?_ hsame
    rw [Kernel.forget, hsame]
    exact congrArg (fun cs => { s.forget me with cs := cs }) hblank
  | inCont => exact forgets_ok _ rfl rfl
  | rootInum =>
    simp only [execOp, show (s.forget me).cs.proc = s.cs.proc from rfl, hroot]
    exact forgets_error _
  | returnRoot ip =>
    simp only [execOp, show (s.forget me).cs.proc = s.cs.proc from rfl, hroot]
    exact forgets_error _
  | argfd fd => exact forgets_ok _ rfl rfl
  | writeFd fd bs => exact forgets_writeFd hst hroot h
  | panic p => exact forgets_error _
  | _ => cases ho

/-- A write that is carried out changes the record that is found. -/
theorem carried_flag {f : Bool → Except Halt (Written × S × Dinode)} (hf : Alike (f true) (f false))
    (h : Carried (f false)) (b : Bool) : ∃ w store d, f b = .ok (w, store, d) ∧ w ≠ .refused := by
  have hb : Carried (f b) := by
    cases b with
    | false => exact h
    | true => exact hf.elim (fun heq => by rw [heq]; exact h) And.left
  cases hok : f b with
  | error e =>
    rw [hok] at hb
    exact hb.elim
  | ok r =>
    rw [hok] at hb
    exact ⟨r.1, r.2.1, r.2.2, rfl, hb⟩

theorem nameless_of_charge {s : State} {tot : Nat} (hroot : (s.proc me).cont = none)
    (htot : 0 < tot) (h : SameRecords s.table (charge s me tot).2.table) : Nameless s me := by
  cases hfind : find s.table (s.contName me me) with
  | none => rwa [contName_root hroot] at hfind
  | some x => exact absurd h (charge_found hfind htot)

theorem execIlock_locked {i : Slot} {s u : Kernel S} {r : Unit} (h : execIlock st i s = .ok (r, u)) :
    (u.icache i).locked = true ∧ ¬ (u.icache i).ref < 1 := by
  simp only [execIlock] at h
  split_ifs at h with href _ _ _
  all_goals
    cases h
    simpa [Kernel.setInode] using href

theorem writeFd_carried (hst : Impartial st) {fd : Fd} {bs : List Byte} {s : Kernel S}
    (h : WriteCarried st me fd bs s) :
    ∃ r t, execWriteFd st me fd bs s = .ok (r, t) ∧ t.cs = (charge s.cs me bs.length).2 := by
  unfold WriteCarried at h
  split at h
  · exact h.elim
  next f hf =>
  obtain ⟨hw, htype, h⟩ := h
  split at h
  · exact h.elim
  next u hu =>
  obtain ⟨w, store, d, hok, hne⟩ := carried_flag (hst.data _ _ _ _ _) h (charge u.cs me bs.length).1
  have hlock : Forgets me s.cs (execIlock st (s.file f).ip (s.forget me))
      (execIlock st (s.file f).ip s) := forgets_ilock _ rfl
  have hcs := hlock.kept _ u hu
  obtain ⟨hlocked, href⟩ := execIlock_locked hu
  simp only [execWriteFd, hf, bind, Except.bind, hw, htype, hu, hok, hne, execIunlock]
  simp [Kernel.setNode, Kernel.setFile, hlocked, href, Kernel.setInode, hcs, pure, Except.pure]

/-- An operation that leaves every record as it was is spared. -/
theorem opSpared_of_same (hst : Impartial st) {o : Op} {s : Kernel S}
    (hroot : (s.cs.proc me).cont = none)
    (h : ∀ r t, execOp st me o s = .ok (r, t) → SameRecords s.cs.table t.cs.table) :
    OpSpared st me o s := by
  cases o with
  | writeDirent i k de =>
    by_cases hcarried : Carried (st.writeDirent s.store (s.icache i).inum (s.icache i).d k de false)
    · left
      obtain ⟨w, store, d, hok, hne⟩ := carried_flag (hst.dirent _ _ _ _ _) hcarried
        (charge s.cs me direntSize).1
      have hpos : 0 < direntSize := by decide
      have hexec : execOp st me (.writeDirent i k de) s =
          .ok (w, { s.setNode i { s.icache i with d := d } store with
            cs := (charge s.cs me direntSize).2 }) := by
        simp only [execOp, execWriteDirent, hok, bind, Except.bind, pure, Except.pure]
        rw [if_neg hne]
        rfl
      exact nameless_of_charge hroot hpos (h w _ hexec)
    · exact Or.inr hcarried
  | writeFd fd bs =>
    by_cases hcarried : WriteCarried st me fd bs s
    · obtain ⟨r, t, hexec, hcs⟩ := writeFd_carried hst hcarried
      have hsame := h r t hexec
      rw [hcs] at hsame
      by_cases hbs : bs = []
      · exact Or.inr (Or.inl hbs)
      · exact Or.inl (nameless_of_charge hroot (List.length_pos_iff.mpr hbs) hsame)
    · exact Or.inr (Or.inr hcarried)
  | refund i => exact (refund_spared hroot).2 (h () _ rfl)
  | _ => exact trivial

/-! ### The calls -/

theorem plain_of_lookup {o : Op} (h : Fs.Lookup o) : Plain o := by
  cases o with
  | _ => first | exact h | exact trivial

theorem only_writeChunks (fd : Fd) (cs : List (List Byte)) : (Fs.writeChunks fd cs).Only Plain := by
  induction cs with
  | nil => exact Prog.only_pure
  | cons c cs ih =>
    refine Prog.only_bind (Prog.only_op.mpr trivial) fun r => ?_
    cases r with
    | none => exact Prog.only_pure
    | some n =>
      dsimp only
      split
      · exact ih
      · exact Fs.only_panic.mono fun _ => plain_of_lookup

theorem only_sysWrite (fd : Fd) (bs : List Byte) : (Fs.sysWrite fd bs).Only Plain := by
  refine Prog.only_bind (Prog.only_op.mpr trivial) fun b => ?_
  split
  · refine Prog.only_bind (only_writeChunks fd _) fun ok => ?_
    split <;> exact Prog.only_pure
  · exact Prog.only_pure

theorem only_isdirempty (dp : Slot) : (Fs.isdirempty dp).Only Fs.Lookup := by
  have hfrom (n k : Nat) : (Fs.isdiremptyFrom dp k n).Only Fs.Lookup := by
    induction n generalizing k with
    | zero => exact Prog.only_pure
    | succ n ih =>
      refine Prog.only_bind (Prog.only_op.mpr trivial) fun r => ?_
      cases r with
      | none => exact Fs.only_panic
      | some de =>
        dsimp only
        split
        · exact Prog.only_pure
        · exact ih (k + 1)
  exact Prog.only_bind (Prog.only_op.mpr trivial) fun d => hfrom _ 2

theorem only_unlinkEntry (dp ip : Slot) (k : Nat) (isDir : Bool) :
    (Fs.unlinkEntry dp ip k isDir).Only Plain := by
  have hput (i : Slot) : (Fs.iunlockput i).Only Plain :=
    Fs.only_iunlockput.mono fun _ => plain_of_lookup
  refine Prog.only_bind (Prog.only_op.mpr trivial) fun w => ?_
  split
  · refine Prog.only_bind (Prog.only_op.mpr trivial) fun _ => Prog.only_bind ?_ fun _ =>
      Prog.only_bind (hput dp) fun _ => Prog.only_bind (Prog.only_op.mpr trivial) fun _ =>
        Prog.only_bind (hput ip) fun _ => Prog.only_pure
    split
    · exact Prog.only_op.mpr trivial
    · exact Prog.only_pure
  · exact Fs.only_panic.mono fun _ => plain_of_lookup

theorem only_sysUnlink (path : CString) (name : Name) : (Fs.sysUnlink path name).Only Plain := by
  have hput (i : Slot) : (Fs.iunlockput i).Only Plain :=
    Fs.only_iunlockput.mono fun _ => plain_of_lookup
  have hbad (i : Slot) : (do Fs.iunlockput i; return -1 : FsProg Int).Only Plain :=
    Prog.only_bind (hput i) fun _ => Prog.only_pure
  refine Prog.only_bind (Fs.only_namex.mono fun _ => plain_of_lookup) fun r => ?_
  obtain ⟨_ | dp, name⟩ := r
  · exact Prog.only_pure
  refine Prog.only_bind (Prog.only_op.mpr trivial) fun _ => ?_
  split
  · exact hbad dp
  refine Prog.only_bind (Fs.only_dirlookup.mono fun _ => plain_of_lookup) fun r => ?_
  obtain _ | ⟨ip, k⟩ := r
  · exact hbad dp
  refine Prog.only_bind (Prog.only_op.mpr trivial) fun _ =>
    Prog.only_bind (Prog.only_op.mpr trivial) fun d => ?_
  split
  · exact Fs.only_panic.mono fun _ => plain_of_lookup
  split
  · refine Prog.only_bind ((only_isdirempty ip).mono fun _ => plain_of_lookup) fun e => ?_
    split
    · exact only_unlinkEntry dp ip k true
    · exact Prog.only_bind (hput ip) fun _ => hbad dp
  · exact only_unlinkEntry dp ip k false

variable {s : Image S Page} {h : Heap Page}

/-- A file-system call that is spared touches no record, and conversely. -/
theorem untouched_prog (hst : Impartial st) {x : FsProg Int} (hx : x.Only Plain)
    (hroot : (s.kernel.cs.proc me).cont = none) :
    x.Passes (execOp st me) (fun t => SameRecords s.table t.cs.table) s.kernel ↔
      x.Meets (execOp st me) (OpSpared st me) s.kernel := by
  have hforgets (o : Op) (t : Kernel S) (ho : Plain o) (ht : t.cs = s.kernel.cs)
      (h : OpSpared st me o t) := forgets_exec hst ho (by rw [ht]; exact hroot) h
  refine Prog.passes_iff_meets (I := fun t => t.cs = s.kernel.cs) ?_ ?_ ?_ hx rfl
  · intro o t ho ht
    constructor
    · intro h r u hu
      rw [(hforgets o t ho ht h).kept r u hu, ht]
      exact .refl _
    · intro h
      refine opSpared_of_same hst (by rw [ht]; exact hroot) fun r u hu => ?_
      have hsame := h r u hu
      rwa [Image.table, ← ht] at hsame
  · exact fun o t ho ht h r u hu => ((hforgets o t ho ht h).kept r u hu).trans ht
  · intro t ht
    rw [ht]
    exact .refl _

/-- A file-system call that is spared does the same once the memory is forgotten. -/
theorem runProg_forget (hst : Impartial st) {x : FsProg Int} (hx : x.Only Plain)
    (hroot : (s.kernel.cs.proc me).cont = none)
    (h : x.Meets (execOp st me) (OpSpared st me) s.kernel) :
    runProg st me (s.forget me) x = (runProg st me s x).map (Prod.map id (Image.forget · me)) := by
  have hforgets (o : Op) (t : Kernel S) (ho : Plain o) (ht : t.cs = s.kernel.cs)
      (h : OpSpared st me o t) := forgets_exec hst ho (by rw [ht]; exact hroot) h
  have hrun : x.run (execOp st me) (s.kernel.forget me) =
      (x.run (execOp st me) s.kernel).map (Prod.map id (Kernel.forget · me)) :=
    Prog.run_map (I := fun t => t.cs = s.kernel.cs) (fun o t ho ht hc => (hforgets o t ho ht hc).eq)
      (fun o t ho ht hc r u hu => ((hforgets o t ho ht hc).kept r u hu).trans ht) hx rfl h
  rw [runProg, Image.forget, hrun, runProg]
  cases x.run (execOp st me) s.kernel with
  | error e => rfl
  | ok r => rfl

theorem fork_forget (b : Book) (mem : ForkMemory) :
    fork { b with cs := b.cs.forget me } me mem =
      ((fork b me mem).1, { (fork b me mem).2 with cs := (fork b me mem).2.cs.forget me }) := by
  cases hq : first fun q => (b.cs.proc q).state = .unused with
  | none =>
    have hq' : (first fun q => ((b.cs.forget me).proc q).state = .unused) = none := hq
    simp only [fork, hq, hq']
  | some q =>
    have hq' : (first fun q => ((b.cs.forget me).proc q).state = .unused) = some q := hq
    simp only [fork, hq, hq']
    cases mem with
    | _ => rfl

/-- A `fork` that is charged stops the container or counts up. -/
theorem sysFork_found {b : Book} {x : Cont} (h : find b.cs.table (b.cs.contName me me) = some x)
    (mem : ForkMemory) : ∃ r, sysFork b me mem = some r ∧ ¬ SameRecords b.cs.table r.2.cs.table := by
  obtain ⟨t, hstop, htable⟩ := stopOwn_found h
  simp only [sysFork, h]
  split
  · refine ⟨(none, { b with cs := t }), by rw [hstop, Option.map_some], ?_⟩
    rw [htable]
    exact not_sameRecords_reset (inUse_of_find h).1
  · next hne =>
    refine ⟨_, rfl, fun hsame => hne ?_⟩
    rw [(Processes.fork_count _ me mem).1] at hsame
    exact hsame.intField x .currProc

/-- A page that is charged stops the container or counts up. -/
theorem kalloc_found {x : Cont} (hlist : h.freelist ≠ []) (hx : h.accounted me = some x) :
    ∃ r, kalloc h me = some r ∧ ¬ SameRecords h.cs.table r.2.cs.table := by
  obtain ⟨v, rest, hcons⟩ := List.exists_cons_of_ne_nil hlist
  have hfind : find h.cs.table (h.cs.contName me me) = some x :=
    (Option.ite_none_right_eq_some.mp hx).2
  obtain ⟨t, hstop, htable⟩ := stopOwn_found hfind
  simp only [kalloc, hcons, hx]
  split
  · refine ⟨(some v, Heap.setCs { h with freelist := rest, i := h.i + 1 } t),
      by rw [hstop, Option.map_some], ?_⟩
    rw [Heap.setCs_cs, htable]
    exact not_sameRecords_reset (inUse_of_find hfind).1
  · next hne => exact ⟨_, rfl, fun hsame => hne (hsame.intField x .currMem).symm⟩

/-- A page that is not charged is just taken from the list. -/
theorem kalloc_spared (hx : h.freelist = [] ∨ h.accounted me = none) :
    kalloc h me =
      some (h.freelist.head?, { h with freelist := h.freelist.tail, i := h.i + 1 }) := by
  cases hlist : h.freelist with
  | nil => simp only [kalloc, hlist, List.head?_nil, List.tail_nil]
  | cons v rest =>
    have hnone := hx.resolve_left (by simp [hlist])
    simp only [kalloc, hlist, hnone, List.head?_cons, List.tail_cons]

/-- An exit that is not charged is just an exit. -/
theorem sysExit_spared {s : State} (hroot : (s.proc me).cont = none)
    (h : ∀ x, find s.table (s.low me) = some x →
      intField s.table x .maxProc < intField s.table x .currProc - 1) :
    sysExit s me = exit s me := by
  unfold sysExit
  rw [contName_root hroot]
  cases hfind : find s.table (s.low me) with
  | none => rfl
  | some x => simp only [setCurrProc, (addBounded_spared (by decide)).1 (h x hfind)]

theorem accounted_root (hroot : (h.cs.proc me).cont = none) :
    h.accounted me = none ↔ h.ticks = 0 ∨ Nameless h.cs me := by
  rw [Heap.accounted, contName_root hroot, Nameless]
  split
  · next hticks => simp [show h.ticks ≠ 0 by omega]
  · next hticks => simp [show h.ticks = 0 by omega]

theorem untouched_fork (hroot : (s.kernel.cs.proc me).cont = none) (mem : ForkMemory) :
    Untouched st me s (.fork mem) ↔ Spared st me s (.fork mem) := by
  have hname : s.book.cs.contName me me = s.kernel.cs.low me := contName_root hroot
  simp only [Untouched, Act.prog, Spared, Nameless, perform]
  cases hfind : find s.kernel.cs.table (s.kernel.cs.low me) with
  | none =>
    have hfork : sysFork s.book me mem = some (fork s.book me mem) := by
      rw [sysFork, hname, show find s.book.cs.table (s.kernel.cs.low me) = none from hfind]
    refine ⟨fun _ => rfl, fun _ r t ht => ?_⟩
    rw [hfork] at ht
    cases ht
    have htable := (Processes.fork_count s.book me mem).1
    change SameRecords s.book.cs.table (fork s.book me mem).2.cs.table
    rw [htable]
    exact .refl _
  | some x =>
    obtain ⟨r, hfork, hchanged⟩ := sysFork_found (b := s.book) (by rw [hname]; exact hfind) mem
    refine ⟨fun h => ?_, fun h => nomatch h⟩
    rw [hfork] at h
    exact absurd (h _ _ rfl) hchanged

theorem untouched_exit (hroot : (s.kernel.cs.proc me).cont = none) :
    Untouched st me s .exit ↔ Spared st me s .exit := by
  have hname := contName_root hroot
  simp only [Untouched, Act.prog, Spared, perform]
  constructor
  · intro h x hx
    have hsame : SameRecords s.table (sysExit s.kernel.cs me).table := h _ _ rfl
    simp only [sysExit, hname, show find s.kernel.cs.table (s.kernel.cs.low me) = some x from hx]
      at hsame
    exact (addBounded_spared (by decide)).2 hsame
  · intro h r t ht
    cases ht
    rw [sysExit_spared hroot h]
    exact .refl _

theorem untouched_kalloc (hroot : (s.kernel.cs.proc me).cont = none) :
    Untouched st me s .kalloc ↔ Spared st me s .kalloc := by
  have hacc : s.heap.accounted me = none ↔ s.ticks = 0 ∨ Nameless s.kernel.cs me :=
    accounted_root (h := s.heap) hroot
  simp only [Untouched, Act.prog, Spared, perform, ← hacc]
  constructor
  · intro h
    by_contra hnot
    obtain ⟨hlist, hsome⟩ := not_or.mp hnot
    obtain ⟨x, hx⟩ := Option.ne_none_iff_exists'.mp hsome
    obtain ⟨r, hr, hchanged⟩ := kalloc_found (h := s.heap) hlist hx
    rw [hr] at h
    exact hchanged (h _ _ rfl)
  · intro h r t ht
    rw [kalloc_spared h] at ht
    cases ht
    exact .refl _

theorem untouched_kfree (hroot : (s.kernel.cs.proc me).cont = none) (v : Page) :
    Untouched st me s (.kfree v) ↔ Spared st me s (.kfree v) := by
  have hacc : s.heap.accounted me = none ↔ s.ticks = 0 ∨ Nameless s.kernel.cs me :=
    accounted_root (h := s.heap) hroot
  simp only [Untouched, Act.prog, Spared, perform, ← hacc, kfree]
  cases s.heap.accounted me with
  | none =>
    refine ⟨fun _ => rfl, fun _ r t ht => ?_⟩
    cases ht
    exact .refl _
  | some x =>
    refine ⟨fun h => ?_, fun h => by cases h⟩
    have hzero := sameRecords_addField (h _ _ rfl)
    exact absurd hzero (by decide)

theorem untouched_iff (hst : Impartial st) (hroot : (s.kernel.cs.proc me).cont = none)
    (a : Act Page) : Untouched st me s a ↔ Spared st me s a := by
  cases a with
  | fork mem => exact untouched_fork hroot mem
  | exit => exact untouched_exit hroot
  | write fd bs => exact untouched_prog hst (only_sysWrite fd bs) hroot
  | unlink path name => exact untouched_prog hst (only_sysUnlink path name) hroot
  | kalloc => exact untouched_kalloc hroot
  | kfree v => exact untouched_kfree hroot v

/-- A call that is spared does the same once the memory is forgotten. -/
theorem perform_forget (hst : Impartial st) (hroot : (s.kernel.cs.proc me).cont = none)
    {a : Act Page} (h : Spared st me s a) :
    perform st me (s.forget me) a = (perform st me s a).map (Prod.map id (Image.forget · me)) := by
  have hblank : find s.kernel.cs.table ((s.kernel.cs.forget me).low me) = none :=
    nameless_forget s.kernel.cs
  have hblankName : (s.kernel.cs.forget me).contName me me = (s.kernel.cs.forget me).low me :=
    contName_root (s := s.kernel.cs.forget me) hroot
  have hname := contName_root hroot
  have hacc : s.heap.accounted me = none ↔ s.ticks = 0 ∨ Nameless s.kernel.cs me :=
    accounted_root (h := s.heap) hroot
  have hforgotten : (s.forget me).heap.accounted me = none :=
    (accounted_root (h := (s.forget me).heap) hroot).mpr (Or.inr hblank)
  cases a with
  | fork mem =>
    have hplain (b : Book) (hb : find b.cs.table (b.cs.contName me me) = none) :
        sysFork b me mem = some (fork b me mem) := by
      rw [sysFork, hb]
    have hfork := hplain s.book (by rw [show s.book.cs = s.kernel.cs from rfl, hname]; exact h)
    have hforget := hplain { s.book with cs := s.kernel.cs.forget me }
      (by rw [hblankName]; exact hblank)
    simp only [perform, hfork]
    rw [show (s.forget me).book = { s.book with cs := s.kernel.cs.forget me } from rfl, hforget,
      show s.kernel.cs = s.book.cs from rfl, fork_forget]
    rfl
  | exit =>
    have hforget := sysExit_spared (s := s.kernel.cs.forget me) hroot fun x hx => by
      rw [show (s.kernel.cs.forget me).table = s.kernel.cs.table from rfl, hblank] at hx
      cases hx
    simp only [perform, sysExit_spared hroot h]
    rw [show (s.forget me).kernel.cs = s.kernel.cs.forget me from rfl, hforget]
    rfl
  | write fd bs => exact runProg_forget hst (only_sysWrite fd bs) hroot h
  | unlink path name => exact runProg_forget hst (only_sysUnlink path name) hroot h
  | kalloc =>
    simp only [perform, kalloc_spared (h.imp_right hacc.mpr), kalloc_spared (Or.inr hforgotten)]
    rfl
  | kfree v =>
    simp only [perform, kfree, hacc.mpr h, hforgotten]
    rfl

/-- A disk of inodes checks the arguments of a write before the quota. -/
theorem impartial_nodeStore (n : Nat) : Impartial (nodeStore n) where
  dirent := by
    intro s i d k de
    simp only [nodeStore, Nodes.writeDirent, Bool.false_eq_true, if_true, if_false]
    split_ifs
    · exact Or.inl rfl
    all_goals exact Or.inr ⟨by simp [Carried], by simp [Carried]⟩
  data := by
    intro s i d off bs
    simp only [nodeStore, Nodes.writeData, Bool.false_eq_true, if_true, if_false]
    split_ifs
    · exact Or.inl rfl
    all_goals exact Or.inr ⟨by simp [Carried], by simp [Carried]⟩

/-- A root process beside a container, with `low` in its memory at the offset of `name`. -/
def besideContainer (low : CString) : Image Nodes Nat where
  kernel :=
    { bootKernel bootNodes with
      cs :=
        { (bootKernel bootNodes).cs with
          table := blit (containerInit fun _ => 0) (address 0 nameOffset)
            (toBytes Processes.demoName)
          low := Function.update (fun _ => emptyName) 0 low } }
  nextpid := 2
  freelist := [0]
  i := 0
  ticks := 1

theorem besideContainer_forget (low : CString) :
    (besideContainer low).forget 0 = (besideContainer emptyName).forget 0 := by
  simp [Image.forget, Kernel.forget, Container.State.forget, besideContainer]

end RootProcess

end Xv6Containers
