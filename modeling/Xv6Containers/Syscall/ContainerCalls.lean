import Xv6Containers.Container.Process
import Xv6Containers.Syscall.Arguments

/-!
# Arguments of the container calls

Eight system calls of `sysproc.c` that take a string, and which memory each of
them touches. None tests what `argstr` returned: a call goes on with the pointer
that `argstr` stored or, if it stored none, with what the local variable held
before. `get_name` writes a container name to a place that was only checked to
hold some string.

## Implementation notes

A call is given by its effects: the addresses it reads or writes through the
string argument, those it reads through a `cont` that is `NULL`, those it writes,
and whether it stores to kernel memory. The memory of the process is that of the
whole address space, since a pointer that was not checked may point anywhere. How
far `namei` reads into its path depends on the file system and is left open, and
so is the name behind an index outside of `containers`.
-/

namespace Xv6Containers.Syscall

open Lib.Memory Lib.Strings Vm

/-! ## Strings in user memory -/

/-- The addresses from `a` to `a + k`. -/
def span (a k : Nat) : List Nat := (List.range (k + 1)).map (a + ·)

/-- The position at which `strcmp` of the string at `a` with `q` stops. -/
def stopsAt (mem : Mem) : Nat → List Byte → Nat
  | _, [] => 0
  | a, b :: q => if mem a = b then stopsAt mem (a + 1) q + 1 else 0

/-- `strcmp` of the string at `a` with `q` returns 0. -/
def Equals (mem : Mem) (a : Nat) (q : List Byte) : Prop :=
  stopsAt mem a q = q.length ∧ mem (a + q.length) = 0

instance (mem : Mem) (a : Nat) (q : List Byte) : Decidable (Equals mem a q) := by
  unfold Equals
  infer_instance

/-- `strlen` of the string at `a`, which looks at `k` bytes at most. -/
def strlenUpTo (mem : Mem) : Nat → Nat → Nat
  | 0, _ => 0
  | k + 1, a => if mem a = 0 then 0 else strlenUpTo mem k (a + 1) + 1

def strlenAt (mem : Mem) (a : Nat) : Nat := strlenUpTo mem (2 ^ 32) a

/-- The bytes of the string at `a`. -/
def stringAt (mem : Mem) (a : Nat) : List Byte := (List.range (strlenAt mem a)).map fun i => mem (a + i)

/-! ## The calls -/

/-- The process that calls, the process table with the containers, the values of the locals
`name` and `vc_num` before they are set, and what is left open. -/
structure Env where
  user : User
  s : Container.State
  me : ProcSlot
  junk : UInt32
  junkInt : UInt32
  outside : Int → CString
  nameiReads : Nat

inductive Call
  | cstop
  | setRootInode
  | find
  | getName
  | setName
  | pause
  | resume
  | cPs
  deriving DecidableEq

/-- What a call does: the user memory it touches through its string argument and through a
`cont` that is `NULL`, what it writes, and whether it stores to kernel memory. -/
structure Effects where
  string : List Nat
  low : List Nat
  written : List Nat
  stores : Bool

/-- The position of the string among the arguments. -/
def Call.stringIndex : Call → UInt32
  | .getName => 1
  | _ => 0

namespace Env

variable (e : Env)

/-- The addresses that `find` reads of the name at `a`. -/
def findReads (a : Nat) : List Cont → List Nat
  | [] => []
  | c :: cs =>
    if e.user.mem a = 0 then a :: findReads a cs
    else
      a :: span a (stopsAt e.user.mem a (Container.name e.s.table c).bytes) ++
        if Equals e.user.mem a (Container.name e.s.table c).bytes then [] else findReads a cs

/-- The addresses that a loop over the process table reads of the name at `a`: it compares the
name with that of the container of every process with `p`. -/
def loopReads (a : Nat) (p : ProcSlot → Bool) : List Nat :=
  (List.finRange nproc).flatMap fun q =>
    match (e.s.proc q).cont with
    | some c =>
      if p q then span a (stopsAt e.user.mem a (Container.name e.s.table c).bytes) else []
    | none => []

/-- Some process with `p` is in a container of the name at `a`. -/
def loopMatches (a : Nat) (p : ProcSlot → Bool) : Bool :=
  (List.finRange nproc).any fun q =>
    match (e.s.proc q).cont with
    | some c => p q && decide (Equals e.user.mem a (Container.name e.s.table c).bytes)
    | none => false

/-- The addresses that a loop over the process table reads as the name of a container at
address 0, when it compares that with `nm` for every process with `p`. -/
def lowReads (nm : List Byte) (p : ProcSlot → Bool) : List Nat :=
  (List.finRange nproc).flatMap fun q =>
    match (e.s.proc q).cont with
    | some _ => []
    | none =>
      if p q then span Container.nameOffset (stopsAt e.user.mem Container.nameOffset nm) else []

/-- `sys_cstop`, once the string is fetched. -/
def cstop (a : Nat) : Effects :=
  match (e.s.proc e.me).cont with
  | some c =>
    let nm := (Container.name e.s.table c).bytes
    let len := strlenAt e.user.mem a
    if len = nm.length then
      let compared := (List.range (min (stopsAt e.user.mem a nm + 1) len)).map (a + ·)
      if len ≤ stopsAt e.user.mem a nm then
        ⟨span a len ++ compared, e.lowReads nm fun _ => true, [], true⟩
      else ⟨span a len ++ compared, [], [], false⟩
    else ⟨span a len, [], [], false⟩
  | none => ⟨e.loopReads a (fun _ => true) ++ e.findReads a (List.finRange maxContainers), [], [], true⟩

/-- `set_root_inode`. -/
def setRootInode (a : Nat) : Effects :=
  ⟨e.findReads a (List.finRange maxContainers) ++ span a (min e.nameiReads (strlenAt e.user.mem a)),
    [], [], true⟩

/-- `find`. -/
def find (a : Nat) : Effects := ⟨e.findReads a (List.finRange maxContainers), [], [], false⟩

/-- `containers[vc].name`, also for an index outside of the array. -/
def kernelName (vc : Int) : CString :=
  match Container.index vc with
  | some c => Container.name e.s.table c
  | none => e.outside vc

/-- The index that `sys_get_name` uses. -/
def getNameIndex : Int := toSigned (((argint e.user 0).value.getD e.junkInt).toNat)

/-- `get_name`. -/
def getName (a : Nat) : Effects :=
  let written := span a (strlen (e.kernelName e.getNameIndex))
  ⟨written, [], written, false⟩

/-- `set_name`. -/
def setName (a : Nat) : Effects := ⟨span a (strlenAt e.user.mem a), [], [], true⟩

/-- The process is in use. -/
def used (q : ProcSlot) : Bool := decide ((e.s.proc q).state ≠ .unused)

/-- The process is paused. -/
def paused (q : ProcSlot) : Bool := decide ((e.s.proc q).state = .pause)

/-- `pause`. -/
def pause (a : Nat) : Effects := ⟨e.loopReads a e.used, [], [], e.loopMatches a e.used⟩

/-- `resume`, which does not test `p->cont`. -/
def resume (a : Nat) : Effects :=
  let low := e.lowReads (stringAt e.user.mem a) e.paused
  ⟨e.loopReads a e.paused ++
      (if low = [] then []
        else span a (stopsAt e.user.mem Container.nameOffset (stringAt e.user.mem a))),
    low, [], e.loopMatches a e.paused ||
      (decide (low ≠ []) && decide (Equals e.user.mem Container.nameOffset (stringAt e.user.mem a)))⟩

/-- `c_proc_data`, with its two loops. -/
def cProcData (a : Nat) : Effects := ⟨e.loopReads a e.used ++ e.loopReads a e.used, [], [], false⟩

/-- The pointer that a call uses as its string. -/
def pointer (call : Call) : Nat := ((argstr e.user call.stringIndex).stored.getD e.junk).toNat

def effects (call : Call) : Effects :=
  match call with
  | .cstop => e.cstop (e.pointer call)
  | .setRootInode => e.setRootInode (e.pointer call)
  | .find => e.find (e.pointer call)
  | .getName => e.getName (e.pointer call)
  | .setName => e.setName (e.pointer call)
  | .pause => e.pause (e.pointer call)
  | .resume => e.resume (e.pointer call)
  | .cPs => e.cProcData (e.pointer call)

/-- Every argument of the call can be fetched. -/
def Fetched (call : Call) : Prop :=
  (argstr e.user call.stringIndex).length ≠ none ∧
    match call with
    | .getName => (argint e.user 0).value ≠ none
    | .setName => (argint e.user 1).value ≠ none
    | _ => True

/-- The call touches user memory below `sz` only, uses its string only if `argstr` succeeded,
stores to kernel memory only if its arguments could be fetched, and writes only to the bytes of
the string that `argstr` found. -/
structure Validates (call : Call) : Prop where
  fetches : ∀ n, ∀ x ∈ (argint e.user n).reads ++ (argstr e.user n).reads, x < e.user.sz.toNat
  below : ∀ x ∈ (e.effects call).string ++ (e.effects call).low, x < e.user.sz.toNat
  string : (e.effects call).string ≠ [] → (argstr e.user call.stringIndex).length ≠ none
  stores : ¬ e.Fetched call → (e.effects call).stores = false
  written : ∀ x ∈ (e.effects call).written, ∃ len,
    (argstr e.user call.stringIndex).length = some len ∧
      e.pointer call ≤ x ∧ x ≤ e.pointer call + len.toNat

/-- The condition under which a call validates its arguments. -/
def Checked (call : Call) : Prop :=
  match call with
  | .cstop => (argstr e.user call.stringIndex).length ≠ none ∧ ∀ c, (e.s.proc e.me).cont = some c →
      Equals e.user.mem (e.pointer call) (Container.name e.s.table c).bytes →
      ∀ q, (e.s.proc q).cont = none →
        Container.nameOffset + stopsAt e.user.mem Container.nameOffset
          (Container.name e.s.table c).bytes < e.user.sz.toNat
  | .setRootInode | .find => (argstr e.user call.stringIndex).length ≠ none
  | .getName => ∃ len, (argstr e.user call.stringIndex).length = some len ∧
      strlen (e.kernelName e.getNameIndex) ≤ len.toNat
  | .setName => (argstr e.user call.stringIndex).length ≠ none ∧ (argint e.user 1).value ≠ none
  | .pause | .cPs => (argstr e.user call.stringIndex).length ≠ none ∨
      ∀ q, (e.s.proc q).state = .unused ∨ (e.s.proc q).cont = none
  | .resume => (∀ q, (e.s.proc q).state ≠ .pause) ∨ (argstr e.user call.stringIndex).length ≠ none ∧
      ∀ q, (e.s.proc q).state = .pause → (e.s.proc q).cont = none →
        Container.nameOffset + stopsAt e.user.mem Container.nameOffset
          (stringAt e.user.mem (e.pointer call)) < e.user.sz.toNat

end Env

/-! ## Reads of a string -/

variable {mem : Mem} {a len : Nat} {q : List Byte}

theorem mem_span {x k : Nat} : x ∈ span a k ↔ a ≤ x ∧ x ≤ a + k := by
  simp only [span, List.mem_map, List.mem_range]
  constructor
  · rintro ⟨i, hi, rfl⟩
    omega
  · rintro ⟨hle, hlt⟩
    exact ⟨x - a, by omega, by omega⟩

theorem span_ne_nil (a k : Nat) : span a k ≠ [] :=
  List.ne_nil_of_mem (mem_span.mpr ⟨Nat.le_refl a, Nat.le_add_right a k⟩)

theorem stopsAt_le (mem : Mem) (a : Nat) (q : List Byte) : stopsAt mem a q ≤ q.length := by
  induction q generalizing a with
  | nil => exact Nat.le_refl 0
  | cons b q ih =>
    rw [stopsAt, List.length_cons]
    split
    · exact Nat.succ_le_succ (ih (a + 1))
    · exact Nat.zero_le _

/-- A comparison with a string stops at the end of the other one at the latest. -/
theorem stopsAt_le_of_nul (hq : (0 : Byte) ∉ q) (hnul : mem (a + len) = 0) :
    stopsAt mem a q ≤ len := by
  induction q generalizing a len with
  | nil => exact Nat.zero_le len
  | cons b q ih =>
    rw [stopsAt]
    split
    · next heq =>
      cases len with
      | zero =>
        rw [Nat.add_zero] at hnul
        exact absurd (by simp [← heq, hnul]) hq
      | succ len =>
        apply Nat.succ_le_succ
        apply ih (fun h => hq (List.mem_cons_of_mem b h))
        rwa [Nat.add_assoc, Nat.add_comm 1 len]
    · exact Nat.zero_le len

theorem strlenUpTo_eq {k : Nat} (hk : len < k) (hfirst : ∀ i < len, mem (a + i) ≠ 0)
    (hnul : mem (a + len) = 0) : strlenUpTo mem k a = len := by
  induction k generalizing a len with
  | zero => omega
  | succ k ih =>
    rw [strlenUpTo]
    cases len with
    | zero => exact if_pos hnul
    | succ len =>
      have hshift : ∀ i, a + 1 + i = a + (i + 1) := fun i => by omega
      have hbyte : mem a ≠ 0 := hfirst 0 (by omega)
      have hrest : strlenUpTo mem k (a + 1) = len := by
        apply ih (by omega)
        · intro i hi
          rw [hshift]
          exact hfirst (i + 1) (by omega)
        · rw [hshift]
          exact hnul
      rw [if_neg hbyte, hrest]

theorem strlenAt_eq {u : User} (h : FirstNul u a len) : strlenAt u.mem a = len := by
  have hlt : u.sz.toNat < 2 ^ 32 := u.sz.toNat_lt
  exact strlenUpTo_eq (by have := h.1; omega) h.2.2 h.2.1

/-- The string at `a` is `q` if the bytes of `q` are there and the lengths agree. -/
theorem equals_iff {u : User} (h : FirstNul u a len) (hq : (0 : Byte) ∉ q) :
    Equals u.mem a q ↔ len = q.length ∧ len ≤ stopsAt u.mem a q := by
  have hstop := stopsAt_le u.mem a q
  have hnul := stopsAt_le_of_nul hq h.2.1
  constructor
  · rintro ⟨hall, hend⟩
    have hle : len ≤ q.length := by
      by_contra hlt
      exact h.2.2 q.length (by omega) hend
    omega
  · rintro ⟨heq, hle⟩
    refine ⟨by omega, ?_⟩
    rw [← heq]
    exact h.2.1

namespace Env

variable {e : Env}

theorem findReads_within (h : FirstNul e.user a len) (cs : List Cont) :
    ∀ x ∈ e.findReads a cs, x ∈ span a len := by
  have hself : a ∈ span a len := mem_span.mpr ⟨Nat.le_refl a, Nat.le_add_right a len⟩
  induction cs with
  | nil => simp [findReads]
  | cons c cs ih =>
    intro x hx
    rw [findReads] at hx
    split at hx
    · rcases List.mem_cons.mp hx with rfl | hx
      · exact hself
      · exact ih x hx
    · rcases List.mem_cons.mp hx with rfl | hx
      · exact hself
      · rcases List.mem_append.mp hx with hx | hx
        · have hstop := stopsAt_le_of_nul (Container.name e.s.table c).no_nul h.2.1
          rw [mem_span] at hx ⊢
          omega
        · split at hx
          · cases hx
          · exact ih x hx

theorem findReads_ne_nil (a : Nat) : e.findReads a (List.finRange maxContainers) ≠ [] := by
  have hcons : ∀ c cs, e.findReads a (c :: cs) ≠ [] := by
    intro c cs
    rw [findReads]
    split
    · exact List.cons_ne_nil _ _
    · exact List.cons_ne_nil _ _
  exact hcons 0 _

variable {p : ProcSlot → Bool} {nm : List Byte}

theorem mem_loopReads {x : Nat} :
    x ∈ e.loopReads a p ↔ ∃ q c, (e.s.proc q).cont = some c ∧ p q = true ∧
      x ∈ span a (stopsAt e.user.mem a (Container.name e.s.table c).bytes) := by
  simp only [loopReads, List.mem_flatMap, List.mem_finRange, true_and]
  constructor
  · rintro ⟨q, hq⟩
    split at hq
    · next c hc =>
      split at hq
      · next hp => exact ⟨q, c, hc, hp, hq⟩
      · cases hq
    · cases hq
  · rintro ⟨q, c, hc, hp, hx⟩
    exact ⟨q, by simpa [hc, hp] using hx⟩

theorem loopReads_within (h : FirstNul e.user a len) (p : ProcSlot → Bool) :
    ∀ x ∈ e.loopReads a p, x ∈ span a len := by
  intro x hx
  obtain ⟨q, c, -, -, hx⟩ := mem_loopReads.mp hx
  have hstop := stopsAt_le_of_nul (Container.name e.s.table c).no_nul h.2.1
  rw [mem_span] at hx ⊢
  omega

/-- The loop reads the name as soon as it compares one container with it. -/
theorem loopReads_eq_nil_iff (p : ProcSlot → Bool) :
    e.loopReads a p = [] ↔ ∀ q, p q = false ∨ (e.s.proc q).cont = none := by
  constructor
  · intro h q
    cases hc : (e.s.proc q).cont with
    | none => exact Or.inr rfl
    | some c =>
      left
      by_contra hp
      have hmem : a ∈ e.loopReads a p := mem_loopReads.mpr
        ⟨q, c, hc, by simpa using hp, mem_span.mpr ⟨Nat.le_refl a, Nat.le_add_right a _⟩⟩
      rw [h] at hmem
      cases hmem
  · intro h
    rw [List.eq_nil_iff_forall_not_mem]
    intro x hx
    obtain ⟨q, c, hc, hp, -⟩ := mem_loopReads.mp hx
    rcases h q with hq | hq
    · rw [hp] at hq
      cases hq
    · rw [hc] at hq
      cases hq

theorem loopMatches_of_nil (h : e.loopReads a p = []) : e.loopMatches a p = false := by
  rw [loopReads_eq_nil_iff] at h
  rw [loopMatches, List.any_eq_false]
  intro q _
  rcases h q with hq | hq
  · cases (e.s.proc q).cont <;> simp [hq]
  · simp [hq]

theorem mem_lowReads {x : Nat} :
    x ∈ e.lowReads nm p ↔ (∃ q, (e.s.proc q).cont = none ∧ p q = true) ∧
      x ∈ span Container.nameOffset (stopsAt e.user.mem Container.nameOffset nm) := by
  simp only [lowReads, List.mem_flatMap, List.mem_finRange, true_and]
  constructor
  · rintro ⟨q, hq⟩
    split at hq
    · cases hq
    · next hc =>
      split at hq
      · next hp => exact ⟨⟨q, hc, hp⟩, hq⟩
      · cases hq
  · rintro ⟨⟨q, hc, hp⟩, hx⟩
    exact ⟨q, by simpa [hc, hp] using hx⟩

/-- The low reads stay below `sz` exactly when the last one does. -/
theorem lowReads_below_iff {sz : Nat} :
    (∀ x ∈ e.lowReads nm p, x < sz) ↔ ∀ q, (e.s.proc q).cont = none → p q = true →
      Container.nameOffset + stopsAt e.user.mem Container.nameOffset nm < sz := by
  constructor
  · intro h q hc hp
    apply h
    exact mem_lowReads.mpr ⟨⟨q, hc, hp⟩, mem_span.mpr ⟨Nat.le_add_right _ _, Nat.le_refl _⟩⟩
  · intro h x hx
    obtain ⟨⟨q, hc, hp⟩, hx⟩ := mem_lowReads.mp hx
    have hlast := h q hc hp
    rw [mem_span] at hx
    omega

theorem lowReads_eq_nil_iff :
    e.lowReads nm p = [] ↔ ∀ q, (e.s.proc q).cont = none → p q = false := by
  constructor
  · intro h q hc
    by_contra hp
    have hmem : Container.nameOffset ∈ e.lowReads nm p := mem_lowReads.mpr
      ⟨⟨q, hc, by simpa using hp⟩, mem_span.mpr ⟨Nat.le_refl _, Nat.le_add_right _ _⟩⟩
    rw [h] at hmem
    cases hmem
  · intro h
    rw [List.eq_nil_iff_forall_not_mem]
    intro x hx
    obtain ⟨⟨q, hc, hp⟩, -⟩ := mem_lowReads.mp hx
    rw [h q hc] at hp
    cases hp

/-! ## The calls -/

/-- Where `argstr` succeeded, the pointer of the call is that of a string below `sz`. -/
theorem pointer_spec (hsz : e.user.sz.toNat ≤ kernbase) (call : Call) {len : UInt32}
    (h : (argstr e.user call.stringIndex).length = some len) :
    FirstNul e.user (e.pointer call) len.toNat := by
  obtain ⟨addr, -, hstored, -, hfirst⟩ := (argstr_length hsz call.stringIndex len).mp h
  rw [pointer, hstored]
  exact hfirst

theorem span_below (h : FirstNul e.user a len) : ∀ x ∈ span a len, x < e.user.sz.toNat := by
  intro x hx
  have hlast := h.1
  rw [mem_span] at hx
  omega

/-- The fetchers themselves read below `sz`. -/
theorem fetches_below (hsz : e.user.sz.toNat ≤ kernbase) (n : UInt32) :
    ∀ x ∈ (argint e.user n).reads ++ (argstr e.user n).reads, x < e.user.sz.toNat := by
  intro x hx
  rcases List.mem_append.mp hx with hx | hx
  · exact fetchint_reads hsz x hx
  · exact argstr_reads hsz n x hx

/-- A call whose string `argstr` found validates its arguments if it touches no more than that
string, nothing above `sz` through address 0, and stores only once all arguments are there. -/
theorem validates_of_string (hsz : e.user.sz.toNat ≤ kernbase) (call : Call) {len : UInt32}
    (hlen : (argstr e.user call.stringIndex).length = some len)
    (hstring : ∀ x ∈ (e.effects call).string, x ∈ span (e.pointer call) len.toNat)
    (hlow : ∀ x ∈ (e.effects call).low, x < e.user.sz.toNat)
    (hstores : ¬ e.Fetched call → (e.effects call).stores = false)
    (hwritten : ∀ x ∈ (e.effects call).written, x ∈ (e.effects call).string) :
    e.Validates call where
  fetches := fetches_below hsz
  below := by
    intro x hx
    rcases List.mem_append.mp hx with hx | hx
    · exact span_below (pointer_spec hsz call hlen) x (hstring x hx)
    · exact hlow x hx
  string := by
    intro _ hnone
    rw [hlen] at hnone
    cases hnone
  stores := hstores
  written := by
    intro x hx
    obtain ⟨hle, hlt⟩ := mem_span.mp (hstring x (hwritten x hx))
    exact ⟨len, hlen, hle, hlt⟩

/-- A call that touches nothing validates its arguments. -/
theorem validates_of_nothing (hsz : e.user.sz.toNat ≤ kernbase) (call : Call)
    (hstring : (e.effects call).string = []) (hlow : (e.effects call).low = [])
    (hstores : (e.effects call).stores = false) (hwritten : (e.effects call).written = []) :
    e.Validates call where
  fetches := fetches_below hsz
  below := by simp [hstring, hlow]
  string := fun h => absurd hstring h
  stores := fun _ => hstores
  written := by simp [hwritten]

theorem fetched_of_length (call : Call) {len : UInt32}
    (hlen : (argstr e.user call.stringIndex).length = some len)
    (hcall : call ≠ .getName ∧ call ≠ .setName) : e.Fetched call := by
  refine ⟨by simp [hlen], ?_⟩
  cases call <;> simp_all

theorem exists_length {n : UInt32} (h : (argstr e.user n).length ≠ none) :
    ∃ len, (argstr e.user n).length = some len := Option.ne_none_iff_exists'.mp h

/-- A comparison of a prefix of the string with a container name reads only the string. -/
theorem initial_within (a len k : Nat) :
    ∀ x ∈ (List.range (min k len)).map (a + ·), x ∈ span a len := by
  intro x hx
  obtain ⟨i, hi, rfl⟩ := List.mem_map.mp hx
  have hi := List.mem_range.mp hi
  rw [mem_span]
  omega

theorem cstop_string_ne_nil (a : Nat) : (e.cstop a).string ≠ [] := by
  unfold cstop
  split
  · dsimp only
    split
    · split <;> simp [span_ne_nil]
    · exact span_ne_nil _ _
  · simp [findReads_ne_nil]

theorem cstop_string_within (h : FirstNul e.user a len) :
    ∀ x ∈ (e.cstop a).string, x ∈ span a len := by
  unfold cstop
  split
  · dsimp only
    rw [strlenAt_eq h]
    split
    · split
      · intro x hx
        exact (List.mem_append.mp hx).elim id (initial_within a len _ x)
      · intro x hx
        exact (List.mem_append.mp hx).elim id (initial_within a len _ x)
    · exact fun x hx => hx
  · intro x hx
    exact (List.mem_append.mp hx).elim (loopReads_within h _ x) (findReads_within h _ x)

/-- `cstop` reads address 0 for its own container only if the string names it. -/
theorem cstop_low_below_iff (h : FirstNul e.user a len) {sz : Nat} :
    (∀ x ∈ (e.cstop a).low, x < sz) ↔ ∀ c, (e.s.proc e.me).cont = some c →
      Equals e.user.mem a (Container.name e.s.table c).bytes →
      ∀ q, (e.s.proc q).cont = none →
        Container.nameOffset + stopsAt e.user.mem Container.nameOffset
          (Container.name e.s.table c).bytes < sz := by
  unfold cstop
  cases hc : (e.s.proc e.me).cont with
  | none => simp
  | some c =>
    simp only [Option.some.injEq, forall_eq']
    rw [equals_iff h (Container.name e.s.table c).no_nul, strlenAt_eq h]
    by_cases hlen : len = (Container.name e.s.table c).bytes.length
    · rw [if_pos hlen]
      by_cases hstop : len ≤ stopsAt e.user.mem a (Container.name e.s.table c).bytes
      · rw [if_pos hstop, lowReads_below_iff]
        simp only [hstop, and_true, true_imp_iff]
        exact ⟨fun h _ => h, fun h => h hlen⟩
      · rw [if_neg hstop]
        simp [hstop]
    · rw [if_neg hlen]
      simp [hlen]

theorem validates_cstop_iff (hsz : e.user.sz.toNat ≤ kernbase) :
    e.Validates .cstop ↔ e.Checked .cstop := by
  constructor
  · intro h
    have hok := h.string (cstop_string_ne_nil _)
    obtain ⟨len, hlen⟩ := exists_length hok
    refine ⟨hok, (cstop_low_below_iff (pointer_spec hsz .cstop hlen)).mp fun x hx => ?_⟩
    exact h.below x (List.mem_append_right _ hx)
  · rintro ⟨hok, hlow⟩
    obtain ⟨len, hlen⟩ := exists_length hok
    have hnul := pointer_spec hsz .cstop hlen
    apply validates_of_string hsz .cstop hlen
    · exact cstop_string_within hnul
    · exact (cstop_low_below_iff hnul).mpr hlow
    · exact fun hnot => absurd (fetched_of_length .cstop hlen (by decide)) hnot
    · have hempty : (e.cstop (e.pointer .cstop)).written = [] := by
        unfold cstop
        split
        · dsimp only
          split
          · split <;> rfl
          · rfl
        · rfl
      intro x hx
      rw [show (e.effects .cstop).written = [] from hempty] at hx
      cases hx

/-- A call that always reads its string, touches nothing else and writes nothing. -/
theorem validates_iff_string (hsz : e.user.sz.toNat ≤ kernbase) (call : Call)
    (hcall : call ≠ .getName ∧ call ≠ .setName) (hne : (e.effects call).string ≠ [])
    (hwithin : ∀ len : UInt32, (argstr e.user call.stringIndex).length = some len →
      ∀ x ∈ (e.effects call).string, x ∈ span (e.pointer call) len.toNat)
    (hlow : (e.effects call).low = []) (hwritten : (e.effects call).written = []) :
    e.Validates call ↔ (argstr e.user call.stringIndex).length ≠ none := by
  constructor
  · exact fun h => h.string hne
  · intro hok
    obtain ⟨len, hlen⟩ := exists_length hok
    apply validates_of_string hsz call hlen (hwithin len hlen)
    · simp [hlow]
    · exact fun hnot => absurd (fetched_of_length call hlen hcall) hnot
    · simp [hwritten]

theorem validates_setRootInode_iff (hsz : e.user.sz.toNat ≤ kernbase) :
    e.Validates .setRootInode ↔ e.Checked .setRootInode := by
  apply validates_iff_string hsz .setRootInode (by decide)
  · simp [effects, setRootInode, span_ne_nil]
  · intro len hlen x hx
    have hnul := pointer_spec hsz .setRootInode hlen
    rcases List.mem_append.mp hx with hx | hx
    · exact findReads_within hnul _ x hx
    · rw [strlenAt_eq hnul, mem_span] at hx
      rw [mem_span]
      omega
  · rfl
  · rfl

theorem validates_find_iff (hsz : e.user.sz.toNat ≤ kernbase) :
    e.Validates .find ↔ e.Checked .find := by
  apply validates_iff_string hsz .find (by decide)
  · exact findReads_ne_nil _
  · intro len hlen
    exact findReads_within (pointer_spec hsz .find hlen) _
  · rfl
  · rfl

theorem validates_getName_iff (hsz : e.user.sz.toNat ≤ kernbase) :
    e.Validates .getName ↔ e.Checked .getName := by
  constructor
  · intro h
    have hlast : e.pointer .getName + strlen (e.kernelName e.getNameIndex) ∈
        (e.effects .getName).written := mem_span.mpr ⟨Nat.le_add_right _ _, Nat.le_refl _⟩
    obtain ⟨len, hlen, -, hle⟩ := h.written _ hlast
    exact ⟨len, hlen, by omega⟩
  · rintro ⟨len, hlen, hle⟩
    apply validates_of_string hsz .getName hlen
    · intro x hx
      have hx := mem_span.mp hx
      rw [mem_span]
      omega
    · exact fun x hx => nomatch hx
    · exact fun _ => rfl
    · exact fun x hx => hx

theorem validates_setName_iff (hsz : e.user.sz.toNat ≤ kernbase) :
    e.Validates .setName ↔ e.Checked .setName := by
  constructor
  · intro h
    have hok := h.string (span_ne_nil _ _)
    refine ⟨hok, fun hnone => ?_⟩
    have hnot : ¬ e.Fetched .setName := fun hf => hf.2 hnone
    exact Bool.noConfusion (h.stores hnot)
  · rintro ⟨hok, hint⟩
    obtain ⟨len, hlen⟩ := exists_length hok
    apply validates_of_string hsz .setName hlen
    · intro x hx
      have hnul := pointer_spec hsz .setName hlen
      rwa [show (e.effects .setName).string = span _ (strlenAt e.user.mem _) from rfl,
        strlenAt_eq hnul] at hx
    · exact fun x hx => nomatch hx
    · exact fun hnot => absurd ⟨hok, hint⟩ hnot
    · exact fun x hx => nomatch hx

theorem used_or_none_iff (q : ProcSlot) : e.used q = false ∨ (e.s.proc q).cont = none ↔
    (e.s.proc q).state = .unused ∨ (e.s.proc q).cont = none := by
  simp [used]

theorem validates_pause_iff (hsz : e.user.sz.toNat ≤ kernbase) :
    e.Validates .pause ↔ e.Checked .pause := by
  by_cases hnil : e.loopReads (e.pointer .pause) e.used = []
  · have hno := (loopReads_eq_nil_iff _).mp hnil
    refine iff_of_true ?_ (Or.inr fun q => (used_or_none_iff q).mp (hno q))
    exact validates_of_nothing hsz .pause hnil rfl (loopMatches_of_nil hnil) rfl
  · have hsome : ¬ ∀ q, (e.s.proc q).state = .unused ∨ (e.s.proc q).cont = none := fun h =>
      hnil ((loopReads_eq_nil_iff _).mpr fun q => (used_or_none_iff q).mpr (h q))
    rw [validates_iff_string hsz .pause (by decide) hnil
      (fun len hlen => loopReads_within (pointer_spec hsz .pause hlen) _) rfl rfl]
    exact ⟨Or.inl, fun h => h.resolve_right hsome⟩

theorem validates_cPs_iff (hsz : e.user.sz.toNat ≤ kernbase) :
    e.Validates .cPs ↔ e.Checked .cPs := by
  by_cases hnil : e.loopReads (e.pointer .cPs) e.used = []
  · have hno := (loopReads_eq_nil_iff _).mp hnil
    refine iff_of_true ?_ (Or.inr fun q => (used_or_none_iff q).mp (hno q))
    exact validates_of_nothing hsz .cPs (by simp [effects, cProcData, hnil]) rfl rfl rfl
  · have hsome : ¬ ∀ q, (e.s.proc q).state = .unused ∨ (e.s.proc q).cont = none := fun h =>
      hnil ((loopReads_eq_nil_iff _).mpr fun q => (used_or_none_iff q).mpr (h q))
    have hne : (e.effects .cPs).string ≠ [] := by simp [effects, cProcData, hnil]
    rw [validates_iff_string hsz .cPs (by decide) hne (fun len hlen x hx => ?_) rfl rfl]
    · exact ⟨Or.inl, fun h => h.resolve_right hsome⟩
    · have hnul := pointer_spec hsz .cPs hlen
      exact (List.mem_append.mp hx).elim (loopReads_within hnul _ x) (loopReads_within hnul _ x)

theorem resume_low_eq_nil (hno : ∀ q, (e.s.proc q).state ≠ .pause) (a : Nat) :
    e.lowReads (stringAt e.user.mem a) e.paused = [] :=
  lowReads_eq_nil_iff.mpr fun q _ => decide_eq_false (hno q)

/-- A paused process makes `resume` read its string. -/
theorem resume_string_ne_nil {q : ProcSlot} (hq : (e.s.proc q).state = .pause) (a : Nat) :
    (e.resume a).string ≠ [] := by
  intro h
  obtain ⟨hloop, hlow⟩ := List.append_eq_nil_iff.mp h
  have hp : e.paused q = true := decide_eq_true hq
  rcases (loopReads_eq_nil_iff _).mp hloop q with hfalse | hc
  · rw [hp] at hfalse
    cases hfalse
  · split at hlow
    · next hnil =>
      have hfalse := lowReads_eq_nil_iff.mp hnil q hc
      rw [hp] at hfalse
      cases hfalse
    · exact span_ne_nil _ _ hlow

theorem resume_string_within (h : FirstNul e.user a len) :
    ∀ x ∈ (e.resume a).string, x ∈ span a len := by
  intro x hx
  rcases List.mem_append.mp hx with hx | hx
  · exact loopReads_within h _ x hx
  · split at hx
    · cases hx
    · have hstop := stopsAt_le e.user.mem Container.nameOffset (stringAt e.user.mem a)
      have hlength : (stringAt e.user.mem a).length = len := by
        rw [stringAt, List.length_map, List.length_range, strlenAt_eq h]
      rw [mem_span] at hx ⊢
      omega

theorem validates_resume_iff (hsz : e.user.sz.toNat ≤ kernbase) :
    e.Validates .resume ↔ e.Checked .resume := by
  by_cases hno : ∀ q, (e.s.proc q).state ≠ .pause
  · refine iff_of_true ?_ (Or.inl hno)
    have hlow := resume_low_eq_nil hno (e.pointer .resume)
    have hloop : e.loopReads (e.pointer .resume) e.paused = [] :=
      (loopReads_eq_nil_iff _).mpr fun q => Or.inl (decide_eq_false (hno q))
    apply validates_of_nothing hsz .resume
    · simp [effects, resume, hlow, hloop]
    · exact hlow
    · simp [effects, resume, hlow, loopMatches_of_nil hloop]
    · rfl
  · have hlow {sz : Nat} : (∀ x ∈ (e.effects .resume).low, x < sz) ↔
        ∀ q, (e.s.proc q).state = .pause → (e.s.proc q).cont = none →
          Container.nameOffset + stopsAt e.user.mem Container.nameOffset
            (stringAt e.user.mem (e.pointer .resume)) < sz := by
      apply lowReads_below_iff.trans
      simp only [paused, decide_eq_true_eq]
      exact ⟨fun h q hp hc => h q hc hp, fun h q hc hp => h q hp hc⟩
    constructor
    · intro h
      obtain ⟨q, hq⟩ := not_forall.mp hno
      have hok := h.string (resume_string_ne_nil (not_not.mp hq) _)
      exact Or.inr ⟨hok, hlow.mp fun x hx => h.below x (List.mem_append_right _ hx)⟩
    · intro h
      obtain ⟨hok, hbelow⟩ := h.resolve_left hno
      obtain ⟨len, hlen⟩ := exists_length hok
      apply validates_of_string hsz .resume hlen
      · exact resume_string_within (pointer_spec hsz .resume hlen)
      · exact hlow.mpr hbelow
      · exact fun hnot => absurd (fetched_of_length .resume hlen (by decide)) hnot
      · exact fun x hx => nomatch hx

/-- A process of two pages with the arguments 0 and 8191, and a container of a name of two
bytes. -/
def sample : Env where
  user :=
    { mem := fun a => if a = 4008 then 0xff else if a = 4009 then 0x1f else 0
      sz := 8192
      esp := 4000 }
  s :=
    { proc := fun _ => ⟨.unused, 0, false, none⟩
      table := blit (fun _ => 0) (Container.address 0 Container.nameOffset) [97, 98]
      low := fun _ => Container.emptyName }
  me := 0
  junk := 0
  junkInt := 0
  outside := fun _ => Container.emptyName
  nameiReads := 0

end Env

end Xv6Containers.Syscall
