import Xv6Containers.Container.Ctool

/-!
# Container slots are exclusively owned

If a `start` takes a slot and a name that nobody else has or has chosen, and no
container is stopped while a `start` still works on it, then no two containers in
use have one name and no two `start` commands work on one slot.
-/

namespace Xv6Containers.Container.Ctool

open Lib.Memory Lib.Strings Lib.Program Prog Lib.Runs Function

variable {P : Type} [DecidableEq P]

/-! ## The order of the calls -/

/-- The claim that a call needs and leaves. -/
def claiming : Discipline Op.Res (Option Claim) where
  pre
    | .isFull, g | .check _ _, g | .stop _, g => g = none
    | .setMax _ _ i, g => ∃ dir, g = some ⟨i, dir, .chosen⟩
    | .setName dir i, g => g = some ⟨i, dir, .chosen⟩
    | .contProcSet i, g => ∃ dir, g = some ⟨i, dir, .named⟩
    | .fork _, g => ∃ i dir, g = some ⟨i, dir, .attached⟩
    | _, g => ∃ i dir, g = some ⟨i, dir, .named⟩
  may _ _ _ := True
  next
    | .check _ _, true, g => g
    | .check dir i, false, _ => some ⟨i, dir, .chosen⟩
    | .setName _ _, _, g => g.map fun c => { c with stage := .named }
    | .contProcSet _, _, g => g.map fun c => { c with stage := .attached }
    | .fork _, _, _ => none
    | _, _, g => g

/-- The rule of one call. -/
theorem bind_claims {α : Type} {o : Op} {f : o.Res → CtoolProg α} {Q : α → Option Claim → Prop}
    {g : Option Claim} (hpre : claiming.pre o g)
    (h : ∀ r, (f r).Safe claiming Q (claiming.next o r g)) :
    (Prog.op o >>= f).Safe claiming Q g := by
  rw [safe_bind]
  exact ⟨hpre, fun r _ => h r⟩

variable {i : Cont} {dir : CString} {s : State P} {p : P}

theorem addSize_claims {c_name : CString} (size : Nat) :
    (addSize c_name size).Safe claiming (fun _ g => g = some ⟨i, dir, .named⟩)
      (some ⟨i, dir, .named⟩) := by
  unfold addSize
  split
  · rfl
  · refine bind_claims ⟨i, dir, rfl⟩ fun (r : Option Cont) => ?_
    cases r with
    | none => rfl
    | some z =>
      refine bind_claims ⟨i, dir, rfl⟩ fun (before : Int) => ?_
      refine bind_claims ⟨i, dir, rfl⟩ fun _ => ?_
      refine bind_claims ⟨i, dir, rfl⟩ fun (after : Int) => ?_
      split
      · exact ⟨⟨i, dir, rfl⟩, fun _ _ => rfl⟩
      · rfl

theorem addFileSize_claims {c_name : CString} (sizes : List Nat) :
    (addFileSize c_name sizes).Safe claiming (fun _ g => g = some ⟨i, dir, .named⟩)
      (some ⟨i, dir, .named⟩) := by
  induction sizes with
  | nil => rfl
  | cons size rest ih =>
    unfold addFileSize
    rw [safe_bind]
    refine (addSize_claims size).mono fun _ g hg => ?_
    rw [hg]
    exact ih

theorem attachVc_claims (x : Args) (i : Cont) (dir : CString) :
    (attachVc x i).Safe claiming (fun _ g => g = none) (some ⟨i, dir, .named⟩) := by
  unfold attachVc
  split
  · exact ⟨⟨i, dir, rfl⟩, fun r => r.elim⟩
  · rw [safe_bind]
    refine (addFileSize_claims x.sizes).mono fun _ g hg => ?_
    rw [hg]
    exact ⟨⟨dir, rfl⟩, fun _ _ => ⟨⟨i, dir, rfl⟩, fun _ _ => rfl⟩⟩

theorem setMaxGiven_claims (f : Field) (v : Int) (i : Cont) (dir : CString) :
    (setMaxGiven f v i).Safe claiming (fun _ g => g = some ⟨i, dir, .chosen⟩)
      (some ⟨i, dir, .chosen⟩) := by
  unfold setMaxGiven
  split
  · exact ⟨⟨dir, rfl⟩, fun _ _ => rfl⟩
  · rfl

theorem start_claims (x : Args) : (start x).Safe claiming (fun _ g => g = none) none := by
  unfold start
  refine bind_claims rfl fun (r : Option Cont) => ?_
  cases r with
  | none => rfl
  | some i =>
    refine bind_claims rfl fun (hit : Bool) => ?_
    cases hit with
    | true => rfl
    | false =>
      change (setMaxGiven .maxProc x.maxProc i >>= fun _ => _ : CtoolProg Int).Safe claiming _
        (some ⟨i, x.dir, .chosen⟩)
      rw [safe_bind]
      refine (setMaxGiven_claims ..).mono fun _ g hg => ?_
      rw [hg, safe_bind]
      refine (setMaxGiven_claims ..).mono fun _ g hg => ?_
      rw [hg, safe_bind]
      refine (setMaxGiven_claims ..).mono fun _ g hg => ?_
      rw [hg]
      exact ⟨rfl, fun _ _ => ⟨⟨i, x.dir, rfl⟩, fun _ _ => attachVc_claims x i x.dir⟩⟩

theorem code_claims (x : Command) : (code x).Safe claiming (fun _ g => g = none) none := by
  cases x with
  | start x => exact start_claims x
  | stop nm => exact ⟨rfl, fun _ _ => rfl⟩

/-! ## The invariant -/

/-- Names are distinct, and so are the slots and the names of the claims; a claimed slot is
free until it gets its name and has this name from then on. -/
structure Owned (s : State P) : Prop where
  names : NamesOk s.table
  short : ∀ {p c}, s.claim p = some c → c.dir ≠ emptyName ∧ strlen c.dir < cNameSize
  fresh : ∀ {p c}, s.claim p = some c → c.stage = .chosen →
    ¬ InUse s.table c.slot ∧ ∀ d, name s.table d ≠ c.dir
  named : ∀ {p c}, s.claim p = some c → c.stage ≠ .chosen → name s.table c.slot = c.dir
  attached : ∀ {p c}, s.claim p = some c → c.stage = .attached → s.cont p = some c.slot
  slots : ∀ {p q c c'}, s.claim p = some c → s.claim q = some c' → c.slot = c'.slot → p = q
  dirs : ∀ {p q c c'}, s.claim p = some c → s.claim q = some c' → c.dir = c'.dir → p = q

omit [DecidableEq P] in
/-- No claim is new: slots and directories stay distinct. -/
theorem Owned.transfer {t : State P} (h : Owned s) (hnames : NamesOk t.table)
    (hclaim : ∀ {p c'}, t.claim p = some c' →
      ∃ c, s.claim p = some c ∧ c'.slot = c.slot ∧ c'.dir = c.dir)
    (hfresh : ∀ {p c}, t.claim p = some c → c.stage = .chosen →
      ¬ InUse t.table c.slot ∧ ∀ d, name t.table d ≠ c.dir)
    (hnamed : ∀ {p c}, t.claim p = some c → c.stage ≠ .chosen → name t.table c.slot = c.dir)
    (hattached : ∀ {p c}, t.claim p = some c → c.stage = .attached → t.cont p = some c.slot) :
    Owned t := by
  refine ⟨hnames, fun hp => ?_, hfresh, hnamed, hattached, fun hp hq heq => ?_, fun hp hq heq => ?_⟩
  · obtain ⟨c, hc, -, hdir⟩ := hclaim hp
    rw [hdir]
    exact h.short hc
  · obtain ⟨c, hc, hslot, -⟩ := hclaim hp
    obtain ⟨c', hc', hslot', -⟩ := hclaim hq
    exact h.slots hc hc' (hslot.symm.trans (heq.trans hslot'))
  · obtain ⟨c, hc, -, hdir⟩ := hclaim hp
    obtain ⟨c', hc', -, hdir'⟩ := hclaim hq
    exact h.dirs hc hc' (hdir.symm.trans (heq.trans hdir'))

omit [DecidableEq P] in
/-- A call that keeps the names and the claims. -/
theorem Owned.sameNames {t : State P} (h : Owned s) (hnames : SameNames s.table t.table)
    (hclaim : t.claim = s.claim) (hcont : t.cont = s.cont) : Owned t := by
  refine ⟨hnames.ok h.names, ?_, ?_, ?_, ?_, ?_, ?_⟩
  all_goals simp only [hclaim, hcont, hnames.inUse, hnames.name]
  · exact h.short
  · exact h.fresh
  · exact h.named
  · exact h.attached
  · exact h.slots
  · exact h.dirs

omit [DecidableEq P] in
/-- A record is reset that no `start` works on. -/
theorem Owned.reset (h : Owned s) {x : Cont} (hin : InUse s.table x)
    (hx : ∀ p c, s.claim p = some c → c.stage ≠ .chosen → c.slot ≠ x) :
    Owned { s with table := Container.reset s.table x } := by
  have hkept := othersKept_reset_self s.table x
  have hname {d : Cont} (hd : d ≠ x) := (hkept.name hd (h.names.fits d)).1
  refine h.transfer (namesOk_reset h.names x) (fun hp => ⟨_, hp, rfl, rfl⟩) (fun {p c} hp hst => ?_)
    (fun {p c} hp hst => ?_) h.attached
  · obtain ⟨hfree, hdir⟩ := h.fresh hp hst
    have hne : c.slot ≠ x := fun heq => hfree (heq ▸ hin)
    refine ⟨fun huse => hfree ?_, fun d => ?_⟩
    · rw [InUse, ← hname hne]
      exact huse
    · change name (Container.reset s.table x) d ≠ c.dir
      by_cases hd : d = x
      · rw [hd, name_reset]
        exact (h.short hp).1.symm
      · rw [hname hd]
        exact hdir d
  · change name (Container.reset s.table x) c.slot = c.dir
    rw [hname (hx p c hp hst)]
    exact h.named hp hst

/-- A claim ends. -/
theorem Owned.leave (h : Owned s) (p : P) (child : P → Option Cont) :
    Owned { s with child := child, claim := update s.claim p none } := by
  have hother {q : P} {c : Claim} (hq : update s.claim p none q = some c) :
      s.claim q = some c := by
    by_cases hqp : q = p
    · subst hqp
      rw [update_self] at hq
      cases hq
    · rwa [update_of_ne hqp] at hq
  exact h.transfer h.names (fun hq => ⟨_, hother hq, rfl, rfl⟩) (fun hq => h.fresh (hother hq))
    (fun hq => h.named (hother hq)) fun hq => h.attached (hother hq)

/-- A free slot is claimed under a new name. -/
theorem Owned.enter (h : Owned s) (hp : s.claim p = none) (hdir : dir ≠ emptyName)
    (hshort : strlen dir < cNameSize) (hfind : Container.find s.table dir = none)
    (hfree : ¬ InUse s.table i)
    (hchosen : ∀ q, ∀ c ∈ s.claim q, c.stage = .chosen → c.slot ≠ i ∧ c.dir ≠ dir) :
    Owned { s with claim := update s.claim p (some ⟨i, dir, .chosen⟩) } := by
  have hnew (d : Cont) : name s.table d ≠ dir := by
    intro hd
    have hin : InUse s.table d := by
      rw [InUse, hd]
      exact hdir
    have hfound := find_name h.names hin
    rw [hd, hfind] at hfound
    cases hfound
  -- No other claim has the slot or the name.
  have hapart {q : P} {c : Claim} (hq : s.claim q = some c) : c.slot ≠ i ∧ c.dir ≠ dir := by
    by_cases hst : c.stage = .chosen
    · exact hchosen q c hq hst
    · have hname := h.named hq hst
      refine ⟨fun heq => hfree ?_, fun heq => hnew c.slot (hname.trans heq)⟩
      rw [← heq, InUse, hname]
      exact (h.short hq).1
  have hclaim {q : P} {c : Claim}
      (hq : update s.claim p (some ⟨i, dir, .chosen⟩) q = some c) :
      q = p ∧ c = ⟨i, dir, .chosen⟩ ∨ q ≠ p ∧ s.claim q = some c := by
    by_cases hqp : q = p
    · subst hqp
      rw [update_self] at hq
      exact .inl ⟨rfl, (Option.some.inj hq).symm⟩
    · rw [update_of_ne hqp] at hq
      exact .inr ⟨hqp, hq⟩
  refine ⟨h.names, fun hq => ?_, fun hq hst => ?_, fun hq hst => ?_, fun hq hst => ?_,
    fun hq hq' heq => ?_, fun hq hq' heq => ?_⟩
  · rcases hclaim hq with ⟨-, rfl⟩ | ⟨-, hq⟩
    · exact ⟨hdir, hshort⟩
    · exact h.short hq
  · rcases hclaim hq with ⟨-, rfl⟩ | ⟨-, hq⟩
    · exact ⟨hfree, hnew⟩
    · exact h.fresh hq hst
  · rcases hclaim hq with ⟨-, rfl⟩ | ⟨-, hq⟩
    · exact absurd rfl hst
    · exact h.named hq hst
  · rcases hclaim hq with ⟨-, rfl⟩ | ⟨-, hq⟩
    · cases hst
    · exact h.attached hq hst
  · rcases hclaim hq with ⟨rfl, rfl⟩ | ⟨-, hold⟩ <;> rcases hclaim hq' with ⟨rfl, rfl⟩ | ⟨-, hold'⟩
    · rfl
    · exact absurd heq.symm (hapart hold').1
    · exact absurd heq (hapart hold).1
    · exact h.slots hold hold' heq
  · rcases hclaim hq with ⟨rfl, rfl⟩ | ⟨-, hold⟩ <;> rcases hclaim hq' with ⟨rfl, rfl⟩ | ⟨-, hold'⟩
    · rfl
    · exact absurd heq.symm (hapart hold').2
    · exact absurd heq (hapart hold).2
    · exact h.dirs hold hold' heq

/-- The claims after one of them went on to another stage. -/
theorem setStage_cases {q : P} {stage : Stage} {c c' : Claim} (hp : s.claim p = some c)
    (hq : s.setStage p stage q = some c') :
    q = p ∧ c' = { c with stage := stage } ∨ q ≠ p ∧ s.claim q = some c' := by
  unfold State.setStage at hq
  rw [hp] at hq
  by_cases hqp : q = p
  · subst hqp
    rw [update_self] at hq
    exact .inl ⟨rfl, (Option.some.inj hq).symm⟩
  · rw [update_of_ne hqp] at hq
    exact .inr ⟨hqp, hq⟩

/-- The claimed slot gets its name. -/
theorem Owned.setName (h : Owned s) (hp : s.claim p = some ⟨i, dir, .chosen⟩) :
    Owned { s with
      table := blit s.table (address i nameOffset) (toBytes dir)
      claim := s.setStage p .named } := by
  obtain ⟨hfree, hnew⟩ := h.fresh hp rfl
  have hlen : strlen dir < nameSize := Nat.lt_trans (h.short hp).2 (by decide)
  have hkept := othersKept_setName (m := s.table) (c := i) hlen
  have hself := (name_blit (m := s.table) (c := i) hlen).1
  have hname {d : Cont} (hd : d ≠ i) := (hkept.name hd (h.names.fits d)).1
  have hslot {q : P} {c : Claim} (hqp : q ≠ p) (hq : s.claim q = some c) : c.slot ≠ i :=
    fun heq => hqp (h.slots hq hp heq)
  refine h.transfer (namesOk_setName h.names hlen (.inr fun d _ => hnew d)) (fun {q c} hq => ?_)
    (fun {q c} hq hst => ?_) (fun {q c} hq hst => ?_) fun {q c} hq hst => ?_
  · rcases setStage_cases hp hq with ⟨rfl, rfl⟩ | ⟨-, hq⟩
    · exact ⟨_, hp, rfl, rfl⟩
    · exact ⟨c, hq, rfl, rfl⟩
  · rcases setStage_cases hp hq with ⟨-, rfl⟩ | ⟨hqp, hq⟩
    · cases hst
    · obtain ⟨hfree', hnew'⟩ := h.fresh hq hst
      dsimp only
      rw [InUse, hname (hslot hqp hq)]
      refine ⟨hfree', fun d => ?_⟩
      by_cases hd : d = i
      · rw [hd, hself]
        exact fun heq => hqp (h.dirs hq hp heq.symm)
      · rw [hname hd]
        exact hnew' d
  · rcases setStage_cases hp hq with ⟨-, rfl⟩ | ⟨hqp, hq⟩
    · exact hself
    · dsimp only
      rw [hname (hslot hqp hq)]
      exact h.named hq hst
  · rcases setStage_cases hp hq with ⟨-, rfl⟩ | ⟨-, hq⟩
    · cases hst
    · exact h.attached hq hst

/-- The process moves into the container that it has named. -/
theorem Owned.attach (h : Owned s) (hp : s.claim p = some ⟨i, dir, .named⟩) :
    Owned { s with
      cont := update s.cont p (some i)
      claim := s.setStage p .attached } := by
  refine h.transfer h.names (fun {q c} hq => ?_) (fun {q c} hq hst => ?_) (fun {q c} hq hst => ?_)
    fun {q c} hq hst => ?_
  · rcases setStage_cases hp hq with ⟨rfl, rfl⟩ | ⟨-, hq⟩
    · exact ⟨_, hp, rfl, rfl⟩
    · exact ⟨c, hq, rfl, rfl⟩
  · rcases setStage_cases hp hq with ⟨-, rfl⟩ | ⟨-, hq⟩
    · cases hst
    · exact h.fresh hq hst
  · rcases setStage_cases hp hq with ⟨-, rfl⟩ | ⟨-, hq⟩
    · have hname : name s.table i = dir := h.named hp nofun
      exact hname
    · exact h.named hq hst
  · rcases setStage_cases hp hq with ⟨rfl, rfl⟩ | ⟨hqp, hq⟩
    · exact update_self ..
    · exact (update_of_ne hqp ..).trans (h.attached hq hst)

/-! ## One call -/

/-- A `start` that is not rejected has a name of its own that fits, and the slot is still
free and chosen by nobody else; no container is stopped while a `start` works on it. -/
def Exclusive (_p : P) (o : Op) (s : State P) : Prop :=
  match o with
  | .check dir i =>
    Container.find s.table dir = some 0 ∨
      dir ≠ emptyName ∧ strlen dir < cNameSize ∧ Container.find s.table dir = none ∧
        ¬ InUse s.table i ∧
        ∀ q, ∀ c ∈ s.claim q, c.stage = .chosen → c.slot ≠ i ∧ c.dir ≠ dir
  | .cstop nm | .stop nm =>
    ∀ q, ∀ c ∈ s.claim q, c.stage ≠ .chosen → Container.find s.table nm ≠ some c.slot
  | _ => True

instance [Fintype P] (p : P) (o : Op) (s : State P) : Decidable (Exclusive p o s) := by
  unfold Exclusive
  split <;> infer_instance

/-- A store to `root` misses every name. -/
theorem sameNames_root {m : Table} (hm : ∀ c, NameFits m c) (c : Cont) (v : Nat) :
    SameNames m (writeWord m (address c rootOffset) v) := by
  have hagree (d : Cont) (i : Nat) (hi : i < nameSize) :
      writeWord m (address c rootOffset) v (address d nameOffset + i) = m (address d nameOffset + i) := by
    refine blit_disjoint m _ ?_
    simp only [address, recordSize, nameOffset, nameSize, rootOffset, wordBytes_length] at *
    omega
  exact ⟨fun d => name_of_agree (hm d) (hagree d), fun d => (hm d).of_agree (hagree d)⟩

theorem sameNames_setCurrDisk {m : Table} (hm : NamesOk m) (size : Int) (c : Cont) :
    SameNames m (Container.setCurrDisk m size c) := by
  unfold Container.setCurrDisk
  split
  · exact .refl hm
  · exact sameNames_writeWord hm c .currDisk _

omit [DecidableEq P] in
theorem Owned.resetNamed (h : Owned s) {nm : CString}
    (hx : ∀ q, ∀ c ∈ s.claim q, c.stage ≠ .chosen → Container.find s.table nm ≠ some c.slot) :
    Owned { s with table := resetNamed s.table nm } := by
  unfold Ctool.resetNamed
  split
  · exact h
  · next x hfind =>
    refine h.reset (inUse_of_find hfind).1 fun p c hc hst heq => hx p c hc hst ?_
    rw [heq]
    exact hfind

/-- `sys_fork` of a process that is in the container it has named. -/
theorem Owned.fork (h : Owned s) (hp : s.claim p = some ⟨i, dir, .attached⟩)
    (child : P → Option Cont) :
    Owned { s with
      table := (chargeFork s.table (s.cont p)).1
      child := child
      claim := update s.claim p none } := by
  have hname : name s.table i = dir := h.named hp nofun
  have hcont : s.cont p = some i := h.attached hp rfl
  have hin : InUse s.table i := by
    rw [InUse, hname]
    exact (h.short hp).1
  have hfind : (s.cont p).bind (fun c => Container.find s.table (name s.table c)) = some i := by
    rw [hcont]
    exact find_name h.names hin
  have hleave := h.leave p child
  unfold chargeFork
  rw [hfind]
  dsimp only
  split
  · refine hleave.reset hin fun q c hq _ heq => ?_
    by_cases hqp : q = p
    · subst hqp
      dsimp only at hq
      rw [update_self] at hq
      cases hq
    · dsimp only at hq
      rw [update_of_ne hqp] at hq
      exact hqp (h.slots hq hp heq)
  · exact hleave.sameNames (sameNames_addBounded h.names i _ _ _) rfl rfl

/-- How a call changes the claims. -/
theorem execOp_claim {o : Op} {t : State P} {r : o.Res} (hpre : claiming.pre o (s.claim p))
    (ht : execOp p o s = .ok (r, t)) :
    t.claim = update s.claim p (claiming.next o r (s.claim p)) := by
  cases o with
  | check dir i =>
    simp only [execOp] at ht
    split at ht <;> cases ht
    · exact (update_eq_self ..).symm
    · rfl
  | setRootInode dir root =>
    simp only [execOp] at ht
    split at ht <;> cases ht <;> exact (update_eq_self ..).symm
  | setName dir i | contProcSet i | fork room =>
    cases ht
    rfl
  | overflow => cases ht
  | _ =>
    cases ht
    exact (update_eq_self ..).symm

theorem execOp_owned {o : Op} {t : State P} {r : o.Res} (h : Owned s)
    (hpre : claiming.pre o (s.claim p)) (hc : Exclusive p o s) (ht : execOp p o s = .ok (r, t)) :
    Owned t := by
  cases o with
  | isFull | find nm | getCurrDisk z =>
    cases ht
    exact h
  | check dir i =>
    simp only [execOp] at ht
    split at ht
    · cases ht
      exact h
    · next hfind =>
      cases ht
      obtain ⟨hdir, hshort, hnone, hfree, hchosen⟩ := hc.resolve_left hfind
      exact h.enter hpre hdir hshort hnone hfree hchosen
  | setMax f v i =>
    cases ht
    exact h.sameNames (sameNames_writeWord h.names i f _) rfl rfl
  | setName dir i =>
    cases ht
    exact h.setName hpre
  | setRootInode dir root =>
    simp only [execOp] at ht
    split at ht <;> cases ht
    · exact h
    · exact h.sameNames (sameNames_root h.names.fits _ _) rfl rfl
  | setCurrDisk size z =>
    cases ht
    exact h.sameNames (sameNames_setCurrDisk h.names size z) rfl rfl
  | cstop nm | stop nm =>
    cases ht
    exact h.resetNamed hc
  | contProcSet i =>
    cases ht
    obtain ⟨dir, hp⟩ := hpre
    exact h.attach hp
  | fork room =>
    cases ht
    obtain ⟨i, dir, hp⟩ := hpre
    exact h.fork hp _
  | overflow => cases ht

/-! ## Every run -/

/-- `p` runs a `start` that got past its checks and works on slot `i`. -/
def Uses (s : State P) (p : P) (i : Cont) : Prop := ∃ c, s.claim p = some c ∧ c.slot = i

/-- No command runs. -/
def idle (s : State P) : Config Op.Res (State P) P := ⟨s, fun _ => none⟩

/-- In every run in which the calls of the commands are exclusive: no two containers in use
have one name, no two `start` commands past their checks work on one slot, a `start` whose
name is in use does not get past its checks, and only a `start` past its checks or a `stop`
changes a record. -/
theorem slots_exclusively_owned {s : State P} {es : List (Event Command P)}
    {c : Config Op.Res (State P) P} (hnames : NamesOk s.table) (hclaims : ∀ p, s.claim p = none)
    (hexcl : Always (step execOp code) (Admits Exclusive) (idle s) es)
    (hrun : Lib.Runs.run (step execOp code) (idle s) es = some c) :
    (∀ a b, InUse c.shared.table a → name c.shared.table a = name c.shared.table b → a = b) ∧
    (∀ p q i, Uses c.shared p i → Uses c.shared q i → p = q) ∧
    (∀ p dir i next d, c.thread p = some (.call (.check dir i) next) →
      (∃ a, InUse c.shared.table a ∧ name c.shared.table a = dir) →
      Exclusive p (.check dir i) c.shared → step execOp code c (.go p) = some d →
      d.shared.claim p = none ∧ d.shared.table = c.shared.table) ∧
    ∀ p o next d, c.thread p = some (.call o next) → c.shared.claim p = none →
      (∀ nm, o ≠ .stop nm) → step execOp code c (.go p) = some d →
      d.shared.table = c.shared.table := by
  have hstart : Owned s := by
    refine ⟨hnames, ?_, ?_, ?_, ?_, ?_, ?_⟩ <;> simp [hclaims]
  obtain ⟨g, ⟨hg, hown⟩, hthreads⟩ := run_invariant
    (I := Disciplined claiming none fun g s => g = s.claim ∧ Owned s)
    (fun c e d hc hadmits => step_disciplined _ _ (fun p o g s r t hs hpre hC ht => by
      obtain ⟨rfl, hs⟩ := hs
      exact ⟨trivial, (execOp_claim hpre ht).symm, execOp_owned hs hpre hC ht⟩)
      code_claims c e d hc hadmits)
    (show Disciplined claiming none (fun g s => g = s.claim ∧ Owned s) (idle s) from
      ⟨s.claim, ⟨rfl, hstart⟩, hclaims⟩)
    hexcl hrun
  have hpre {p : P} {o : Op} {next : o.Res → CtoolProg Int}
      (hp : c.thread p = some (.call o next)) : claiming.pre o (c.shared.claim p) := by
    have hsafe := hthreads p
    rw [hp, hg] at hsafe
    exact hsafe.1
  refine ⟨hown.names.distinct, ?_, fun p dir i next d hp hin hcheck hstep => ?_,
    fun p o next d hp hnone hstop hstep => ?_⟩
  · rintro p q i ⟨x, hx, rfl⟩ ⟨y, hy, heq⟩
    exact hown.slots hx hy heq.symm
  · obtain ⟨a, ha, rfl⟩ := hin
    have hfound := find_name hown.names ha
    have hzero : Container.find c.shared.table (name c.shared.table a) = some 0 := by
      refine hcheck.resolve_right fun hnew => ?_
      rw [hnew.2.2.1] at hfound
      cases hfound
    simp only [step, hp, execOp, if_pos hzero, Option.some.injEq] at hstep
    subst hstep
    exact ⟨hpre hp, rfl⟩
  · have hneeds := hpre hp
    rw [hnone] at hneeds
    simp only [step, hp] at hstep
    cases o with
    | isFull =>
      cases hstep
      rfl
    | check dir i =>
      simp only [execOp] at hstep
      split at hstep
      · next h =>
        split at h <;> cases h <;> cases hstep <;> rfl
      · next h =>
        split at h <;> cases h
    | stop nm => exact absurd rfl (hstop nm)
    | setName dir i => cases hneeds
    | setMax f v i | contProcSet i =>
      obtain ⟨dir, hneeds⟩ := hneeds
      cases hneeds
    | _ =>
      obtain ⟨i, dir, hneeds⟩ := hneeds
      cases hneeds

/-! ## Two processes -/

/-- The names `a` and `b`. -/
def nameA : CString := ⟨[97], by decide⟩

def nameB : CString := ⟨[98], by decide⟩

/-- A command that starts a container on an empty directory. -/
def startOf (nm : CString) : Args := ⟨nm, 0, 0, 0, 5, [], true⟩

/-- An initialised table, and two processes outside of containers. -/
def fresh : State (Fin 2) :=
  ⟨containerInit fun _ => 0, fun _ => none, fun _ => none, fun _ => none⟩

theorem fresh_names : NamesOk fresh.table := by
  refine ⟨by decide +kernel, fun c d hc _ => ?_⟩
  exact absurd (name_eq_empty_iff.mpr (containerInit_name _ c)) hc

/-- Two containers are started one after the other. -/
theorem slots_exclusively_owned_two :
    ∃ c, Lib.Runs.run (step execOp code) (idle fresh)
        [.start 0 (.start (startOf nameA)), .start 1 (.start (startOf nameB)),
          .go 0, .go 0, .go 0, .go 1, .go 1, .go 1] = some c ∧
      Uses c.shared 0 0 ∧ Uses c.shared 1 1 ∧
      ∀ a b, InUse c.shared.table a → name c.shared.table a = name c.shared.table b → a = b := by
  have hexcl : Always (step execOp code) (Admits Exclusive) (idle fresh)
      [.start 0 (.start (startOf nameA)), .start 1 (.start (startOf nameB)),
        .go 0, .go 0, .go 0, .go 1, .go 1, .go 1] := by decide +kernel
  obtain ⟨c, hc, hlook⟩ := Option.map_eq_some_iff.mp (by decide +kernel :
    (Lib.Runs.run (step execOp code) (idle fresh)
      [.start 0 (.start (startOf nameA)), .start 1 (.start (startOf nameB)),
        .go 0, .go 0, .go 0, .go 1, .go 1, .go 1]).map
      (fun c => (c.shared.claim 0, c.shared.claim 1)) =
        some (some ⟨0, nameA, .named⟩,
          some ⟨1, nameB, .named⟩))
  simp only [Prod.mk.injEq] at hlook
  exact ⟨c, hc, ⟨_, hlook.1, rfl⟩, ⟨_, hlook.2, rfl⟩,
    (slots_exclusively_owned fresh_names (fun _ => rfl) hexcl hc).1⟩

/-- Two `start` commands that test before either of them sets its name work on one slot; and a
name that slot 1 has is given out again. -/
theorem starts_share_slot :
    (∃ c, Lib.Runs.run (step execOp code) (idle fresh)
        [.start 0 (.start (startOf nameA)), .start 1 (.start (startOf nameB)),
          .go 0, .go 1, .go 0, .go 1] = some c ∧
      Uses c.shared 0 0 ∧ Uses c.shared 1 0) ∧
    ∃ c, Lib.Runs.run (step execOp code) (idle fresh)
        [.start 0 (.start (startOf nameA)), .go 0, .go 0, .go 0, .go 0, .go 0, .go 0, .go 0,
          .start 0 (.start (startOf nameB)), .go 0, .go 0, .go 0, .go 0, .go 0, .go 0, .go 0,
          .start 1 (.start (startOf nameB)), .go 1, .go 1, .go 1] = some c ∧
      InUse c.shared.table 1 ∧ name c.shared.table 1 = name c.shared.table 2 := by
  refine ⟨?_, ?_⟩
  · obtain ⟨c, hc, hlook⟩ := Option.map_eq_some_iff.mp (by decide +kernel :
      (Lib.Runs.run (step execOp code) (idle fresh)
        [.start 0 (.start (startOf nameA)), .start 1 (.start (startOf nameB)),
          .go 0, .go 1, .go 0, .go 1]).map (fun c => (c.shared.claim 0, c.shared.claim 1)) =
        some (some ⟨0, nameA, .chosen⟩,
          some ⟨0, nameB, .chosen⟩))
    simp only [Prod.mk.injEq] at hlook
    exact ⟨c, hc, ⟨_, hlook.1, rfl⟩, ⟨_, hlook.2, rfl⟩⟩
  · obtain ⟨c, hc, hlook⟩ := Option.map_eq_some_iff.mp (by decide +kernel :
      (Lib.Runs.run (step execOp code) (idle fresh)
        [.start 0 (.start (startOf nameA)), .go 0, .go 0, .go 0, .go 0, .go 0, .go 0, .go 0,
          .start 0 (.start (startOf nameB)), .go 0, .go 0, .go 0, .go 0, .go 0, .go 0, .go 0,
          .start 1 (.start (startOf nameB)), .go 1, .go 1, .go 1]).map
        (fun c => (decide (InUse c.shared.table 1),
          decide (name c.shared.table 1 = name c.shared.table 2))) = some (true, true))
    simp only [Prod.mk.injEq, decide_eq_true_eq] at hlook
    exact ⟨c, hc, hlook.1, hlook.2⟩

end Xv6Containers.Container.Ctool
