import Xv6Containers.Console.Routing

/-!
# The console input ring over whole runs

Whatever is typed and whoever reads, the three indices of the ring keep their order and
their distance, and editing leaves the committed characters alone; this needs no
condition on `^T`, since the only ring that is ever restored is empty. In runs without
`^T` and without killed readers the reads return what was committed, in order: a call
ends at a newline, at its number of characters or before a `^D`, and a `^D` is all that
the call gets that takes it.
-/

namespace Xv6Containers.Console

open Lib Lib.Memory Lib.Runs

variable {P : Type}

/-! ## The order of the indices -/

/-- `w - r` is at most `e - r`, which is at most `INPUT_BUF`. -/
def Bounded (i : Input) : Prop :=
  i.unread.size uintMod ≤ i.ring.size uintMod ∧ i.ring.size uintMod ≤ inputBuf

/-- The committed characters are still there, and behind them what was committed since. -/
def KeepsCommitted (i j : Input) : Prop :=
  j.r = i.r ∧ i.unread.contents inputBuf uintMod <+: j.unread.contents inputBuf uintMod

/-- The ring holds committed characters and a line, and the ring that `^T` restores is the
initial one. -/
structure Shaped (s : State P) : Prop where
  buf1 : s.buf1 = .zero
  input : ∃ q l, newline ∉ l ∧ s.input.Holds q l

variable {s : State P}

theorem Shaped.bounded (h : Shaped s) : Bounded s.input := by
  obtain ⟨q, l, _, hholds⟩ := h.input
  have hle := hholds.length_le
  rw [Bounded, hholds.unread_size, hholds.size]
  omega

theorem Shaped.congr {t : State P} (h : Shaped s) (hbuf : t.buf1 = s.buf1)
    (hinput : t.input = s.input) : Shaped t :=
  ⟨hbuf.trans h.buf1, hinput ▸ h.input⟩

theorem Input.killLine_r (k : Nat) (i : Input) : (Input.killLine k i).r = i.r := by
  induction k generalizing i with
  | zero => rfl
  | succ k ih =>
    rw [Input.killLine]
    split
    · exact ih i.unput
    · rfl

/-- What a key other than `^T` does to the ring. -/
theorem Shaped.edit (h : Shaped s) {k : Key} (hk : k ≠ .switch) :
    ∃ q l q' l', s.input.Holds q l ∧ (s.consoleintr k).input.Holds q' l' ∧ newline ∉ l' ∧ q <+: q' ∧
      (s.consoleintr k).input.r = s.input.r ∧ (s.consoleintr k).buf1 = s.buf1 := by
  obtain ⟨q, l, hclean, hholds⟩ := h.input
  cases k with
  | procdump => exact ⟨q, l, q, l, hholds, hholds, hclean, List.prefix_refl q, rfl, rfl⟩
  | switch => exact absurd rfl hk
  | kill =>
    have hkill := hholds.killLine hclean
    have hr := Input.killLine_r (s.input.line.size uintMod) s.input
    rw [State.consoleintr]
    -- as for the routing, only what the loop's result holds matters
    generalize Input.killLine _ s.input = i at hkill hr ⊢
    exact ⟨q, l, q, [], hholds, hkill, List.not_mem_nil, List.prefix_refl q, hr, rfl⟩
  | backspace =>
    rw [State.consoleintr]
    induction l using List.reverseRecOn with
    | nil =>
      rw [if_neg (not_not.mpr (hholds.e_eq_w_iff.mpr rfl))]
      exact ⟨q, [], q, [], hholds, hholds, hclean, List.prefix_refl q, rfl, rfl⟩
    | append_singleton l c _ =>
      rw [if_pos fun he => by simpa using hholds.e_eq_w_iff.mp he]
      exact ⟨q, l ++ [c], q, l, hholds, hholds.unput.1,
        fun hmem => hclean (List.mem_append_left _ hmem), List.prefix_refl q, rfl, rfl⟩
  | char c =>
    rw [State.consoleintr, State.typeChar]
    split
    · next hroom =>
      generalize (if c = carriageReturn then newline else c) = d
      have hput := hholds.put hroom.2 d
      dsimp only
      split
      · exact ⟨q, l, q ++ (l ++ [d]), [], hholds, hput.commit, List.not_mem_nil,
          List.prefix_append q _, rfl, rfl⟩
      · next hplain =>
        refine ⟨q, l, q, l ++ [d], hholds, hput, fun hmem => ?_, List.prefix_refl q, rfl, rfl⟩
        rcases List.mem_append.mp hmem with hold | hnew
        · exact hclean hold
        · exact hplain (Or.inl (List.mem_singleton.mp hnew).symm)
    · exact ⟨q, l, q, l, hholds, hholds, hclean, List.prefix_refl q, rfl, rfl⟩

theorem Shaped.consoleintr (h : Shaped s) (k : Key) : Shaped (s.consoleintr k) := by
  by_cases hk : k = .switch
  · subst hk
    rw [State.consoleintr, State.switchConsole]
    split
    · exact ⟨h.buf1, [], [], List.not_mem_nil, h.buf1 ▸ Input.holds_zero⟩
    · exact ⟨h.buf1, h.input⟩
  · obtain ⟨_, _, q', l', _, hholds, hclean, _, _, hbuf⟩ := h.edit hk
    exact ⟨hbuf.trans h.buf1, q', l', hclean, hholds⟩

theorem Shaped.take (h : Shaped s) (p : P) (hne : s.input.r ≠ s.input.w) : Shaped (s.take p) := by
  obtain ⟨q, l, hclean, hholds⟩ := h.input
  cases q with
  | nil => exact absurd (hholds.r_eq_w_iff.mpr rfl) hne
  | cons c q => exact ⟨h.buf1, q, l, hclean, hholds.advance.1⟩

section

variable [DecidableEq P] {job : P → Job} {s t : State P}

theorem Shaped.consoleread (h : Shaped s) (p : P) (n : Int) : Shaped (s.consoleread job p n) := by
  unfold State.consoleread
  split
  · split
    · split <;> exact h.congr rfl rfl
    · next hgo =>
      have htake := h.take p fun he => hgo (Or.inl he)
      dsimp only
      split
      · split
        · exact h.congr rfl rfl
        · exact htake.congr rfl rfl
      · split <;> exact htake.congr rfl rfl
  · exact h.congr rfl rfl

theorem Shaped.enter {p : P} {x : Pc} (h : Shaped s) (ht : s.enter p x = some t) : Shaped t := by
  unfold State.enter at ht
  split at ht
  · cases ht
    exact h.congr rfl rfl
  · cases ht

theorem Shaped.step {e : Event P} (h : Shaped s) (ht : Console.step job s e = some t) :
    Shaped t := by
  cases e with
  | key c =>
    simp only [Console.step] at ht
    split at ht
    · cases ht
      exact (h.consoleintr _).congr rfl rfl
    · cases ht
  | go p =>
    simp only [Console.step, threadStep] at ht
    split at ht
    · exact h.enter ht
    · cases ht
      exact h.consoleread p _
    · exact h.enter ht
    · cases ht
    · cases ht
  | kill p =>
    cases ht
    exact h.congr rfl rfl

/-- A key other than `^T` leaves the committed characters alone. -/
theorem Shaped.keeps {c : Byte} (h : Shaped s) (hc : Key.ofByte c ≠ .switch)
    (ht : Console.step job s (.key c) = some t) : KeepsCommitted s.input t.input := by
  simp only [Console.step] at ht
  split at ht
  · cases ht
    obtain ⟨q, l, q', l', hold, hnew, _, hprefix, hr, _⟩ := h.edit hc
    refine ⟨hr, ?_⟩
    rw [hold.unread_contents, hnew.unread_contents]
    exact hprefix
  · cases ht

end

theorem shaped_consoleinit (killed : P → Bool) : Shaped (consoleinit killed) :=
  ⟨rfl, [], [], List.not_mem_nil, Input.holds_zero⟩

/-! ## The calls -/

/-- The characters that call `p` has taken. -/
def Record.got [DecidableEq P] (t : Record P) (p : P) : List Byte :=
  (t.delivered.filter fun x => x.1 = p).map Prod.snd

/-- Characters after which a call goes on. -/
def Ordinary (cs : List Byte) : Prop := newline ∉ cs ∧ ctrlD ∉ cs

/-- How far call `p` is: what it has taken is `n` short of its number, and a `^D` is all that a
call takes. -/
def Progress [DecidableEq P] (job : P → Job) (s : State P) (p : P) : Prop :=
  match s.pc p with
  | .start => s.record.got p = []
  | .reading n | .sleeping n | .woken n =>
    Ordinary (s.record.got p) ∧ ((s.record.got p).length : Int) = (job p).n - n ∧
      min (job p).n 0 ≤ n
  | .done r => ctrlD ∈ s.record.got p → s.record.got p = [ctrlD] ∧ r = 0

/-- Why call `p` ends with `r` when the ring is `i` before and `j` after. -/
inductive Stops (job : P → Job) (p : P) (got : List Byte) (r : Int) (i j : Input) : Prop
  | eof : got = [ctrlD] → r = 0 → Stops job p got r i j
  | line (cs : List Byte) : got = cs ++ [newline] → Ordinary cs → r = got.length →
      r ≤ (job p).n → Stops job p got r i j
  | count : Ordinary got → r = got.length → r = max (job p).n 0 → Stops job p got r i j
  | before (q : List Byte) : Ordinary got → got ≠ [] → r = got.length → r < (job p).n →
      i.unread.contents inputBuf uintMod = ctrlD :: q →
      j.unread.contents inputBuf uintMod = ctrlD :: q → Stops job p got r i j

/-- What the reads do in a state: the committed characters have been delivered or are in the
ring, in order, the ring holds these and the line, and a `^D` is an empty read. -/
structure InOrder [DecidableEq P] (s : State P) : Prop where
  order : s.record.committed 1 =
    s.record.delivered.map Prod.snd ++ s.input.unread.contents inputBuf uintMod
  stored : s.input.ring.contents inputBuf uintMod =
    s.input.unread.contents inputBuf uintMod ++ s.record.line 1
  eof : ∀ p, (p, ctrlD) ∈ s.record.delivered → s.record.got p = [ctrlD] ∧ s.pc p = .done 0

/-- The invariant of runs without `^T` and without killed readers. -/
structure Faithful [DecidableEq P] (job : P → Job) (s : State P) : Prop where
  inv : Inv job s
  active : s.active = 1
  alive : ∀ p, s.killed p = false
  own : ∀ x ∈ s.record.delivered, (job x.1).minor = 1
  calls : ∀ p, Progress job s p

/-- Neither `^T` nor the killing of a reader. -/
def Event.Plain : Event P → Prop
  | .key c => Key.ofByte c ≠ .switch
  | .go _ => True
  | .kill _ => False

section

variable [DecidableEq P] {job : P → Job} {s t : State P}

theorem Faithful.inOrder (h : Faithful job s) : InOrder s := by
  obtain ⟨q, hq, hholds⟩ := h.inv.active
  rw [h.active] at hq hholds
  have hall : s.record.deliveredTo job 1 = s.record.delivered.map Prod.snd := by
    rw [Record.deliveredTo, List.filter_eq_self.mpr]
    intro x hx
    exact decide_eq_true (h.own x hx)
  refine ⟨?_, ?_, fun p hp => ?_⟩
  · rw [hq, hall, hholds.unread_contents]
  · rw [hholds.contents, hholds.unread_contents]
  · have hgot : ctrlD ∈ s.record.got p := by
      rw [Record.got, List.mem_map]
      exact ⟨(p, ctrlD), List.mem_filter.mpr ⟨hp, decide_eq_true rfl⟩, rfl⟩
    have hcall := h.calls p
    rw [Progress] at hcall
    split at hcall
    · rw [hcall] at hgot
      cases hgot
    · exact absurd hgot hcall.1.2
    · exact absurd hgot hcall.1.2
    · exact absurd hgot hcall.1.2
    · next r hpc =>
      obtain ⟨heq, rfl⟩ := hcall hgot
      exact ⟨heq, hpc⟩

theorem got_take (s : State P) (p p' : P) :
    (s.take p).record.got p' =
      if p = p' then s.record.got p' ++ [s.input.ring.front inputBuf] else s.record.got p' := by
  simp only [State.take, Record.got, List.filter_append]
  by_cases hp : p = p'
  · simp [hp]
  · simp [hp]

variable {p : P} {n : Int}

/-- What the calls have taken and where they are says how far they are. -/
theorem Progress.congr (h : Progress job s p) (hpc : t.pc p = s.pc p)
    (hgot : t.record.got p = s.record.got p) : Progress job t p := by
  rw [Progress, hpc, hgot]
  exact h

/-- Call `p` moves to `x`, with what it has taken by then. -/
theorem Faithful.move (h : Faithful job s) {x : Pc} (hpc : t.pc = Function.update s.pc p x)
    (hgot : ∀ p', p' ≠ p → t.record.got p' = s.record.got p') (hp : Progress job t p) (p' : P) :
    Progress job t p' := by
  by_cases hp' : p' = p
  · exact hp' ▸ hp
  · refine (h.calls p').congr ?_ (hgot p' hp')
    rw [hpc, Function.update_of_ne hp']

theorem progress_waiting {x : Pc} (hpc : s.pc p = x)
    (hx : x = .reading n ∨ x = .sleeping n ∨ x = .woken n) :
    Progress job s p ↔ Ordinary (s.record.got p) ∧
      ((s.record.got p).length : Int) = (job p).n - n ∧ min (job p).n 0 ≤ n := by
  rw [Progress, hpc]
  rcases hx with rfl | rfl | rfl <;> exact Iff.rfl

theorem progress_done {r : Int} (hpc : s.pc p = .done r) :
    Progress job s p ↔ (ctrlD ∈ s.record.got p → s.record.got p = [ctrlD] ∧ r = 0) := by
  rw [Progress, hpc]

/-- A call that ends says how far it got. -/
theorem Stops.progress {r : Int} {i j : Input} (hpc : s.pc p = .done r)
    (h : Stops job p (s.record.got p) r i j) : Progress job s p := by
  rw [progress_done hpc]
  intro hmem
  cases h with
  | eof hgot hr => exact ⟨hgot, hr⟩
  | line cs hgot hcs _ _ =>
    rw [hgot] at hmem
    rcases List.mem_append.mp hmem with hin | hlast
    · exact absurd hin hcs.2
    · exact absurd (List.mem_singleton.mp hlast) (by decide)
  | count hgot _ _ => exact absurd hmem hgot.2
  | before q hgot _ _ _ _ _ => exact absurd hmem hgot.2

/-- The characters that a call on the ring can take next. -/
theorem Faithful.front (h : Faithful job s) (hne : s.input.r ≠ s.input.w) :
    ∃ q, s.input.unread.contents inputBuf uintMod = s.input.ring.front inputBuf :: q := by
  obtain ⟨q, _, hholds⟩ := h.inv.active
  cases q with
  | nil => exact absurd (hholds.r_eq_w_iff.mpr rfl) hne
  | cons c q => exact ⟨q, by rw [hholds.unread_contents, hholds.advance.2]⟩

theorem setPc_pc (s : State P) (p : P) (x : Pc) : (s.setPc p x).pc p = x := Function.update_self ..

theorem enter_pc {x : Pc} (ht : s.enter p x = some t) : t.pc p = x := by
  unfold State.enter at ht
  split at ht
  · cases ht
    exact setPc_pc s p x
  · cases ht

theorem leave_pc (s : State P) (p : P) (x : Pc) : (s.leave p x).pc p = x := Function.update_self ..

/-- Call `p` ends, having taken what is in `t`. -/
theorem Faithful.finish (h : Faithful job s) {r : Int} (hpc : t.pc = s.pc)
    (hgot : ∀ p', p' ≠ p → t.record.got p' = s.record.got p')
    (hstops : Stops job p (t.record.got p) r s.input t.input) :
    (∀ p', Progress job (t.leave p (.done r)) p') ∧
      ∀ r', (t.leave p (.done r)).pc p = .done r' →
        Stops job p ((t.leave p (.done r)).record.got p) r' s.input
          (t.leave p (.done r)).input := by
  constructor
  · have hmoved : (t.leave p (.done r)).pc = Function.update s.pc p (.done r) := by
      rw [← hpc]
      rfl
    exact h.move hmoved hgot (Stops.progress (leave_pc t p _) hstops)
  · intro r' hr
    rw [leave_pc] at hr
    cases hr
    exact hstops

/-- One round of call `p`: it keeps how far the calls are, and when it is the last one it says
why. -/
theorem progress_consoleread (h : Faithful job s) (hpc : s.pc p = .reading n) :
    (∀ p', Progress job (s.consoleread job p n) p') ∧
      ∀ r, (s.consoleread job p n).pc p = .done r →
        Stops job p ((s.consoleread job p n).record.got p) r s.input
          (s.consoleread job p n).input := by
  obtain ⟨hordinary, hlen, hmin⟩ := (progress_waiting hpc (Or.inl rfl)).mp (h.calls p)
  have hkept (p' : P) (hp' : p' ≠ p) : (s.take p).record.got p' = s.record.got p' := by
    rw [got_take, if_neg (Ne.symm hp')]
  have hmine : (s.take p).record.got p = s.record.got p ++ [s.input.ring.front inputBuf] := by
    rw [got_take, if_pos rfl]
  unfold State.consoleread
  split
  · next hpos =>
    split
    · rw [h.alive p, if_neg Bool.false_ne_true]
      refine ⟨h.move rfl (fun _ _ => rfl) ?_, fun r hr => ?_⟩
      · rw [progress_waiting (leave_pc ..) (Or.inr (Or.inl rfl))]
        exact ⟨hordinary, hlen, hmin⟩
      · rw [leave_pc] at hr
        cases hr
    · next hgo =>
      obtain ⟨q, hq⟩ := h.front fun he => hgo (Or.inl he)
      dsimp only
      generalize s.input.ring.front inputBuf = c at hq hmine ⊢
      split
      · next heof =>
        subst heof
        split
        · next hpartial =>
          refine h.finish rfl (fun _ _ => rfl) (.before q hordinary ?_ hlen.symm ?_ hq hq)
          · intro hnil
            rw [hnil, List.length_nil] at hlen
            omega
          · omega
        · next hfirst =>
          have hnil : s.record.got p = [] := List.eq_nil_of_length_eq_zero (by omega)
          rw [hnil] at hmine hlen
          refine h.finish rfl hkept (.eof hmine ?_)
          rw [← hlen]
          rfl
      · next heof =>
        split
        · next hline =>
          subst hline
          have hcount : (job p).n - (n - 1) = (((s.take p).record.got p).length : Int) := by
            rw [hmine, List.length_append, List.length_singleton]
            omega
          exact h.finish rfl hkept (.line _ hmine hordinary hcount (by omega))
        · next hline =>
          refine ⟨h.move rfl hkept ?_, fun r hr => ?_⟩
          · have hgot : ((s.take p).setPc p (.reading (n - 1))).record.got p =
                s.record.got p ++ [c] := hmine
            rw [progress_waiting (setPc_pc ..) (Or.inl rfl), hgot]
            refine ⟨?_, ?_, ?_⟩
            · simp only [Ordinary, List.mem_append, List.mem_singleton, not_or]
              exact ⟨⟨hordinary.1, Ne.symm hline⟩, hordinary.2, Ne.symm heof⟩
            · rw [List.length_append, List.length_singleton]
              omega
            · omega
          · rw [setPc_pc] at hr
            cases hr
  · next hpos =>
    exact h.finish rfl (fun _ _ => rfl) (.count hordinary hlen.symm (by omega))

omit [DecidableEq P] in
/-- The keys other than `^T` leave the calls where they are or wake them. -/
theorem consoleintr_frame (s : State P) {k : Key} (hk : k ≠ .switch) :
    (s.consoleintr k).active = s.active ∧ (s.consoleintr k).killed = s.killed ∧
      ((s.consoleintr k).pc = s.pc ∨ (s.consoleintr k).pc = fun p => (s.pc p).wake) := by
  cases k with
  | procdump => exact ⟨rfl, rfl, Or.inl rfl⟩
  | switch => exact absurd rfl hk
  | kill =>
    rw [State.consoleintr]
    generalize Input.killLine _ s.input = i
    exact ⟨rfl, rfl, Or.inl rfl⟩
  | backspace =>
    rw [State.consoleintr]
    split
    · exact ⟨rfl, rfl, Or.inl rfl⟩
    · exact ⟨rfl, rfl, Or.inl rfl⟩
  | char c =>
    rw [State.consoleintr, State.typeChar]
    split
    · generalize (if c = carriageReturn then newline else c) = d
      dsimp only
      split
      · exact ⟨rfl, rfl, Or.inr rfl⟩
      · exact ⟨rfl, rfl, Or.inl rfl⟩
    · exact ⟨rfl, rfl, Or.inl rfl⟩

omit [DecidableEq P] in
/-- Keys deliver nothing. -/
theorem press_delivered (job : P → Job) (a : Int) (t : Record P) (k : Key) :
    (t.press job a k).delivered = t.delivered := by
  cases k with
  | procdump | switch | kill | backspace => rfl
  | char c =>
    rw [Record.press, Record.type]
    split
    · generalize (if c = carriageReturn then newline else c) = d
      dsimp only
      split <;> rfl
    · rfl

/-- A call that is woken is as far as before. -/
theorem Progress.wake (h : Progress job s p) (hpc : t.pc p = (s.pc p).wake)
    (hgot : t.record.got p = s.record.got p) : Progress job t p := by
  unfold Progress at h ⊢
  rw [hpc, hgot]
  split at h
  · next hs => simpa only [hs, Pc.wake] using h
  · next hs => simpa only [hs, Pc.wake] using h
  · next hs => simpa only [hs, Pc.wake] using h
  · next hs => simpa only [hs, Pc.wake] using h
  · next hs => simpa only [hs, Pc.wake] using h

theorem Faithful.key (h : Faithful job s) {k : Key} (hk : k ≠ .switch) :
    Faithful job { s.consoleintr k with record := s.record.press job s.active k } := by
  obtain ⟨hactive, hkilled, hpcs⟩ := consoleintr_frame s hk
  have hdelivered := press_delivered job s.active s.record k
  have hgot (p : P) : (s.record.press job s.active k).got p = s.record.got p := by
    rw [Record.got, hdelivered]
    rfl
  refine ⟨h.inv.consoleintr fun hs => absurd hs hk, hactive.trans h.active, ?_, ?_, fun p => ?_⟩
  · intro p
    change (s.consoleintr k).killed p = false
    rw [hkilled]
    exact h.alive p
  · intro x hx
    exact h.own x (hdelivered ▸ hx)
  · rcases hpcs with hsame | hwoken
    · exact (h.calls p).congr (congrFun hsame p) (hgot p)
    · exact (h.calls p).wake (congrFun hwoken p) (hgot p)

/-- What a round of a call leaves alone, and whose characters it takes. -/
theorem consoleread_frame (job : P → Job) (s : State P) (p : P) (n : Int) :
    (s.consoleread job p n).active = s.active ∧ (s.consoleread job p n).killed = s.killed ∧
      ∀ x ∈ (s.consoleread job p n).record.delivered,
        x ∈ s.record.delivered ∨ x.1 = p ∧ s.active = (job p).minor := by
  have htaken (hminor : s.active = (job p).minor) : ∀ x ∈ (s.take p).record.delivered,
      x ∈ s.record.delivered ∨ x.1 = p ∧ s.active = (job p).minor := by
    intro x hx
    rcases List.mem_append.mp hx with hold | hnew
    · exact Or.inl hold
    · exact Or.inr ⟨congrArg Prod.fst (List.mem_singleton.mp hnew), hminor⟩
  unfold State.consoleread
  split
  · split
    · split <;> exact ⟨rfl, rfl, fun x hx => Or.inl hx⟩
    · next hgo =>
      have hminor : s.active = (job p).minor := not_not.mp fun hm => hgo (Or.inr hm)
      dsimp only
      split
      · split
        · exact ⟨rfl, rfl, fun x hx => Or.inl hx⟩
        · exact ⟨rfl, rfl, htaken hminor⟩
      · split <;> exact ⟨rfl, rfl, htaken hminor⟩
  · exact ⟨rfl, rfl, fun x hx => Or.inl hx⟩

theorem Faithful.consoleread (h : Faithful job s) (hpc : s.pc p = .reading n) :
    Faithful job (s.consoleread job p n) := by
  obtain ⟨hactive, hkilled, hown⟩ := consoleread_frame job s p n
  refine ⟨h.inv.consoleread p n, hactive.trans h.active, fun p' => ?_, fun x hx => ?_,
    (progress_consoleread h hpc).1⟩
  · rw [hkilled]
    exact h.alive p'
  · rcases hown x hx with hold | ⟨hp, hminor⟩
    · exact h.own x hold
    · rw [hp, ← hminor, h.active]

theorem Faithful.enter (h : Faithful job s) (hp : Progress job (s.setPc p (.reading n)) p)
    (ht : s.enter p (.reading n) = some t) : Faithful job t := by
  unfold State.enter at ht
  split at ht
  · cases ht
    refine ⟨h.inv.congr rfl rfl rfl rfl, h.active, h.alive, h.own, ?_⟩
    exact h.move (t := { s.setPc p (.reading n) with lock := some p }) rfl (fun _ _ => rfl) hp
  · cases ht

theorem Faithful.step {e : Event P} (h : Faithful job s) (he : e.Plain)
    (ht : Console.step job s e = some t) : Faithful job t := by
  cases e with
  | key c =>
    simp only [Console.step] at ht
    split at ht
    · cases ht
      exact h.key he
    · cases ht
  | go p =>
    simp only [Console.step, threadStep] at ht
    have hcall := h.calls p
    split at ht
    · next hpc =>
      rw [Progress, hpc] at hcall
      refine h.enter ?_ ht
      rw [progress_waiting (setPc_pc ..) (Or.inl rfl)]
      have hgot : (s.setPc p (.reading (job p).n)).record.got p = [] := hcall
      rw [hgot]
      exact ⟨⟨List.not_mem_nil, List.not_mem_nil⟩, by simp, min_le_left ..⟩
    · next n hpc =>
      cases ht
      exact h.consoleread hpc
    · next n hpc =>
      refine h.enter ?_ ht
      rw [progress_waiting (setPc_pc ..) (Or.inl rfl)]
      exact (progress_waiting hpc (Or.inr (Or.inr rfl))).mp hcall
    · cases ht
    · cases ht
  | kill p => exact absurd he id

end

variable [DecidableEq P]

theorem faithful_consoleinit (job : P → Job) : Faithful job (consoleinit fun _ => false) :=
  ⟨inv_consoleinit job _, rfl, fun _ => rfl, nofun, fun _ => rfl⟩

/-- In every state of every run the indices are in order and editing keeps what is committed.
When the run has neither `^T` nor a killed reader, the reads return the committed characters in
order, and a call that ends has its reason. -/
theorem console_ring_runs (job : P → Job) (killed : P → Bool) (es : List (Event P)) (s : State P)
    (hrun : run (step job) (consoleinit killed) es = some s) :
    (Bounded s.input ∧ ∀ c t, Key.ofByte c ≠ .switch → step job s (.key c) = some t →
      KeepsCommitted s.input t.input) ∧
    ((∀ p, killed p = false) → (∀ e ∈ es, e.Plain) →
      InOrder s ∧ ∀ p r t, step job s (.go p) = some t → t.pc p = .done r →
        Stops job p (t.record.got p) r s.input t.input) := by
  have hshaped : Shaped s := run_invariant_of_step (fun _ _ _ h ht => h.step ht)
    (shaped_consoleinit killed) hrun
  refine ⟨⟨hshaped.bounded, fun c t hc ht => hshaped.keeps hc ht⟩, fun halive hplain => ?_⟩
  obtain rfl : killed = fun _ => false := funext halive
  have hfaithful : Faithful job s := run_invariant (fun _ _ _ h he ht => h.step he ht)
    (faithful_consoleinit job) (always_of_mem hplain) hrun
  refine ⟨hfaithful.inOrder, fun p r t ht hdone => ?_⟩
  simp only [step, threadStep] at ht
  split at ht
  · rw [enter_pc ht] at hdone
    cases hdone
  · next n hpc =>
    cases ht
    exact (progress_consoleread hfaithful hpc).2 r hdone
  · rw [enter_pc ht] at hdone
    cases hdone
  · cases ht
  · cases ht

/-- Two calls on the console. -/
def oneConsole : Bool → Job := fun _ => ⟨1, 10⟩

/-- After `a` and `^D` the first call returns `a`, and the second one nothing. -/
theorem console_ring_runs_eof :
    ∃ s, run (step oneConsole) (consoleinit fun _ => false)
        [.key 97, .key 4, .go false, .go false, .go false, .go true, .go true] = some s ∧
      s.pc false = .done 1 ∧ s.pc true = .done 0 ∧ Bounded s.input ∧ InOrder s := by
  obtain ⟨s, hs, hpc⟩ := Option.map_eq_some_iff.mp (by decide +kernel :
    (run (step oneConsole) (consoleinit fun _ => false)
      [.key 97, .key 4, .go false, .go false, .go false, .go true, .go true]).map
        (fun s => (s.pc false, s.pc true)) = some (.done 1, .done 0))
  have hall := console_ring_runs oneConsole (fun _ => false) _ s hs
  refine ⟨s, hs, congrArg Prod.fst hpc, congrArg Prod.snd hpc, hall.1.1, ?_⟩
  refine (hall.2 (fun _ => rfl) ?_).1
  simp only [List.forall_mem_cons, Event.Plain, List.not_mem_nil, false_implies, implies_true,
    and_true]
  decide

end Xv6Containers.Console
