import Xv6Containers.Console.Model

/-!
# What reaches which console

Every console has its own input in the record. The code has one ring for all of
them, and `^T` either leaves that ring with the next console or, behind the last
one, overwrites it with `buf1`, which nothing ever writes. So characters that are
in the ring at a `^T` go to another console or are lost. When every `^T` finds the
ring empty, the code does what the record says: what was committed on console `k`
is what the reads on minor `k` have got, followed by what is still in the ring.
-/

namespace Xv6Containers.Console

open Lib Lib.Memory Lib.Runs

/-! ## The ring -/

/-- The ring stores the committed characters `q` and behind them the line `l`. -/
structure Input.Holds (i : Input) (q l : List Byte) : Prop where
  ok : i.ring.Ok inputBuf uintMod
  contents : i.ring.contents inputBuf uintMod = q ++ l
  w : i.w = (i.r + q.length) % uintMod

namespace Input

theorem inputBuf_dvd : inputBuf ∣ uintMod := by decide

theorem inputBuf_lt : inputBuf < uintMod := by decide

theorem holds_zero : zero.Holds [] [] where
  ok := ⟨by decide, by decide, by decide⟩
  contents := by decide
  w := rfl

variable {i : Input} {q l : List Byte}

namespace Holds

theorem size (h : i.Holds q l) : i.ring.size uintMod = q.length + l.length := by
  rw [← RingBuffer.length_contents inputBuf, h.contents, List.length_append]

theorem length_le (h : i.Holds q l) : q.length + l.length ≤ inputBuf := h.size ▸ h.ok.size

theorem e (h : i.Holds q l) : i.e = (i.r + (q.length + l.length)) % uintMod := by
  rw [← h.size]
  exact RingBuffer.nwrite_eq h.ok

theorem unread_size (h : i.Holds q l) : i.unread.size uintMod = q.length := by
  have hlen := h.length_le
  have hlt := inputBuf_lt
  exact RingBuffer.size_of_nwrite h.ok.nread (by omega) h.w

theorem line_size (h : i.Holds q l) : i.line.size uintMod = l.length := by
  have hlen := h.length_le
  have hlt := inputBuf_lt
  refine RingBuffer.size_of_nwrite ?_ (by omega) ?_
  · rw [line, h.w]
    exact Nat.mod_lt _ (by omega)
  · rw [line, h.w, h.e, Nat.mod_add_mod, Nat.add_assoc]

theorem unread_ok (h : i.Holds q l) : i.unread.Ok inputBuf uintMod := by
  have hlen := h.length_le
  refine ⟨h.ok.nread, ?_, ?_⟩
  · rw [unread, h.w]
    exact Nat.mod_lt _ (by decide)
  · rw [h.unread_size]
    omega

theorem line_ok (h : i.Holds q l) : i.line.Ok inputBuf uintMod := by
  have hlen := h.length_le
  refine ⟨?_, h.ok.nwrite, ?_⟩
  · rw [line, h.w]
    exact Nat.mod_lt _ (by decide)
  · rw [h.line_size]
    omega

theorem unread_contents (h : i.Holds q l) : i.unread.contents inputBuf uintMod = q := by
  have htake : i.unread.contents inputBuf uintMod =
      (i.ring.contents inputBuf uintMod).take q.length := by
    rw [RingBuffer.contents, RingBuffer.contents, h.unread_size, h.size, ← List.map_take,
      List.take_range, Nat.min_eq_left (Nat.le_add_right ..)]
    rfl
  rw [htake, h.contents, List.take_left]

theorem line_contents (h : i.Holds q l) : i.line.contents inputBuf uintMod = l := by
  have hdrop : i.line.contents inputBuf uintMod =
      (i.ring.contents inputBuf uintMod).drop q.length := by
    apply List.ext_getElem
    · simp [RingBuffer.length_contents, h.line_size, h.size]
    · intro k hk hk'
      simp only [RingBuffer.contents, List.getElem_map, List.getElem_range, List.getElem_drop]
      change i.buf ((i.w + k) % inputBuf) = i.buf ((i.r + (q.length + k)) % inputBuf)
      rw [h.w, Nat.add_mod, Nat.mod_mod_of_dvd _ inputBuf_dvd, ← Nat.add_mod, Nat.add_assoc]
  rw [hdrop, h.contents, List.drop_left]

theorem r_eq_w_iff (h : i.Holds q l) : i.r = i.w ↔ q = [] := by
  rw [← List.length_eq_zero_iff, ← h.unread_size, RingBuffer.size_eq_zero_iff h.unread_ok]
  rfl

theorem e_eq_w_iff (h : i.Holds q l) : i.e = i.w ↔ l = [] := by
  rw [← List.length_eq_zero_iff, ← h.line_size, RingBuffer.size_eq_zero_iff h.line_ok]
  exact eq_comm

theorem r_eq_e_iff (h : i.Holds q l) : i.r = i.e ↔ q = [] ∧ l = [] := by
  rw [← List.append_eq_nil_iff, ← h.contents, RingBuffer.contents_eq_nil_iff h.ok]
  rfl

theorem not_full (h : i.Holds q l) (hroom : i.ring.size uintMod < inputBuf) :
    ¬ i.ring.Full inputBuf uintMod := by
  intro hfull
  have hsize := RingBuffer.size_of_nwrite h.ok.nread inputBuf_lt hfull
  omega

theorem put (h : i.Holds q l) (hroom : i.ring.size uintMod < inputBuf) (c : Byte) :
    (i.put c).Holds q (l ++ [c]) where
  ok := RingBuffer.ok_push h.ok inputBuf_lt (h.not_full hroom) c
  contents := by
    have hpush := RingBuffer.contents_push inputBuf_dvd inputBuf_lt h.ok (h.not_full hroom) c
    rw [h.contents, List.append_assoc] at hpush
    exact hpush
  w := h.w

theorem full_iff (h : i.Holds q l) :
    i.ring.Full inputBuf uintMod ↔ q.length + l.length = inputBuf := by
  rw [← h.size]
  constructor
  · exact RingBuffer.size_of_nwrite h.ok.nread inputBuf_lt
  · exact RingBuffer.full_of_size h.ok

theorem commit (h : i.Holds q l) : i.commit.Holds (q ++ l) [] where
  ok := h.ok
  contents := by
    rw [List.append_nil]
    exact h.contents
  w := by
    rw [List.length_append]
    exact h.e

theorem not_empty (h : i.Holds q l) (hne : q ++ l ≠ []) : ¬ i.ring.Empty := by
  rwa [← RingBuffer.contents_eq_nil_iff h.ok, h.contents]

theorem unput {c : Byte} (h : i.Holds q (l ++ [c])) :
    i.unput.Holds q l ∧ i.ring.back inputBuf uintMod = c := by
  have hne : ¬ i.ring.Empty := h.not_empty (by simp)
  have hcontents := RingBuffer.contents_unpush inputBuf_dvd inputBuf_lt h.ok hne
  rw [h.contents, ← List.append_assoc] at hcontents
  obtain ⟨hinit, hlast⟩ := List.append_inj' hcontents rfl
  exact ⟨⟨RingBuffer.ok_unpush h.ok inputBuf_lt hne, hinit.symm, h.w⟩,
    (List.singleton_inj.mp hlast).symm⟩

theorem advance {c : Byte} (h : i.Holds (c :: q) l) :
    i.advance.Holds q l ∧ i.ring.front inputBuf = c := by
  have hne : ¬ i.ring.Empty := h.not_empty (by simp)
  have hcontents := RingBuffer.contents_pop inputBuf_dvd inputBuf_lt h.ok hne
  rw [h.contents, List.cons_append, List.cons_eq_cons] at hcontents
  refine ⟨⟨RingBuffer.ok_pop h.ok inputBuf_lt hne, hcontents.2.symm, ?_⟩, hcontents.1.symm⟩
  change i.w = ((i.r + 1) % uintMod + q.length) % uintMod
  rw [h.w, Nat.mod_add_mod, List.length_cons, Nat.add_assoc, Nat.add_comm 1]

/-- `^U` takes the whole line away: there is no newline in it. -/
theorem killLine (h : i.Holds q l) (hl : newline ∉ l) :
    (Input.killLine (i.line.size uintMod) i).Holds q [] := by
  rw [h.line_size]
  -- from the back of the line, as the loop goes
  induction l using List.reverseRecOn generalizing i with
  | nil => exact h
  | append_singleton l c ih =>
    have hne : i.e ≠ i.w := fun he => by simpa using h.e_eq_w_iff.mp he
    have hback : i.ring.back inputBuf uintMod ≠ newline := by
      rw [h.unput.2]
      intro hc
      exact hl (by simp [hc])
    rw [List.length_append, List.length_singleton, Input.killLine, if_pos ⟨hne, hback⟩]
    exact ih h.unput.1 fun hmem => hl (List.mem_append_left _ hmem)

end Holds

end Input

/-! ## The invariant -/

variable {P : Type}

/-- Committed characters of console `k` that no call has got yet: they can only be in the
ring, and only while `k` is active. -/
def State.unread (s : State P) (k : Int) : List Byte :=
  if k = s.active then s.input.unread.contents inputBuf uintMod else []

/-- The line that is being typed on console `k`. -/
def State.typed (s : State P) (k : Int) : List Byte :=
  if k = s.active then s.input.line.contents inputBuf uintMod else []

/-- What was committed on a console has gone to the reads on its device or will go there
next, each character once and in order, and the line typed on it is as it was left. -/
def Routed (job : P → Job) (s : State P) : Prop :=
  ∀ k, s.record.committed k = s.record.deliveredTo job k ++ s.unread k ∧
    s.record.line k = s.typed k

/-- The ring is what the active console has, and the other consoles have nothing. -/
structure Inv (job : P → Job) (s : State P) : Prop where
  buf1 : s.buf1 = .zero
  clean : newline ∉ s.record.line s.active
  active : ∃ q, s.record.committed s.active = s.record.deliveredTo job s.active ++ q ∧
    s.input.Holds q (s.record.line s.active)
  others : ∀ k, k ≠ s.active →
    s.record.committed k = s.record.deliveredTo job k ∧ s.record.line k = []

section

variable {job : P → Job} {s t : State P}

theorem Inv.routed (h : Inv job s) : Routed job s := by
  intro k
  rw [State.unread, State.typed]
  rcases eq_or_ne k s.active with hk | hk
  · obtain ⟨q, hq, hholds⟩ := h.active
    rw [if_pos hk, if_pos hk, hholds.unread_contents, hholds.line_contents, hk]
    exact ⟨hq, rfl⟩
  · rw [if_neg hk, if_neg hk, List.append_nil]
    exact h.others k hk

/-- The ring, `active` and the record say everything. -/
theorem Inv.congr (h : Inv job s) (hbuf : t.buf1 = s.buf1) (hinput : t.input = s.input)
    (hactive : t.active = s.active) (hrecord : t.record = s.record) : Inv job t := by
  obtain ⟨h1, h2, h3, h4⟩ := h
  refine ⟨hbuf.trans h1, ?_, ?_, ?_⟩
  · rwa [hrecord, hactive]
  · rwa [hrecord, hactive, hinput]
  · rwa [hrecord, hactive]

theorem switchConsole_record (s : State P) : s.switchConsole.record = s.record := by
  rw [State.switchConsole]
  split <;> rfl

/-- `^T` with an empty ring. -/
theorem Inv.switchConsole (h : Inv job s) (hempty : s.input.r = s.input.e) :
    Inv job s.switchConsole := by
  obtain ⟨q, hq, hholds⟩ := h.active
  obtain ⟨rfl, hline⟩ := hholds.r_eq_e_iff.mp hempty
  rw [List.append_nil] at hq
  rw [hline] at hholds
  -- now no console has anything
  have hall : ∀ k, s.record.committed k = s.record.deliveredTo job k ∧ s.record.line k = [] := by
    intro k
    rcases eq_or_ne k s.active with rfl | hk
    · exact ⟨hq, hline⟩
    · exact h.others k hk
  have hnew : ∀ (t : State P), t.record = s.record → t.buf1 = s.buf1 → t.input.Holds [] [] →
      Inv job t := by
    intro t hrecord hbuf hinput
    refine ⟨hbuf.trans h.buf1, ?_, ⟨[], ?_, ?_⟩, fun k _ => ?_⟩
    · rw [hrecord, (hall _).2]
      exact List.not_mem_nil
    · rw [hrecord, List.append_nil]
      exact (hall _).1
    · rwa [hrecord, (hall _).2]
    · rw [hrecord]
      exact hall k
  rw [State.switchConsole]
  split
  · exact hnew _ rfl rfl (h.buf1 ▸ Input.holds_zero)
  · exact hnew _ rfl rfl hholds

/-- The active console's line and ring change together. -/
theorem Inv.edit (h : Inv job s) {q l : List Byte} {i : Input} {c : List Byte}
    (hclean : newline ∉ l) (hq : c = s.record.deliveredTo job s.active ++ q)
    (hholds : i.Holds q l) :
    Inv job { s with
      input := i
      record :=
        { s.record with
          committed := Function.update s.record.committed s.active c
          line := Function.update s.record.line s.active l } } := by
  refine ⟨h.buf1, ?_, ⟨q, ?_, ?_⟩, fun k hk => ?_⟩
  · simpa using hclean
  · simpa [Record.deliveredTo] using hq
  · simpa using hholds
  · simpa [Function.update_of_ne hk, Record.deliveredTo] using h.others k hk

/-- The same when nothing is committed. -/
theorem Inv.editLine (h : Inv job s) {q l : List Byte} {i : Input}
    (hclean : newline ∉ l)
    (hq : s.record.committed s.active = s.record.deliveredTo job s.active ++ q)
    (hholds : i.Holds q l) :
    Inv job { s with
      input := i
      record := { s.record with line := Function.update s.record.line s.active l } } := by
  have hedit := h.edit hclean hq hholds
  rwa [Function.update_eq_self] at hedit

/-- How full the ring is, from the record. -/
theorem load_eq {q : List Byte}
    (hq : s.record.committed s.active = s.record.deliveredTo job s.active ++ q)
    (hholds : s.input.Holds q (s.record.line s.active)) :
    s.record.load job s.active = s.input.ring.size uintMod := by
  rw [Record.load, hq, hholds.size, List.length_append]
  omega

theorem Inv.typeChar (h : Inv job s) (c : Byte) :
    Inv job { s.typeChar c with record := s.record.type job s.active c } := by
  obtain ⟨q, hq, hholds⟩ := h.active
  have hload := load_eq hq hholds
  unfold State.typeChar Record.type
  rw [hload]
  split
  · next hroom =>
    generalize (if c = carriageReturn then newline else c) = d
    have hput := hholds.put hroom.2 d
    have hfull : (s.input.put d).ring.Full inputBuf uintMod ↔
        s.input.ring.size uintMod + 1 = inputBuf := by
      rw [hput.full_iff, hholds.size, List.length_append, List.length_singleton, Nat.add_assoc]
    simp only [hfull]
    split
    · refine (h.edit (c := s.record.committed s.active ++ (s.record.line s.active ++ [d]))
        List.not_mem_nil ?_ hput.commit).congr rfl rfl rfl rfl
      rw [hq, List.append_assoc]
    · next hplain =>
      refine h.editLine ?_ hq hput
      intro hmem
      rcases List.mem_append.mp hmem with hold | hnew
      · exact h.clean hold
      · exact hplain (Or.inl (List.mem_singleton.mp hnew).symm)
  · exact h.congr rfl rfl rfl rfl

theorem Inv.backspace (h : Inv job s) :
    Inv job { s.consoleintr .backspace with
      record := s.record.press job s.active .backspace } := by
  obtain ⟨q, hq, hholds⟩ := h.active
  have hclean := h.clean
  simp only [State.consoleintr, Record.press]
  generalize hl : s.record.line s.active = l at hclean hholds ⊢
  induction l using List.reverseRecOn with
  | nil =>
    rw [if_neg (not_not.mpr (hholds.e_eq_w_iff.mpr rfl))]
    exact h.editLine List.not_mem_nil hq hholds
  | append_singleton l c _ =>
    rw [if_pos fun he => by simpa using hholds.e_eq_w_iff.mp he, List.dropLast_concat]
    exact h.editLine (fun hmem => hclean (List.mem_append_left _ hmem)) hq hholds.unput.1

/-- Every key does to the ring what the record says, `^T` when the ring is empty. -/
theorem Inv.consoleintr (h : Inv job s) {k : Key} (hk : k = .switch → s.input.r = s.input.e) :
    Inv job { s.consoleintr k with record := s.record.press job s.active k } := by
  cases k with
  | procdump => exact h
  | switch =>
    rw [State.consoleintr, Record.press, ← switchConsole_record s]
    exact h.switchConsole (hk rfl)
  | kill =>
    obtain ⟨q, hq, hholds⟩ := h.active
    have hkill := hholds.killLine h.clean
    rw [State.consoleintr, Record.press]
    -- the loop's result is kept opaque: only what it holds matters
    generalize Input.killLine _ s.input = i at hkill ⊢
    exact h.editLine List.not_mem_nil hq hkill
  | backspace => exact h.backspace
  | char c =>
    rw [State.consoleintr, Record.press]
    exact h.typeChar c

/-- A read on the active console takes the next character. -/
theorem Inv.take (h : Inv job s) {p : P} (hne : s.input.r ≠ s.input.w)
    (hminor : s.active = (job p).minor) : Inv job (s.take p) := by
  obtain ⟨q, hq, hholds⟩ := h.active
  cases q with
  | nil => exact absurd (hholds.r_eq_w_iff.mpr rfl) hne
  | cons c q =>
    obtain ⟨hrest, hfront⟩ := hholds.advance
    have hdelivered : ∀ k, (s.take p).record.deliveredTo job k =
        if k = s.active then s.record.deliveredTo job k ++ [c]
        else s.record.deliveredTo job k := by
      intro k
      simp only [State.take, Record.deliveredTo, List.filter_append, hfront]
      rcases eq_or_ne k s.active with rfl | hk
      · simp [hminor]
      · simp [hk, ← hminor, Ne.symm hk]
    refine ⟨h.buf1, h.clean, ⟨q, ?_, hrest⟩, fun k hk => ?_⟩
    · rw [hdelivered, State.take, if_pos rfl, List.append_assoc]
      exact hq
    · rw [hdelivered, if_neg (show k ≠ s.active from hk)]
      exact h.others k hk

variable [DecidableEq P]

theorem Inv.consoleread (h : Inv job s) (p : P) (n : Int) : Inv job (s.consoleread job p n) := by
  unfold State.consoleread
  split
  · split
    · split <;> exact h.congr rfl rfl rfl rfl
    · next hgo =>
      have htake := h.take (p := p) (fun he => hgo (Or.inl he))
        (not_not.mp fun hm => hgo (Or.inr hm))
      simp only
      split
      · split
        · exact h.congr rfl rfl rfl rfl
        · exact htake.congr rfl rfl rfl rfl
      · split <;> exact htake.congr rfl rfl rfl rfl
  · exact h.congr rfl rfl rfl rfl

theorem Inv.enter (h : Inv job s) {p : P} {x : Pc} (ht : s.enter p x = some t) : Inv job t := by
  unfold State.enter at ht
  split at ht
  · cases ht
    exact h.congr rfl rfl rfl rfl
  · cases ht

/-- A `^T` finds the ring empty: nothing committed that has not been read, and no line begun. -/
def QuietSwitch (s : State P) (e : Event P) : Prop :=
  match e with
  | .key c => Key.ofByte c = .switch → s.input.r = s.input.e
  | _ => True

instance (s : State P) (e : Event P) : Decidable (QuietSwitch s e) :=
  match e with
  | .key c => inferInstanceAs (Decidable (Key.ofByte c = .switch → s.input.r = s.input.e))
  | .go _ | .kill _ => inferInstanceAs (Decidable True)

theorem Inv.step {e : Event P} (h : Inv job s) (he : QuietSwitch s e)
    (ht : Console.step job s e = some t) : Inv job t := by
  cases e with
  | key c =>
    simp only [Console.step] at ht
    split at ht
    · cases ht
      exact h.consoleintr he
    · cases ht
  | go p =>
    simp only [Console.step, threadStep] at ht
    split at ht
    · exact h.enter ht
    · cases ht
      exact h.consoleread p _
    · exact h.enter ht
    · cases ht
    · cases ht
  | kill p =>
    cases ht
    exact h.congr rfl rfl rfl rfl

omit [DecidableEq P] in
theorem inv_consoleinit (job : P → Job) (killed : P → Bool) : Inv job (consoleinit killed) where
  buf1 := rfl
  clean := List.not_mem_nil
  active := ⟨[], rfl, Input.holds_zero⟩
  others := fun _ _ => ⟨rfl, rfl⟩

end

/-! ## Runs -/

/-- A `^T` that finds characters in the ring takes them away from their console. -/
theorem not_routed_of_switch {job : P → Job} {s : State P} (h : Inv job s)
    (hne : s.input.r ≠ s.input.e) {t : State P} (hrecord : t.record = s.record)
    (hactive : t.active ≠ s.active) : ¬ Routed job t := by
  intro hrouted
  obtain ⟨q, hq, hholds⟩ := h.active
  obtain ⟨hcommitted, hline⟩ := hrouted s.active
  rw [State.unread, if_neg hactive.symm, hrecord, hq, List.append_nil] at hcommitted
  rw [State.typed, if_neg hactive.symm, hrecord] at hline
  exact hne (hholds.r_eq_e_iff.mpr ⟨List.append_right_eq_self.mp hcommitted, hline⟩)

theorem switchConsole_active (s : State P) : s.switchConsole.active ≠ s.active := by
  rw [State.switchConsole]
  split
  · next hlast =>
    change (1 : Int) ≠ s.active
    rw [maxVc] at hlast
    omega
  · change s.active + 1 ≠ s.active
    omega

/-- Whatever keys are pressed and whoever reads on which device: every committed character
goes to the reads of its own console, once and in order, and no line is disturbed, in all
states of a run exactly when the ring is empty at every `^T`. -/
theorem consoles_routed_iff {P : Type} [DecidableEq P] (job : P → Job) (killed : P → Bool)
    (es : List (Event P)) (s : State P)
    (hrun : run (step job) (consoleinit killed) es = some s) :
    Always (step job) (fun u e => ∀ t, step job u e = some t → Routed job t)
        (consoleinit killed) es ↔
      Always (step job) QuietSwitch (consoleinit killed) es := by
  symm
  refine always_iff_of_invariant (I := Inv job) (fun _ _ _ hI hC hstep => hI.step hC hstep)
    (fun u e t hI ht => ⟨fun hC v hv => (hI.step hC hv).routed, fun hD => ?_⟩)
    (inv_consoleinit job killed) hrun
  cases e with
  | key c =>
    intro hc
    by_contra hne
    have hturn : t.record = u.record ∧ t.active ≠ u.active := by
      simp only [step, hc, Record.press, State.consoleintr] at ht
      split at ht
      · cases ht
        exact ⟨rfl, switchConsole_active u⟩
      · cases ht
    exact not_routed_of_switch hI hne hturn.1 hturn.2 (hD t ht)
  | go p => trivial
  | kill p => trivial

/-- A read on the console and one on the device with minor 2. -/
def twoReaders : Bool → Job
  | false => ⟨1, 10⟩
  | true => ⟨2, 10⟩

/-- A line is typed and read on console 1, then one on console 2: the first reader gets
`a` and the newline, the second has got `b`. -/
theorem consoles_routed_iff_twoReaders :
    ∃ s, run (step twoReaders) (consoleinit fun _ => false)
        [.key 97, .key 13, .go false, .go false, .go false, .key 20, .key 98, .key 10,
          .go true, .go true] = some s ∧
      s.record.deliveredTo twoReaders 1 = [97, 10] ∧ s.record.deliveredTo twoReaders 2 = [98] ∧
      Always (step twoReaders) (fun u e => ∀ t, step twoReaders u e = some t → Routed twoReaders t)
        (consoleinit fun _ => false)
        [.key 97, .key 13, .go false, .go false, .go false, .key 20, .key 98, .key 10,
          .go true, .go true] := by
  obtain ⟨s, hs, hgot⟩ := Option.map_eq_some_iff.mp (by decide +kernel :
    (run (step twoReaders) (consoleinit fun _ => false)
      [.key 97, .key 13, .go false, .go false, .go false, .key 20, .key 98, .key 10,
        .go true, .go true]).map (fun s =>
          (s.record.deliveredTo twoReaders 1, s.record.deliveredTo twoReaders 2)) =
      some ([97, 10], [98]))
  exact ⟨s, hs, congrArg Prod.fst hgot, congrArg Prod.snd hgot,
    (consoles_routed_iff twoReaders _ _ s hs).mpr (by decide +kernel)⟩

/-- A line typed on console 1 and not read before the switch goes to the reader of
console 2; and a line begun on console 1 is gone after four switches. -/
theorem switch_misroutes :
    (∃ s, run (step twoReaders) (consoleinit fun _ => false)
        [.key 97, .key 10, .key 20, .go true, .go true] = some s ∧
      s.record.committed 1 = [97, 10] ∧ s.record.committed 2 = [] ∧
      s.record.deliveredTo twoReaders 2 = [97] ∧ ¬ Routed twoReaders s) ∧
    ∃ s, run (step twoReaders) (consoleinit fun _ => false)
        [.key 97, .key 20, .key 20, .key 20, .key 20] = some s ∧
      s.active = 1 ∧ s.record.line 1 = [97] ∧ s.typed 1 = [] ∧ ¬ Routed twoReaders s := by
  constructor
  · obtain ⟨s, hs, hgot⟩ := Option.map_eq_some_iff.mp (by decide +kernel :
      (run (step twoReaders) (consoleinit fun _ => false)
        [.key 97, .key 10, .key 20, .go true, .go true]).map (fun s =>
          (s.record.committed 1, s.record.committed 2, s.record.deliveredTo twoReaders 2)) =
        some ([97, 10], [], [97]))
    simp only [Prod.mk.injEq] at hgot
    refine ⟨s, hs, hgot.1, hgot.2.1, hgot.2.2, fun hrouted => ?_⟩
    have htwo := (hrouted 2).1
    rw [hgot.2.1, hgot.2.2] at htwo
    simp at htwo
  · obtain ⟨s, hs, hgot⟩ := Option.map_eq_some_iff.mp (by decide +kernel :
      (run (step twoReaders) (consoleinit fun _ => false)
        [.key 97, .key 20, .key 20, .key 20, .key 20]).map (fun s =>
          (s.active, s.record.line 1, s.typed 1)) = some (1, [97], []))
    simp only [Prod.mk.injEq] at hgot
    refine ⟨s, hs, hgot.1, hgot.2.1, hgot.2.2, fun hrouted => ?_⟩
    have hone := (hrouted 1).2
    rw [hgot.2.1, hgot.2.2] at hone
    simp at hone

end Xv6Containers.Console
