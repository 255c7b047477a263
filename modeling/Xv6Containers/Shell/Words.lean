import Xv6Containers.Shell.Derivations

/-!
# The words of a command as strings

The words of a command are parts of one buffer. `nulterminate` goes through the tree and
writes a zero after each word. The character after a word never belongs to a word, so
that the zeros end all words and change none.

## Implementation notes

The buffer holds the command and its terminating zero. The loop over `argv` reads
entries up to the first null pointer; reading on behind the array is an outcome of its
own.
-/

namespace Xv6Containers.Shell

open Lib.Memory Lib.Strings

/-- The loop of `nulterminate` over the arguments. -/
def terminateArgs : List (Option Span) → List Byte → Outcome (List Byte)
  | [], _ => .overrun
  | none :: _, buf => .ok buf
  | some w :: argv, buf => terminateArgs argv (buf.set w.stop 0)

/-- `nulterminate`. -/
def nulterminate : Cmd → List Byte → Outcome (List Byte)
  | .exec argv, buf => terminateArgs (List.ofFn argv) buf
  | .redir cmd r, buf => do
      let buf ← nulterminate cmd buf
      return buf.set r.file.stop 0
  | .pipe left right, buf => do
      let buf ← nulterminate left buf
      nulterminate right buf
  | .list left right, buf => do
      let buf ← nulterminate left buf
      nulterminate right buf
  | .back cmd, buf => nulterminate cmd buf

/-- The arguments and files of a tree. -/
def Cmd.words : Cmd → List Span
  | .exec argv => (List.ofFn argv).reduceOption
  | .redir cmd r => cmd.words ++ [r.file]
  | .pipe left right => left.words ++ right.words
  | .list left right => left.words ++ right.words
  | .back cmd => cmd.words

/-- The text of a word. -/
def Span.text (s : List Byte) (w : Span) : List Byte := (s.drop w.start).take (w.stop - w.start)

/-! ## What a word is in the command -/

/-- A word of the command: its characters belong to words, and the next one does not. -/
structure WordAt (s : List Byte) (w : Span) : Prop where
  nonempty : w.start < w.stop
  inside : w.stop ≤ s.length
  chars : ∀ i c, w.start ≤ i → i < w.stop → s[i]? = some c → isWord c = true
  after : ∀ c, s[w.stop]? = some c → isWord c = false

/-- The word that the scanner finds at the cursor. -/
theorem wordAt_scan (pre : List Byte) {c : Byte} {t : List Byte} (hc : isWord c = true) :
    WordAt (pre ++ c :: t)
      ⟨(pre ++ c :: t).length - (c :: t).length,
        (pre ++ c :: t).length - ((c :: t).dropWhile isWord).length⟩ := by
  have hsplit := List.takeWhile_append_dropWhile (p := isWord) (l := c :: t)
  have hchars : ∀ x ∈ (c :: t).takeWhile isWord, isWord x = true := fun x => List.mem_takeWhile_imp
  have hafter : ∀ x, ((c :: t).dropWhile isWord)[0]? = some x → isWord x = false := by
    intro x hx
    have hhead := List.head?_dropWhile_not isWord (c :: t)
    rw [List.head?_eq_getElem?, hx] at hhead
    exact hhead
  have hpos : 0 < ((c :: t).takeWhile isWord).length := by
    rw [List.takeWhile_cons_of_pos hc]
    exact Nat.succ_pos _
  generalize (c :: t).takeWhile isWord = word at hsplit hchars hpos
  generalize (c :: t).dropWhile isWord = rest at hsplit hafter ⊢
  rw [← hsplit]
  simp only [List.length_append]
  have hstart : pre.length + (word.length + rest.length) - (word.length + rest.length) =
      pre.length := by omega
  have hstop : pre.length + (word.length + rest.length) - rest.length =
      pre.length + word.length := by omega
  rw [hstart, hstop]
  refine ⟨?_, ?_, fun i x hlo hhi hx => ?_, fun x hx => ?_⟩
  · dsimp only
    omega
  · simp only [List.length_append]
    omega
  · dsimp only at hlo hhi
    rw [List.getElem?_append_right hlo, List.getElem?_append_left (by omega)] at hx
    exact hchars x (List.mem_of_getElem? hx)
  · dsimp only at hx
    rw [List.getElem?_append_right (by omega), List.getElem?_append_right (by omega)] at hx
    apply hafter x
    rw [← hx]
    congr 1
    omega

/-- The cursor only moves on. -/
theorem gettoken_suffix (es : Nat) (ps : List Byte) : (gettoken es ps).ps <:+ ps := by
  have hskip := List.dropWhile_suffix (l := ps) isSpace
  have hscan := scanToken_scanned ps
  simp only [gettoken]
  generalize ps.dropWhile isSpace = s at hskip hscan ⊢
  generalize scanToken s = r at hscan ⊢
  refine (List.dropWhile_suffix isSpace).trans (List.IsSuffix.trans ?_ hskip)
  cases hscan with
  | eof => exact List.suffix_refl []
  | op o hsuffix => exact hsuffix.trans (List.suffix_cons ..)
  | word hc => exact List.dropWhile_suffix isWord

variable {w : Span} {ws : List Span} {cmd : Cmd}

/-- The word that `gettoken` returns. -/
theorem wordAt_gettoken {s ps : List Byte} (hps : ps <:+ s)
    (h : (gettoken s.length ps).token = some (.word w)) : WordAt s w := by
  obtain ⟨pre, hpre⟩ := (List.dropWhile_suffix isSpace).trans hps
  have hscan := scanToken_scanned ps
  simp only [gettoken, Lexed.token] at h
  generalize ps.dropWhile isSpace = s' at hpre hscan h
  generalize scanToken s' = r at hscan h
  cases hscan with
  | eof => cases h
  | op o hsuffix => cases h
  | word hc =>
    cases h
    rw [← hpre]
    exact wordAt_scan pre hc

/-- Every word of the token sequence is a word of the command. -/
theorem wordAt_of_mem {s : List Byte} (fuel : Nat) :
    ∀ ps : List Byte, ps <:+ s → .word w ∈ tokensLoop s.length fuel ps → WordAt s w := by
  induction fuel with
  | zero => exact fun ps _ h => absurd h List.not_mem_nil
  | succ fuel ih =>
    intro ps hps h
    rw [tokensLoop] at h
    split at h
    · cases h
    · next t ht =>
      rcases List.mem_cons.mp h with rfl | htail
      · exact wordAt_gettoken hps ht
      · exact ih _ ((gettoken_suffix _ ps).trans hps) htail

/-! ## The zeros -/

/-- A zero after each of the words. -/
def cut (buf : List Byte) (ws : List Span) : List Byte := ws.foldl (fun b w => b.set w.stop 0) buf

theorem cut_append (buf : List Byte) (ws vs : List Span) :
    cut buf (ws ++ vs) = cut (cut buf ws) vs := List.foldl_append

/-- The zeros are at the ends of the words and nowhere else. -/
theorem getElem?_cut (buf : List Byte) (ws : List Span) (i : Nat) :
    (cut buf ws)[i]? = if i < buf.length ∧ ∃ w ∈ ws, w.stop = i then some 0 else buf[i]? := by
  induction ws generalizing buf with
  | nil => simp [cut]
  | cons w ws ih =>
    have hcut : cut buf (w :: ws) = cut (buf.set w.stop 0) ws := rfl
    rw [hcut, ih, List.length_set, List.getElem?_set]
    by_cases hw : w.stop = i
    · subst hw
      by_cases hi : w.stop < buf.length
      · simp [hi]
      · simp [hi]
    · simp [hw]

/-- Every argument list of the tree ends inside its array. -/
def Cmd.Closed : Cmd → Prop
  | .exec argv => ∃ ws : List Span, ws.length < maxargs ∧ argv = argvOf ws
  | .redir cmd _ => cmd.Closed
  | .pipe left right => left.Closed ∧ right.Closed
  | .list left right => left.Closed ∧ right.Closed
  | .back cmd => cmd.Closed

theorem ofFn_argvOf (h : ws.length < maxargs) :
    List.ofFn (argvOf ws) = ws.map some ++ List.replicate (maxargs - ws.length) none := by
  apply List.ext_getElem?
  intro i
  rw [List.getElem?_ofFn, List.getElem?_append, List.length_map, List.getElem?_map,
    List.getElem?_replicate]
  by_cases hlt : i < ws.length
  · rw [if_pos hlt, dif_pos (by omega), argvOf, List.getElem?_eq_getElem hlt, Option.map_some]
  · rw [if_neg hlt]
    by_cases hi : i < maxargs
    · rw [dif_pos hi, if_pos (by omega), argvOf, List.getElem?_eq_none (Nat.not_lt.mp hlt)]
    · rw [dif_neg hi, if_neg (by omega)]

/-- The entries that are not null are the words. -/
theorem words_exec (h : ws.length < maxargs) : (Cmd.exec (argvOf ws)).words = ws := by
  rw [Cmd.words, ofFn_argvOf h]
  simp [List.reduceOption]

theorem terminateArgs_map (ws : List Span) (k : Nat) (buf : List Byte) :
    terminateArgs (ws.map some ++ List.replicate (k + 1) none) buf = .ok (cut buf ws) := by
  induction ws generalizing buf with
  | nil => rfl
  | cons w ws ih => exact ih _

/-- `nulterminate` writes a zero after each word of the tree. -/
theorem nulterminate_eq (h : cmd.Closed) (buf : List Byte) :
    nulterminate cmd buf = .ok (cut buf cmd.words) := by
  induction cmd generalizing buf with
  | exec argv =>
    obtain ⟨ws, hws, rfl⟩ := h
    obtain ⟨k, hk⟩ := Nat.exists_eq_add_one_of_ne_zero (Nat.sub_ne_zero_of_lt hws)
    rw [nulterminate, words_exec hws, ofFn_argvOf hws, hk, terminateArgs_map]
  | redir cmd r ih =>
    rw [nulterminate, ih h, Cmd.words, cut_append]
    rfl
  | pipe left right ihl ihr =>
    rw [nulterminate, ihl h.1, Outcome.ok_bind, ihr h.2, Cmd.words, cut_append]
  | list left right ihl ihr =>
    rw [nulterminate, ihl h.1, Outcome.ok_bind, ihr h.2, Cmd.words, cut_append]
  | back cmd ih => exact ih h buf

/-! ## The words of a derivation -/

theorem closed_redircmds (h : cmd.Closed) (rs : List Redir) : (redircmds cmd rs).Closed := by
  induction rs generalizing cmd with
  | nil => exact h
  | cons r rs ih => exact ih h

theorem words_redircmds (cmd : Cmd) (rs : List Redir) :
    (redircmds cmd rs).words = cmd.words ++ rs.map Redir.file := by
  induction rs generalizing cmd with
  | nil => exact (List.append_nil _).symm
  | cons r rs ih =>
    have hstep : redircmds cmd (r :: rs) = redircmds (cmd.redir r) rs := rfl
    rw [hstep, ih, Cmd.words, List.map_cons, List.append_assoc]
    rfl

theorem iterate_back (cmd : Cmd) (n : Nat) :
    (Cmd.back^[n] cmd).words = cmd.words ∧ (cmd.Closed → (Cmd.back^[n] cmd).Closed) := by
  induction n generalizing cmd with
  | zero => exact ⟨rfl, id⟩
  | succ n ih => exact ih (.back cmd)

theorem file_of_redirOf {k : Kind} {r : Redir} (h : redirOf k w = some r) : r.file = w := by
  unfold redirOf at h
  split at h <;> cases h <;> rfl

theorem Redirs.mem_word {us : List Token} {rs : List Redir} (h : Redirs us rs) (w : Span) :
    .word w ∈ us ↔ w ∈ rs.map Redir.file := by
  induction h with
  | nil => simp
  | cons hr _ ih => simp [file_of_redirOf hr, ih]

theorem Items.mem_word {us : List Token} {rs : List Redir} (h : Items us ws rs) (w : Span) :
    .word w ∈ us ↔ w ∈ ws ∨ w ∈ rs.map Redir.file := by
  induction h with
  | nil => simp
  | word _ ih => simp [ih, or_assoc]
  | redir hr _ ih => simp [file_of_redirOf hr, ih, or_left_comm]

/-- The tree has the words of its tokens, and its argument lists end. -/
theorem Derives.words {part : Part} {ts : List Token} (h : Derives part ts cmd) :
    cmd.Closed ∧ ∀ w, .word w ∈ ts ↔ w ∈ cmd.words := by
  have hlen {ws : List Span} (hws : ws.length ≤ maxargs - 1) : ws.length < maxargs :=
    Nat.lt_of_le_of_lt hws (by decide)
  induction h with
  | simple hitems hcount =>
    have hclosed : (Cmd.exec (argvOf _)).Closed := ⟨_, hlen hcount, rfl⟩
    refine ⟨closed_redircmds hclosed _, fun w => ?_⟩
    rw [hitems.mem_word, words_redircmds, words_exec (hlen hcount), List.mem_append]
  | block _ hredirs ih =>
    refine ⟨closed_redircmds ih.1 _, fun w => ?_⟩
    rw [words_redircmds, List.mem_append, ← ih.2 w, ← hredirs.mem_word w]
    simp
  | exec _ ih => exact ih
  | pipe _ _ ihc ihd =>
    refine ⟨⟨ihc.1, ihd.1⟩, fun w => ?_⟩
    simp [Cmd.words, ihc.2 w, ihd.2 w]
  | line n _ ih =>
    refine ⟨(iterate_back _ n).2 ih.1, fun w => ?_⟩
    rw [(iterate_back _ n).1, ← ih.2 w]
    simp
  | list n _ _ ihc ihd =>
    refine ⟨⟨(iterate_back _ n).2 ihc.1, ihd.1⟩, fun w => ?_⟩
    simp [Cmd.words, (iterate_back _ n).1, ihc.2 w, ihd.2 w]

/-! ## Reading the words back -/

/-- A string ends at the first zero. -/
theorem bytes_ofBytes {l : List Byte} {n : Nat} (hzero : l[n]? = some 0)
    (hchars : (0 : Byte) ∉ l.take n) : (ofBytes l).bytes = l.take n := by
  obtain ⟨hn, hget⟩ := List.getElem?_eq_some_iff.mp hzero
  have hsplit : l = l.take n ++ 0 :: l.drop (n + 1) := by
    rw [← hget, List.getElem_cons_drop, List.take_append_drop]
  change l.takeWhile (fun x => decide (x ≠ 0)) = l.take n
  conv_lhs => rw [hsplit]
  have hall : ∀ x ∈ l.take n, decide (x ≠ 0) = true := by
    intro x hx
    exact decide_eq_true fun h => hchars (h ▸ hx)
  rw [List.takeWhile_append_of_pos hall]
  simp

/-- No zero falls on a character of a word. -/
theorem getElem?_word {s : CString} (hws : ∀ w ∈ ws, WordAt s.bytes w) (hw : WordAt s.bytes w)
    {i : Nat} (hlo : w.start ≤ i) (hhi : i < w.stop) : (cut (toBytes s) ws)[i]? = s.bytes[i]? := by
  have hlt : i < s.bytes.length := Nat.lt_of_lt_of_le hhi hw.inside
  rw [getElem?_cut, if_neg, toBytes, List.getElem?_append_left hlt]
  rintro ⟨_, v, hv, rfl⟩
  have hget : s.bytes[v.stop]? = some (s.bytes.get ⟨v.stop, hlt⟩) := List.getElem?_eq_getElem hlt
  have hin := hw.chars v.stop _ hlo hhi hget
  have hout := (hws v hv).after _ hget
  rw [hin] at hout
  cases hout

/-- Among words of the command, each is the string at its place once all are terminated. -/
theorem string_cut {s : CString} (hws : ∀ w ∈ ws, WordAt s.bytes w) (hw : w ∈ ws) :
    (ofBytes ((cut (toBytes s) ws).drop w.start)).bytes = w.text s.bytes := by
  have hat := hws w hw
  have hlt := hat.nonempty
  have hlen : (toBytes s).length = s.bytes.length + 1 := by simp [toBytes]
  have htext : ((cut (toBytes s) ws).drop w.start).take (w.stop - w.start) = w.text s.bytes := by
    apply List.ext_getElem?
    intro i
    rw [Span.text, List.getElem?_take, List.getElem?_take]
    split
    · next hi =>
      rw [List.getElem?_drop, List.getElem?_drop]
      exact getElem?_word hws hat (by omega) (by omega)
    · rfl
  rw [← htext]
  apply bytes_ofBytes
  · have hin := hat.inside
    rw [List.getElem?_drop, getElem?_cut, if_pos]
    exact ⟨by omega, w, hw, by omega⟩
  · rw [htext]
    intro h
    exact s.no_nul (List.mem_of_mem_drop (List.mem_of_mem_take h))

/-- For every command that is parsed, after `nulterminate` the words of the tree are the word
tokens of the command, and each is the string at its place in the buffer. -/
theorem nulterminate_words {s : CString} {cmd : Cmd} (h : parsecmd s = .ok cmd) :
    ∃ buf, nulterminate cmd (toBytes s) = .ok buf ∧
      ∀ w, (w ∈ cmd.words ↔ .word w ∈ tokens (strlen s) s.bytes) ∧
        (w ∈ cmd.words → (ofBytes (buf.drop w.start)).bytes = w.text s.bytes) := by
  obtain ⟨hclosed, hwords⟩ := ((parsecmd_spec s).1 cmd |>.mp h).words
  refine ⟨_, nulterminate_eq hclosed _, fun w => ⟨(hwords w).symm, string_cut fun w hw => ?_⟩⟩
  exact wordAt_of_mem _ _ (List.suffix_refl _) ((hwords w).mpr hw)

/-- The command `a>b`. -/
def redirected : CString := ⟨[97, 62, 98], by decide⟩

/-- Its two words as strings. -/
theorem nulterminate_words_redirected :
    ∃ cmd buf, parsecmd redirected = .ok cmd ∧ nulterminate cmd (toBytes redirected) = .ok buf ∧
      (ofBytes (buf.drop 0)).bytes = [97] ∧ (ofBytes (buf.drop 2)).bytes = [98] := by
  obtain ⟨cmd, hparse⟩ : ∃ cmd, parsecmd redirected = .ok cmd := ⟨_, rfl⟩
  obtain ⟨buf, hbuf, hwords⟩ := nulterminate_words hparse
  have hfirst := (hwords ⟨0, 1⟩).2 ((hwords ⟨0, 1⟩).1.mpr (by decide))
  have hsecond := (hwords ⟨2, 3⟩).2 ((hwords ⟨2, 3⟩).1.mpr (by decide))
  exact ⟨cmd, buf, hparse, hbuf, hfirst, hsecond⟩

end Xv6Containers.Shell
