import Xv6Containers.User.Match

/-!
# The lines that `grep` writes

`grep` reads its input in pieces into a buffer, writes the lines that match as they
become complete, and keeps the unfinished line for the next piece. When a piece brings
no newline at all, the test `p == buf` takes the buffer for one overlong line and drops
it. The output is the matching lines, however the input arrives, exactly when every
piece brings a newline.

## Implementation notes

The first `m` bytes of the buffer are a list. The newline that is replaced by a zero
while the line is matched is behind `p` afterwards and never read again, so that the
list does not change.
-/

namespace Xv6Containers.User

open Lib.Memory Lib.Strings

def newline : Byte := 10

/-- The size of `buf`. -/
def bufSize : Nat := 1024

/-- `strchr`: the bytes before and after the first `c` of the string. -/
def strchr (c : Byte) : List Byte → Option (List Byte × List Byte)
  | [] => none
  | x :: s =>
    if x = 0 then none
    else if x = c then some ([], s)
    else (strchr c s).map fun r => (x :: r.1, r.2)

/-- The inner loop of `grep`: the writes, and what is left from `p` on. Every round passes a
newline, so that the length of the text is fuel enough. -/
def scanLoop (pattern : CString) : Nat → List Byte → List (List Byte) × List Byte
  | 0, p => ([], p)
  | fuel + 1, p =>
    match strchr newline p with
    | none => ([], p)
    | some (line, next) =>
      let r := scanLoop pattern fuel next
      (if matchText pattern (ofBytes line) then (line ++ [newline]) :: r.1 else r.1, r.2)

def scan (pattern : CString) (text : List Byte) : List (List Byte) × List Byte :=
  scanLoop pattern text.length text

/-- One round of the outer loop: the writes, and the first `m` bytes of the buffer afterwards.
Without a newline `p` is still `buf`, and `m` becomes zero. -/
def round (pattern : CString) (kept piece : List Byte) : List (List Byte) × List Byte :=
  let text := kept ++ piece
  let r := scan pattern text
  (r.1, if r.2.length = text.length then [] else r.2)

/-- The outer loop of `grep` over what the calls of `read` return. -/
def grepLoop (pattern : CString) : List Byte → List (List Byte) → List (List Byte)
  | _, [] => []
  | kept, piece :: pieces =>
    (round pattern kept piece).1 ++ grepLoop pattern (round pattern kept piece).2 pieces

/-- `grep`: its writes, when `read` returns the pieces and then nothing. -/
def grep (pattern : CString) (pieces : List (List Byte)) : List (List Byte) :=
  grepLoop pattern [] pieces

/-- The pieces are what `read` can return: not empty and no longer than requested. -/
def Reads (pattern : CString) : List Byte → List (List Byte) → Prop
  | _, [] => True
  | kept, piece :: pieces =>
    (piece ≠ [] ∧ piece.length ≤ bufSize - kept.length - 1) ∧
      Reads pattern (round pattern kept piece).2 pieces

instance Reads.instDecidable (pattern : CString) (kept : List Byte) (pieces : List (List Byte)) :
    Decidable (Reads pattern kept pieces) :=
  match pieces with
  | [] => isTrue trivial
  | piece :: pieces =>
    have := Reads.instDecidable pattern (round pattern kept piece).2 pieces
    inferInstanceAs (Decidable ((piece ≠ [] ∧ piece.length ≤ bufSize - kept.length - 1) ∧
      Reads pattern (round pattern kept piece).2 pieces))

/-! ## Lines -/

/-- A line without its newline. -/
structure Line where
  text : CString
  single : newline ∉ text.bytes

/-- The bytes of a line, with its newline. -/
def Line.bytes (l : Line) : List Byte := l.text.bytes ++ [newline]

/-- The bytes of a stream of lines. -/
def stream (lines : List Line) : List Byte := lines.flatMap Line.bytes

/-- What `grep` is for: the lines that match, whole and in order. -/
def matching (pattern : CString) (lines : List Line) : List (List Byte) :=
  (lines.filter fun l => matchText pattern l.text).map Line.bytes

theorem stream_cons (l : Line) (lines : List Line) :
    stream (l :: lines) = l.text.bytes ++ newline :: stream lines := by
  simp [stream, Line.bytes]

theorem matching_append (pattern : CString) (done todo : List Line) :
    matching pattern (done ++ todo) = matching pattern done ++ matching pattern todo := by
  simp [matching]

/-- A stream holds no zero. -/
theorem zero_notMem_stream (lines : List Line) : (0 : Byte) ∉ stream lines := by
  intro h
  obtain ⟨l, _, hl⟩ := List.mem_flatMap.mp h
  rcases List.mem_append.mp hl with htext | hnl
  · exact l.text.no_nul htext
  · exact absurd hnl (by decide)

/-! ## The inner loop -/

theorem strchr_of_notMem {c : Byte} {s : List Byte} (h : c ∉ s) : strchr c s = none := by
  induction s with
  | nil => rfl
  | cons x s ih =>
    rw [List.mem_cons, not_or] at h
    rw [strchr]
    split
    · rfl
    · rw [if_neg (Ne.symm h.1), ih h.2, Option.map_none]

theorem strchr_append {c : Byte} {line next : List Byte} (hc : c ∉ line) (hzero : (0 : Byte) ∉ line)
    (hc0 : c ≠ 0) : strchr c (line ++ c :: next) = some (line, next) := by
  induction line with
  | nil => rw [List.nil_append, strchr, if_neg hc0, if_pos rfl]
  | cons x line ih =>
    rw [List.mem_cons, not_or] at hc hzero
    rw [List.cons_append, strchr, if_neg (Ne.symm hzero.1), if_neg (Ne.symm hc.1), ih hc.2 hzero.2,
      Option.map_some]

/-- A line is read back as the string that it is. -/
theorem ofBytes_bytes (s : CString) : ofBytes s.bytes = s := by
  ext1
  rw [ofBytes, List.takeWhile_eq_self_iff]
  intro x hx
  exact decide_eq_true fun h => s.no_nul (h ▸ hx)

variable {tail kept piece : List Byte} {pieces : List (List Byte)}

theorem scanLoop_lines (pattern : CString) (done : List Line) (htail : newline ∉ tail)
    (fuel : Nat) (hfuel : done.length ≤ fuel) :
    scanLoop pattern fuel (stream done ++ tail) = (matching pattern done, tail) := by
  induction done generalizing fuel with
  | nil =>
    cases fuel with
    | zero => rfl
    | succ fuel =>
      have hnone : strchr newline (stream [] ++ tail) = none := strchr_of_notMem htail
      rw [scanLoop, hnone]
      rfl
  | cons l done ih =>
    obtain ⟨fuel, rfl⟩ := Nat.exists_eq_add_one_of_ne_zero (n := fuel)
      (by simp only [List.length_cons] at hfuel; omega)
    have hsome : strchr newline (stream (l :: done) ++ tail) =
        some (l.text.bytes, stream done ++ tail) := by
      rw [stream_cons, List.append_assoc, List.cons_append]
      exact strchr_append l.single l.text.no_nul (by decide)
    rw [scanLoop, hsome]
    simp only [ih fuel (by simpa using hfuel), ofBytes_bytes, matching, List.filter_cons]
    split
    · rfl
    · rfl

theorem length_le_stream (lines : List Line) : lines.length ≤ (stream lines).length := by
  induction lines with
  | nil => exact le_rfl
  | cons l lines ih =>
    rw [stream_cons, List.length_append, List.length_cons, List.length_cons]
    omega

/-- The inner loop writes the matching lines that are complete, and leaves the unfinished one. -/
theorem scan_lines (pattern : CString) (done : List Line) (htail : newline ∉ tail) :
    scan pattern (stream done ++ tail) = (matching pattern done, tail) := by
  apply scanLoop_lines pattern done htail
  have := length_le_stream done
  rw [List.length_append]
  omega

/-- The beginning of a stream is complete lines and the beginning of the next one. -/
theorem exists_done {text more : List Byte} {lines : List Line} (h : text ++ more = stream lines) :
    ∃ done todo tail, lines = done ++ todo ∧ text = stream done ++ tail ∧ newline ∉ tail ∧
      tail ++ more = stream todo := by
  induction lines generalizing text with
  | nil =>
    obtain ⟨rfl, rfl⟩ := List.append_eq_nil_iff.mp h
    exact ⟨[], [], [], rfl, rfl, nofun, rfl⟩
  | cons l lines ih =>
    by_cases hin : newline ∈ text
    · have hsplit := h
      rw [stream_cons, List.append_eq_append_iff] at hsplit
      obtain ⟨a, hl, hmore⟩ | ⟨a, htext, hrest⟩ := hsplit
      · exact absurd (hl ▸ List.mem_append_left a hin) l.single
      · cases a with
        | nil =>
          rw [List.append_nil] at htext
          exact absurd (htext ▸ hin) l.single
        | cons x a =>
          obtain ⟨hx, hlines⟩ := List.cons.inj hrest
          obtain ⟨done, todo, tail, rfl, rfl, htail, hnext⟩ := ih hlines.symm
          refine ⟨l :: done, todo, tail, rfl, ?_, htail, hnext⟩
          rw [htext, ← hx, stream_cons, List.append_assoc, List.cons_append]
    · exact ⟨[], l :: lines, text, rfl, rfl, hin, h⟩

/-! ## The outer loop -/

/-- A round with a newline: the complete lines that match are written, and the unfinished one is
kept. -/
theorem round_complete (pattern : CString) {done : List Line}
    (htext : kept ++ piece = stream done ++ tail) (htail : newline ∉ tail)
    (hpiece : newline ∈ piece) : round pattern kept piece = (matching pattern done, tail) := by
  have hdone : 0 < (stream done).length := by
    rw [List.length_pos_iff]
    intro hnil
    rw [hnil, List.nil_append] at htext
    exact htail (htext ▸ List.mem_append_right kept hpiece)
  have hlen : tail.length ≠ (stream done ++ tail).length := by
    rw [List.length_append]
    omega
  rw [round, htext]
  simp only [scan_lines pattern done htail, if_neg hlen]

/-- A round without a newline writes nothing and keeps nothing. -/
theorem round_dropped (pattern : CString) (hkept : newline ∉ kept) (hpiece : newline ∉ piece) :
    round pattern kept piece = ([], []) := by
  have hscan := scan_lines pattern [] (List.not_mem_append hkept hpiece)
  rw [stream, List.flatMap_nil, List.nil_append] at hscan
  simp only [round, hscan, if_true]
  rfl

/-- When every piece brings a newline, the matching lines are written. -/
theorem grepLoop_complete (pattern : CString) (hpieces : ∀ piece ∈ pieces, newline ∈ piece) :
    ∀ {kept : List Byte} {lines : List Line}, kept ++ pieces.flatten = stream lines →
      newline ∉ kept → grepLoop pattern kept pieces = matching pattern lines := by
  induction pieces with
  | nil =>
    intro kept lines hstream hkept
    rw [List.flatten_nil, List.append_nil] at hstream
    cases lines with
    | nil => rfl
    | cons l lines =>
      refine absurd ?_ hkept
      rw [hstream, stream_cons]
      exact List.mem_append_right _ (List.mem_cons_self ..)
  | cons piece pieces ih =>
    intro kept lines hstream _
    obtain ⟨hpiece, hpieces⟩ := List.forall_mem_cons.mp hpieces
    rw [List.flatten_cons, ← List.append_assoc] at hstream
    obtain ⟨done, todo, tail, rfl, htext, htail, hrest⟩ := exists_done hstream
    rw [grepLoop, round_complete pattern htext htail hpiece, matching_append]
    dsimp only
    rw [ih hpieces hrest htail]

/-- The bytes of a list of writes. -/
theorem length_matching_le (pattern : CString) (lines : List Line) :
    (matching pattern lines).flatten.length ≤ (stream lines).length := by
  induction lines with
  | nil => exact le_rfl
  | cons l lines ih =>
    rw [matching] at ih ⊢
    rw [List.filter_cons, stream_cons, List.length_append, List.length_cons]
    split
    · rw [List.map_cons, List.flatten_cons, List.length_append, Line.bytes, List.length_append,
        List.length_singleton]
      omega
    · omega

/-- Every text is complete lines and the beginning of one more. -/
theorem exists_lines {text : List Byte} (h : (0 : Byte) ∉ text) :
    ∃ done tail, text = stream done ++ tail ∧ newline ∉ tail := by
  induction text with
  | nil => exact ⟨[], [], rfl, nofun⟩
  | cons x text ih =>
    rw [List.mem_cons, not_or] at h
    obtain ⟨done, tail, rfl, htail⟩ := ih h.2
    by_cases hx : x = newline
    · subst hx
      let empty : Line := ⟨⟨[], nofun⟩, nofun⟩
      refine ⟨empty :: done, tail, ?_, htail⟩
      rw [stream_cons, List.append_assoc]
      rfl
    · cases done with
      | nil =>
        refine ⟨[], x :: tail, rfl, ?_⟩
        rw [List.mem_cons, not_or]
        exact ⟨Ne.symm hx, htail⟩
      | cons l done =>
        let longer : Line := ⟨⟨x :: l.text.bytes, by
          rw [List.mem_cons, not_or]
          exact ⟨h.1, l.text.no_nul⟩⟩, by
          rw [List.mem_cons, not_or]
          exact ⟨Ne.symm hx, l.single⟩⟩
        refine ⟨longer :: done, tail, ?_, htail⟩
        rw [stream_cons, stream_cons]
        rfl

/-- A round writes and keeps no more than it was given; without a newline it does neither. -/
theorem round_length (pattern : CString) (hzero : (0 : Byte) ∉ kept ++ piece)
    (hkept : newline ∉ kept) :
    newline ∉ (round pattern kept piece).2 ∧ (∀ x ∈ (round pattern kept piece).2, x ≠ 0) ∧
      (round pattern kept piece).1.flatten.length + (round pattern kept piece).2.length ≤
        if newline ∈ piece then kept.length + piece.length else 0 := by
  split
  · next hpiece =>
    obtain ⟨done, tail, htext, htail⟩ := exists_lines hzero
    rw [round_complete pattern htext htail hpiece]
    have hlen := congrArg List.length htext
    rw [List.length_append, List.length_append] at hlen
    have hwritten := length_matching_le pattern done
    refine ⟨htail, fun x hx hx0 => hzero ?_, ?_⟩
    · rw [htext, ← hx0]
      exact List.mem_append_right _ hx
    · dsimp only
      omega
  · next hpiece =>
    rw [round_dropped pattern hkept hpiece]
    exact ⟨nofun, nofun, le_rfl⟩

/-- `grep` writes no more than it reads, and less once a piece brings no newline. -/
theorem grepLoop_length (pattern : CString) (hne : ∀ piece ∈ pieces, piece ≠ []) :
    ∀ kept : List Byte, (0 : Byte) ∉ kept ++ pieces.flatten → newline ∉ kept →
      (grepLoop pattern kept pieces).flatten.length +
          (if ∀ piece ∈ pieces, newline ∈ piece then 0 else 1) ≤
        kept.length + pieces.flatten.length := by
  induction pieces with
  | nil => simp [grepLoop]
  | cons piece pieces ih =>
    intro kept hzero hkept
    obtain ⟨hpiece, hne⟩ := List.forall_mem_cons.mp hne
    have hpos := List.length_pos_iff.mpr hpiece
    rw [List.flatten_cons, ← List.append_assoc, List.mem_append, not_or] at hzero
    obtain ⟨hnl, hnul, hlen⟩ := round_length pattern hzero.1 hkept
    have hrest := ih hne (round pattern kept piece).2 (by
      rw [List.mem_append, not_or]
      exact ⟨fun h => hnul 0 h rfl, hzero.2⟩) hnl
    simp only [grepLoop, List.flatten_cons, List.flatten_append, List.length_append,
      List.forall_mem_cons]
    split at hlen
    · next hin =>
      simp only [hin, true_and]
      omega
    · next hin =>
      simp only [hin, false_and, if_false]
      split at hrest
      · omega
      · omega

theorem matchText_nil (text : CString) : matchText ⟨[], nofun⟩ text = true := by
  rw [matchText]
  cases text.bytes with
  | nil => rfl
  | cons x tail => rfl

/-- The empty pattern matches every line. -/
theorem matching_nil (lines : List Line) :
    (matching ⟨[], nofun⟩ lines).flatten = stream lines := by
  simp [matching, matchText_nil, stream, List.flatMap_def]

theorem Reads.ne_nil {pattern : CString} (h : Reads pattern kept pieces) :
    ∀ piece ∈ pieces, piece ≠ [] := by
  induction pieces generalizing kept with
  | nil => exact nofun
  | cons piece pieces ih => exact List.forall_mem_cons.mpr ⟨h.1.1, ih h.2⟩

/-- For every stream of lines and every way in which it arrives, `grep` writes the lines that
match, whole, in order and once, if and only if every piece brings a newline. -/
theorem grep_writes_matching_iff (lines : List Line) (pieces : List (List Byte))
    (hstream : pieces.flatten = stream lines) (hreads : ∀ pattern, Reads pattern [] pieces) :
    (∀ pattern, grep pattern pieces = matching pattern lines) ↔
      ∀ piece ∈ pieces, newline ∈ piece := by
  constructor
  · intro hall
    by_contra hmissing
    have hlen := grepLoop_length ⟨[], nofun⟩ (hreads ⟨[], nofun⟩).ne_nil []
      (by rw [List.nil_append, hstream]; exact zero_notMem_stream lines) nofun
    have hbytes := congrArg (fun w => w.flatten.length) (hall ⟨[], nofun⟩)
    simp only [matching_nil, ← hstream, grep] at hbytes
    rw [if_neg hmissing, List.length_nil] at hlen
    omega
  · intro hpieces pattern
    exact grepLoop_complete pattern hpieces hstream nofun

/-- What is left of the text does not depend on the pattern. -/
theorem scanLoop_rest (p q : CString) (fuel : Nat) (text : List Byte) :
    (scanLoop p fuel text).2 = (scanLoop q fuel text).2 := by
  induction fuel generalizing text with
  | zero => rfl
  | succ fuel ih =>
    rw [scanLoop, scanLoop]
    split
    · rfl
    · exact ih _

theorem round_rest (p q : CString) (kept piece : List Byte) :
    (round p kept piece).2 = (round q kept piece).2 := by
  have hscan : (scan p (kept ++ piece)).2 = (scan q (kept ++ piece)).2 := scanLoop_rest p q _ _
  simp only [round, hscan]

/-- Neither do the requests of `grep`. -/
theorem Reads.congr (p q : CString) (h : Reads p kept pieces) : Reads q kept pieces := by
  induction pieces generalizing kept with
  | nil => trivial
  | cons piece pieces ih => exact ⟨h.1, ih (round_rest p q kept piece ▸ h.2)⟩

/-- The lines `ab` and `c`. -/
def twoLines : List Line := [⟨ofBytes [97, 98], by decide⟩, ⟨ofBytes [99], by decide⟩]

/-- The two lines arrive one by one. -/
theorem grep_writes_matching_two_pieces :
    grep ⟨[99], by decide⟩ [[97, 98, 10], [99, 10]] = matching ⟨[99], by decide⟩ twoLines :=
  (grep_writes_matching_iff twoLines [[97, 98, 10], [99, 10]] (by decide)
    fun pattern => Reads.congr ⟨[], nofun⟩ pattern (by decide +kernel)).mpr (by decide) _

/-- The line `ab` arrives byte by byte: its first byte is lost. -/
theorem grep_drops_first_byte :
    Reads ⟨[], nofun⟩ [] [[97], [98, 10], [99, 10]] ∧
      [[97], [98, 10], [99, 10]].flatten = stream twoLines ∧
      matching ⟨[], nofun⟩ twoLines = [[97, 98, 10], [99, 10]] ∧
      grep ⟨[], nofun⟩ [[97], [98, 10], [99, 10]] = [[98, 10], [99, 10]] := by
  decide +kernel

end Xv6Containers.User
