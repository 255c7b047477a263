import Xv6Containers.Lib.CString

/-!
# The pattern matcher of `grep`

`match`, `matchhere` and `matchstar` search a text for a pattern by backtracking. The
patterns have a meaning of their own: a pattern is a sequence of characters, each once or
starred, and the texts it describes form a regular language. The matcher finds a
substring of that language, tied to the ends of the text by `^` and `$`.

## Implementation notes

A string is the list of bytes before its terminating zero, so that the end of the list
is where the source reads the zero.
-/

namespace Xv6Containers.User

open Lib.Memory Lib.Strings

/-! ## The matcher -/

def dot : Byte := 46

def asterisk : Byte := 42

def caret : Byte := 94

def dollar : Byte := 36

/-- The loop of `matchstar`; `here` matches the rest of the pattern. -/
def starLoop (here : List Byte → Bool) (c : Byte) : List Byte → Bool
  | [] => here []
  | x :: text => here (x :: text) || ((x == c || c == dot) && starLoop here c text)

/-- The last test of `matchhere`: one character of the text, and `here` after it. -/
def charThen (here : List Byte → Bool) (c : Byte) : List Byte → Bool
  | [] => false
  | x :: text => (c == dot || c == x) && here text

/-- `matchhere`: search for `re` at the beginning of `text`. -/
def matchhere : List Byte → List Byte → Bool
  | [], _ => true
  | [c], text => if c = dollar then text.isEmpty else charThen (matchhere []) c text
  | c :: d :: re, text =>
    if d = asterisk then starLoop (matchhere re) c text else charThen (matchhere (d :: re)) c text

/-- The loop of `match`, which also looks at the empty string. -/
def matchLoop (re : List Byte) : List Byte → Bool
  | [] => matchhere re []
  | x :: text => matchhere re (x :: text) || matchLoop re text

/-- `match`. -/
def matchText (re text : CString) : Bool :=
  match re.bytes with
  | [] => matchLoop [] text.bytes
  | c :: rest => if c = caret then matchhere rest text.bytes else matchLoop (c :: rest) text.bytes

/-! ## The meaning of a pattern -/

/-- A pattern character, alone or with the operator `*` after it. -/
inductive Item
  | one (c : Byte)
  | star (c : Byte)
  deriving DecidableEq

/-- The items of a pattern: `*` is an operator when it follows a pattern character. -/
def items : List Byte → List Item
  | [] => []
  | [c] => [.one c]
  | c :: d :: re => if d = asterisk then .star c :: items re else .one c :: items (d :: re)

/-- The characters that a pattern character stands for. -/
def Accepts (c x : Byte) : Prop := c = dot ∨ c = x

/-- The texts of one item. -/
def Item.lang : Item → Language Byte
  | .one c => {w | ∃ x, Accepts c x ∧ w = [x]}
  | .star c => KStar.kstar {w | ∃ x, Accepts c x ∧ w = [x]}

/-- The texts of a sequence of items. -/
def lang (is : List Item) : Language Byte := (is.map Item.lang).prod

/-- A text `mid` of the items with `rest` after it: a last `$` that is not starred ties the end of
the text. -/
def Fits (is : List Item) (mid rest : List Byte) : Prop :=
  if is.getLast? = some (.one dollar) then rest = [] ∧ mid ∈ lang is.dropLast else mid ∈ lang is

/-- The pattern describes a part of the text; after `^` the part is at the beginning. -/
def Describes (re text : CString) : Prop :=
  ∃ front mid rest, text.bytes = front ++ mid ++ rest ∧
    if re.bytes.head? = some caret then front = [] ∧ Fits (items re.bytes.tail) mid rest
    else Fits (items re.bytes) mid rest

/-! ## Languages of items -/

variable {w text : List Byte} {is : List Item} {c : Byte}

theorem mem_lang_nil : w ∈ lang [] ↔ w = [] := Language.mem_one w

theorem mem_lang_cons {i : Item} :
    w ∈ lang (i :: is) ↔ ∃ u ∈ i.lang, ∃ v, u ++ v = w ∧ v ∈ lang is := by
  rw [lang, List.map_cons, List.prod_cons, Language.mem_mul]
  constructor
  · rintro ⟨u, hu, v, hv, hw⟩
    exact ⟨u, hu, v, hw, hv⟩
  · rintro ⟨u, hu, v, hw, hv⟩
    exact ⟨u, hu, v, hv, hw⟩

/-- A starred character describes the texts all of whose characters it accepts. -/
theorem mem_lang_star : w ∈ (Item.star c).lang ↔ ∀ x ∈ w, Accepts c x := by
  constructor
  · rintro ⟨parts, rfl, hparts⟩ x hx
    obtain ⟨u, hu, hxu⟩ := List.mem_flatten.mp hx
    obtain ⟨y, hy, rfl⟩ := hparts u hu
    obtain rfl := List.mem_singleton.mp hxu
    exact hy
  · intro h
    refine ⟨w.map fun x => [x], ?_, fun u hu => ?_⟩
    · exact (List.flatMap_singleton' w).symm
    · obtain ⟨x, hx, rfl⟩ := List.mem_map.mp hu
      exact ⟨x, h x hx, rfl⟩

/-- An item that is not the `$` at the end comes first, and the others fit what is left. -/
theorem fits_cons {i : Item} (h : is ≠ [] ∨ i ≠ .one dollar) {rest : List Byte} :
    Fits (i :: is) w rest ↔ ∃ u ∈ i.lang, ∃ v, u ++ v = w ∧ Fits is v rest := by
  cases is with
  | nil =>
    have hi : i ≠ .one dollar := h.resolve_left (not_not.mpr rfl)
    have hlast : ([i] : List Item).getLast? ≠ some (.one dollar) := by simpa using hi
    simp only [Fits, if_neg hlast, List.getLast?_nil, reduceCtorEq, if_false]
    exact mem_lang_cons
  | cons j is =>
    simp only [Fits, List.getLast?_cons_cons, List.dropLast_cons_cons]
    split
    · rw [mem_lang_cons]
      constructor
      · rintro ⟨hrest, u, hu, v, hw, hv⟩
        exact ⟨u, hu, v, hw, hrest, hv⟩
      · rintro ⟨u, hu, v, hw, hrest, hv⟩
        exact ⟨hrest, u, hu, v, hw, hv⟩
    · exact mem_lang_cons

theorem fits_dollar {rest : List Byte} : Fits [.one dollar] w rest ↔ w = [] ∧ rest = [] := by
  have hlast : ([.one dollar] : List Item).getLast? = some (.one dollar) := rfl
  rw [Fits, if_pos hlast, and_comm]
  exact and_congr_left' mem_lang_nil

/-! ## What the loops find -/

/-- The pattern fits at the beginning of the text. -/
def FitsHere (is : List Item) (text : List Byte) : Prop :=
  ∃ mid rest, text = mid ++ rest ∧ Fits is mid rest

/-- One character in front: the text begins with a character that it accepts. -/
theorem fitsHere_one (h : is ≠ [] ∨ c ≠ dollar) :
    FitsHere (.one c :: is) text ↔ ∃ x tail, text = x :: tail ∧ Accepts c x ∧ FitsHere is tail := by
  have hi : is ≠ [] ∨ Item.one c ≠ .one dollar := h.imp_right fun hc hone => hc (Item.one.inj hone)
  constructor
  · rintro ⟨mid, rest, rfl, hfits⟩
    obtain ⟨u, ⟨x, hx, rfl⟩, v, rfl, hv⟩ := (fits_cons hi).mp hfits
    exact ⟨x, v ++ rest, rfl, hx, v, rest, rfl, hv⟩
  · rintro ⟨x, tail, rfl, hx, mid, rest, rfl, hfits⟩
    exact ⟨x :: mid, rest, rfl, (fits_cons hi).mpr ⟨[x], ⟨x, hx, rfl⟩, mid, rfl, hfits⟩⟩

/-- A starred character in front: any number of characters that it accepts are skipped. -/
theorem fitsHere_star :
    FitsHere (.star c :: is) text ↔
      ∃ u tail, text = u ++ tail ∧ (∀ x ∈ u, Accepts c x) ∧ FitsHere is tail := by
  have hi : is ≠ [] ∨ Item.star c ≠ .one dollar := Or.inr nofun
  constructor
  · rintro ⟨mid, rest, rfl, hfits⟩
    obtain ⟨u, hu, v, rfl, hv⟩ := (fits_cons hi).mp hfits
    exact ⟨u, v ++ rest, List.append_assoc .., mem_lang_star.mp hu, v, rest, rfl, hv⟩
  · rintro ⟨u, tail, rfl, hu, mid, rest, rfl, hfits⟩
    refine ⟨u ++ mid, rest, (List.append_assoc ..).symm, ?_⟩
    exact (fits_cons hi).mpr ⟨u, mem_lang_star.mpr hu, mid, rfl, hfits⟩

/-- `matchstar` tries every number of characters that `c` accepts. -/
theorem starLoop_iff {here : List Byte → Bool} :
    starLoop here c text = true ↔
      ∃ u tail, text = u ++ tail ∧ (∀ x ∈ u, Accepts c x) ∧ here tail = true := by
  induction text with
  | nil =>
    constructor
    · intro h
      exact ⟨[], [], rfl, nofun, h⟩
    · rintro ⟨u, tail, hsplit, _, h⟩
      obtain ⟨rfl, rfl⟩ := List.nil_eq_append_iff.mp hsplit
      exact h
  | cons x text ih =>
    have haccepts : (x == c || c == dot) = true ↔ Accepts c x := by
      rw [Bool.or_eq_true, beq_iff_eq, beq_iff_eq, Accepts, or_comm, eq_comm (a := x)]
    rw [starLoop, Bool.or_eq_true, Bool.and_eq_true, haccepts, ih]
    constructor
    · rintro (h | ⟨hx, u, tail, rfl, hu, h⟩)
      · exact ⟨[], x :: text, rfl, nofun, h⟩
      · exact ⟨x :: u, tail, rfl, List.forall_mem_cons.mpr ⟨hx, hu⟩, h⟩
    · rintro ⟨u, tail, hsplit, hu, h⟩
      cases u with
      | nil =>
        obtain rfl : x :: text = tail := hsplit
        exact Or.inl h
      | cons y u =>
        rw [List.cons_append, List.cons.injEq] at hsplit
        obtain ⟨rfl, rfl⟩ := hsplit
        obtain ⟨hx, hu⟩ := List.forall_mem_cons.mp hu
        exact Or.inr ⟨hx, u, tail, rfl, hu, h⟩

theorem charThen_iff {here : List Byte → Bool} :
    charThen here c text = true ↔
      ∃ x tail, text = x :: tail ∧ Accepts c x ∧ here tail = true := by
  cases text with
  | nil => exact iff_of_false nofun nofun
  | cons x text =>
    rw [charThen, Bool.and_eq_true, Bool.or_eq_true, beq_iff_eq, beq_iff_eq]
    constructor
    · rintro ⟨hx, htail⟩
      exact ⟨x, text, rfl, hx, htail⟩
    · rintro ⟨y, tail, htext, hy, htail⟩
      cases htext
      exact ⟨hy, htail⟩

theorem items_ne_nil (d : Byte) (re : List Byte) : items (d :: re) ≠ [] := by
  cases re with
  | nil => exact nofun
  | cons e re =>
    rw [items]
    split
    · exact nofun
    · exact nofun

theorem fitsHere_nil (text : List Byte) : FitsHere [] text :=
  ⟨[], text, rfl, mem_lang_nil.mpr rfl⟩

theorem fitsHere_dollar : FitsHere [.one dollar] text ↔ text = [] := by
  constructor
  · rintro ⟨mid, rest, rfl, hfits⟩
    obtain ⟨rfl, rfl⟩ := fits_dollar.mp hfits
    rfl
  · rintro rfl
    exact ⟨[], [], rfl, fits_dollar.mpr ⟨rfl, rfl⟩⟩

/-- `matchhere` decides whether the pattern fits at the beginning of the text. -/
theorem matchhere_iff (re text : List Byte) :
    matchhere re text = true ↔ FitsHere (items re) text := by
  induction re using items.induct generalizing text with
  | case1 => exact iff_of_true rfl (fitsHere_nil text)
  | case2 c =>
    rw [items, matchhere]
    split
    · next hc => rw [hc, List.isEmpty_iff, fitsHere_dollar]
    · next hc =>
      rw [charThen_iff, fitsHere_one (Or.inr hc)]
      simp only [matchhere, fitsHere_nil]
  | case3 c re ih =>
    rw [items, if_pos rfl, matchhere, if_pos rfl, starLoop_iff, fitsHere_star]
    simp only [ih]
  | case4 c d re hd ih =>
    rw [items, if_neg hd, matchhere, if_neg hd, charThen_iff,
      fitsHere_one (Or.inl (items_ne_nil d re))]
    simp only [ih]

/-- `match` without `^` tries every place of the text. -/
theorem matchLoop_iff {re : List Byte} :
    matchLoop re text = true ↔ ∃ front tail, text = front ++ tail ∧ FitsHere (items re) tail := by
  induction text with
  | nil =>
    rw [matchLoop, matchhere_iff]
    constructor
    · intro h
      exact ⟨[], [], rfl, h⟩
    · rintro ⟨front, tail, hsplit, h⟩
      obtain ⟨rfl, rfl⟩ := List.nil_eq_append_iff.mp hsplit
      exact h
  | cons x text ih =>
    rw [matchLoop, Bool.or_eq_true, matchhere_iff, ih]
    constructor
    · rintro (h | ⟨front, tail, rfl, h⟩)
      · exact ⟨[], x :: text, rfl, h⟩
      · exact ⟨x :: front, tail, rfl, h⟩
    · rintro ⟨front, tail, hsplit, h⟩
      cases front with
      | nil =>
        obtain rfl : x :: text = tail := hsplit
        exact Or.inl h
      | cons y front =>
        obtain ⟨rfl, rfl⟩ := List.cons.inj hsplit
        exact Or.inr ⟨front, tail, rfl, h⟩

/-- `match` returns 1 exactly for the texts in which the pattern describes a part. -/
theorem matchText_iff_describes (re text : CString) : matchText re text = true ↔ Describes re text := by
  have hloop (re : List Byte) : matchLoop re text.bytes = true ↔
      ∃ front mid rest, text.bytes = front ++ mid ++ rest ∧ Fits (items re) mid rest := by
    rw [matchLoop_iff]
    constructor
    · rintro ⟨front, tail, htext, mid, rest, rfl, hfits⟩
      exact ⟨front, mid, rest, by rw [htext, List.append_assoc], hfits⟩
    · rintro ⟨front, mid, rest, htext, hfits⟩
      exact ⟨front, mid ++ rest, by rw [htext, List.append_assoc], mid, rest, rfl, hfits⟩
  unfold matchText Describes
  cases re.bytes with
  | nil => exact hloop []
  | cons c re =>
    by_cases hc : c = caret
    · subst hc
      simp only [if_pos, List.head?_cons, List.tail_cons, matchhere_iff]
      constructor
      · rintro ⟨mid, rest, htext, hfits⟩
        exact ⟨[], mid, rest, htext, rfl, hfits⟩
      · rintro ⟨front, mid, rest, htext, rfl, hfits⟩
        exact ⟨mid, rest, htext, hfits⟩
    · have hhead : (c :: re).head? ≠ some caret := by simpa using hc
      simp only [if_neg hc, if_neg hhead]
      exact hloop (c :: re)

end Xv6Containers.User
