import Mathlib

/-!
# Byte memories

A memory is a function from byte offsets to bytes. The only write is `blit`,
which lays a list of bytes over a memory; little-endian 32-bit words are read
and written through it. Word values are natural numbers reduced modulo `2 ^ 32`.
-/

namespace Xv6Containers.Lib.Memory

abbrev Byte := UInt8

/-- A byte memory. Offsets outside the modelled object are never read. -/
abbrev Mem := Nat → Byte

/-- Lay the bytes `bs` over the memory from offset `a` on. -/
def blit (m : Mem) (a : Nat) (bs : List Byte) : Mem :=
  fun x => if a ≤ x then bs.getD (x - a) (m x) else m x

variable {a : Nat}

theorem blit_of_lt (m : Mem) {x : Nat} (bs : List Byte) (h : x < a) : blit m a bs x = m x := by
  simp [blit, Nat.not_le.mpr h]

theorem blit_of_ge (m : Mem) {x : Nat} (bs : List Byte) (h : a + bs.length ≤ x) :
    blit m a bs x = m x := by
  have hlen : bs.length ≤ x - a := by omega
  simp [blit, hlen]

theorem blit_inside (m : Mem) (a : Nat) (bs : List Byte) {i : Nat} (h : i < bs.length) :
    blit m a bs (a + i) = bs.getD i 0 := by
  simp [blit, h]

/-- A range disjoint from the written one is not disturbed. -/
theorem blit_disjoint (m : Mem) {x : Nat} (bs : List Byte) (h : x < a ∨ a + bs.length ≤ x) :
    blit m a bs x = m x := by
  rcases h with h | h
  · exact blit_of_lt m bs h
  · exact blit_of_ge m bs h

@[simp] theorem blit_nil (m : Mem) (a : Nat) : blit m a [] = m := by
  funext x
  simp [blit]

/-- The four bytes of a word, least significant first. -/
def wordBytes (v : Nat) : List Byte :=
  [UInt8.ofNat v, UInt8.ofNat (v / 256), UInt8.ofNat (v / 65536), UInt8.ofNat (v / 16777216)]

@[simp] theorem wordBytes_length (v : Nat) : (wordBytes v).length = 4 := rfl

/-- The little-endian word at offset `a`. -/
def readWord (m : Mem) (a : Nat) : Nat :=
  (m a).toNat + 256 * (m (a + 1)).toNat + 65536 * (m (a + 2)).toNat
    + 16777216 * (m (a + 3)).toNat

def writeWord (m : Mem) (a v : Nat) : Mem := blit m a (wordBytes v)

theorem readWord_lt (m : Mem) (a : Nat) : readWord m a < 2 ^ 32 := by
  have h₀ := (m a).toNat_lt
  have h₁ := (m (a + 1)).toNat_lt
  have h₂ := (m (a + 2)).toNat_lt
  have h₃ := (m (a + 3)).toNat_lt
  simp only [readWord]
  omega

/-- Reading back a word gives the written value modulo `2 ^ 32`. -/
theorem readWord_writeWord (m : Mem) (a v : Nat) :
    readWord (writeWord m a v) a = v % 2 ^ 32 := by
  have hb (i : Nat) (hi : i < 4) : writeWord m a v (a + i) = (wordBytes v).getD i 0 :=
    blit_inside m a (wordBytes v) (by simpa using hi)
  have h₀ : writeWord m a v a = UInt8.ofNat v := hb 0 (by omega)
  have h₁ : writeWord m a v (a + 1) = UInt8.ofNat (v / 256) := hb 1 (by omega)
  have h₂ : writeWord m a v (a + 2) = UInt8.ofNat (v / 65536) := hb 2 (by omega)
  have h₃ : writeWord m a v (a + 3) = UInt8.ofNat (v / 16777216) := hb 3 (by omega)
  simp only [readWord, h₀, h₁, h₂, h₃, UInt8.toNat_ofNat']
  omega

/-- The bytes of a word that was read are those in memory. -/
theorem wordBytes_readWord (m : Mem) (a : Nat) {i : Nat} (hi : i < 4) :
    (wordBytes (readWord m a)).getD i 0 = m (a + i) := by
  have h₀ := (m a).toNat_lt
  have h₁ := (m (a + 1)).toNat_lt
  have h₂ := (m (a + 2)).toNat_lt
  have h₃ := (m (a + 3)).toNat_lt
  apply UInt8.toNat_inj.mp
  match i, hi with
  | 0, _ =>
    simp only [wordBytes, readWord, List.getD_cons_zero, UInt8.toNat_ofNat', Nat.add_zero]
    omega
  | 1, _ =>
    simp only [wordBytes, readWord, List.getD_cons_succ, List.getD_cons_zero, UInt8.toNat_ofNat']
    omega
  | 2, _ =>
    simp only [wordBytes, readWord, List.getD_cons_succ, List.getD_cons_zero, UInt8.toNat_ofNat']
    omega
  | 3, _ =>
    simp only [wordBytes, readWord, List.getD_cons_succ, List.getD_cons_zero, UInt8.toNat_ofNat']
    omega

/-- Storing a word that is there already changes nothing. -/
theorem writeWord_readWord (m : Mem) (a : Nat) : writeWord m a (readWord m a) = m := by
  funext x
  by_cases hin : a ≤ x ∧ x < a + 4
  · obtain ⟨i, rfl⟩ := Nat.exists_eq_add_of_le hin.1
    rw [writeWord, blit_inside m a _ (by simp; omega), wordBytes_readWord m a (by omega)]
  · exact blit_disjoint m _ (by simp only [wordBytes_length]; omega)

theorem readWord_congr {m m' : Mem} (h : ∀ x, a ≤ x → x < a + 4 → m x = m' x) :
    readWord m a = readWord m' a := by
  simp only [readWord, h a (by omega) (by omega), h (a + 1) (by omega) (by omega),
    h (a + 2) (by omega) (by omega), h (a + 3) (by omega) (by omega)]

/-- A word that no written byte overlaps keeps its value. -/
theorem readWord_blit_disjoint (m : Mem) {b : Nat} (bs : List Byte)
    (h : b + 4 ≤ a ∨ a + bs.length ≤ b) : readWord (blit m a bs) b = readWord m b := by
  apply readWord_congr
  intro x hlo hhi
  exact blit_disjoint m bs (by omega)

theorem readWord_writeWord_disjoint (m : Mem) {b : Nat} (v : Nat) (h : b + 4 ≤ a ∨ a + 4 ≤ b) :
    readWord (writeWord m a v) b = readWord m b :=
  readWord_blit_disjoint m (wordBytes v) (by simpa using h)

/-- A word read as a signed 32-bit integer. -/
def toSigned (v : Nat) : Int := if v < 2147483648 then v else (v : Int) - 4294967296

theorem toSigned_of_lt {v : Nat} (h : v < 2147483648) : toSigned v = v := by
  simp [toSigned, h]

/-- The words of a table of 32-bit values, from offset `a` on. -/
def writeWords (m : Mem) (a : Nat) : List Nat → Mem
  | [] => m
  | v :: vs => writeWords (writeWord m a v) (a + 4) vs

theorem writeWords_frame (m : Mem) (a x : Nat) (vs : List Nat)
    (h : x < a ∨ a + 4 * vs.length ≤ x) : writeWords m a vs x = m x := by
  induction vs generalizing m a with
  | nil => rfl
  | cons v vs ih =>
    simp only [List.length_cons] at h
    rw [writeWords, ih _ _ (by omega)]
    exact blit_disjoint m (wordBytes v) (by simp only [wordBytes_length]; omega)

theorem readWord_writeWords (m : Mem) (a : Nat) (vs : List Nat) (i : Nat) (hi : i < vs.length) :
    readWord (writeWords m a vs) (a + 4 * i) = vs.getD i 0 % 2 ^ 32 := by
  induction vs generalizing m a i with
  | nil => simp at hi
  | cons v vs ih =>
    rw [writeWords]
    cases i with
    | zero =>
      have hframe : readWord (writeWords (writeWord m a v) (a + 4) vs) a =
          readWord (writeWord m a v) a := by
        apply readWord_congr
        intro x _ hx
        exact writeWords_frame _ _ _ _ (by omega)
      simpa [hframe] using readWord_writeWord m a v
    | succ i =>
      have hlen : i < vs.length := by simpa using hi
      have h := ih (writeWord m a v) (a + 4) i hlen
      have haddr : a + 4 * (i + 1) = a + 4 + 4 * i := by omega
      rw [haddr, h]
      rfl

theorem blit_append (m : Mem) (a : Nat) (bs cs : List Byte) :
    blit m a (bs ++ cs) = blit (blit m a bs) (a + bs.length) cs := by
  funext x
  by_cases hle : a ≤ x
  · by_cases hin : a + bs.length ≤ x
    · simp only [blit, if_pos hin, if_pos hle]
      rw [List.getD_append_right _ _ _ _ (by omega), List.getD_eq_default bs _ (by omega),
        Nat.sub_add_eq]
    · simp only [blit, if_neg hin, if_pos hle]
      rw [List.getD_append _ _ _ _ (by omega)]
  · rw [blit_of_lt _ _ (by omega), blit_of_lt _ _ (by omega), blit_of_lt _ _ (by omega)]

/-- A table of words is the bytes of its words. -/
theorem blit_words (m : Mem) (a : Nat) (vs : List Nat) :
    blit m a (vs.flatMap wordBytes) = writeWords m a vs := by
  induction vs generalizing m a with
  | nil => exact blit_nil m a
  | cons v vs ih =>
    rw [List.flatMap_cons, blit_append, wordBytes_length, ih]
    rfl

end Xv6Containers.Lib.Memory
