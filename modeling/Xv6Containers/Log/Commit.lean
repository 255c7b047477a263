import Xv6Containers.Param
import Xv6Containers.Lib.Memory
import Xv6Containers.Lib.Replay

/-!
# Committing and recovering the log

The functions of `log.c` that move blocks between the buffer cache, the log
area and the home locations. A machine is the buffer cache over the disk; every
`bwrite` is recorded, so that a crash can be placed between any two of them.

## Implementation notes

A block that is read from the disk into a buffer holds what the disk holds, so
`bread` returns the cached contents where there are some and the disk's
otherwise. Which clean buffers are cached is not observable and is left open.
-/

namespace Xv6Containers

open Lib.Memory Lib.Replay

/-- The contents of one disk block. -/
abbrev Block := Mem

/-- The buffer cache, the disk beneath it, and the disk writes issued so far. -/
structure Machine where
  disk : Nat → Block
  cache : Nat → Option Block
  writes : List (Nat × Block)

namespace Machine

/-- The machine after a restart: nothing is cached. -/
def boot (disk : Nat → Block) : Machine := ⟨disk, fun _ => none, []⟩

def bread (m : Machine) (b : Nat) : Block := (m.cache b).getD (m.disk b)

def bwrite (m : Machine) (b : Nat) (c : Block) : Machine where
  disk := Function.update m.disk b c
  cache := Function.update m.cache b (some c)
  writes := m.writes ++ [(b, c)]

/-- A sequence of block writes, in order. -/
def bwrites (m : Machine) (ws : List (Nat × Block)) : Machine :=
  ws.foldl (fun m w => m.bwrite w.1 w.2) m

@[simp] theorem boot_bread (d : Nat → Block) : (boot d).bread = d := rfl

@[simp] theorem boot_disk (d : Nat → Block) : (boot d).disk = d := rfl

@[simp] theorem boot_writes (d : Nat → Block) : (boot d).writes = [] := rfl

theorem bwrite_bread (m : Machine) (b : Nat) (c : Block) :
    (m.bwrite b c).bread = Function.update m.bread b c := by
  funext x
  by_cases h : x = b
  · subst h
    simp [bread, bwrite]
  · simp [bread, bwrite, Function.update_of_ne h]

@[simp] theorem bwrites_nil (m : Machine) : m.bwrites [] = m := rfl

@[simp] theorem bwrites_cons (m : Machine) (w : Nat × Block) (ws : List (Nat × Block)) :
    m.bwrites (w :: ws) = (m.bwrite w.1 w.2).bwrites ws := rfl

theorem bwrites_append (m : Machine) (ws vs : List (Nat × Block)) :
    m.bwrites (ws ++ vs) = (m.bwrites ws).bwrites vs := by
  simp [bwrites, List.foldl_append]

theorem bwrites_writes (m : Machine) (ws : List (Nat × Block)) :
    (m.bwrites ws).writes = m.writes ++ ws := by
  induction ws generalizing m with
  | nil => simp
  | cons w ws ih => simp [ih, bwrite]

theorem bwrites_bread (m : Machine) (ws : List (Nat × Block)) :
    (m.bwrites ws).bread = applyWrites ws m.bread := by
  induction ws generalizing m with
  | nil => rfl
  | cons w ws ih => rw [bwrites_cons, ih, bwrite_bread, applyWrites_cons]

end Machine

/-- `struct log`: where the log area lies, and the blocks `lh.block[0..lh.n)` of the
transaction in memory. -/
structure Log where
  start : Nat
  size : Nat
  block : List Nat

namespace Log

/-- The blocks of the log area: the header and the log blocks after it. -/
def InArea (l : Log) (b : Nat) : Prop := l.start ≤ b ∧ b < l.start + l.size

instance (l : Log) (b : Nat) : Decidable (l.InArea b) := inferInstanceAs (Decidable (_ ∧ _))

/-- `lh.n = 0`. -/
def clear (l : Log) : Log := { l with block := [] }

/-- What `read_head` decodes from the header block: `n`, then `n` block numbers. -/
def headerBlocks (c : Block) : List Nat :=
  (List.range (toSigned (readWord c 0)).toNat).map fun i => readWord c (4 + 4 * i)

/-- What `write_head` leaves in the header block: only `n` and the first `n` entries are
stored, the rest of the buffer is as it was. -/
def storeHeader (c : Block) (bs : List Nat) : Block := writeWords (writeWord c 0 bs.length) 4 bs

/-- The loop of `install_trans` from index `tail` on: log block to home location. -/
def installFrom (start : Nat) : Nat → List Nat → Machine → Machine
  | _, [], m => m
  | tail, b :: bs, m =>
    installFrom start (tail + 1) bs (m.bwrite b (m.bread (start + tail + 1)))

def installTrans (l : Log) (m : Machine) : Machine := installFrom l.start 0 l.block m

def readHead (l : Log) (m : Machine) : Log := { l with block := headerBlocks (m.bread l.start) }

def writeHead (l : Log) (m : Machine) : Machine :=
  m.bwrite l.start (storeHeader (m.bread l.start) l.block)

def recoverFromLog (l : Log) (m : Machine) : Log × Machine :=
  let l := readHead l m
  let m := installTrans l m
  (l.clear, writeHead l.clear m)

/-- The loop of `write_log` from index `tail` on: cached block to log block. -/
def writeLogFrom (start : Nat) : Nat → List Nat → Machine → Machine
  | _, [], m => m
  | tail, b :: bs, m =>
    writeLogFrom start (tail + 1) bs (m.bwrite (start + tail + 1) (m.bread b))

def writeLog (l : Log) (m : Machine) : Machine := writeLogFrom l.start 0 l.block m

def commit (l : Log) (m : Machine) : Log × Machine :=
  if 0 < l.block.length then
    let m := writeLog l m
    let m := writeHead l m
    let m := installTrans l m
    (l.clear, writeHead l.clear m)
  else (l, m)

/-! ## The writes that the loops issue -/

/-- One write per logged block, into the log area. -/
def logEntries (start : Nat) (f : Nat → Block) : Nat → List Nat → List (Nat × Block)
  | _, [] => []
  | tail, b :: bs => (start + tail + 1, f b) :: logEntries start f (tail + 1) bs

/-- One write per logged block, to its home location. -/
def homeEntries (start : Nat) (f : Nat → Block) : Nat → List Nat → List (Nat × Block)
  | _, [] => []
  | tail, b :: bs => (b, f (start + tail + 1)) :: homeEntries start f (tail + 1) bs

@[simp] theorem logEntries_length (start : Nat) (f : Nat → Block) (tail : Nat) (bs : List Nat) :
    (logEntries start f tail bs).length = bs.length := by
  induction bs generalizing tail with
  | nil => rfl
  | cons b bs ih => simp [logEntries, ih]

variable {f : Nat → Block} {bs : List Nat}

theorem mem_logEntries {start tail : Nat} {w : Nat × Block} (h : w ∈ logEntries start f tail bs) :
    start + tail < w.1 ∧ w.1 ≤ start + tail + bs.length := by
  induction bs generalizing tail with
  | nil => simp [logEntries] at h
  | cons b bs ih =>
    simp only [List.length_cons]
    rcases List.mem_cons.mp h with rfl | htail
    · exact ⟨by simp, by simp⟩
    · obtain ⟨hlo, hhi⟩ := ih htail
      omega

theorem logEntries_nodup (start : Nat) (f : Nat → Block) (tail : Nat) (bs : List Nat) :
    ((logEntries start f tail bs).map Prod.fst).Nodup := by
  induction bs generalizing tail with
  | nil => simp [logEntries]
  | cons b bs ih =>
    simp only [logEntries, List.map_cons, List.nodup_cons]
    refine ⟨?_, ih (tail + 1)⟩
    rw [List.mem_map]
    rintro ⟨w, hw, heq⟩
    have hlo := (mem_logEntries hw).1
    omega

theorem logEntries_getD (start tail : Nat) (f : Nat → Block) {i : Nat} (hi : i < bs.length) :
    (start + (tail + i) + 1, f (bs.getD i 0)) ∈ logEntries start f tail bs := by
  induction bs generalizing tail i with
  | nil => simp at hi
  | cons b bs ih =>
    cases i with
    | zero => simp [logEntries]
    | succ i =>
      have hlen : i < bs.length := by simpa using hi
      have hrest := ih (tail + 1) hlen
      have hidx : tail + 1 + i = tail + (i + 1) := by omega
      rw [hidx] at hrest
      exact List.mem_cons_of_mem _ hrest

/-- `install_trans` writes every home block named by the header and nothing else. -/
theorem homeEntries_fst (start : Nat) (f : Nat → Block) (tail : Nat) (bs : List Nat) :
    (homeEntries start f tail bs).map Prod.fst = bs := by
  induction bs generalizing tail with
  | nil => rfl
  | cons b bs ih => simp [homeEntries, ih]

theorem mem_homeEntries {start tail : Nat} {w : Nat × Block} (h : w ∈ homeEntries start f tail bs) :
    ∃ i, i < bs.length ∧ w = (bs.getD i 0, f (start + (tail + i) + 1)) := by
  induction bs generalizing tail with
  | nil => simp [homeEntries] at h
  | cons b bs ih =>
    rcases List.mem_cons.mp h with rfl | htail
    · exact ⟨0, by simp, by simp⟩
    · obtain ⟨i, hi, rfl⟩ := ih htail
      refine ⟨i + 1, by simpa using hi, ?_⟩
      have hidx : tail + 1 + i = tail + (i + 1) := by omega
      simp [hidx]

theorem homeEntries_congr {start tail : Nat} {g : Nat → Block}
    (h : ∀ i, i < bs.length → f (start + (tail + i) + 1) = g (start + (tail + i) + 1)) :
    homeEntries start f tail bs = homeEntries start g tail bs := by
  induction bs generalizing tail with
  | nil => rfl
  | cons b bs ih =>
    have h₀ := h 0 (by simp)
    simp only [homeEntries, List.cons.injEq, Prod.mk.injEq, true_and]
    refine ⟨by simpa using h₀, ih ?_⟩
    intro i hi
    have hs := h (i + 1) (by simpa using hi)
    have hidx : tail + (i + 1) = tail + 1 + i := by omega
    rwa [hidx] at hs

/-- The loop of `write_log` on blocks outside the log area. -/
theorem writeLogFrom_eq (start tail : Nat) (bs : List Nat) (m : Machine)
    (hout : ∀ b ∈ bs, b ≤ start + tail ∨ start + tail + bs.length < b) :
    writeLogFrom start tail bs m = m.bwrites (logEntries start m.bread tail bs) := by
  suffices hgen : ∀ (f : Nat → Block), (∀ b ∈ bs, f b = m.bread b) →
      writeLogFrom start tail bs m = m.bwrites (logEntries start f tail bs) from
    hgen m.bread fun _ _ => rfl
  induction bs generalizing tail m with
  | nil => intro f _; rfl
  | cons b bs ih =>
    intro f hf
    simp only [List.length_cons] at hout
    rw [writeLogFrom, logEntries, Machine.bwrites_cons, ← hf b (by simp)]
    apply ih
    · intro c hc
      have hb := hout c (by simp [hc])
      omega
    · intro c hc
      have hb := hout c (by simp [hc])
      have hne : c ≠ start + tail + 1 := by omega
      rw [Machine.bwrite_bread, Function.update_of_ne hne]
      exact hf c (by simp [hc])

/-- The loop of `install_trans` on home blocks outside the log area. -/
theorem installFrom_eq (start tail : Nat) (bs : List Nat) (m : Machine)
    (hout : ∀ b ∈ bs, b ≤ start + tail ∨ start + tail + bs.length < b) :
    installFrom start tail bs m = m.bwrites (homeEntries start m.bread tail bs) := by
  induction bs generalizing tail m with
  | nil => rfl
  | cons b bs ih =>
    simp only [List.length_cons] at hout
    have hb := hout b (by simp)
    rw [installFrom, homeEntries, Machine.bwrites_cons, ih]
    · congr 1
      apply homeEntries_congr
      intro i hi
      have hne : start + (tail + 1 + i) + 1 ≠ b := by omega
      rw [Machine.bwrite_bread, Function.update_of_ne hne]
    · intro c hc
      have hcb := hout c (by simp [hc])
      omega

/-! ## The header block -/

theorem headerBlocks_storeHeader (c : Block) (bs : List Nat) (hlen : bs.length < 2147483648)
    (hword : ∀ b ∈ bs, b < 2 ^ 32) : headerBlocks (storeHeader c bs) = bs := by
  have hn : readWord (storeHeader c bs) 0 = bs.length := by
    have hframe : readWord (storeHeader c bs) 0 = readWord (writeWord c 0 bs.length) 0 := by
      apply readWord_congr
      intro x _ hx
      exact writeWords_frame _ _ _ _ (Or.inl (by omega))
    rw [hframe, readWord_writeWord]
    omega
  apply List.ext_getElem
  · simp [headerBlocks, hn, toSigned_of_lt hlen]
  · intro i h₁ h₂
    have hw := readWord_writeWords (writeWord c 0 bs.length) 4 bs i h₂
    have hmem := hword bs[i] (List.getElem_mem h₂)
    rw [List.getD_eq_getElem _ _ h₂, Nat.mod_eq_of_lt hmem] at hw
    simpa [headerBlocks, storeHeader] using hw

@[simp] theorem headerBlocks_storeHeader_nil (c : Block) : headerBlocks (storeHeader c []) = [] :=
  headerBlocks_storeHeader c [] (by simp) (by simp)

end Log

end Xv6Containers
