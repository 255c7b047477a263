import Xv6Containers.Log.Commit

/-!
# A commit is atomic across crashes

The machine may stop after any prefix of the disk writes of `commit`, and
recovery may stop after any prefix of its own writes and start again. The
invariant relates the header to the log blocks and the home blocks: either the
header is empty and every home block has its final contents, or the header
lists the transaction, the log blocks hold it, and only the listed home blocks
may be half installed.

## Implementation notes

The writes that `commit` issues after its first `write_head` are exactly the
writes that a recovery would issue there, so one preservation lemma covers both.
-/

namespace Xv6Containers

open Lib.Memory Lib.Replay

namespace Log

/-- The transactions that `commit` is called with: distinct home blocks outside the log
area that fit into it, as 32-bit block numbers of a `struct logheader`. -/
structure Committable (l : Log) : Prop where
  nodup : l.block.Nodup
  outside : ∀ b ∈ l.block, ¬ l.InArea b
  room : (l.block.length : Int) ≤ l.size - 1
  fits : l.block.length ≤ logSize
  word : ∀ b ∈ l.block, b < 2 ^ 32

/-- The disk writes of `commit`, in order. -/
def commitWrites (l : Log) (m : Machine) : List (Nat × Block) :=
  (commit l { m with writes := [] }).2.writes

/-- The disk writes of `recover_from_log` on the disk `d` after a restart, in order. -/
def redo (l : Log) (d : Nat → Block) : List (Nat × Block) :=
  (recoverFromLog l (Machine.boot d)).2.writes

/-- The contents after the transaction: the cached ones for a logged block, the old ones
for any other. -/
def committed (l : Log) (m : Machine) (b : Nat) : Block :=
  if b ∈ l.block then m.bread b else m.disk b

variable {l : Log}

theorem Committable.start_inArea (h : Committable l) : l.InArea l.start := by
  have hroom := h.room
  exact ⟨le_rfl, by omega⟩

theorem Committable.start_not_mem (h : Committable l) : l.start ∉ l.block :=
  fun hmem => h.outside _ hmem h.start_inArea

theorem Committable.logBlock_inArea (h : Committable l) {i : Nat} (hi : i < l.block.length) :
    l.InArea (l.start + i + 1) := by
  have hroom := h.room
  exact ⟨by omega, by omega⟩

theorem Committable.apart (h : Committable l) (b : Nat) (hb : b ∈ l.block) :
    b ≤ l.start + 0 ∨ l.start + 0 + l.block.length < b := by
  have hroom := h.room
  have hout := h.outside b hb
  simp only [InArea] at hout
  omega

theorem Committable.header (h : Committable l) (c : Block) :
    headerBlocks (storeHeader c l.block) = l.block := by
  have hfits := h.fits
  simp only [logSize, maxOpBlocks] at hfits
  exact headerBlocks_storeHeader c l.block (by omega) h.word

/-- Installing a transaction and clearing the header, as the writes it issues. -/
theorem writeHead_installTrans_writes (h : Committable l) (m : Machine) :
    (writeHead l.clear (installTrans l m)).writes =
      m.writes ++ (homeEntries l.start m.bread 0 l.block ++
        [(l.start, storeHeader (m.bread l.start) [])]) := by
  have hinst : installTrans l m = m.bwrites (homeEntries l.start m.bread 0 l.block) :=
    installFrom_eq l.start 0 l.block m h.apart
  have hstart : (installTrans l m).bread l.start = m.bread l.start := by
    rw [hinst, Machine.bwrites_bread]
    apply applyWrites_frame
    intro w hw heq
    have hmem : w.1 ∈ l.block := by
      rw [← homeEntries_fst l.start m.bread 0 l.block]
      exact List.mem_map_of_mem hw
    exact h.start_not_mem (heq ▸ hmem)
  simp only [writeHead, clear, Machine.bwrite, hstart]
  rw [hinst, Machine.bwrites_writes, List.append_assoc]

variable {d target : Nat → Block}

/-- A recovery that finds the transaction's header issues the installation. -/
theorem redo_of_header (h : Committable l) (hd : headerBlocks (d l.start) = l.block) :
    redo l d = homeEntries l.start d 0 l.block ++ [(l.start, storeHeader (d l.start) [])] := by
  have hread : readHead l (Machine.boot d) = l := by
    simp only [readHead, Machine.boot_bread, hd]
  simp only [redo, recoverFromLog, hread, writeHead_installTrans_writes h]
  simp

/-- A recovery that finds an empty header only writes it again. -/
theorem redo_of_empty (hd : headerBlocks (d l.start) = []) :
    redo l d = [(l.start, storeHeader (d l.start) [])] := by
  simp [redo, recoverFromLog, readHead, hd, installTrans, installFrom, writeHead, clear,
    Machine.bwrite]

/-! ## The invariant -/

/-- The header is empty and every home block is final. -/
def Settled (l : Log) (target d : Nat → Block) : Prop :=
  headerBlocks (d l.start) = [] ∧ ∀ b, ¬ l.InArea b → d b = target b

/-- The header lists the transaction, the log blocks hold its contents, and the home
blocks it does not list are final. -/
def Logged (l : Log) (target d : Nat → Block) : Prop :=
  headerBlocks (d l.start) = l.block ∧
    (∀ i, i < l.block.length → d (l.start + i + 1) = target (l.block.getD i 0)) ∧
    ∀ b, ¬ l.InArea b → b ∉ l.block → d b = target b

def Consistent (l : Log) (target d : Nat → Block) : Prop :=
  Settled l target d ∨ Logged l target d

/-- In a logged state the installation writes the target contents to the listed blocks. -/
theorem Logged.homeEntries_eq (hl : Logged l target d) :
    homeEntries l.start d 0 l.block = l.block.map fun b => (b, target b) := by
  apply List.ext_getElem
  · simpa using congrArg List.length (homeEntries_fst l.start d 0 l.block)
  · intro i h₁ h₂
    have hi : i < l.block.length := by simpa using h₂
    have hmem := List.getElem_mem h₁
    have hfst : (homeEntries l.start d 0 l.block)[i].1 = l.block[i] := by
      have := congrArg (fun bs => bs.getD i 0) (homeEntries_fst l.start d 0 l.block)
      simpa [List.getD_eq_getElem, h₁, hi] using this
    obtain ⟨j, hj, hw⟩ := mem_homeEntries hmem
    rw [Nat.zero_add, hl.2.1 j hj] at hw
    have hbj : l.block.getD j 0 = l.block[i] := by rw [← hfst, hw]
    rw [hw, hbj, List.getElem_map]

/-- A partial installation keeps a logged state logged. -/
theorem Logged.install_prefix (h : Committable l) (hl : Logged l target d) (k : Nat) :
    Logged l target (applyWrites ((homeEntries l.start d 0 l.block).take k) d) := by
  have hkeep {b : Nat} (hb : b ∉ l.block) :
      applyWrites ((homeEntries l.start d 0 l.block).take k) d b = d b := by
    apply applyWrites_frame
    intro w hw heq
    rw [hl.homeEntries_eq] at hw
    obtain ⟨c, hc, rfl⟩ := List.mem_map.mp (List.mem_of_mem_take hw)
    exact hb (heq ▸ hc)
  refine ⟨?_, ?_, ?_⟩
  · rw [hkeep h.start_not_mem]
    exact hl.1
  · intro i hi
    rw [hkeep fun hmem => h.outside _ hmem (h.logBlock_inArea hi)]
    exact hl.2.1 i hi
  · intro b hb hnot
    rw [hkeep hnot]
    exact hl.2.2 b hb hnot

/-- A whole installation settles a logged state. -/
theorem Logged.install (h : Committable l) (hl : Logged l target d) (c : Block) :
    Settled l target (applyWrites
      (homeEntries l.start d 0 l.block ++ [(l.start, storeHeader c [])]) d) := by
  rw [applyWrites_append, applyWrites_cons, applyWrites_nil]
  refine ⟨by simp, ?_⟩
  intro b hb
  have hne : b ≠ l.start := fun heq => hb (heq ▸ h.start_inArea)
  rw [Function.update_of_ne hne, hl.homeEntries_eq]
  by_cases hmem : b ∈ l.block
  · apply applyWrites_of_mem
    · simpa [Function.comp_def] using h.nodup
    · exact List.mem_map.mpr ⟨b, hmem, rfl⟩
  · rw [applyWrites_frame]
    · exact hl.2.2 b hb hmem
    · intro w hw heq
      obtain ⟨x, hx, rfl⟩ := List.mem_map.mp hw
      exact hmem (heq ▸ hx)

/-- Writing an empty header keeps a settled state settled. -/
theorem Settled.clear_header (h : Committable l) (hs : Settled l target d) (c : Block) :
    Settled l target (Function.update d l.start (storeHeader c [])) := by
  refine ⟨by simp, ?_⟩
  intro b hb
  have hne : b ≠ l.start := fun heq => hb (heq ▸ h.start_inArea)
  rw [Function.update_of_ne hne]
  exact hs.2 b hb

/-- Every prefix of a recovery, from any consistent state, ends in a consistent state. -/
theorem Consistent.redo_prefix (h : Committable l) (hc : Consistent l target d) (k : Nat) :
    Consistent l target (applyWrites ((redo l d).take k) d) := by
  rcases hc with hs | hl
  · rw [redo_of_empty hs.1]
    cases k with
    | zero => exact Or.inl hs
    | succ k => exact Or.inl (by simpa using hs.clear_header h _)
  · rw [redo_of_header h hl.1]
    -- either the cut falls inside the installation, or everything was written
    by_cases hk : k ≤ (homeEntries l.start d 0 l.block).length
    · rw [List.take_append_of_le_length hk]
      exact Or.inr (hl.install_prefix h k)
    · rw [List.take_of_length_le (by simp; omega)]
      exact Or.inl (hl.install h _)

/-- A completed recovery settles any consistent state. -/
theorem Consistent.redo_done (h : Committable l) (hc : Consistent l target d) :
    Settled l target (applyWrites (redo l d) d) := by
  rcases hc with hs | hl
  · rw [redo_of_empty hs.1]
    simpa using hs.clear_header h _
  · rw [redo_of_header h hl.1]
    exact hl.install h _

/-- Any number of interrupted recoveries and then a completed one settle a consistent state. -/
theorem Consistent.recovers (h : Committable l) {d' : Nat → Block} (hc : Consistent l target d)
    (run : Recovers (redo l) d d') : Settled l target d' :=
  run.rule (I := Consistent l target) (Q := Settled l target)
    (fun _ k hs => hs.redo_prefix h k) (fun _ hs => hs.redo_done h) hc

/-! ## The writes of a commit -/

/-- The disk after `write_log` and the first `write_head`. -/
def headDisk (l : Log) (m : Machine) : Nat → Block :=
  applyWrites (logEntries l.start m.bread 0 l.block ++
    [(l.start, storeHeader (m.bread l.start) l.block)]) m.disk

theorem logEntries_ne_start (l : Log) (f : Nat → Block) :
    ∀ w ∈ logEntries l.start f 0 l.block, w.1 ≠ l.start := by
  intro w hw heq
  have := (mem_logEntries hw).1
  omega

theorem logEntries_inArea (h : Committable l) (f : Nat → Block) :
    ∀ w ∈ logEntries l.start f 0 l.block, l.InArea w.1 := by
  intro w hw
  obtain ⟨hlo, hhi⟩ := mem_logEntries hw
  have hroom := h.room
  exact ⟨by omega, by omega⟩

theorem headDisk_start (l : Log) (m : Machine) :
    headDisk l m l.start = storeHeader (m.bread l.start) l.block := by
  simp [headDisk, applyWrites_append]

theorem headDisk_logBlock (l : Log) (m : Machine) {i : Nat}
    (hi : i < l.block.length) :
    headDisk l m (l.start + i + 1) = m.bread (l.block.getD i 0) := by
  have hne : l.start + i + 1 ≠ l.start := by omega
  rw [headDisk, applyWrites_append, applyWrites_cons, applyWrites_nil,
    Function.update_of_ne hne]
  apply applyWrites_of_mem (logEntries_nodup l.start m.bread 0 l.block)
  simpa using logEntries_getD l.start 0 m.bread hi

/-- After the first `write_head` the transaction is logged. -/
theorem headDisk_logged (h : Committable l) (m : Machine) :
    Logged l (committed l m) (headDisk l m) := by
  refine ⟨?_, ?_, ?_⟩
  · rw [headDisk_start]
    exact h.header _
  · intro i hi
    have hmem : l.block.getD i 0 ∈ l.block := by
      rw [List.getD_eq_getElem _ _ hi]
      exact List.getElem_mem hi
    rw [headDisk_logBlock l m hi, committed, if_pos hmem]
  · intro b hb hnot
    have hne : b ≠ l.start := fun heq => hb (heq ▸ h.start_inArea)
    rw [headDisk, applyWrites_append, applyWrites_cons, applyWrites_nil,
      Function.update_of_ne hne, applyWrites_frame, committed, if_neg hnot]
    intro w hw heq
    exact hb (heq ▸ logEntries_inArea h m.bread w hw)

/-- `commit` writes the log blocks, the header, and then what a recovery would write. -/
theorem commitWrites_eq (h : Committable l) (hne : l.block ≠ []) (m : Machine) :
    commitWrites l m = logEntries l.start m.bread 0 l.block ++
      [(l.start, storeHeader (m.bread l.start) l.block)] ++ redo l (headDisk l m) := by
  let m₀ : Machine := { m with writes := [] }
  let ws := logEntries l.start m.bread 0 l.block
  have hlog : writeLog l m₀ = m₀.bwrites ws := writeLogFrom_eq l.start 0 l.block m₀ h.apart
  have hview : (m₀.bwrites ws).bread l.start = m.bread l.start := by
    rw [Machine.bwrites_bread]
    exact applyWrites_frame (logEntries_ne_start l m.bread) _
  let m₁ : Machine := writeHead l (writeLog l m₀)
  have hm₁ : m₁ = m₀.bwrites (ws ++ [(l.start, storeHeader (m.bread l.start) l.block)]) := by
    simp only [m₁, writeHead, hlog, hview, Machine.bwrites_append]
    rfl
  -- from here on the buffers agree with the disk wherever the installation reads
  have hblocks : homeEntries l.start m₁.bread 0 l.block =
      homeEntries l.start (headDisk l m) 0 l.block := by
    apply homeEntries_congr
    intro i hi
    have hne : l.start + i + 1 ≠ l.start := by omega
    rw [Nat.zero_add, headDisk_logBlock l m hi, hm₁, Machine.bwrites_bread,
      applyWrites_append, applyWrites_cons, applyWrites_nil, Function.update_of_ne hne]
    apply applyWrites_of_mem (logEntries_nodup l.start m.bread 0 l.block)
    simpa using logEntries_getD l.start 0 m.bread hi
  have hhead : m₁.bread l.start = headDisk l m l.start := by
    rw [headDisk_start, hm₁, Machine.bwrites_bread, applyWrites_append]
    simp
  have hpos : 0 < l.block.length := List.length_pos_iff.mpr hne
  have hcommit : commitWrites l m = (writeHead l.clear (installTrans l m₁)).writes := by
    simp only [commitWrites, commit, if_pos hpos]
    rfl
  rw [hcommit, writeHead_installTrans_writes h, hblocks, hhead,
    ← redo_of_header h (headDisk_logged h m).1, hm₁, Machine.bwrites_writes]
  simp [m₀, ws]

/-- Every crash during `commit` leaves a consistent state: with the old contents as its
target before the first `write_head`, with the committed ones from it on. -/
theorem crash_consistent (h : Committable l) (m : Machine)
    (hempty : headerBlocks (m.disk l.start) = []) (k : Nat) :
    Consistent l (if l.block.length < k then committed l m else m.disk)
      (applyWrites ((commitWrites l m).take k) m.disk) := by
  by_cases hnil : l.block = []
  · have hw : commitWrites l m = [] := by simp [commitWrites, commit, hnil]
    have hc : committed l m = m.disk := by
      funext b
      simp [committed, hnil]
    refine Or.inl ?_
    rw [hw, hc, ite_self, List.take_nil, applyWrites_nil]
    exact ⟨hempty, fun _ _ => rfl⟩
  rw [commitWrites_eq h hnil m]
  by_cases hk : l.block.length < k
  · rw [if_pos hk, List.take_append, List.take_of_length_le (by simp; omega),
      applyWrites_append]
    exact Consistent.redo_prefix h (Or.inr (headDisk_logged h m)) _
  · have hlen : k ≤ (logEntries l.start m.bread 0 l.block).length := by simp; omega
    rw [if_neg hk, List.append_assoc, List.take_append_of_le_length hlen]
    refine Or.inl ⟨?_, ?_⟩
    · rw [applyWrites_frame]
      · exact hempty
      · intro w hw
        exact logEntries_ne_start l m.bread w (List.mem_of_mem_take hw)
    · intro b hb
      apply applyWrites_frame
      intro w hw heq
      exact hb (heq ▸ logEntries_inArea h m.bread w (List.mem_of_mem_take hw))

/-- A commit that crashes after its first `k` disk writes, followed by any number of
interrupted recoveries and a completed one, leaves every block outside the log with its
committed contents when the first `write_head` was among the `k` writes, and every such
block with its old contents when it was not. -/
theorem commit_crash_atomic (l : Log) (m : Machine) (h : Committable l)
    (hempty : headerBlocks (m.disk l.start) = []) (k : Nat) (d : Nat → Block)
    (run : Recovers (redo l) (applyWrites ((commitWrites l m).take k) m.disk) d) :
    ((logEntries l.start m.bread 0 l.block).length < k →
      ∀ b, ¬ l.InArea b → d b = committed l m b) ∧
    (k ≤ (logEntries l.start m.bread 0 l.block).length →
      ∀ b, ¬ l.InArea b → d b = m.disk b) := by
  have hsettled := (crash_consistent h m hempty k).recovers h run
  rw [logEntries_length]
  constructor
  · intro hk b hb
    rw [hsettled.2 b hb, if_pos hk]
  · intro hk b hb
    rw [hsettled.2 b hb, if_neg (Nat.not_lt.mpr hk)]

/-- A transaction of one block on the log area that `mkfs` lays out. -/
def oneBlockLog : Log := ⟨mkfsSuperblock.logstart, mkfsSuperblock.nlog, [70]⟩

/-- A zeroed disk whose block 70 was changed in its buffer only. -/
def oneBlockMachine : Machine := ⟨fun _ _ => 0, fun b => if b = 70 then some fun _ => 7 else none, []⟩

theorem oneBlockLog_committable : Committable oneBlockLog where
  nodup := by simp [oneBlockLog]
  outside := by decide
  room := by decide
  fits := by decide
  word := by decide

/-- Stopped right after the first `write_head`, the one-block transaction survives. -/
theorem commit_crash_atomic_one_block :
    ∃ d, Recovers (redo oneBlockLog)
        (applyWrites ((commitWrites oneBlockLog oneBlockMachine).take 2) oneBlockMachine.disk) d ∧
      d 70 = (fun _ => 7) ∧ d 71 = fun _ => 0 := by
  refine ⟨_, Recovers.done _, ?_⟩
  have h := (commit_crash_atomic oneBlockLog oneBlockMachine oneBlockLog_committable
    (by decide) 2 _ (Recovers.done _)).1 (by decide)
  exact ⟨h 70 (by decide), h 71 (by decide)⟩

end Log

end Xv6Containers
