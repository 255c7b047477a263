import Xv6Containers.Lib.Memory
import Xv6Containers.Lib.RingBuffer
import Xv6Containers.Lib.Runs

/-!
# The console input ring

`consoleintr` and `consoleread` of `console.c`: one live `input` ring for all
virtual consoles, the saved copies `buf1` to `buf4`, and any number of readers on
devices of any minor number.

## Implementation notes

A thread is one call of `consoleread`. `consoleintr` holds `cons.lock` while it
empties the keyboard; here every character is an event of its own, which only
lets the readers in more often. The echo on the screen, the process dump and the
inode lock of the device are left out. The indices wrap at `2 ^ 32`.

`Record` is kept beside the state and never read by the code. It says what was
typed on each console, as if every console had an input of its own, and which
call took which character.
-/

namespace Xv6Containers.Console

open Lib Lib.Memory Lib.Runs

/-- `INPUT_BUF`. -/
def inputBuf : Nat := 128

/-- `MAX_VC`. -/
def maxVc : Int := 4

/-- Where a `uint` wraps. -/
def uintMod : Nat := 2 ^ 32

/-- `C('D')`, the end of file. -/
def ctrlD : Byte := 4

/-- The character `'\n'`. -/
def newline : Byte := 10

/-- The character `'\r'`. -/
def carriageReturn : Byte := 13

/-- The cases of the `switch` in `consoleintr`. -/
inductive Key
  | procdump
  | switch
  | kill
  | backspace
  | char (c : Byte)
  deriving DecidableEq

/-- `C('P')`, `C('T')`, `C('U')`, then `C('H')` and `'\x7f'`, and the default. -/
def Key.ofByte (c : Byte) : Key :=
  if c = 16 then .procdump
  else if c = 20 then .switch
  else if c = 21 then .kill
  else if c = 8 ∨ c = 127 then .backspace
  else .char c

/-- `struct input`. -/
structure Input where
  buf : Nat → Byte
  r : Nat
  w : Nat
  e : Nat

namespace Input

/-- The initial value of `input` and of `buf1` to `buf4`. -/
def zero : Input := ⟨fun _ => 0, 0, 0, 0⟩

/-- Everything between the read and the edit index. -/
def ring (i : Input) : RingBuffer Byte := ⟨i.buf, i.r, i.e⟩

/-- The committed part, between the read and the write index. -/
def unread (i : Input) : RingBuffer Byte := ⟨i.buf, i.r, i.w⟩

/-- The line being edited, between the write and the edit index. -/
def line (i : Input) : RingBuffer Byte := ⟨i.buf, i.w, i.e⟩

/-- `input.buf[input.e++ % INPUT_BUF] = c`. -/
def put (i : Input) (c : Byte) : Input :=
  { i with
    buf := (i.ring.push inputBuf uintMod c).data
    e := (i.ring.push inputBuf uintMod c).nwrite }

/-- `input.e--`. -/
def unput (i : Input) : Input := { i with e := (i.ring.unpush uintMod).nwrite }

/-- `input.r++`. -/
def advance (i : Input) : Input := { i with r := (i.ring.pop uintMod).nread }

/-- `input.w = input.e`. -/
def commit (i : Input) : Input := { i with w := i.e }

/-- The loop of `C('U')`. Each round brings `e` one closer to `w`, so the distance of the
two bounds the number of rounds. -/
def killLine : Nat → Input → Input
  | 0, i => i
  | k + 1, i =>
    if i.e ≠ i.w ∧ i.ring.back inputBuf uintMod ≠ newline then killLine k i.unput else i

end Input

/-! ## The record -/

/-- What each console was given, and what each call got. -/
structure Record (P : Type) where
  line : Int → List Byte
  committed : Int → List Byte
  delivered : List (P × Byte)

/-- The arguments of a `consoleread`: the minor number of the device and `n`. -/
structure Job where
  minor : Int
  n : Int

variable {P : Type}

namespace Record

/-- What the calls on the device with minor `k` got, in order. -/
def deliveredTo (job : P → Job) (t : Record P) (k : Int) : List Byte :=
  (t.delivered.filter fun x => (job x.1).minor = k).map Prod.snd

/-- How many characters console `k` stores: committed and not delivered, and typed. -/
def load (job : P → Job) (t : Record P) (k : Int) : Nat :=
  (t.committed k).length - (t.deliveredTo job k).length + (t.line k).length

/-- A character typed on console `k` when that console has an input of its own. -/
def type (job : P → Job) (k : Int) (c : Byte) (t : Record P) : Record P :=
  if c ≠ 0 ∧ t.load job k < inputBuf then
    let c := if c = carriageReturn then newline else c
    if c = newline ∨ c = ctrlD ∨ t.load job k + 1 = inputBuf then
      { t with
        committed := Function.update t.committed k (t.committed k ++ (t.line k ++ [c]))
        line := Function.update t.line k [] }
    else { t with line := Function.update t.line k (t.line k ++ [c]) }
  else t

/-- A key pressed on console `k` when that console has an input of its own. -/
def press (job : P → Job) (k : Int) (t : Record P) : Key → Record P
  | .procdump | .switch => t
  | .kill => { t with line := Function.update t.line k [] }
  | .backspace => { t with line := Function.update t.line k (t.line k).dropLast }
  | .char c => t.type job k c

def empty : Record P := ⟨fun _ => [], fun _ => [], []⟩

end Record

/-! ## The machine -/

/-- Where a call is: `reading` holds `cons.lock`, `sleeping` waits on `&input.r`, and
`woken` has yet to take the lock again. The number is `n`, what is still to be read. -/
inductive Pc
  | start
  | reading (n : Int)
  | sleeping (n : Int)
  | woken (n : Int)
  | done (r : Int)
  deriving DecidableEq

/-- `wakeup(&input.r)`, or `kill`, for one call. -/
def Pc.wake : Pc → Pc
  | sleeping n => woken n
  | x => x

structure State (P : Type) where
  input : Input
  buf1 : Input
  buf2 : Input
  buf3 : Input
  buf4 : Input
  active : Int
  lock : Option P
  pc : P → Pc
  killed : P → Bool
  record : Record P

namespace State

/-- The case `C('T')` of `consoleintr`. -/
def switchConsole (s : State P) : State P :=
  if s.active + 1 > maxVc then { s with active := 1, input := s.buf1 }
  else
    let a := s.active + 1
    { s with
      active := a
      buf2 := if a = 2 then s.input else s.buf2
      buf3 := if a = 3 then s.input else s.buf3
      buf4 := if a = 4 then s.input else s.buf4 }

def wakeup (s : State P) : State P := { s with pc := fun p => (s.pc p).wake }

/-- The default case of `consoleintr`. -/
def typeChar (s : State P) (c : Byte) : State P :=
  if c ≠ 0 ∧ s.input.ring.size uintMod < inputBuf then
    let c := if c = carriageReturn then newline else c
    let i := s.input.put c
    if c = newline ∨ c = ctrlD ∨ i.ring.Full inputBuf uintMod then
      { s with input := i.commit }.wakeup
    else { s with input := i }
  else s

/-- One round of the loop of `consoleintr`. -/
def consoleintr (s : State P) : Key → State P
  | .procdump => s
  | .switch => s.switchConsole
  | .kill => { s with input := Input.killLine (s.input.line.size uintMod) s.input }
  | .backspace => if s.input.e ≠ s.input.w then { s with input := s.input.unput } else s
  | .char c => s.typeChar c

variable [DecidableEq P]

def setPc (s : State P) (p : P) (x : Pc) : State P := { s with pc := Function.update s.pc p x }

/-- `acquire(&cons.lock)`, which waits for the lock. -/
def enter (s : State P) (p : P) (x : Pc) : Option (State P) :=
  if s.lock.isNone then some { s.setPc p x with lock := some p } else none

/-- `release(&cons.lock)`. -/
def leave (s : State P) (p : P) (x : Pc) : State P := { s.setPc p x with lock := none }

omit [DecidableEq P] in
/-- `c = input.buf[input.r++ % INPUT_BUF]` where `c` goes to call `p`. -/
def take (s : State P) (p : P) : State P :=
  { s with
    input := s.input.advance
    record :=
      { s.record with
        delivered := s.record.delivered ++ [(p, s.input.ring.front inputBuf)] } }

/-- One round of the loops of `consoleread`. A `^D` behind other characters is put back,
so that the next call gets it first. -/
def consoleread (job : P → Job) (p : P) (n : Int) (s : State P) : State P :=
  if n > 0 then
    if s.input.r = s.input.w ∨ s.active ≠ (job p).minor then
      if s.killed p then s.leave p (.done (-1)) else s.leave p (.sleeping n)
    else
      let c := s.input.ring.front inputBuf
      if c = ctrlD then
        if n < (job p).n then s.leave p (.done ((job p).n - n))
        else (s.take p).leave p (.done ((job p).n - n))
      else if c = newline then (s.take p).leave p (.done ((job p).n - (n - 1)))
      else (s.take p).setPc p (.reading (n - 1))
  else s.leave p (.done ((job p).n - n))

end State

variable [DecidableEq P]

inductive Event (P : Type)
  | key (c : Byte)
  | go (p : P)
  | kill (p : P)

/-- One step of the call `p`. -/
def threadStep (job : P → Job) (p : P) (s : State P) : Option (State P) :=
  match s.pc p with
  | .start => s.enter p (.reading (job p).n)
  | .reading n => some (s.consoleread job p n)
  | .woken n => s.enter p (.reading n)
  | .sleeping _ | .done _ => none

/-- The keyboard interrupt waits for `cons.lock`. -/
def step (job : P → Job) (s : State P) : Event P → Option (State P)
  | .key c =>
    if s.lock.isNone then
      some { s.consoleintr (Key.ofByte c) with
        record := s.record.press job s.active (Key.ofByte c) }
    else none
  | .go p => threadStep job p s
  | .kill p =>
    some { s with
      pc := Function.update s.pc p (s.pc p).wake
      killed := Function.update s.killed p true }

/-- `consoleinit`, before any call. -/
def consoleinit (killed : P → Bool) : State P where
  input := .zero
  buf1 := .zero
  buf2 := .zero
  buf3 := .zero
  buf4 := .zero
  active := 1
  lock := none
  pc := fun _ => .start
  killed := killed
  record := .empty

end Xv6Containers.Console
