import Xv6Containers.Fs.ReadBack
import Xv6Containers.Vm.PageTable

/-!
# exec, byte by byte

`exec` of `exec.c` with `loaduvm`, `uva2ka` and `copyout` of `vm.c`: the headers
are parsed from the bytes of the file, the segments are stored in the pages of
the new image, and the argument strings and the words above them are pushed on
the user stack.

## Implementation notes

The functions on page directories are the programs of `Vm.PageTable`, embedded
into a larger set of operations. Memory is addressed as the kernel sees it, page
`p` from `P2V(p)` on. A page directory is a value and not memory, so nothing can be
said once a byte is stored through an address that belongs to no user page: a
null page-table pointer that leads to such a store ends the run. The pages that
`exec` gets from `kalloc` are zeroed by their callers at once, which is part of
`kalloc` here. What `namei` finds is part of the machine, and the file is a list of
bytes that does not change while its inode is locked.
-/

namespace Xv6Containers.Vm

open Lib.Memory Lib.Program

/-! ## The file -/

/-- `readi` on a file with these bytes. -/
def readi (file : List Byte) (off n : Nat) : Option (List Byte) :=
  Fs.clipped file.length (fun i => file.getD i 0) off n

/-- The memory that a stretch of bytes fills. -/
def asMem (bs : List Byte) : Mem := fun i => bs.getD i 0

/-- `struct elfhdr`, as far as `exec` reads it. -/
structure Elfhdr where
  magic : Nat
  entry : Nat
  phoff : Nat
  phnum : Nat

/-- `sizeof(struct elfhdr)`. -/
def elfhdrSize : Nat := 52

/-- `ELF_MAGIC`. -/
def elfMagic : Nat := 0x464C457F

def Elfhdr.ofBytes (bs : List Byte) : Elfhdr where
  magic := readWord (asMem bs) 0
  entry := readWord (asMem bs) 24
  phoff := readWord (asMem bs) 28
  phnum := (asMem bs 44).toNat + 256 * (asMem bs 45).toNat

/-- `struct proghdr`, as far as `exec` reads it. -/
structure Proghdr where
  type : Nat
  off : Nat
  vaddr : Nat
  filesz : Nat
  memsz : Nat

/-- `sizeof(struct proghdr)`. -/
def proghdrSize : Nat := 32

/-- `ELF_PROG_LOAD`. -/
def elfProgLoad : Nat := 1

def Proghdr.ofBytes (bs : List Byte) : Proghdr where
  type := readWord (asMem bs) 0
  off := readWord (asMem bs) 4
  vaddr := readWord (asMem bs) 8
  filesz := readWord (asMem bs) 16
  memsz := readWord (asMem bs) 20

/-- `MAXARG`. -/
def maxarg : Nat := 32

/-! ## Operations -/

inductive ExecOp
  | vm (o : Op 0)
  | beginOp
  | endOp
  | namei
  | ilock
  | iunlockput
  /-- Store bytes at `dst`, meant for address `va` of the image. -/
  | memmove (d : PageDir) (va dst : Nat) (bs : List Byte)
  /-- Read the page-table entry at address 0. -/
  | nullPte
  /-- The panic of `loaduvm` for an address that is not page aligned. -/
  | misaligned
  | setName (name : List Byte)
  | setFrame (eip esp : Nat)

def ExecOp.Res : ExecOp → Type
  | .vm o => o.Res
  | .namei => Bool
  | .nullPte => Option Pte
  | .misaligned => Empty
  | _ => Unit

abbrev ExecProg := Prog ExecOp.Res

def ExecOp.ofVm (o : Op 0) (r : (ExecOp.vm o).Res) : o.Res := r

def vm {α : Type} (x : VmProg 0 α) : ExecProg α := x.embed ExecOp.vm ExecOp.ofVm

def beginOp : ExecProg Unit := Prog.op ExecOp.beginOp

def endOp : ExecProg Unit := Prog.op ExecOp.endOp

def namei : ExecProg Bool := Prog.op ExecOp.namei

def ilock : ExecProg Unit := Prog.op ExecOp.ilock

def iunlockput : ExecProg Unit := Prog.op ExecOp.iunlockput

def memmove (d : PageDir) (va dst : Nat) (bs : List Byte) : ExecProg Unit :=
  Prog.op (ExecOp.memmove d va dst bs)

def nullPte : ExecProg (Option Pte) := Prog.op ExecOp.nullPte

def misaligned {α : Type} : ExecProg α := Prog.call ExecOp.misaligned Empty.elim

def setName (name : List Byte) : ExecProg Unit := Prog.op (ExecOp.setName name)

def setFrame (eip esp : Nat) : ExecProg Unit := Prog.op (ExecOp.setFrame eip esp)

/-! ## Loading -/

/-- `P2V` of a page. -/
def p2v (page : Nat) : Nat := uint (page * pgsize + kernbase)

/-- The page that an entry points to; an entry that is not present is zero. -/
def pteAddr : Option Pte → Nat
  | none => 0
  | some x => x.page

/-- The loop of `loaduvm` from `i` on, which takes at most the given number of rounds. -/
def loadBytes (file : List Byte) (d : PageDir) (addr offset sz : Nat) : Nat → Nat → ExecProg Bool
  | 0, _ => return true
  | k + 1, i =>
    if i < sz then
      match d.table (pdx (uint (addr + i))) with
      | none => vm (panic .loaduvm)
      | some t =>
        let n := if sz - i < pgsize then sz - i else pgsize
        match readi file (uint (offset + i)) n with
        | none => return false
        | some bs => do
            memmove d (uint (addr + i)) (p2v (pteAddr (t.pte (ptx (uint (addr + i)))))) bs
            if bs.length = n then loadBytes file d addr offset sz k (i + pgsize)
            else return false
    else return true

/-- `loaduvm`. -/
def loaduvm (file : List Byte) (d : PageDir) (addr offset sz : Nat) : ExecProg Bool :=
  if addr % pgsize ≠ 0 then misaligned
  else loadBytes file d addr offset sz (sz / pgsize + 1) 0

/-- `readi` of program header `i`, if it is there in full. -/
def readProghdr (file : List Byte) (off : Nat) : Option Proghdr :=
  match readi file off proghdrSize with
  | none => none
  | some bs => if bs.length = proghdrSize then some (.ofBytes bs) else none

/-- The loop of `exec` over the program headers, of which `k` are left; `none` is the jump to
`bad`. -/
def loadProgram (file : List Byte) : Nat → Nat → PageDir → Nat → ExecProg (PageDir × Option Nat)
  | 0, _, d, sz => return (d, some sz)
  | k + 1, off, d, sz =>
    match readProghdr file off with
    | none => return (d, none)
    | some ph =>
      let top := uint (ph.vaddr + ph.memsz)
      if ph.type ≠ elfProgLoad then loadProgram file k (uint (off + proghdrSize)) d sz
      else if ph.memsz < ph.filesz then return (d, none)
      else if top < ph.vaddr then return (d, none)
      else do
        let (d, sz) ← vm (allocuvm d sz top)
        if sz = 0 then return (d, none)
        else if ph.vaddr % pgsize ≠ 0 then return (d, none)
        else do
          if ← loaduvm file d ph.vaddr ph.off ph.filesz then
            loadProgram file k (uint (off + proghdrSize)) d sz
          else return (d, none)

/-! ## The user stack -/

/-- `*walkpgdir(pgdir, uva, 0)`. There is no test for a page table that is missing. -/
def loadPte (d : PageDir) (uva : Nat) : ExecProg (Option Pte) :=
  match d.table (pdx uva) with
  | none => nullPte
  | some t => return t.pte (ptx uva)

/-- `uva2ka`. -/
def uva2ka (d : PageDir) (uva : Nat) : ExecProg Nat := do
  match ← loadPte d uva with
  | none => return 0
  | some x => if x.user = false then return 0 else return p2v x.page

/-- The loop of `copyout`, which takes at most the given number of rounds. -/
def copyoutLoop (d : PageDir) : Nat → Nat → List Byte → ExecProg Int
  | 0, _, _ => return 0
  | k + 1, va, buf =>
    if buf = [] then return 0
    else do
      let va0 := pgrounddown va
      let pa0 ← uva2ka d va0
      if pa0 = 0 then return -1
      else do
        let n := if buf.length < pgsize - (va - va0) then buf.length else pgsize - (va - va0)
        memmove d va (uint (pa0 + (va - va0))) (buf.take n)
        copyoutLoop d k (uint (va0 + pgsize)) (buf.drop n)

/-- `copyout`. -/
def copyout (d : PageDir) (va : Nat) (p : List Byte) : ExecProg Int := copyoutLoop d p.length va p

/-- The loop of `exec` over the arguments from number `argc` on: the stack pointer and the
addresses of the strings; `none` is the jump to `bad`. -/
def pushStrings (d : PageDir) : List (List Byte) → Nat → Nat → ExecProg (Option (Nat × List Nat))
  | [], _, sp => return some (sp, [])
  | arg :: argv, argc, sp =>
    if maxarg ≤ argc then return none
    else do
      let sp := uint (sp - (arg.length + 1)) / 4 * 4
      if (← copyout d sp (arg ++ [0])) < 0 then return none
      else do
        match ← pushStrings d argv (argc + 1) sp with
        | none => return none
        | some (last, ptrs) => return some (last, sp :: ptrs)

/-- `ustack`. -/
def ustack (sp : Nat) (ptrs : List Nat) : List Nat :=
  [0xffffffff, ptrs.length, uint (sp - (ptrs.length + 1) * 4)] ++ ptrs ++ [0]

/-- Push the arguments; the result is the final stack pointer. -/
def pushArguments (d : PageDir) (argv : List (List Byte)) (sp : Nat) : ExecProg (Option Nat) := do
  match ← pushStrings d argv 0 sp with
  | none => return none
  | some (sp, ptrs) => do
      let last := uint (sp - (3 + ptrs.length + 1) * 4)
      if (← copyout d last ((ustack sp ptrs).flatMap wordBytes)) < 0 then return none
      else return some last

/-! ## The call -/

/-- The part of the path behind the last slash. -/
def lastElement : List Byte → List Byte → List Byte
  | last, [] => last
  | last, b :: s => lastElement (if b = 47 then s else last) s

/-- The label `bad` of `exec`. -/
def bad (pgdir : Option PageDir) (ip : Bool) : ExecProg Int := do
  match pgdir with
  | none => pure ()
  | some d => vm (freevm d)
  if ip then do
    iunlockput
    endOp
    return -1
  else return -1

/-- `exec` from where the new image is complete. -/
def commit (path : List Byte) (entry : Nat) (d : PageDir) (sz sp : Nat) : ExecProg Int := do
  setName ((lastElement path path).take 15)
  let old ← vm (swap d sz)
  setFrame entry sp
  vm (freevm old)
  return 0

/-- `exec` from where the stack pages are there. -/
@[irreducible] def fillStack (path : List Byte) (entry : Nat) (argv : List (List Byte))
    (d : PageDir) (sz : Nat) : ExecProg Int := do
  let d ← vm (clearpteu d (sz - 2 * pgsize))
  match ← pushArguments d argv sz with
  | none => bad (some d) false
  | some sp => commit path entry d sz sp

/-- `exec` from where the segments are loaded and the file is closed. -/
@[irreducible] def buildStack (path : List Byte) (entry : Nat) (argv : List (List Byte))
    (d : PageDir) (sz : Nat) : ExecProg Int := do
  let sz := pgroundup sz
  let (d, sz) ← vm (allocuvm d sz (uint (sz + 2 * pgsize)))
  if sz = 0 then bad (some d) false
  else fillStack path entry argv d sz

/-- `exec` from where the inode is locked. -/
@[irreducible] def loadFile (k : KernelImage) (path file : List Byte) (argv : List (List Byte)) :
    ExecProg Int :=
  match readi file 0 elfhdrSize with
  | none => bad none true
  | some bs =>
    let elf := Elfhdr.ofBytes bs
    if bs.length ≠ elfhdrSize then bad none true
    else if elf.magic ≠ elfMagic then bad none true
    else do
      match ← vm (setupkvm k) with
      | none => bad none true
      | some d => do
          match ← loadProgram file elf.phnum elf.phoff d 0 with
          | (d, none) => bad (some d) true
          | (d, some sz) => do
              iunlockput
              endOp
              buildStack path elf.entry argv d sz

/-- `exec` of a path that names a regular file with these bytes, or nothing. -/
def execFile (k : KernelImage) (path file : List Byte) (argv : List (List Byte)) : ExecProg Int := do
  beginOp
  if ← namei then do
    ilock
    loadFile k path file argv
  else do
    endOp
    return -1

/-! ## The machine -/

/-- The calls of the file system that `exec` makes. -/
inductive FsCall
  | beginOp
  | endOp
  | namei
  | ilock
  | iunlockput
  deriving DecidableEq

/-- Bytes stored for an address of an image. -/
structure Store where
  d : PageDir
  va : Nat
  dst : Nat
  bs : List Byte

/-- What `exec` replaces of the calling process. -/
structure Caller where
  pgdir : PageDir
  sz : Nat
  name : List Byte
  eip : Nat
  esp : Nat

structure Machine where
  free : List Nat
  mem : Mem
  /-- What the word at address 0 of the caller says as a page-table entry. -/
  zero : Option Pte
  found : Bool
  caller : Caller
  calls : List FsCall
  stores : List Store

/-- Why a run ends without a result. -/
inductive Stop
  | panic (p : Panic)
  | misaligned
  | wild
  | impossible
  deriving DecidableEq

namespace Machine

def call (m : Machine) (c : FsCall) : Machine := { m with calls := m.calls ++ [c] }

/-- Fill a page with one byte. -/
def fill (m : Machine) (page : Nat) (b : Byte) : Machine :=
  { m with mem := fun a => if p2v page ≤ a ∧ a < p2v page + pgsize then b else m.mem a }

/-- An operation on memory. -/
def vmStep (k : KernelImage) : (o : Op 0) → Machine → Except Stop (o.Res × Machine)
  | .kalloc _, m =>
    match m.free with
    | [] => .ok (none, m)
    | page :: rest => .ok (some page, { m with free := rest }.fill page 0)
  | .kfree page, m =>
    if page < k.first ∨ physTop / pgsize ≤ page then .error (.panic .kfree)
    else .ok ((), { m with free := page :: m.free }.fill page 1)
  | .swap d sz, m => .ok (m.caller.pgdir, { m with caller := { m.caller with pgdir := d, sz := sz } })
  | .panic p, _ => .error (.panic p)
  | _, _ => .error .impossible

def step (k : KernelImage) : (o : ExecOp) → Machine → Except Stop (o.Res × Machine)
  | .vm o, m => m.vmStep k o
  | .beginOp, m => .ok ((), m.call .beginOp)
  | .endOp, m => .ok ((), m.call .endOp)
  | .namei, m => .ok (m.found, m.call .namei)
  | .ilock, m => .ok ((), m.call .ilock)
  | .iunlockput, m => .ok ((), m.call .iunlockput)
  | .memmove d va dst bs, m =>
    .ok ((), { m with mem := blit m.mem dst bs, stores := m.stores ++ [⟨d, va, dst, bs⟩] })
  | .nullPte, m =>
    match m.zero with
    | none => .ok (none, m)
    | some x => if x.user = true ∧ p2v x.page ≠ 0 then .error .wild else .ok (some x, m)
  | .misaligned, _ => .error .misaligned
  | .setName name, m => .ok ((), { m with caller := { m.caller with name := name } })
  | .setFrame eip esp, m =>
    .ok ((), { m with caller := { m.caller with eip := eip, esp := esp } })

/-! ### What the operations do -/

variable {k : KernelImage} (m : Machine)

@[simp] theorem run_beginOp : Vm.beginOp.run (step k) m = .ok ((), m.call .beginOp) := rfl

@[simp] theorem run_endOp : Vm.endOp.run (step k) m = .ok ((), m.call .endOp) := rfl

@[simp] theorem run_namei : Vm.namei.run (step k) m = .ok (m.found, m.call .namei) := rfl

@[simp] theorem run_ilock : Vm.ilock.run (step k) m = .ok ((), m.call .ilock) := rfl

@[simp] theorem run_iunlockput : Vm.iunlockput.run (step k) m = .ok ((), m.call .iunlockput) := rfl

@[simp] theorem run_memmove (d : PageDir) (va dst : Nat) (bs : List Byte) :
    (Vm.memmove d va dst bs).run (step k) m =
      .ok ((), { m with mem := blit m.mem dst bs, stores := m.stores ++ [⟨d, va, dst, bs⟩] }) := rfl

theorem run_nullPte : Vm.nullPte.run (step k) m = match m.zero with
    | none => .ok (none, m)
    | some x => if x.user = true ∧ p2v x.page ≠ 0 then .error .wild else .ok (some x, m) :=
  Prog.run_op (step k) ExecOp.nullPte m

@[simp] theorem run_setName (name : List Byte) :
    (Vm.setName name).run (step k) m =
      .ok ((), { m with caller := { m.caller with name := name } }) := rfl

@[simp] theorem run_setFrame (eip esp : Nat) :
    (Vm.setFrame eip esp).run (step k) m =
      .ok ((), { m with caller := { m.caller with eip := eip, esp := esp } }) := rfl

theorem vmStep_kalloc_nil (site : Site) (h : m.free = []) :
    m.vmStep k (.kalloc site) = .ok ((none : Option Nat), m) := by
  simp only [vmStep, h]

theorem vmStep_kalloc_cons (site : Site) {page : Nat} {rest : List Nat} (h : m.free = page :: rest) :
    m.vmStep k (.kalloc site) = .ok ((some page : Option Nat), { m with free := rest }.fill page 0) := by
  simp only [vmStep, h]

theorem vmStep_kfree {page : Nat} (h : k.first ≤ page ∧ page < physTop / pgsize) :
    m.vmStep k (.kfree page) = .ok ((), { m with free := page :: m.free }.fill page 1) := by
  change (if page < k.first ∨ physTop / pgsize ≤ page then _ else _) = _
  rw [if_neg (by omega)]

/-- A program of `Vm.PageTable` runs as an embedded one. -/
theorem run_vm {α : Type} (x : VmProg 0 α) :
    (Vm.vm x).run (step k) m = x.run (fun o m => m.vmStep k o) m := by
  rw [Vm.vm, Prog.run_embed]
  have hstep : (fun (o : Op 0) (m : Machine) => (step k (.vm o) m).map fun r =>
      (ExecOp.ofVm o r.1, r.2)) = fun o m => m.vmStep k o := by
    funext o m
    change (m.vmStep k o).map (fun r => (r.1, r.2)) = _
    cases m.vmStep k o <;> rfl
  rw [hstep]

end Machine

end Xv6Containers.Vm
