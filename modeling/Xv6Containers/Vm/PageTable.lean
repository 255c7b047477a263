import Xv6Containers.Lib.Program
import Xv6Containers.Param

/-!
# Page tables and the calls that change them

The code of `vm.c` and the parts of `proc.c`, `exec.c`, `pipe.c` and `kalloc.c`
that allocate and free physical pages: two-level page directories, the loops that
map, copy and free user memory with their error paths, and the calls of a process
made out of them.

## Implementation notes

A physical page is its page number. A page directory is a value that its process
passes along, since no other process touches it; the contents of user memory are
left out. `lend` and `giveBack` stand around the stretch in which `growproc`
changes the directory of the running process in place; `lend` names the increment. A site tells the calls of
`kalloc` for page-table pages in `copyuvm` from all others. What `exec` reads from
the file and what `copyout` makes of the arguments are part of its input. Sizes
and addresses are `uint`. Which zombies are
children of the caller of `wait` is left open, and each end of a pipe is closed
once.
-/

namespace Xv6Containers.Vm

open Lib.Program

/-! ## Addresses -/

/-- `PGSIZE`. -/
def pgsize : Nat := 4096

/-- `NPDENTRIES` and `NPTENTRIES`. -/
def nentries : Nat := 1024

/-- `KERNBASE`: the first kernel virtual address. -/
def kernbase : Nat := 0x80000000

/-- `EXTMEM`: the start of extended memory. -/
def extmem : Nat := 0x100000

/-- `KERNLINK`: where the kernel is linked. -/
def kernlink : Nat := kernbase + extmem

/-- `PHYSTOP`: the top of physical memory. -/
def physTop : Nat := 0xE000000

/-- `DEVSPACE`: devices at high addresses. -/
def devspace : Nat := 0xFE000000

/-- The value of an expression of type `uint`. -/
def uint (x : Int) : Nat := (x % 2 ^ 32).toNat

/-- `PGROUNDUP`. -/
def pgroundup (sz : Nat) : Nat := uint (sz + pgsize - 1) / pgsize * pgsize

/-- `PGROUNDDOWN`. -/
def pgrounddown (a : Nat) : Nat := a / pgsize * pgsize

/-- `PDX`. -/
def pdx (va : Nat) : Nat := va / (pgsize * nentries) % nentries

/-- `PTX`. -/
def ptx (va : Nat) : Nat := va / pgsize % nentries

/-- The addresses that the linker gives the kernel: of its data, and the first page behind it. -/
structure KernelImage where
  data : Nat
  first : Nat
  aligned : data % pgsize = 0
  kernlink_lt : kernlink < data
  lt_physTop : data < kernbase + physTop

/-! ## Page directories -/

/-- A present page-table entry. -/
structure Pte where
  page : Nat
  writable : Bool
  user : Bool

/-- A page-table page. -/
structure Table where
  page : Nat
  pte : Nat → Option Pte

structure PageDir where
  page : Nat
  table : Nat → Option Table

namespace PageDir

/-- The entry of a virtual address, if its page-table page exists. -/
def pte (d : PageDir) (va : Nat) : Option Pte := (d.table (pdx va)).bind fun t => t.pte (ptx va)

/-- Write the entry of a virtual address. -/
def setPte (d : PageDir) (va : Nat) (x : Option Pte) : PageDir :=
  match d.table (pdx va) with
  | none => d
  | some t =>
    let t := { t with pte := Function.update t.pte (ptx va) x }
    { d with table := Function.update d.table (pdx va) (some t) }

/-- Add an empty page-table page. -/
def addTable (d : PageDir) (va page : Nat) : PageDir :=
  { d with table := Function.update d.table (pdx va) (some ⟨page, fun _ => none⟩) }

/-- A directory without page-table pages. -/
def empty (page : Nat) : PageDir := ⟨page, fun _ => none⟩

end PageDir

/-! ## Primitive operations -/

/-- Who calls `kalloc`. -/
inductive Site
  | copyTable
  | other
  deriving DecidableEq

inductive Panic
  | remap
  | copyNoPte
  | copyNotPresent
  | loaduvm
  | clearpteu
  | kfree
  deriving DecidableEq

inductive Op (n : Nat)
  | kalloc (site : Site)
  | kfree (page : Nat)
  | allocSlot
  | freeSlot (np : Fin n)
  | self
  | lend (i : BitVec 32)
  | giveBack (d : PageDir) (sz : Nat)
  | swap (d : PageDir) (sz : Nat)
  | runnable (np : Fin n) (kstack : Nat) (d : PageDir) (sz : Nat)
  | zombie
  | reap (q : Fin n)
  | newPipe (page : Nat)
  | closeEnd (page : Nat) (writable : Bool)
  | panic (p : Panic)

def Op.Res {n : Nat} : Op n → Type
  | .kalloc _ => Option Nat
  | .allocSlot => Option (Fin n)
  | .self | .lend _ => PageDir × Nat
  | .swap _ _ => PageDir
  | .reap _ => Option (Nat × PageDir)
  | .closeEnd _ _ => Bool
  | .panic _ => Empty
  | _ => Unit

/-- A program of a kernel with `n` process slots. -/
abbrev VmProg (n : Nat) := Prog (Op.Res (n := n))

variable {n : Nat} {α : Type}

def kalloc (site : Site) : VmProg n (Option Nat) := Prog.op (Op.kalloc site)

def kfree (page : Nat) : VmProg n Unit := Prog.op (Op.kfree page)

def allocSlot : VmProg n (Option (Fin n)) := Prog.op Op.allocSlot

def freeSlot (np : Fin n) : VmProg n Unit := Prog.op (Op.freeSlot np)

def self : VmProg n (PageDir × Nat) := Prog.op Op.self

def lend (i : BitVec 32) : VmProg n (PageDir × Nat) := Prog.op (Op.lend i)

def giveBack (d : PageDir) (sz : Nat) : VmProg n Unit := Prog.op (Op.giveBack d sz)

def swap (d : PageDir) (sz : Nat) : VmProg n PageDir := Prog.op (Op.swap d sz)

def runnable (np : Fin n) (kstack : Nat) (d : PageDir) (sz : Nat) : VmProg n Unit :=
  Prog.op (Op.runnable np kstack d sz)

def zombie : VmProg n Unit := Prog.op Op.zombie

def reap (q : Fin n) : VmProg n (Option (Nat × PageDir)) := Prog.op (Op.reap q)

def newPipe (page : Nat) : VmProg n Unit := Prog.op (Op.newPipe page)

def closeEnd (page : Nat) (writable : Bool) : VmProg n Bool := Prog.op (Op.closeEnd page writable)

def panic (p : Panic) : VmProg n α := Prog.call (Op.panic p) Empty.elim

/-! ## Mapping -/

/-- `walkpgdir` with `alloc` set; the flag says that the entry exists. -/
def walkpgdir (site : Site) (d : PageDir) (va : Nat) : VmProg n (PageDir × Bool) :=
  match d.table (pdx va) with
  | some _ => return (d, true)
  | none => do
      match ← kalloc site with
      | none => return (d, false)
      | some page => return (d.addTable va page, true)

/-- One round of the loop of `mappages`. -/
def mapPage (site : Site) (d : PageDir) (a : Nat) (x : Pte) : VmProg n (PageDir × Bool) := do
  let (d, found) ← walkpgdir site d a
  if found then
    if (d.pte a).isSome then panic .remap
    else return (d.setPte a (some x), true)
  else return (d, false)

/-- The loop of `mappages` with `k` rounds after the next one. -/
def mapLoop (site : Site) : Nat → PageDir → Nat → Pte → VmProg n (PageDir × Bool)
  | 0, d, a, x => mapPage site d a x
  | k + 1, d, a, x => do
      let (d, ok) ← mapPage site d a x
      if ok then mapLoop site k d (uint (a + pgsize)) { x with page := x.page + 1 }
      else return (d, false)

def mappages (site : Site) (d : PageDir) (va size : Nat) (x : Pte) : VmProg n (PageDir × Bool) :=
  let a := pgrounddown va
  let last := pgrounddown (uint (va + size - 1))
  mapLoop site (uint (last - a) / pgsize) d a x

/-! ## Freeing -/

/-- The loop of `deallocuvm`, which takes at most the given number of rounds. -/
def deallocLoop (oldsz : Nat) : Nat → PageDir → Nat → VmProg n PageDir
  | 0, d, _ => return d
  | k + 1, d, a =>
    if a < oldsz then
      match d.table (pdx a) with
      | none =>
        -- Continue at the next directory entry.
        let a := uint ((pdx a + 1) * (pgsize * nentries) - pgsize)
        deallocLoop oldsz k d (uint (a + pgsize))
      | some t =>
        match t.pte (ptx a) with
        | none => deallocLoop oldsz k d (uint (a + pgsize))
        | some x =>
          if x.page = 0 then panic .kfree
          else do
            kfree x.page
            deallocLoop oldsz k (d.setPte a none) (uint (a + pgsize))
    else return d

def deallocuvm (d : PageDir) (oldsz newsz : Nat) : VmProg n (PageDir × Nat) :=
  if oldsz ≤ newsz then return (d, oldsz)
  else do
    let d ← deallocLoop oldsz (oldsz / pgsize + 1) d (pgroundup newsz)
    return (d, newsz)

/-- Free the page-table pages of the last `k` directory entries. -/
def freeTables (d : PageDir) : Nat → VmProg n Unit
  | 0 => return ()
  | k + 1 => do
      match d.table (nentries - (k + 1)) with
      | none => freeTables d k
      | some t => do
          kfree t.page
          freeTables d k

def freevm (d : PageDir) : VmProg n Unit := do
  let (d, _) ← deallocuvm d kernbase 0
  freeTables d nentries
  kfree d.page

/-! ## Kernel mappings -/

/-- An entry of `kmap`. -/
structure Kmap where
  virt : Nat
  physStart : Nat
  physEnd : Nat
  writable : Bool

/-- `kmap`. -/
def KernelImage.kmap (k : KernelImage) : List Kmap :=
  [⟨kernbase, 0, extmem, true⟩,
    ⟨kernlink, kernlink - kernbase, k.data - kernbase, false⟩,
    ⟨k.data, k.data - kernbase, physTop, true⟩,
    ⟨devspace, devspace, 0, true⟩]

/-- The loop of `setupkvm`. -/
def setupLoop : List Kmap → PageDir → VmProg n (Option PageDir)
  | [], d => return some d
  | m :: ms, d => do
      let (d, ok) ← mappages .other d m.virt (uint (m.physEnd - m.physStart))
        ⟨m.physStart / pgsize, m.writable, false⟩
      if ok then setupLoop ms d
      else do
        freevm d
        return none

def setupkvm (k : KernelImage) : VmProg n (Option PageDir) := do
  match ← kalloc .other with
  | none => return none
  | some page => setupLoop k.kmap (PageDir.empty page)

/-! ## User memory -/

/-- The loop of `allocuvm`, which takes at most the given number of rounds. -/
def allocLoop (oldsz newsz : Nat) : Nat → PageDir → Nat → VmProg n (PageDir × Nat)
  | 0, d, _ => return (d, newsz)
  | k + 1, d, a =>
    if a < newsz then do
      match ← kalloc .other with
      | none => do
          let (d, _) ← deallocuvm d newsz oldsz
          return (d, 0)
      | some mem => do
          let (d, ok) ← mappages .other d a pgsize ⟨mem, true, true⟩
          if ok then allocLoop oldsz newsz k d (uint (a + pgsize))
          else do
            let (d, _) ← deallocuvm d newsz oldsz
            kfree mem
            return (d, 0)
    else return (d, newsz)

def allocuvm (d : PageDir) (oldsz newsz : Nat) : VmProg n (PageDir × Nat) :=
  if kernbase ≤ newsz then return (d, 0)
  else if newsz < oldsz then return (d, oldsz)
  else allocLoop oldsz newsz (newsz / pgsize + 1) d (pgroundup oldsz)

/-- The loop of `copyuvm`, which takes at most the given number of rounds. -/
def copyLoop (pgdir : PageDir) (sz : Nat) : Nat → PageDir → Nat → VmProg n (Option PageDir)
  | 0, d, _ => return some d
  | k + 1, d, i =>
    if i < sz then
      match pgdir.table (pdx i) with
      | none => panic .copyNoPte
      | some t =>
        match t.pte (ptx i) with
        | none => panic .copyNotPresent
        | some x => do
            match ← kalloc .other with
            | none => do
                freevm d
                return none
            | some mem => do
                let (d, ok) ← mappages .copyTable d i pgsize { x with page := mem }
                if ok then copyLoop pgdir sz k d (uint (i + pgsize))
                else do
                  freevm d
                  return none
    else return some d

def copyuvm (k : KernelImage) (pgdir : PageDir) (sz : Nat) : VmProg n (Option PageDir) := do
  match ← setupkvm k with
  | none => return none
  | some d => copyLoop pgdir sz (sz / pgsize + 1) d 0

/-! ## Calls -/

/-- `growproc` on the memory of the running process: its result, and the page directory and
the size that it leaves. -/
def grow (i : BitVec 32) (d : PageDir) (sz : Nat) : VmProg n (Int × PageDir × Nat) :=
  let newsz := uint (sz + i.toInt)
  if 0 < i.toInt then do
    let (d, r) ← allocuvm d sz newsz
    return if r = 0 then (-1, d, sz) else (0, d, r)
  else if i.toInt < 0 then do
    let (d, r) ← deallocuvm d sz newsz
    return if r = 0 then (-1, d, sz) else (0, d, r)
  else return (0, d, sz)

def growproc (i : BitVec 32) : VmProg n Int := do
  let (d, sz) ← lend i
  let (r, d, sz) ← grow i d sz
  giveBack d sz
  return r

/-- A program header; `readi` says which pages of the segment are read in full. -/
structure Segment where
  load : Bool
  vaddr : UInt32
  memsz : UInt32
  filesz : UInt32
  readi : Nat → Bool

/-- What `exec` finds: whether the header is good, the program headers up to one that cannot
be read, and whether the arguments fit on the stack. -/
structure Program where
  header : Bool
  segments : List (Option Segment)
  args : Bool

/-- The loop of `loaduvm`, for the pages from `i` on. -/
def loadLoop (d : PageDir) (ph : Segment) : Nat → Nat → VmProg n Bool
  | 0, _ => return true
  | k + 1, i =>
    if i < ph.filesz.toNat then
      match d.table (pdx (ph.vaddr.toNat + i)) with
      | none => panic .loaduvm
      | some _ => if ph.readi (i / pgsize) then loadLoop d ph k (i + pgsize) else return false
    else return true

/-- The loop of `exec` over the program headers; `none` is the jump to `bad`. -/
def loadSegments : List (Option Segment) → PageDir → Nat → VmProg n (PageDir × Option Nat)
  | [], d, sz => return (d, some sz)
  | none :: _, d, _ => return (d, none)
  | some ph :: phs, d, sz =>
    let top := uint (ph.vaddr.toNat + ph.memsz.toNat)
    if ph.load = false then loadSegments phs d sz
    else if ph.memsz < ph.filesz then return (d, none)
    else if top < ph.vaddr.toNat then return (d, none)
    else do
      let (d, sz) ← allocuvm d sz top
      if sz = 0 then return (d, none)
      else if ph.vaddr.toNat % pgsize ≠ 0 then return (d, none)
      else do
        if ← loadLoop d ph (ph.filesz.toNat / pgsize + 1) 0 then loadSegments phs d sz
        else return (d, none)

/-- `clearpteu`. -/
def clearpteu (d : PageDir) (va : Nat) : VmProg n PageDir :=
  match d.table (pdx va) with
  | none => panic .clearpteu
  | some _ => return d.setPte va ((d.pte va).map fun x => { x with user := false })

/-- The label `bad` of `exec` after `setupkvm`. -/
def execBad (d : PageDir) : VmProg n Int := do
  freevm d
  return -1

def exec (k : KernelImage) (x : Program) : VmProg n Int :=
  if x.header = false then return -1
  else do
    match ← setupkvm k with
    | none => return -1
    | some d => do
        let (d, sz) ← loadSegments x.segments d 0
        match sz with
        | none => execBad d
        | some sz => do
            let sz := pgroundup sz
            let (d, sz) ← allocuvm d sz (uint (sz + 2 * pgsize))
            if sz = 0 then execBad d
            else do
              let d ← clearpteu d (sz - 2 * pgsize)
              if x.args then do
                let old ← swap d sz
                freevm old
                return 0
              else execBad d

def fork (k : KernelImage) : VmProg n Int := do
  match ← allocSlot with
  | none => return -1
  | some np => do
      match ← kalloc .other with
      | none => do
          freeSlot np
          return -1
      | some kstack => do
          let (pgdir, sz) ← self
          match ← copyuvm k pgdir sz with
          | none => do
              kfree kstack
              freeSlot np
              return -1
          | some d => do
              runnable np kstack d sz
              return 0

def exit : VmProg n Int := do
  zombie
  return 0

/-- `wait`, when it looks at slot `q`. -/
def wait (q : Fin n) : VmProg n Int := do
  match ← reap q with
  | none => return -1
  | some (kstack, d) => do
      kfree kstack
      freevm d
      freeSlot q
      return 0

/-- `pipealloc`, when `filealloc` finds two files or not. -/
def pipealloc (files : Bool) : VmProg n Int :=
  if files = false then return -1
  else do
    match ← kalloc .other with
    | none => return -1
    | some page => do
        newPipe page
        return 0

def pipeclose (page : Nat) (writable : Bool) : VmProg n Int := do
  if ← closeEnd page writable then do
    kfree page
    return 0
  else return 0

inductive Call (n : Nat)
  | fork
  | exec (x : Program)
  | sbrk (i : BitVec 32)
  | exit
  | wait (q : Fin n)
  | pipe (files : Bool)
  | close (page : Nat) (writable : Bool)

def code (k : KernelImage) : Call n → VmProg n Int
  | .fork => fork k
  | .exec x => exec k x
  | .sbrk i => growproc i
  | .exit => exit
  | .wait q => wait q
  | .pipe files => pipealloc files
  | .close page writable => pipeclose page writable

/-! ## The machine -/

/-- A slot of the process table with the pages it owns. -/
inductive Slot
  | unused
  | embryo
  | live (kstack : Nat) (d : PageDir) (sz : Nat)
  | lent (kstack : Nat)
  | zombie (kstack : Nat) (d : PageDir)
  | reaped

def Slot.isUnused : Slot → Bool
  | .unused => true
  | _ => false

/-- The free list, the process table, and the pipes with the state of their two ends. -/
structure Memory (n : Nat) where
  free : List Nat
  slot : Fin n → Slot
  pipes : List (Nat × Bool × Bool)

/-- Whether the end to be closed, for reading or for writing, is open. -/
def endOpen (writable : Bool) (ends : Bool × Bool) : Bool := if writable then ends.2 else ends.1

/-- The two ends after one of them was closed. -/
def closeEnds (writable : Bool) (ends : Bool × Bool) : Bool × Bool :=
  if writable then (ends.1, false) else (false, ends.2)

/-- An operation of process `p`; an error is a panic or an operation that is not possible. -/
def execOp (k : KernelImage) (p : Fin n) :
    (o : Op n) → Memory n → Except Unit (o.Res × Memory n)
  | .kalloc _, s =>
    match s.free with
    | [] => .ok (none, s)
    | page :: rest => .ok (some page, { s with free := rest })
  | .kfree page, s =>
    if page < k.first ∨ physTop / pgsize ≤ page then .error ()
    else .ok ((), { s with free := page :: s.free })
  | .allocSlot, s =>
    match (List.finRange n).find? fun q => (s.slot q).isUnused with
    | none => .ok (none, s)
    | some q => .ok (some q, { s with slot := Function.update s.slot q .embryo })
  | .freeSlot np, s => .ok ((), { s with slot := Function.update s.slot np .unused })
  | .self, s =>
    match s.slot p with
    | .live _ d sz => .ok ((d, sz), s)
    | _ => .error ()
  | .lend _, s =>
    match s.slot p with
    | .live kstack d sz => .ok ((d, sz), { s with slot := Function.update s.slot p (.lent kstack) })
    | _ => .error ()
  | .giveBack d sz, s =>
    match s.slot p with
    | .lent kstack => .ok ((), { s with slot := Function.update s.slot p (.live kstack d sz) })
    | _ => .error ()
  | .swap d sz, s =>
    match s.slot p with
    | .live kstack old _ =>
      .ok (old, { s with slot := Function.update s.slot p (.live kstack d sz) })
    | _ => .error ()
  | .runnable np kstack d sz, s =>
    .ok ((), { s with slot := Function.update s.slot np (.live kstack d sz) })
  | .zombie, s =>
    match s.slot p with
    | .live kstack d _ => .ok ((), { s with slot := Function.update s.slot p (.zombie kstack d) })
    | _ => .error ()
  | .reap q, s =>
    match s.slot q with
    | .zombie kstack d =>
      .ok (some (kstack, d), { s with slot := Function.update s.slot q .reaped })
    | _ => .ok (none, s)
  | .newPipe page, s => .ok ((), { s with pipes := (page, true, true) :: s.pipes })
  | .closeEnd page writable, s =>
    match s.pipes.find? fun x => x.1 = page with
    | none => .error ()
    | some (_, ends) =>
      if endOpen writable ends = false then .error ()
      else if closeEnds writable ends = (false, false) then
        .ok (true, { s with pipes := s.pipes.erase (page, ends) })
      else
        .ok (false, { s with
          pipes := (page, closeEnds writable ends) :: s.pipes.erase (page, ends) })
  | .panic _, _ => .error ()

end Xv6Containers.Vm
