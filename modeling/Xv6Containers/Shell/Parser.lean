import Xv6Containers.Shell.Tokens

/-!
# The parser of the shell

The parsing functions of the shell share a cursor and look one character ahead. They
build a tree of commands or call `panic`. This module embeds them, and states the
grammar that they are meant for: derivations of token sequences, with their trees.

## Implementation notes

An entry of `argv` and the entry of `eargv` beside it are one `Span`, and a null
pointer is `none`. A write outside the arrays is an outcome of its own, as is the end
of the fuel, so that both can be excluded. The arguments are entered in the node that
`execcmd` returned while redirections are put around it; here the redirections are
collected and put around the node at the end.
-/

namespace Xv6Containers.Shell

open Lib.Memory Lib.Strings

/-- `MAXARGS`. -/
def maxargs : Nat := 10

/-- `O_RDONLY`. -/
def rdonly : Nat := 0x000

/-- `O_WRONLY|O_CREATE`. -/
def wronlyCreate : Nat := 0x001 ||| 0x200

/-! ## Trees -/

/-- The pointers of an `execcmd` to its words. -/
abbrev Argv := Fin maxargs → Option Span

/-- The fields of a `redircmd` besides the command. -/
structure Redir where
  file : Span
  mode : Nat
  fd : Nat
  deriving DecidableEq

/-- `struct cmd` with its five types. -/
inductive Cmd
  | exec (argv : Argv)
  | redir (cmd : Cmd) (r : Redir)
  | pipe (left right : Cmd)
  | list (left right : Cmd)
  | back (cmd : Cmd)

/-! ## Outcomes -/

/-- How a parsing function ends. -/
inductive Outcome (α : Type)
  | ok (a : α)
  | panic (msg : String)
  /-- A write outside `argv[0..MAXARGS)`. -/
  | overrun
  /-- The fuel is used up. -/
  | stuck

namespace Outcome

variable {α β : Type}

def bind (x : Outcome α) (f : α → Outcome β) : Outcome β :=
  match x with
  | ok a => f a
  | panic msg => panic msg
  | overrun => overrun
  | stuck => stuck

instance : Monad Outcome where
  pure := ok
  bind := bind

@[simp] theorem ok_bind (a : α) (f : α → Outcome β) : (ok a >>= f) = f a := rfl

@[simp] theorem pure_eq (a : α) : (pure a : Outcome α) = ok a := rfl

theorem bind_assoc {γ : Type} (x : Outcome α) (f : α → Outcome β) (g : β → Outcome γ) :
    (x >>= f) >>= g = x >>= fun a => f a >>= g := by
  cases x <;> rfl

/-- The function returns a value that satisfies `Q`, or panics. -/
def Meets (Q : α → Prop) : Outcome α → Prop
  | ok a => Q a
  | panic _ => True
  | overrun => False
  | stuck => False

theorem Meets.mono {Q R : α → Prop} {x : Outcome α} (hx : x.Meets Q) (h : ∀ a, Q a → R a) :
    x.Meets R := by
  cases x with
  | ok a => exact h a hx
  | panic msg => trivial
  | overrun => exact hx
  | stuck => exact hx

theorem Meets.bind {Q : α → Prop} {R : β → Prop} {x : Outcome α} {f : α → Outcome β}
    (hx : x.Meets Q) (hf : ∀ a, Q a → (f a).Meets R) : (x >>= f).Meets R := by
  cases x with
  | ok a => exact hf a hx
  | panic msg => trivial
  | overrun => exact hx
  | stuck => exact hx

end Outcome

/-! ## The functions -/

/-- The `switch` of `parseredirs`. -/
def redirOf (op : Kind) (file : Span) : Option Redir :=
  match op with
  | .op .lt => some ⟨file, rdonly, 0⟩
  | .op .gt => some ⟨file, wronlyCreate, 1⟩
  | .op .append => some ⟨file, wronlyCreate, 1⟩
  | _ => none

/-- The loop of `parseredirs`: the redirections in order. -/
def redirsLoop (es : Nat) : Nat → List Byte → Outcome (List Redir × List Byte)
  | 0, _ => .stuck
  | fuel + 1, ps =>
    let p := peek ps [Op.lt.char, Op.gt.char]
    if p.1 then
      let tok := gettoken es p.2
      let file := gettoken es tok.ps
      if file.kind ≠ .word then .panic "missing file for redirection"
      else do
        let (rs, ps) ← redirsLoop es fuel file.ps
        return ((redirOf tok.kind file.span).toList ++ rs, ps)
    else .ok ([], p.2)

/-- The redirections around a command, later ones outside. -/
def redircmds (cmd : Cmd) (rs : List Redir) : Cmd := rs.foldl Cmd.redir cmd

/-- `parseredirs`. -/
def parseredirs (es fuel : Nat) (cmd : Cmd) (ps : List Byte) : Outcome (Cmd × List Byte) := do
  let (rs, ps) ← redirsLoop es fuel ps
  return (redircmds cmd rs, ps)

/-- `cmd->argv[i] = q; cmd->eargv[i] = eq;`. -/
def Argv.write (argv : Argv) (i : Nat) (w : Option Span) : Outcome Argv :=
  if h : i < maxargs then .ok (Function.update argv ⟨i, h⟩ w) else .overrun

/-- The loop of `parseexec`, with the redirections so far. -/
def argsLoop (es : Nat) :
    Nat → Nat → Argv → List Redir → List Byte → Outcome (Argv × List Redir × List Byte)
  | 0, _, _, _, _ => .stuck
  | fuel + 1, argc, argv, rs, ps =>
    let p := peek ps [Op.bar.char, Op.rparen.char, Op.amp.char, Op.semi.char]
    let tok := gettoken es p.2
    if p.1 then do
      let argv ← argv.write argc none
      return (argv, rs, p.2)
    else if tok.kind = .eof then do
      let argv ← argv.write argc none
      return (argv, rs, tok.ps)
    else if tok.kind ≠ .word then .panic "syntax"
    else do
      let argv ← argv.write argc (some tok.span)
      if argc + 1 ≥ maxargs then .panic "too many args"
      else
        let (rs', ps) ← redirsLoop es fuel tok.ps
        argsLoop es fuel (argc + 1) argv (rs ++ rs') ps

/-- The loop of `parseline` over `&`. -/
def backLoop (es : Nat) : Nat → Cmd → List Byte → Outcome (Cmd × List Byte)
  | 0, _, _ => .stuck
  | fuel + 1, cmd, ps =>
    let p := peek ps [Op.amp.char]
    if p.1 then backLoop es fuel (.back cmd) (gettoken es p.2).ps else .ok (cmd, p.2)

mutual

/-- `parseline`. -/
def parseline (es : Nat) : Nat → List Byte → Outcome (Cmd × List Byte)
  | 0, _ => .stuck
  | fuel + 1, ps => do
      let (cmd, ps) ← parsepipe es fuel ps
      let (cmd, ps) ← backLoop es fuel cmd ps
      let p := peek ps [Op.semi.char]
      if p.1 then
        let (right, ps) ← parseline es fuel (gettoken es p.2).ps
        return (.list cmd right, ps)
      else return (cmd, p.2)

/-- `parsepipe`. -/
def parsepipe (es : Nat) : Nat → List Byte → Outcome (Cmd × List Byte)
  | 0, _ => .stuck
  | fuel + 1, ps => do
      let (cmd, ps) ← parseexec es fuel ps
      let p := peek ps [Op.bar.char]
      if p.1 then
        let (right, ps) ← parsepipe es fuel (gettoken es p.2).ps
        return (.pipe cmd right, ps)
      else return (cmd, p.2)

/-- `parseexec`. -/
def parseexec (es : Nat) : Nat → List Byte → Outcome (Cmd × List Byte)
  | 0, _ => .stuck
  | fuel + 1, ps =>
    let p := peek ps [Op.lparen.char]
    if p.1 then parseblock es fuel p.2
    else do
      let (rs, ps) ← redirsLoop es fuel p.2
      let (argv, rs, ps) ← argsLoop es fuel 0 (fun _ => none) rs ps
      return (redircmds (.exec argv) rs, ps)

/-- `parseblock`. -/
def parseblock (es : Nat) : Nat → List Byte → Outcome (Cmd × List Byte)
  | 0, _ => .stuck
  | fuel + 1, ps =>
    let p := peek ps [Op.lparen.char]
    if p.1 then do
      let (cmd, ps) ← parseline es fuel (gettoken es p.2).ps
      let p := peek ps [Op.rparen.char]
      if p.1 then parseredirs es fuel cmd (gettoken es p.2).ps
      else .panic "syntax - missing )"
    else .panic "parseblock"

end

/-- Fuel for a command of a given length: each character is at most one token, and each token
is seen by at most four functions. -/
def fuelFor (s : List Byte) : Nat := 4 * s.length + 6

/-- `parsecmd` up to its call of `nulterminate`. -/
def parsecmd (s : CString) : Outcome Cmd := do
  let es := strlen s
  let (cmd, ps) ← parseline es (fuelFor s.bytes) s.bytes
  if (peek ps []).2.isEmpty then return cmd else .panic "syntax"

/-! ## The grammar -/

/-- The arguments of a command with the words `ws`. -/
def argvOf (ws : List Span) : Argv := fun i => ws[i.val]?

/-- `redir*`: each an operator and a word. -/
inductive Redirs : List Token → List Redir → Prop
  | nil : Redirs [] []
  | cons {o : Op} {w : Span} {r : Redir} {ts : List Token} {rs : List Redir} :
      redirOf (.op o) w = some r → Redirs ts rs → Redirs (.op o :: .word w :: ts) (r :: rs)

/-- `(redir | word)*`, with the words and the redirections in order. -/
inductive Items : List Token → List Span → List Redir → Prop
  | nil : Items [] [] []
  | word {w : Span} {ts : List Token} {ws : List Span} {rs : List Redir} :
      Items ts ws rs → Items (.word w :: ts) (w :: ws) rs
  | redir {o : Op} {w : Span} {r : Redir} {ts : List Token} {ws : List Span} {rs : List Redir} :
      redirOf (.op o) w = some r → Items ts ws rs → Items (.op o :: .word w :: ts) ws (r :: rs)

/-- The nonterminals `line`, `pipe` and `exec`. -/
inductive Part
  | line
  | pipe
  | exec

/-- The derivations of the grammar with their trees. -/
inductive Derives : Part → List Token → Cmd → Prop
  | simple {ts : List Token} {ws : List Span} {rs : List Redir} :
      Items ts ws rs → ws.length ≤ maxargs - 1 →
      Derives .exec ts (redircmds (.exec (argvOf ws)) rs)
  | block {ts us : List Token} {c : Cmd} {rs : List Redir} :
      Derives .line ts c → Redirs us rs →
      Derives .exec (.op .lparen :: (ts ++ .op .rparen :: us)) (redircmds c rs)
  | exec {ts : List Token} {c : Cmd} : Derives .exec ts c → Derives .pipe ts c
  | pipe {ts us : List Token} {c d : Cmd} :
      Derives .exec ts c → Derives .pipe us d → Derives .pipe (ts ++ .op .bar :: us) (.pipe c d)
  | line (n : Nat) {ts : List Token} {c : Cmd} :
      Derives .pipe ts c → Derives .line (ts ++ List.replicate n (.op .amp)) (Cmd.back^[n] c)
  | list (n : Nat) {ts us : List Token} {c d : Cmd} :
      Derives .pipe ts c → Derives .line us d →
      Derives .line (ts ++ List.replicate n (.op .amp) ++ .op .semi :: us)
        (.list (Cmd.back^[n] c) d)

end Xv6Containers.Shell
