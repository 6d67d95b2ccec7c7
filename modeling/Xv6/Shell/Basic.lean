import Xv6.Param
import Xv6.Lib.Prog

/-!
The parser of `sh.c`. The functions share the cursor `*ps` into the input; the
positions of a word in the input stand for the pointers `q` and `eq`. The input
is the string without its terminating zero, so its length is the position of
`es`. The commands on the heap are a tree; `malloc` is assumed to succeed.
-/

namespace Xv6.Shell

open Prog

/-- The calls of `panic`: `parseblock`, `syntax - missing )`, `syntax` in
`parseexec`, `syntax` after leftovers in `parsecmd`, `missing file for
redirection` and `too many args`. The last one is of the model only. -/
inductive Panic where
  | parseblock | missingParen | badToken | leftovers | missingFile | tooManyArgs | outOfSteps
deriving DecidableEq, Repr

/-- `q` and `eq` of a token. -/
structure Word where
  start : Nat
  stop : Nat
deriving DecidableEq, Repr

inductive Cmd where
  | exec (args : List Word)
  | redir (cmd : Cmd) (file : Word) (mode fd : Nat)
  | pipe (left right : Cmd)
  | list (left right : Cmd)
  | back (cmd : Cmd)
deriving DecidableEq, Repr

def MAXARGS : Nat := 10

def ch (c : Char) : UInt8 := UInt8.ofNat c.toNat

def whitespace : List UInt8 := [ch ' ', ch '\t', ch '\r', ch '\n', 11]

def symbols : List UInt8 := [ch '<', ch '|', ch '>', ch '&', ch ';', ch '(', ch ')']

def isBlank (c : UInt8) : Bool := decide (c ∈ whitespace)

def isWordChar (c : UInt8) : Bool := !isBlank c && !decide (c ∈ symbols)

abbrev ParseM := Prog Nat Panic

section Parser

variable (s : List UInt8)

/-- `*s` at a position. -/
def charAt (i : Nat) : UInt8 := s.getD i 0

/-- `while(s < es && p(*s)) s++`. -/
def scan (p : UInt8 → Bool) (i : Nat) : Nat := i + ((s.drop i).takeWhile p).length

/-- The `switch` of `gettoken`: the result, and where the token ends. -/
def tokenAt (q : Nat) : UInt8 × Nat :=
  if charAt s q = 0 then (0, q)
  else if charAt s q ∈ [ch '|', ch '(', ch ')', ch ';', ch '&', ch '<'] then (charAt s q, q + 1)
  else if charAt s q = ch '>' then
    if charAt s (q + 1) = ch '>' then (ch '+', q + 2) else (ch '>', q + 1)
  else (ch 'a', scan s isWordChar q)

def gettoken : ParseM (UInt8 × Word) := do
  let q ← gets fun i => scan s isBlank i
  modify fun _ => scan s isBlank (tokenAt s q).2
  return ((tokenAt s q).1, ⟨q, (tokenAt s q).2⟩)

def peek (toks : List UInt8) : ParseM Bool := do
  let q ← gets fun i => scan s isBlank i
  modify fun _ => q
  return decide (charAt s q ≠ 0 ∧ charAt s q ∈ toks)

def O_RDONLY : Nat := 0
def O_WRONLY : Nat := 1
def O_CREATE : Nat := 0x200

/-- The `switch` of `parseredirs`. -/
def redircmd (cmd : Cmd) (tok : UInt8) (file : Word) : Cmd :=
  if tok = ch '<' then .redir cmd file O_RDONLY 0
  else if tok = ch '>' then .redir cmd file (O_WRONLY ||| O_CREATE) 1
  else if tok = ch '+' then .redir cmd file (O_WRONLY ||| O_CREATE) 1
  else cmd

def parseredirs : Nat → Cmd → ParseM Cmd
  | 0, _ => fail .outOfSteps
  | steps + 1, cmd => do
    if ← peek s [ch '<', ch '>'] then
      let (tok, _) ← gettoken s
      let (ret, file) ← gettoken s
      panicIf (ret ≠ ch 'a') .missingFile
      parseredirs steps (redircmd cmd tok file)
    else
      return cmd

/-- `cmd->argv[argc] = q; cmd->eargv[argc] = eq;` where `cmd` is the command
inside the redirections. -/
def Cmd.addArg (w : Word) : Cmd → Cmd
  | .exec args => .exec (args ++ [w])
  | .redir cmd file mode fd => .redir (cmd.addArg w) file mode fd
  | cmd => cmd

/-- The loop of `parseexec`. -/
def parseargs : Nat → Nat → Cmd → ParseM Cmd
  | 0, _, _ => fail .outOfSteps
  | steps + 1, argc, ret => do
    if ← peek s [ch '|', ch ')', ch '&', ch ';'] then
      return ret
    else
      let (tok, w) ← gettoken s
      if tok = 0 then
        return ret
      else
        panicIf (tok ≠ ch 'a') .badToken
        panicIf (MAXARGS ≤ argc + 1) .tooManyArgs
        let ret ← parseredirs s steps (ret.addArg w)
        parseargs steps (argc + 1) ret

/-- The loop of `parseline`. -/
def parsebacks : Nat → Cmd → ParseM Cmd
  | 0, _ => fail .outOfSteps
  | steps + 1, cmd => do
    if ← peek s [ch '&'] then
      let _ ← gettoken s
      parsebacks steps (.back cmd)
    else
      return cmd

mutual

def parseline : Nat → ParseM Cmd
  | 0 => fail .outOfSteps
  | steps + 1 => do
    let cmd ← parsepipe steps
    let cmd ← parsebacks s steps cmd
    if ← peek s [ch ';'] then
      let _ ← gettoken s
      let rest ← parseline steps
      return .list cmd rest
    else
      return cmd

def parsepipe : Nat → ParseM Cmd
  | 0 => fail .outOfSteps
  | steps + 1 => do
    let cmd ← parseexec steps
    if ← peek s [ch '|'] then
      let _ ← gettoken s
      let rest ← parsepipe steps
      return .pipe cmd rest
    else
      return cmd

def parseblock : Nat → ParseM Cmd
  | 0 => fail .outOfSteps
  | steps + 1 => do
    if ← peek s [ch '('] then
      let _ ← gettoken s
      let cmd ← parseline steps
      if ← peek s [ch ')'] then
        let _ ← gettoken s
        parseredirs s steps cmd
      else
        fail .missingParen
    else
      fail .parseblock

def parseexec : Nat → ParseM Cmd
  | 0 => fail .outOfSteps
  | steps + 1 => do
    if ← peek s [ch '('] then
      parseblock steps
    else
      let ret ← parseredirs s steps (.exec [])
      parseargs s steps 0 ret

end

/-- `parsecmd` up to the call of `nulterminate`. -/
def parseAll : ParseM Cmd := do
  let cmd ← parseline s (4 * s.length + 4)
  let _ ← peek s []
  let i ← gets id
  panicIf (i ≠ s.length) .leftovers
  return cmd

end Parser

/-- The buffer with the strings cut off. -/
def nulterminate : Cmd → List UInt8 → List UInt8
  | .exec args, buf => args.foldl (fun b w => b.set w.stop 0) buf
  | .redir cmd file _ _, buf => (nulterminate cmd buf).set file.stop 0
  | .pipe left right, buf => nulterminate right (nulterminate left buf)
  | .list left right, buf => nulterminate right (nulterminate left buf)
  | .back cmd, buf => nulterminate cmd buf

/-- The command and the contents of the buffer, a string and its terminating
zero. -/
def parsecmd (s : List UInt8) : Except Panic (Cmd × List UInt8) :=
  (parseAll s 0).1.map fun cmd => (cmd, nulterminate cmd (s ++ [0]))

end Xv6.Shell
