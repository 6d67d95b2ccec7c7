import Xv6.Lib.Fifo
import Xv6.Lib.Transition

/-!
The input side of `console.c`: `consoleintr`, which edits the line that is being
typed, and any number of processes in `consoleread`. Both work under
`cons.lock`, so a call of `consoleintr` is one step, and so is what a reader does
from the moment it has the lock until it sleeps or returns.

The calls are written over a `Device`, so that they also run on the line editor
of `Console/LineEdit.lean`.
-/

namespace Xv6.Console

open Prog

def INPUT_BUF : Nat := 128

/-- `C(x)` for a letter. -/
def ctrl (x : Char) : UInt8 := UInt8.ofNat (x.toNat - '@'.toNat)

def newline : UInt8 := 10
def carriageReturn : UInt8 := 13
def delete : UInt8 := 0x7f

/-- `input`: `buf` with the counters `r` and `e` is the ring, `w` says how far
the characters are committed. -/
structure Input where
  ring : Fifo UInt8 32 INPUT_BUF
  w : BitVec 32

namespace Input

def r (s : Input) : BitVec 32 := s.ring.nread

def e (s : Input) : BitVec 32 := s.ring.nwrite

/-- `input.e--` -/
def erase (s : Input) : Input := { s with ring := s.ring.unpush }

/-- The loop for `^U`; `input.e` is at most `rounds` ahead of `input.w`. -/
def killLine : Nat → Input → Input
  | 0, s => s
  | rounds + 1, s =>
    if s.e ≠ s.w ∧ s.ring.last ≠ newline then killLine rounds s.erase else s

/-- One round of the loop of `consoleintr`. -/
def key (s : Input) (c : UInt8) : Input :=
  if c = ctrl 'P' then s
  else if c = ctrl 'U' then killLine (s.e - s.w).toNat s
  else if c = ctrl 'H' ∨ c = delete then
    if s.e ≠ s.w then s.erase else s
  else if c ≠ 0 ∧ (s.e - s.r).toNat < INPUT_BUF then
    let c := if c = carriageReturn then newline else c
    let s := { s with ring := s.ring.push c }
    if c = newline ∨ c = ctrl 'D' ∨ s.e = s.r + BitVec.ofNat 32 INPUT_BUF then
      { s with w := s.e }
    else s
  else s

end Input

/-- Why a `consoleread` returns: it has its count, a newline, a `^D` that it
takes, a `^D` that it leaves to the next call, or its process was killed. -/
inductive Why where
  | count | newline | eof | beforeEof | killed
deriving DecidableEq, Repr

/-- What a reader gets before it stops: the bytes it copies, and why it returns,
unless it has to sleep. -/
structure Progress where
  bytes : List UInt8
  why : Option Why
deriving DecidableEq, Repr

/-- The outer loop of `consoleread` with `n` bytes to go, up to the next
`sleep`. -/
def Input.read (target : Nat) : Nat → Input → Input × Progress
  | 0, s => (s, ⟨[], some .count⟩)
  | n + 1, s =>
    if s.r = s.w then (s, ⟨[], none⟩)
    else
      let c := s.ring.pop.1
      let s := { s with ring := s.ring.pop.2 }
      if c = ctrl 'D' then
        if n + 1 < target then ({ s with ring := s.ring.unpop }, ⟨[], some .beforeEof⟩)
        else (s, ⟨[], some .eof⟩)
      else if c = newline then (s, ⟨[c], some .newline⟩)
      else
        let (s, p) := Input.read target n s
        (s, { p with bytes := c :: p.bytes })

/-! ### Calls -/

/-- What takes the characters, and what readers read from. -/
structure Device (D : Type) where
  key : D → UInt8 → D
  read : (target n : Nat) → D → D × Progress

def console : Device Input := ⟨Input.key, Input.read⟩

/-- A call of `consoleread` for `target` bytes: `n` are left, `got` are in the
buffer of the process. -/
structure Reading where
  target : Nat
  n : Nat
  got : List UInt8
deriving DecidableEq, Repr

/-- What happened, for the proofs: a byte was copied to a process, a call
returned. -/
inductive Event (P : Type) where
  | byte (q : P) (c : UInt8)
  | ret (q : P) (target : Nat) (got : List UInt8) (why : Why) (result : Int)

structure State (D P : Type) where
  dev : D
  pc : P → Option Reading
  log : List (Event P)

/-- `intr`: one call of `consoleintr` and the characters it gets. `run`: the
process has `cons.lock`, at the start of the call or when `sleep` returns. -/
inductive Act (P : Type) where
  | intr (cs : List UInt8)
  | read (q : P) (n : Int)
  | run (q : P) (killed : Bool)

def start {D : Type} (P : Type) (dev : D) : State D P := ⟨dev, fun _ => none, []⟩

section Steps

variable {D P : Type} [DecidableEq P] (dev : Device D)

def State.copy (s : State D P) (q : P) (bytes : List UInt8) : State D P :=
  { s with log := s.log ++ bytes.map (.byte q) }

/-- The return of a call; `-1` if the process was killed. -/
def State.ret (s : State D P) (q : P) (x : Reading) (why : Why) : State D P :=
  let result : Int := if why = .killed then -1 else (x.target : Int) - x.n
  { s with pc := set s.pc q none, log := s.log ++ [.ret q x.target x.got why result] }

/-- What a process in `consoleread` does while it has the lock. -/
def State.run (s : State D P) (q : P) (x : Reading) (killed : Bool) : State D P :=
  let (d, p) := dev.read x.target x.n s.dev
  let s := { s with dev := d }.copy q p.bytes
  let x := { x with n := x.n - p.bytes.length, got := x.got ++ p.bytes }
  match p.why with
  | some why => s.ret q x why
  | none => if killed then s.ret q x .killed else { s with pc := set s.pc q (some x) }

def step (s : State D P) : Act P → Option (State D P)
  | .intr cs => some { s with dev := cs.foldl dev.key s.dev }
  | .read q n =>
    if s.pc q = none then some { s with pc := set s.pc q (some ⟨n.toNat, n.toNat, []⟩) } else none
  | .run q killed =>
    match s.pc q with
    | none => none
    | some x => some (s.run dev q x killed)

end Steps

end Xv6.Console
