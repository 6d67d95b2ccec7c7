import Xv6.Lib.Fifo
import Xv6.Lib.Transition

/-!
`pipe.c`: any number of processes in `pipewrite`, `piperead` and `pipeclose` of
one pipe, with `sleep`, `wakeup` and `kill` of `proc.c`. A step is a stretch of
a call between two points where another processor may look: a process that
holds `p->lock` goes through its loop one byte at a time, and a process inside
`sleep` has given the lock up and takes it again when it is awake.
-/

namespace Xv6.Pipe

open Prog Transition

def PIPESIZE : Nat := 512

/-- The two addresses that processes sleep on. -/
inductive Chan where
  | nread
  | nwrite
deriving DecidableEq

/-- A call with its arguments and how far it came: `bytes` is what is at `addr`,
`i` counts those that `pipewrite` has stored, `got` are those that `piperead` has
copied. -/
inductive Call where
  | write (bytes : List UInt8) (i : Nat)
  | read (n : Nat) (got : List UInt8)
  | close (writable : Bool)
deriving DecidableEq

/-- Where a call is. -/
inductive At where
  | write (bytes : List UInt8) (i : Nat)
  | writeFull (bytes : List UInt8) (i : Nat)
  | writeSleep (bytes : List UInt8) (i : Nat)
  | writeWake (bytes : List UInt8) (i : Nat)
  | read (n : Nat)
  | readSleep (n : Nat)
  | copy (n : Nat) (got : List UInt8)
  | readWake (n : Nat) (got : List UInt8)
  | close (writable : Bool)
  | closeWake (writable : Bool)
  | leave (c : Call) (result : Int)
deriving DecidableEq

/-- `waiting`: before `acquire(&p->lock)`, at the start of a call or inside
`sleep`. -/
inductive Pc where
  | idle
  | waiting (k : At)
  | holding (k : At)
deriving DecidableEq

structure State (P : Type) where
  ring : Fifo UInt8 32 PIPESIZE
  readopen : Bool
  writeopen : Bool
  lock : Option P
  pc : P → Pc
  sleeping : P → Option Chan
  killed : P → Bool
  -- history: the calls that have returned, with their results, and who stored and
  -- copied out which bytes, in the order of `nwrite` and of `nread`
  done : List (P × Call × Int)
  accepted : List (P × UInt8)
  delivered : List (P × UInt8)

/-- `pipealloc`; the page from `kalloc` holds any bytes. -/
def pipealloc (P : Type) (data : Nat → UInt8) : State P where
  ring := ⟨data, 0, 0⟩
  readopen := true
  writeopen := true
  lock := none
  pc := fun _ => .idle
  sleeping := fun _ => none
  killed := fun _ => false
  done := []
  accepted := []
  delivered := []

inductive Act where
  | pipewrite (bytes : List UInt8)
  | piperead (n : Nat)
  | pipeclose (writable : Bool)
  | acquire
  | run
  | kill
deriving DecidableEq

section Steps

variable {P : Type} [DecidableEq P]

def State.setPc (s : State P) (p : P) (pc : Pc) : State P := { s with pc := set s.pc p pc }

def State.goto (s : State P) (p : P) (k : At) : State P := s.setPc p (.holding k)

def State.wakeup (s : State P) (c : Chan) : State P :=
  { s with sleeping := fun p => if s.sleeping p = some c then none else s.sleeping p }

def State.kill (s : State P) (p : P) : State P :=
  { s with killed := set s.killed p true, sleeping := set s.sleeping p none }

/-- `sleep(chan, &p->lock)`, up to the switch to the scheduler. -/
def State.sleep (s : State P) (p : P) (c : Chan) (k : At) : State P :=
  { s with lock := none, sleeping := set s.sleeping p (some c) }.setPc p (.waiting k)

/-- `release(&p->lock)` and the return. -/
def State.ret (s : State P) (p : P) (c : Call) (result : Int) : State P :=
  { s with lock := none, done := s.done ++ [(p, c, result)] }.setPc p .idle

def State.store (s : State P) (p : P) (b : UInt8) : State P :=
  { s with ring := s.ring.push b, accepted := s.accepted ++ [(p, b)] }

def State.load (s : State P) (p : P) : UInt8 × State P :=
  (s.ring.pop.1, { s with
    ring := s.ring.pop.2
    delivered := s.delivered ++ [(p, s.ring.pop.1)] })

def State.closeEnd (s : State P) (writable : Bool) : State P :=
  if writable then { s with writeopen := false } else { s with readopen := false }

/-- `pipewrite` at the head of its inner loop finds that nobody will read, or
that it is killed. -/
def State.GivesUp (s : State P) (p : P) : Prop := s.readopen = false ∨ s.killed p = true

instance (s : State P) (p : P) : Decidable (s.GivesUp p) := inferInstanceAs (Decidable (_ ∨ _))

/-- The next stretch of a call whose process holds the lock. The last
`pipeclose` also frees the page: nobody is left to use it. -/
def run (s : State P) (p : P) : At → State P
  | .write bytes i =>
    match bytes[i]? with
    | none => s.goto p (.writeWake bytes i)
    | some b =>
      if s.ring.Full then
        if s.GivesUp p then s.ret p (.write bytes i) (-1) else s.goto p (.writeFull bytes i)
      else (s.store p b).goto p (.write bytes (i + 1))
  | .writeFull bytes i => (s.wakeup .nread).goto p (.writeSleep bytes i)
  | .writeSleep bytes i => s.sleep p .nwrite (.write bytes i)
  | .writeWake bytes i => (s.wakeup .nread).goto p (.leave (.write bytes i) bytes.length)
  | .read n =>
    if s.ring.Empty ∧ s.writeopen = true then
      if s.killed p = true then s.ret p (.read n []) (-1) else s.goto p (.readSleep n)
    else s.goto p (.copy n [])
  | .readSleep n => s.sleep p .nread (.read n)
  | .copy n got =>
    if got.length < n ∧ ¬ s.ring.Empty then
      (s.load p).2.goto p (.copy n (got ++ [(s.load p).1]))
    else s.goto p (.readWake n got)
  | .readWake n got => (s.wakeup .nwrite).goto p (.leave (.read n got) got.length)
  | .close writable => (s.closeEnd writable).goto p (.closeWake writable)
  | .closeWake writable =>
    (s.wakeup (if writable then .nread else .nwrite)).goto p (.leave (.close writable) 0)
  | .leave c result => s.ret p c result

def step (s : State P) : P × Act → Option (State P)
  | (p, a) =>
    match a, s.pc p with
    | .pipewrite bytes, .idle => some (s.setPc p (.waiting (.write bytes 0)))
    | .piperead n, .idle => some (s.setPc p (.waiting (.read n)))
    | .pipeclose writable, .idle => some (s.setPc p (.waiting (.close writable)))
    | .acquire, .waiting k =>
      if s.lock = none ∧ s.sleeping p = none then
        some ({ s with lock := some p }.goto p k)
      else none
    | .run, .holding k => some (run s p k)
    | .kill, _ => some (s.kill p)
    | _, _ => none

inductive Step (s : State P) (p : P) : Act → State P → Prop
  | pipewrite (bytes : List UInt8) (hpc : s.pc p = .idle) :
      Step s p (.pipewrite bytes) (s.setPc p (.waiting (.write bytes 0)))
  | piperead (n : Nat) (hpc : s.pc p = .idle) :
      Step s p (.piperead n) (s.setPc p (.waiting (.read n)))
  | pipeclose (writable : Bool) (hpc : s.pc p = .idle) :
      Step s p (.pipeclose writable) (s.setPc p (.waiting (.close writable)))
  | acquire (k : At) (hpc : s.pc p = .waiting k) (hlock : s.lock = none) :
      Step s p .acquire ({ s with lock := some p }.goto p k)
  | run (k : At) (hpc : s.pc p = .holding k) : Step s p .run (run s p k)
  | kill : Step s p .kill (s.kill p)

theorem step_cases {s s' : State P} {p : P} {a : Act} (h : step s (p, a) = some s') :
    Step s p a s' := by
  simp only [step] at h
  split at h
  · cases h
    exact .pipewrite _ ‹_›
  · cases h
    exact .piperead _ ‹_›
  · cases h
    exact .pipeclose _ ‹_›
  · split at h
    · next hpc hfree =>
        cases h
        exact .acquire _ hpc hfree.1
    · cases h
  · cases h
    exact .run _ ‹_›
  · cases h
    exact .kill
  · cases h

end Steps

end Xv6.Pipe
