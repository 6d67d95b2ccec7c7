import Xv6.Bio.Basic
import Xv6.Fs.Mkfs
import Xv6.Lib.Transition

/-!
The disk driver of `ide.c` with the disk, and the processes that call it. What
runs under `idelock` is one step: `iderw` up to its first `sleep`, one more round of
its wait loop, and `ideintr`. Between these the disk carries out the command that
`idestart` issued and raises the interrupt for it.

Pointers to buffers are of any type. A process changes its buffer only while it
holds the lock of the buffer and is not in `iderw`.
-/

namespace Xv6.Ide

open Prog Transition

def SECTOR_SIZE : Nat := 512

def sectorPerBlock : Nat := BSIZE / SECTOR_SIZE

/-- What `idestart` writes to the ports `0x1f2` to `0x1f6`, and the data of a write
command. -/
structure Cmd where
  count : Nat
  lba0 : Nat
  lba1 : Nat
  lba2 : Nat
  head : Nat
  data : Option Block

def command (x : Buf) : Cmd :=
  let sector := x.blockno * sectorPerBlock
  { count := sectorPerBlock
    lba0 := sector &&& 0xff
    lba1 := (sector >>> 8) &&& 0xff
    lba2 := (sector >>> 16) &&& 0xff
    head := 0xe0 ||| ((x.dev &&& 1) <<< 4) ||| ((sector >>> 24) &&& 0x0f)
    data := if x.dirty then some x.data else none }

/-- The drive and the sector that the disk takes from its ports. -/
def Cmd.drive (c : Cmd) : Bool := c.head.testBit 4

def Cmd.sector (c : Cmd) : Nat :=
  c.lba0 + 2 ^ 8 * c.lba1 + 2 ^ 16 * c.lba2 + 2 ^ 24 * (c.head % 2 ^ 4)

/-- The disk has carried out a command in `raised`: it holds the sector of a read
for `insl`. -/
inductive Dev where
  | idle
  | busy (c : Cmd)
  | raised (c : Cmd) (sector : Block)

inductive Panic where
  | idestart | incorrectBlockno | bufNotLocked | nothingToDo | disk1NotPresent
deriving DecidableEq, Repr

/-- A process that is in `iderw` waits for the buffer `b`; its request was the
`n`-th, and `asleep` says whether it still is in `sleep`. -/
inductive Call (A : Type) where
  | none
  | iderw (b : A) (n : Nat) (asleep : Bool)
deriving DecidableEq

/-- The processes are their pids. The last four fields are history: the buffers in
the order in which they were put in the queue, started and completed, and the
number of interrupts. -/
structure Driver (A : Type) where
  idequeue : Option A
  qnext : A → Option A
  buf : A → Buf
  havedisk1 : Bool
  disk : Bool → Nat → Block
  dev : Dev
  call : Nat → Call A
  panicked : Option Panic
  arrived : List A
  started : List A
  completed : List A
  interrupts : Nat

/-- No request yet: any disks and buffers, with no buffer locked. -/
def ideinit {A : Type} (buf : A → Buf) (havedisk1 : Bool) (disk : Bool → Nat → Block) :
    Driver A where
  idequeue := none
  qnext _ := none
  buf b := { buf b with lock := none }
  havedisk1 := havedisk1
  disk := disk
  dev := .idle
  call _ := .none
  panicked := none
  arrived := []
  started := []
  completed := []
  interrupts := 0

section Code

variable {A : Type} [DecidableEq A]

def Call.wake (k : Call A) (b : A) : Call A :=
  match k with
  | .none => .none
  | .iderw b' n asleep => .iderw b' n (asleep && b' != b)

namespace Driver

variable (s : Driver A)

def panic (e : Panic) : Driver A := { s with panicked := some e }

def setBuf (b : A) (x : Buf) : Driver A := { s with buf := set s.buf b x }

/-- `*pp`, where `pp` is `&idequeue` or the field `qnext` of a buffer. -/
def deref : Option A → Option A
  | none => s.idequeue
  | some a => s.qnext a

def assign (pp : Option A) (b : A) : Driver A :=
  match pp with
  | none => { s with idequeue := some b }
  | some a => { s with qnext := set s.qnext a (some b) }

/-- `for(pp=&idequeue; *pp; pp=&(*pp)->qnext)`, for at most `rounds` rounds. -/
def walk : Nat → Option A → Option (Option A)
  | 0, _ => none
  | rounds + 1, pp =>
    match s.deref pp with
    | none => some pp
    | some a => walk rounds (some a)

def idestart (b : A) : Driver A :=
  if Fs.FSSIZE ≤ (s.buf b).blockno then s.panic .incorrectBlockno
  else if 7 < sectorPerBlock then s.panic .idestart
  else { s with
    dev := .busy (command (s.buf b))
    started := s.started ++ [b] }

/-- The request is in the queue; the disk is started if it is the first one. -/
def startFirst (b : A) : Driver A :=
  let s := { s with arrived := s.arrived ++ [b] }
  if s.idequeue = some b then s.idestart b else s

/-- `wakeup(b)` -/
def wakeup (b : A) : Driver A := { s with call := fun p => (s.call p).wake b }

end Driver

/-- `(b->flags & (B_VALID|B_DIRTY)) == B_VALID` -/
def Synced (x : Buf) : Prop := x.valid = true ∧ x.dirty = false

instance (x : Buf) : Decidable (Synced x) := inferInstanceAs (Decidable (_ ∧ _))

/-- The loop in which the process waits for its request, up to `sleep` or to the
end. -/
def waitLoop (s : Driver A) (p : Nat) (b : A) (n : Nat) : Driver A :=
  if Synced (s.buf b) then { s with call := set s.call p .none }
  else { s with call := set s.call p (.iderw b n true) }

/-- `iderw` in the process `p`, up to its first `sleep`; it is not there yet if the
loop over the queue takes more rounds. -/
def iderw (s : Driver A) (p : Nat) (b : A) (rounds : Nat) : Option (Driver A) :=
  if (s.buf b).lock ≠ some p then some (s.panic .bufNotLocked)
  else if Synced (s.buf b) then some (s.panic .nothingToDo)
  else if (s.buf b).dev ≠ 0 ∧ s.havedisk1 = false then some (s.panic .disk1NotPresent)
  else
    let s := { s with qnext := set s.qnext b none }
    (s.walk rounds none).map fun pp => waitLoop ((s.assign pp b).startFirst b) p b s.arrived.length

/-- The buffer after its request; `sector` is what `insl` reads. -/
def synced (x : Buf) (sector : Block) : Buf :=
  { x with data := if x.dirty then x.data else sector, valid := true, dirty := false }

/-- The request of `b`, the first one, is completed. -/
def Driver.complete (s : Driver A) (b : A) (sector : Block) : Driver A :=
  { s.setBuf b (synced (s.buf b) sector) with
    idequeue := s.qnext b
    completed := s.completed ++ [b] }.wakeup b

def Driver.startNext (s : Driver A) : Driver A :=
  match s.idequeue with
  | none => s
  | some b => s.idestart b

/-- `ideintr`, when the disk raised its interrupt and reports no error. -/
def ideintr (s : Driver A) (sector : Block) : Driver A :=
  let s := { s with dev := .idle, interrupts := s.interrupts + 1 }
  match s.idequeue with
  | none => s
  | some b => (s.complete b sector).startNext

/-- The disk carries out its command and raises the interrupt. -/
def carryOut (s : Driver A) (c : Cmd) : Driver A :=
  match c.data with
  | some x =>
    { s with
      disk := set s.disk c.drive (set (s.disk c.drive) c.sector x)
      dev := .raised c x }
  | none => { s with dev := .raised c (s.disk c.drive c.sector) }

inductive Act (A : Type) where
  | acquiresleep (p : Nat) (b : A)
  | releasesleep (p : Nat) (b : A)
  /-- The holder of the buffer changes everything but the lock. -/
  | change (p : Nat) (b : A) (x : Buf)
  | iderw (p : Nat) (b : A) (rounds : Nat)
  /-- A process that was woken, or killed, goes on in its wait loop. -/
  | resume (p : Nat)
  | kill (p : Nat)
  | disk
  | ideintr

/-- Nothing happens after a panic. -/
def step (s : Driver A) (a : Act A) : Option (Driver A) :=
  if s.panicked.isSome then none
  else match a with
  | .acquiresleep p b =>
    if (s.buf b).lock = none ∧ s.call p = .none then
      some (s.setBuf b { s.buf b with lock := some p })
    else none
  | .releasesleep p b =>
    if (s.buf b).lock = some p ∧ s.call p = .none then
      some (s.setBuf b { s.buf b with lock := none })
    else none
  | .change p b x =>
    if (s.buf b).lock = some p ∧ s.call p = .none then
      some (s.setBuf b { x with lock := some p })
    else none
  | .iderw p b rounds => if s.call p = .none then iderw s p b rounds else none
  | .resume p =>
    match s.call p with
    | .iderw b n false => some (waitLoop s p b n)
    | _ => none
  | .kill p =>
    match s.call p with
    | .iderw b n _ => some { s with call := set s.call p (.iderw b n false) }
    | .none => none
  | .disk =>
    match s.dev with
    | .busy c => some (carryOut s c)
    | _ => none
  | .ideintr =>
    match s.dev with
    | .raised _ sector => some (ideintr s sector)
    | _ => none

end Code

end Xv6.Ide
