import Xv6.Param
import Xv6.Lib.Prog

/-!
The inode cache, the file table and the part of the process table that the
file system uses, and the inode functions of `fs.c` that work on them.

The functions that need the disk are reached through `Ops`. They are run on
the bytes of a disk (`Fs/Disk.lean`) and on an abstract table of files
(`Fs/Abstract.lean`), so everything above them is written once.
-/

namespace Xv6.Fs

open Prog

/-- Why a call does not return. `sleepsForever` is the `acquiresleep` of a
lock the process holds itself, `waits` a call that sleeps until another process
has done something, `notRunning` a call by a process that does not exist,
`freedPage` the use of a pipe whose page was freed, `misuse` a call outside its
contract. -/
inductive Panic where
  | breadOffDisk | tooBigTransaction | logWriteOutsideTrans | ballocOutOfBlocks | freeingFreeBlock
  | iallocNoInodes | igetNoInodes | ilock | ilockNoType | iunlock | bmapOutOfRange
  | dirlookupNotDir | dirlookupRead | dirlinkRead | dirlink
  | unlinkNlink | unlinkWritei | isdiremptyReadi | createDots | createDirlink
  | filedup | fileclose | filewrite | shortFilewrite | initExiting
  | nullPointer | freedPage | notRunning | waits | sleepsForever | outOfSteps | misuse
deriving DecidableEq, Repr

/-- A pointer to an entry of the inode cache. -/
abbrev Ip := Fin NINODE

/-- The fields of an inode that are not block numbers. -/
structure Meta where
  type : Int
  major : Int
  minor : Int
  nlink : Int
  size : Nat
deriving DecidableEq, Repr

/-- A `short` that was assigned `z`. -/
def short (z : Int) : Int := ByteSeq.toSigned 2 (ByteSeq.ofSigned 2 z)

/-- Assignments to `major`, `minor` and `nlink`. -/
def Meta.amend (m : Meta) (f : Meta → Meta) : Meta :=
  { m with
    major := short (f m).major
    minor := short (f m).minor
    nlink := short (f m).nlink }

/-- The part of `struct inode` that is not a copy of the disk inode. The lock
is the process that holds it. -/
structure Entry (P : Type) where
  dev : Nat
  inum : Nat
  ref : Int
  lock : Option P
  valid : Bool
  containerID : Int

/-- An inode and the container that it is marked with. -/
structure Owner where
  dev : Nat
  inum : Nat
  containerID : Int
deriving DecidableEq, Repr

def Entry.owner {P : Type} (e : Entry P) : Owner := ⟨e.dev, e.inum, e.containerID⟩

/-- The address of a page that `kalloc` may give out for a pipe. -/
abbrev Page := Nat

inductive FdType where
  | none | pipe | inode
deriving DecidableEq, Repr

structure File where
  type : FdType
  ref : Int
  readable : Bool
  writable : Bool
  pipe : Option Page
  ip : Option Ip
  off : Nat

/-- The part of `struct pipe` that says who may still use it. -/
structure PipeEnds where
  readopen : Bool
  writeopen : Bool
deriving DecidableEq, Repr

/-- `UNUSED`, `ZOMBIE`, and all the states between them. -/
inductive Life where
  | unused | live | zombie
deriving DecidableEq, Repr

structure Proc (P : Type) where
  state : Life
  pid : Int
  parent : Option P
  cwd : Option Ip
  ofile : Fin NOFILE → Option (Fin NFILE)
  containerID : Int

/-- What an open file refers to. -/
inductive Object where
  | inode (ip : Ip)
  | pipe (page : Page) (writable : Bool)
deriving DecidableEq, Repr

/-- What the history of a run records: files that were opened, the `iput` or
`pipeclose` of a closed file, and pages of pipes. -/
inductive Event where
  | opened (f : Fin NFILE) (obj : Object)
  | closed (f : Fin NFILE) (obj : Object)
  | kalloc (page : Page)
  | kfree (page : Page)
deriving DecidableEq, Repr

/-- `console i n` is what the `i`-th read of `n` bytes from the console
returns. The history, and the inodes that `create` made with the container it
made them for, are for the proofs only. -/
structure Kernel (P : Type) where
  icache : Ip → Entry P
  ftable : Fin NFILE → File
  pipes : Page → Option PipeEnds
  proc : P → Proc P
  initproc : P
  nextpid : Int
  outstanding : Nat
  console : Nat → Nat → Int × (Nat → UInt8)
  consoleReads : Nat
  history : List Event
  made : List Owner

section Kernel

variable {P : Type}

abbrev KernelM (P : Type) := Prog (Kernel P) Panic

def entry (ip : Ip) : KernelM P (Entry P) := gets fun k => k.icache ip

def Kernel.setEntry (k : Kernel P) (ip : Ip) (e : Entry P) : Kernel P :=
  { k with icache := set k.icache ip e }

@[simp] theorem Kernel.setEntry_self (k : Kernel P) (ip : Ip) (e : Entry P) :
    (k.setEntry ip e).icache ip = e := set_self _ _ _

theorem Kernel.setEntry_of_ne (k : Kernel P) {ip jp : Ip} (e : Entry P) (h : jp ≠ ip) :
    (k.setEntry ip e).icache jp = k.icache jp := set_of_ne _ _ h

def setEntry (ip : Ip) (e : Entry P) : KernelM P Unit := modify fun k => k.setEntry ip e

def iget (dev inum : Nat) : KernelM P Ip := do
  let c ← gets Kernel.icache
  match (List.finRange NINODE).find?
      (fun i => decide (0 < (c i).ref) && (c i).dev == dev && (c i).inum == inum) with
  | some ip =>
    setEntry ip { c ip with ref := (c ip).ref + 1 }
    return ip
  | none =>
    match (List.finRange NINODE).find? (fun i => (c i).ref == 0) with
    | some ip =>
      setEntry ip { c ip with dev := dev, inum := inum, ref := 1, valid := false }
      return ip
    | none => fail .igetNoInodes

def idup (ip : Ip) : KernelM P Ip := do
  let e ← entry ip
  setEntry ip { e with ref := e.ref + 1 }
  return ip

def acquiresleep (p : P) (ip : Ip) : KernelM P Unit := do
  let e ← entry ip
  panicIf (e.lock ≠ none) .sleepsForever
  setEntry ip { e with lock := some p }

def releasesleep (ip : Ip) : KernelM P Unit := do
  let e ← entry ip
  setEntry ip { e with lock := none }

def beginOp : KernelM P Unit := modify fun k => { k with outstanding := k.outstanding + 1 }

def endOp : KernelM P Unit := modify fun k => { k with outstanding := k.outstanding - 1 }

def record (e : Event) : KernelM P Unit :=
  modify fun k => { k with history := k.history ++ [e] }

def recordMade (u : Owner) : KernelM P Unit :=
  modify fun k => { k with made := k.made ++ [u] }

/-- What the console delivers to a read of `n` bytes. -/
def consoleInput (n : Nat) : KernelM P (Int × (Nat → UInt8)) := do
  let k ← gets id
  modify fun k => { k with consoleReads := k.consoleReads + 1 }
  return k.console k.consoleReads n

end Kernel

/-- What the inode layer asks of the disk. -/
structure Ops (σ P : Type) where
  /-- Work on the tables in memory only. -/
  kernel : {α : Type} → KernelM P α → Prog σ Panic α
  /-- The first part of `ialloc`: mark a free inode as allocated. -/
  alloc : Nat → Int → Prog σ Panic Nat
  /-- What `ilock` does for an entry that is not valid. -/
  load : Ip → Prog σ Panic Unit
  /-- The fields in the cached copy. -/
  fields : Ip → Prog σ Panic Meta
  /-- Assignments to `major`, `minor` and `nlink`, and `iupdate`. -/
  update : Ip → (Meta → Meta) → Prog σ Panic Unit
  /-- `itrunc(ip); ip->type = 0; iupdate(ip); ip->valid = 0;` -/
  free : Ip → Prog σ Panic Unit
  /-- The loop of `readi`: the `n` bytes at `off`. -/
  read : Ip → Nat → Nat → Prog σ Panic (Nat → UInt8)
  /-- The loop of `writei` and the update of the size after it. -/
  write : Ip → (Nat → UInt8) → Nat → Nat → Prog σ Panic Unit

section Inode

variable {σ P : Type} [DecidableEq P] (o : Ops σ P) (p : P)

def ialloc (dev : Nat) (type : Int) : Prog σ Panic Ip := do
  let inum ← o.alloc dev type
  o.kernel (iget dev inum)

def ilock (ip : Ip) : Prog σ Panic Unit := do
  let e ← o.kernel (entry ip)
  panicIf (e.ref < 1) .ilock
  o.kernel (acquiresleep p ip)
  when (e.valid = false) (o.load ip)

def iunlock (ip : Ip) : Prog σ Panic Unit := do
  let e ← o.kernel (entry ip)
  panicIf (e.lock ≠ some p ∨ e.ref < 1) .iunlock
  o.kernel (releasesleep ip)

def iput (ip : Ip) : Prog σ Panic Unit := do
  o.kernel (acquiresleep p ip)
  let e ← o.kernel (entry ip)
  when (e.valid = true) do
    let m ← o.fields ip
    when (m.nlink = 0 ∧ e.ref = 1) (o.free ip)
  o.kernel (releasesleep ip)
  let e ← o.kernel (entry ip)
  o.kernel (setEntry ip { e with ref := e.ref - 1 })

def iunlockput (ip : Ip) : Prog σ Panic Unit := do
  iunlock o p ip
  iput o p ip

/-- The console device releases the inode while it works. -/
def consoleread (ip : Ip) (n : Nat) : Prog σ Panic (Int × (Nat → UInt8)) := do
  iunlock o p ip
  let r ← o.kernel (consoleInput n)
  ilock o p ip
  return r

def consolewrite (ip : Ip) (n : Nat) : Prog σ Panic Int := do
  iunlock o p ip
  ilock o p ip
  return n

/-- `devsw` has the console only. -/
def hasDevice (major : Int) : Prop := major = CONSOLE

instance (major : Int) : Decidable (hasDevice major) := inferInstanceAs (Decidable (_ = _))

/-- The count that `readi` returns and the bytes it copied. -/
def readi (ip : Ip) (off n : Nat) : Prog σ Panic (Int × (Nat → UInt8)) := do
  let m ← o.fields ip
  if m.type = T_DEV then
    if m.major < 0 ∨ m.major ≥ NDEV ∨ ¬ hasDevice m.major then
      return (-1, fun _ => 0)
    else
      consoleread o p ip n
  else if off > m.size ∨ (off + n) % 2 ^ 32 < off then
    return (-1, fun _ => 0)
  else do
    let n := if off + n > m.size then m.size - off else n
    let bytes ← o.read ip off n
    return (n, bytes)

def writei (ip : Ip) (src : Nat → UInt8) (off n : Nat) : Prog σ Panic Int := do
  let m ← o.fields ip
  if m.type = T_DEV then
    if m.major < 0 ∨ m.major ≥ NDEV ∨ ¬ hasDevice m.major then
      return -1
    else
      consolewrite o p ip n
  else if off > m.size ∨ (off + n) % 2 ^ 32 < off then
    return -1
  else if off + n > MAXFILE * BSIZE then
    return -1
  else do
    o.write ip src off n
    return n

end Inode

end Xv6.Fs
