import Xv6.Log.Basic
import Xv6.Lib.Prog
import Xv6.Lib.Ring

/-!
The buffer cache of `bio.c`, the memory disk of `memide.c` and `log_write`.

A pointer into `bcache` is an index or the list head, and the `prev`/`next`
fields of all buffers are kept together as `Links`. The sleep lock of a buffer
is the pid of its holder; a process that would sleep for a lock that nobody is
going to release stops with `Fault.sleepsForever`. The last three fields of
the state are history: no function reads them.
-/

namespace Xv6

open Prog

/-- Why a call does not return. -/
inductive Fault where
  | bgetNoBuffers | bwriteNotHeld | brelseNotHeld
  | iderwNotLocked | iderwNothingToDo | iderwNotDisk1 | iderwOutOfRange
  | tooBigTransaction | logWriteOutsideTrans
  | sleepsForever | endlessList
deriving DecidableEq, Repr

/-- `struct buf`, with `B_VALID` and `B_DIRTY` as two flags. -/
structure Buf where
  valid : Bool
  dirty : Bool
  dev : Nat
  blockno : Nat
  lock : Option Nat
  refcnt : UInt32
  data : Block

structure Bcache where
  buf : Fin NBUF → Buf
  links : Links (Fin NBUF)

def Bcache.set (c : Bcache) (b : Fin NBUF) (x : Buf) : Bcache :=
  { c with buf := Function.update c.buf b x }

structure Bio where
  cache : Bcache
  disk : Nat → Block
  disksize : Nat
  log : Log
  outstanding : Int
  /-- The block writes that reached the disk, in order. -/
  writes : List (Nat × Block)
  /-- The cache after every store or critical section that changed it. -/
  seen : List Bcache
  /-- The buffers that were recycled, as they were just before. -/
  recycled : List Buf

namespace Bio

abbrev BioM := Prog Bio Fault

/-- Every change of the cache goes through here. -/
def store (s : Bio) (c : Bcache) : Bio :=
  { s with cache := c, seen := s.seen ++ [c] }

def setBuf (b : Fin NBUF) (x : Buf) : BioM Unit :=
  modify fun s => s.store (s.cache.set b x)

def getBuf (b : Fin NBUF) : BioM Buf := gets fun s => s.cache.buf b

def binit : BioM Unit :=
  modify fun s => s.store ((List.finRange NBUF).foldl
    (fun c b => { c.set b { c.buf b with lock := none } with links := c.links.pushFront b })
    { s.cache with links := s.cache.links.clear })

section Process

-- the process that makes the calls
variable (pid : Nat)

def acquiresleep (b : Fin NBUF) : BioM Unit := do
  let x ← getBuf b
  if x.lock = none then
    setBuf b { x with lock := some pid }
  else
    fail .sleepsForever

def bget (dev blockno : Nat) : BioM (Fin NBUF) := do
  let c ← gets Bio.cache
  match Links.search c.links.next
      (fun b => (c.buf b).dev == dev && (c.buf b).blockno == blockno)
      (NBUF + 1) (c.links.next none) with
  | none => fail .endlessList
  | some (some b) =>
    setBuf b { c.buf b with refcnt := (c.buf b).refcnt + 1 }
    acquiresleep pid b
    return b
  | some none =>
    match Links.search c.links.prev
        (fun b => (c.buf b).refcnt == 0 && !(c.buf b).dirty)
        (NBUF + 1) (c.links.prev none) with
    | none => fail .endlessList
    | some none => fail .bgetNoBuffers
    | some (some b) =>
      modify fun s => { s with recycled := s.recycled ++ [c.buf b] }
      setBuf b { c.buf b with
        dev := dev, blockno := blockno, valid := false, dirty := false, refcnt := 1 }
      acquiresleep pid b
      return b

/-- The disk driver of `memide.c`. -/
def iderw (b : Fin NBUF) : BioM Unit := do
  let x ← getBuf b
  let size ← gets Bio.disksize
  if x.lock ≠ some pid then
    fail .iderwNotLocked
  else if x.valid && !x.dirty then
    fail .iderwNothingToDo
  else if x.dev ≠ 1 then
    fail .iderwNotDisk1
  else if size ≤ x.blockno then
    fail .iderwOutOfRange
  else if x.dirty then do
    modify fun s => { s with
      disk := Function.update s.disk x.blockno x.data
      writes := s.writes ++ [(x.blockno, x.data)] }
    setBuf b { x with dirty := false, valid := true }
  else do
    let d ← gets fun s => s.disk x.blockno
    setBuf b { x with data := d, valid := true }

def bread (dev blockno : Nat) : BioM (Fin NBUF) := do
  let b ← bget pid dev blockno
  let x ← getBuf b
  if x.valid then
    return b
  else do
    iderw pid b
    return b

def bwrite (b : Fin NBUF) : BioM Unit := do
  let x ← getBuf b
  if x.lock ≠ some pid then
    fail .bwriteNotHeld
  else do
    setBuf b { x with dirty := true }
    iderw pid b

def brelse (b : Fin NBUF) : BioM Unit := do
  let x ← getBuf b
  if x.lock ≠ some pid then
    fail .brelseNotHeld
  else do
    setBuf b { x with lock := none }
    setBuf b { x with lock := none, refcnt := x.refcnt - 1 }
    if x.refcnt - 1 = 0 then
      modify fun s => s.store
        { s.cache with links := (s.cache.links.unlink b).pushFront b }
    else
      return ()

/-- The store operations of `log.c` on this cache. -/
def cacheOps : Log.BufOps BioM (Fin NBUF) where
  bread := bread pid
  data b := do return (← getBuf b).data
  setData b d := do
    let x ← getBuf b
    setBuf b { x with data := d }
  bwrite := bwrite pid
  brelse := brelse pid

end Process

def logWrite (b : Fin NBUF) : BioM Unit := do
  let lg ← gets Bio.log
  let outstanding ← gets Bio.outstanding
  if lg.lh.n ≥ LOGSIZE ∨ lg.lh.n ≥ (lg.size : Int) - 1 then
    fail .tooBigTransaction
  else if outstanding < 1 then
    fail .logWriteOutsideTrans
  else do
    let x ← getBuf b
    modify fun s => { s with log := { s.log with lh := s.log.lh.absorb x.blockno } }
    setBuf b { x with dirty := true }

/-! ### The operations of the file system on the cache -/

inductive Op where
  /-- `bread`; modify the data; `log_write`; `brelse`. -/
  | logged (dev blockno : Nat) (f : Block → Block)
  /-- `bread`; modify the data; `bwrite`; `brelse`. -/
  | direct (dev blockno : Nat) (f : Block → Block)
  /-- `bread`; `brelse`. -/
  | read (dev blockno : Nat)
  | commit

/-- One operation of process `pid`. The result is what `bread` returned. -/
def runOp (pid : Nat) : Op → BioM (Option Block)
  | .logged dev blockno f => do
    let b ← bread pid dev blockno
    let d ← (cacheOps pid).data b
    (cacheOps pid).setData b (f d)
    logWrite b
    brelse pid b
    return some d
  | .direct dev blockno f => do
    let b ← bread pid dev blockno
    let d ← (cacheOps pid).data b
    (cacheOps pid).setData b (f d)
    bwrite pid b
    brelse pid b
    return some d
  | .read dev blockno => do
    let b ← bread pid dev blockno
    let d ← (cacheOps pid).data b
    brelse pid b
    return some d
  | .commit => do
    let lg ← gets Bio.log
    let lg ← Log.commit (cacheOps pid) lg
    modify fun s => { s with log := lg }
    return none

/-- A sequence of operations, each by its own process, one after the other. -/
def run : List (Nat × Op) → BioM (List (Option Block))
  | [] => return []
  | (pid, op) :: ops => do
    let r ← runOp pid op
    let rs ← run ops
    return r :: rs

/-- The zeroed buffers of a kernel that starts, before `binit`. -/
def zeroed (links : Links (Fin NBUF)) : Bcache :=
  { links
    buf := fun _ =>
      { valid := false, dirty := false, dev := 0, blockno := 0, lock := none, refcnt := 0
        data := Bytes.zero } }

end Bio

end Xv6
