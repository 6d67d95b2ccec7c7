import Xv6.Fs.Layout

/-!
The lower half of `fs.c` on the bytes of the disk. The contents are those that
`bread` returns, the plain block store which the buffer cache provides
(`Bio/Runs.lean`). A held buffer cannot be read again by its holder. The blocks
given to `log_write` are recorded in their order; `inLog` looks whether there was
room for them in the log.
-/

namespace Xv6.Fs

open Prog

structure FsState (P : Type) where
  kernel : Kernel P
  disk : Nat → Block
  disksize : Nat
  sb : Superblock
  /-- `type` to `addrs` of the inode cache entries. -/
  copy : Ip → Dinode
  held : List Nat
  logged : List Nat

abbrev FsM (P : Type) := Prog (FsState P) Panic

section Blocks

variable {P : Type}

def bread (dev b : Nat) : FsM P Block := do
  let s ← gets id
  panicIf (dev ≠ 1 ∨ s.disksize ≤ b) .breadOffDisk
  panicIf (b ∈ s.held) .sleepsForever
  modify fun s => { s with held := b :: s.held }
  return s.disk b

/-- The stores into a held buffer's data and its `log_write`, but for the test
that the log is not full. -/
def logWrite (b : Nat) (d : Block) : FsM P Unit := do
  let s ← gets id
  panicIf (s.kernel.outstanding < 1) .logWriteOutsideTrans
  modify fun s => { s with disk := set s.disk b d, logged := s.logged ++ [b] }

/-- The first test of `log_write` for one block after the other, when those of
`block` are in the log, which has `size` blocks. -/
def logFits (size : Nat) : List Nat → List Nat → Bool
  | _, [] => true
  | block, b :: bs =>
    decide (block.length < LOGSIZE ∧ block.length < size - 1) &&
      logFits size (if b ∈ block then block else block ++ [b]) bs

/-- `x` in a transaction, where what was logged before is still in the log: it
panics if one of these tests fails. -/
def inLog {α : Type} (x : FsM P α) : FsM P α := fun s =>
  if logFits s.sb.nlog [] (x s).2.logged then x s else (.error .tooBigTransaction, (x s).2)

def brelse (b : Nat) : FsM P Unit := modify fun s => { s with held := s.held.erase b }

def readsb (dev : Nat) : FsM P Unit := do
  let d ← bread dev 1
  modify fun s => { s with sb := getSuper d }
  brelse 1

def bzero (dev bno : Nat) : FsM P Unit := do
  let _ ← bread dev bno
  logWrite bno Bytes.zero
  brelse bno

/-- The inner loop of `balloc`: the first clear bit from `bi` on, among `n`. -/
def firstClear (d : Block) : Nat → Nat → Option Nat
  | 0, _ => none
  | n + 1, bi => if bitSet d bi then firstClear d n (bi + 1) else some bi

def balloc (dev : Nat) : FsM P Nat := do
  let sb ← gets FsState.sb
  let found ← first (fun i => do
    let b := BPB * i
    let d ← bread dev (sb.bblock b)
    match firstClear d (min BPB (sb.size - b)) 0 with
    | some bi => do
      logWrite (sb.bblock b) (markBit d bi)
      brelse (sb.bblock b)
      bzero dev (b + bi)
      return some (b + bi)
    | none => do
      brelse (sb.bblock b)
      return none) ((sb.size + (BPB - 1)) / BPB) 0
  match found with
  | some b => return b
  | none => fail .ballocOutOfBlocks

def bfree (dev b : Nat) : FsM P Unit := do
  readsb dev
  let sb ← gets FsState.sb
  let d ← bread dev (sb.bblock b)
  panicIf (bitSet d (b % BPB) = false) .freeingFreeBlock
  logWrite (sb.bblock b) (clearBit d (b % BPB))
  brelse (sb.bblock b)

end Blocks

section Inodes

variable {P : Type}

def getEntry (ip : Ip) : FsM P (Entry P) := gets fun s => s.kernel.icache ip

def getCopy (ip : Ip) : FsM P Dinode := gets fun s => s.copy ip

def setCopy (ip : Ip) (di : Dinode) : FsM P Unit :=
  modify fun s => { s with copy := set s.copy ip di }

def setValid (ip : Ip) (v : Bool) : FsM P Unit :=
  modify fun s => { s with
    kernel := s.kernel.setEntry ip { s.kernel.icache ip with valid := v } }

/-- `ialloc` up to the call of `iget`. -/
def allocInode (dev : Nat) (type : Int) : FsM P Nat := do
  let sb ← gets FsState.sb
  let found ← first (fun inum => do
    let d ← bread dev (sb.iblock inum)
    if (getDinode d (inum % IPB)).type = 0 then do
      logWrite (sb.iblock inum) (clearDinode d (inum % IPB) type)
      brelse (sb.iblock inum)
      return some inum
    else do
      brelse (sb.iblock inum)
      return none) (sb.ninodes - 1) 1
  match found with
  | some inum => return inum
  | none => fail .iallocNoInodes

def iupdate (ip : Ip) : FsM P Unit := do
  let sb ← gets FsState.sb
  let e ← getEntry ip
  let di ← getCopy ip
  let d ← bread e.dev (sb.iblock e.inum)
  logWrite (sb.iblock e.inum) (putDinode d (e.inum % IPB) di)
  brelse (sb.iblock e.inum)

/-- The read of the disk inode in `ilock` and the check after it. -/
def loadInode (ip : Ip) : FsM P Unit := do
  let sb ← gets FsState.sb
  let e ← getEntry ip
  let d ← bread e.dev (sb.iblock e.inum)
  setCopy ip (getDinode d (e.inum % IPB))
  brelse (sb.iblock e.inum)
  setValid ip true
  let di ← getCopy ip
  panicIf (di.type = 0) .ilockNoType

def bmap (ip : Ip) (bn : Nat) : FsM P Nat := do
  let e ← getEntry ip
  let di ← getCopy ip
  if bn < NDIRECT then
    if di.addr bn = 0 then do
      let b ← balloc e.dev
      setCopy ip (di.setAddr bn b)
      return b
    else
      return di.addr bn
  else if bn - NDIRECT < NINDIRECT then do
    let table ← (if di.addr NDIRECT = 0 then do
        let b ← balloc e.dev
        setCopy ip (di.setAddr NDIRECT b)
        return b
      else
        return di.addr NDIRECT)
    let d ← bread e.dev table
    if tableGet d (bn - NDIRECT) = 0 then do
      let b ← balloc e.dev
      logWrite table (tableSet d (bn - NDIRECT) b)
      brelse table
      return b
    else do
      brelse table
      return tableGet d (bn - NDIRECT)
  else
    fail .bmapOutOfRange

def itrunc (ip : Ip) : FsM P Unit := do
  let e ← getEntry ip
  times (fun i => do
    let di ← getCopy ip
    when (di.addr i ≠ 0) do
      bfree e.dev (di.addr i)
      setCopy ip (di.setAddr i 0)) NDIRECT
  let di ← getCopy ip
  when (di.addr NDIRECT ≠ 0) do
    let d ← bread e.dev (di.addr NDIRECT)
    times (fun j => when (tableGet d j ≠ 0) (bfree e.dev (tableGet d j))) NINDIRECT
    brelse (di.addr NDIRECT)
    bfree e.dev (di.addr NDIRECT)
    setCopy ip (di.setAddr NDIRECT 0)
  let di ← getCopy ip
  setCopy ip (di.setSize 0)
  iupdate ip

def updateInode (ip : Ip) (f : Meta → Meta) : FsM P Unit := do
  let di ← getCopy ip
  setCopy ip (di.amend f)
  iupdate ip

def freeInode (ip : Ip) : FsM P Unit := do
  itrunc ip
  let di ← getCopy ip
  setCopy ip (di.setType 0)
  iupdate ip
  setValid ip false

/-- The loop of `readi`, with `tot` bytes of `dst` already there. Each round
copies at least one byte, so `n` rounds are enough. -/
def readLoop (ip : Ip) (n : Nat) : Nat → Nat → Nat → (Nat → UInt8) → FsM P (Nat → UInt8)
  | 0, _, _, dst => return dst
  | rounds + 1, tot, off, dst =>
    if tot < n then do
      let e ← getEntry ip
      let b ← bmap ip (off / BSIZE)
      let d ← bread e.dev b
      let m := min (n - tot) (BSIZE - off % BSIZE)
      brelse b
      readLoop ip n rounds (tot + m) (off + m)
        (fun i => if tot ≤ i ∧ i < tot + m then d.byte (off % BSIZE + (i - tot)) else dst i)
    else
      return dst

/-- The loop of `writei`; the result is the final offset. -/
def writeLoop (ip : Ip) (src : Nat → UInt8) (n : Nat) : Nat → Nat → Nat → FsM P Nat
  | 0, _, off => return off
  | rounds + 1, tot, off =>
    if tot < n then do
      let e ← getEntry ip
      let b ← bmap ip (off / BSIZE)
      let d ← bread e.dev b
      let m := min (n - tot) (BSIZE - off % BSIZE)
      logWrite b (d.splice (off % BSIZE) m (fun i => src (tot + i)))
      brelse b
      writeLoop ip src n rounds (tot + m) (off + m)
    else
      return off

def writeInode (ip : Ip) (src : Nat → UInt8) (off n : Nat) : FsM P Unit := do
  let off ← writeLoop ip src n n 0 off
  let di ← getCopy ip
  when (n > 0 ∧ off > di.size) do
    setCopy ip (di.setSize off)
    iupdate ip

/-- The file system on the bytes of the disk. -/
def diskOps : Ops (FsState P) P where
  kernel x := fun s => ((x s.kernel).1, { s with kernel := (x s.kernel).2 })
  alloc := allocInode
  load := loadInode
  fields ip := do return (← getCopy ip).fields
  update := updateInode
  free := freeInode
  read ip off n := readLoop ip n n 0 off (fun _ => 0)
  write := writeInode

end Inodes

end Xv6.Fs
