import Xv6.Fs.Mkfs

/-!
`mkfs.c`: the program that writes a disk image with a root directory and the
files named on its command line. It has its own code for inodes, block
addresses and the bitmap, beside that of the kernel.

The conversions `xint` and `xshort` are part of the little-endian reads and
writes of `Fs/Layout.lean`. An input file is the sequence of pieces that the
successive calls of `read` return.
-/

namespace Xv6.Mkfs

open Prog Fs

structure Input where
  name : Name
  pieces : List (List UInt8)
  name_ok : 0 ∉ name
  pieces_ok : ∀ piece ∈ pieces, 0 < piece.length ∧ piece.length ≤ BSIZE

def Input.contents (f : Input) : List UInt8 := f.pieces.flatten

/-- The assertions of the program. -/
inductive Abort where
  | rootino | slashInName | maxfile | bitmap
deriving DecidableEq, Repr

structure State where
  disk : Nat → Block
  freeinode : Nat
  freeblock : Nat

abbrev MkfsM := Prog State Abort

def rsect (sec : Nat) : MkfsM Block := gets fun s => s.disk sec

def wsect (sec : Nat) (buf : Block) : MkfsM Unit :=
  modify fun s => { s with disk := set s.disk sec buf }

def winode (inum : Nat) (din : Dinode) : MkfsM Unit := do
  let buf ← rsect (mkfsSuper.iblock inum)
  wsect (mkfsSuper.iblock inum) (putDinode buf (inum % IPB) din)

def rinode (inum : Nat) : MkfsM Dinode := do
  let buf ← rsect (mkfsSuper.iblock inum)
  return getDinode buf (inum % IPB)

/-- The inode that `ialloc` writes. -/
def newInode (type : Int) : Dinode := { Dinode.empty type with nlink := 1 }

def ialloc (type : Int) : MkfsM Nat := do
  let inum ← gets State.freeinode
  modify fun s => { s with freeinode := inum + 1 }
  winode inum (newInode type)
  return inum

/-- The loop of `balloc`. -/
def firstBits : Nat → Block
  | 0 => Bytes.zero
  | used + 1 => markBit (firstBits used) used

def balloc (used : Nat) : MkfsM Unit := do
  panicIf (BSIZE * 8 ≤ used) .bitmap
  wsect mkfsSuper.bmapstart (firstBits used)

/-- `freeblock++`. -/
def takeBlock : MkfsM Nat := do
  let b ← gets State.freeblock
  modify fun s => { s with freeblock := b + 1 }
  return b

/-- The inode with an indirect block. -/
def indirectBlock (din : Dinode) : MkfsM Dinode :=
  if din.addr NDIRECT = 0 then do
    let b ← takeBlock
    return din.setAddr NDIRECT b
  else
    return din

/-- The address at entry `k` of the indirect block. -/
def indirectEntry (din : Dinode) (k : Nat) : MkfsM Nat := do
  let indirect ← rsect (din.addr NDIRECT)
  if tableGet indirect k = 0 then
    let b ← takeBlock
    wsect (din.addr NDIRECT) (tableSet indirect k b)
    return b
  else
    return tableGet indirect k

/-- The address of block `fbn` of the file, and the inode, which may have got
new addresses. -/
def fileBlock (din : Dinode) (fbn : Nat) : MkfsM (Nat × Dinode) :=
  if fbn < NDIRECT then
    if din.addr fbn = 0 then do
      let b ← takeBlock
      return (b, din.setAddr fbn b)
    else
      return (din.addr fbn, din)
  else do
    let din ← indirectBlock din
    return (← indirectEntry din (fbn - NDIRECT), din)

/-- The loop of `iappend`; each round appends a byte at least. -/
def iappendLoop : Nat → (Nat → UInt8) → Nat → Nat → Dinode → MkfsM Dinode
  | 0, _, _, off, din => return din.setSize off
  | rounds + 1, p, n, off, din =>
    if 0 < n then do
      let fbn := off / BSIZE
      panicIf (MAXFILE ≤ fbn) .maxfile
      let (x, din) ← fileBlock din fbn
      let n1 := min n ((fbn + 1) * BSIZE - off)
      let buf ← rsect x
      wsect x (buf.splice (off - fbn * BSIZE) n1 p)
      iappendLoop rounds (fun i => p (n1 + i)) (n - n1) (off + n1) din
    else
      return din.setSize off

def iappend (inum : Nat) (p : Nat → UInt8) (n : Nat) : MkfsM Unit := do
  let din ← rinode inum
  let din ← iappendLoop n p n din.size din
  winode inum din

/-- The name without a leading underscore. -/
def Input.stripped (f : Input) : Name :=
  if f.name.head? = some 95 then f.name.tail else f.name

/-- The body of the loop over the arguments. -/
def addFile (rootino : Nat) (f : Input) : MkfsM Unit := do
  panicIf (slash ∈ f.name) .slashInName
  let inum ← ialloc T_FILE
  iappend rootino (dirent inum f.stripped) DIRENT
  forEach (fun piece => iappend inum (cbyte piece) piece.length) f.pieces

def main (files : List Input) : MkfsM Unit := do
  modify fun s => { s with freeblock := nmeta }
  times (fun i => wsect i Bytes.zero) FSSIZE
  wsect 1 (putSuper mkfsSuper)
  let rootino ← ialloc T_DIR
  panicIf (rootino ≠ ROOTINO) .rootino
  iappend rootino (dirent rootino dot) DIRENT
  iappend rootino (dirent rootino dotdot) DIRENT
  forEach (addFile rootino) files
  -- fix size of root inode dir
  let din ← rinode rootino
  winode rootino (din.setSize ((din.size / BSIZE + 1) * BSIZE))
  balloc (← gets State.freeblock)

/-- The state in which the program starts, with any contents of the image
file. -/
def start (disk : Nat → Block) : State where
  disk := disk
  freeinode := 1
  freeblock := 0

end Xv6.Mkfs
