import Xv6.Fs.Kernel

/-!
Directories and path names. A directory is a file of 16-byte entries, an
inode number and a name of `DIRSIZ` bytes that is padded with zero bytes; a
path is the bytes of a C string without its terminating zero.
-/

namespace Xv6.Fs

open Prog ByteSeq

abbrev Name := List UInt8

/-- The bytes of a C string buffer, with the terminating zero and what may
follow it read as zero. -/
def cbyte (s : Name) (i : Nat) : UInt8 := s.getD i 0

def slash : UInt8 := 47

def dot : Name := [46]
def dotdot : Name := [46, 46]

/-- `strncmp` of `string.c` from index `i` on, with `n` bytes left. -/
def strncmp (s t : Nat → UInt8) : Nat → Nat → Int
  | 0, _ => 0
  | n + 1, i =>
    if s i ≠ 0 ∧ s i = t i then strncmp s t n (i + 1)
    else ((s i).toNat : Int) - (t i).toNat

def namecmp (s t : Nat → UInt8) : Int := strncmp s t DIRSIZ 0

/-- `de.inum` and `de.name` of the bytes of a directory entry. -/
def deInum (de : Nat → UInt8) : Nat := leNat de 2
def deName (de : Nat → UInt8) (i : Nat) : UInt8 := de (2 + i)

/-- The bytes of a directory entry with these contents (`strncpy` pads). -/
def dirent (inum : Nat) (name : Name) (i : Nat) : UInt8 :=
  if i < 2 then leByte inum i else cbyte name (i - 2)

section Dir

variable {σ P : Type} [DecidableEq P] (o : Ops σ P) (p : P)

/-- Number of rounds of a loop over the entries of a directory. -/
def rounds (size : Nat) : Nat := (size + (DIRENT - 1)) / DIRENT

/-- The entry and its byte offset. -/
def dirlookup (dp : Ip) (name : Name) : Prog σ Panic (Option (Ip × Nat)) := do
  let m ← o.fields dp
  panicIf (m.type ≠ T_DIR) .dirlookupNotDir
  first (fun i => do
    let (r, de) ← readi o p dp (DIRENT * i) DIRENT
    panicIf (r ≠ DIRENT) .dirlookupRead
    if deInum de = 0 then
      return none
    else if namecmp (cbyte name) (deName de) = 0 then do
      let e ← o.kernel (entry dp)
      let ip ← o.kernel (iget e.dev (deInum de))
      return some (ip, DIRENT * i)
    else
      return none) (rounds m.size) 0

def dirlink (dp : Ip) (name : Name) (inum : Nat) : Prog σ Panic Int := do
  match ← dirlookup o p dp name with
  | some (ip, _) => do
    iput o p ip
    return -1
  | none => do
    let m ← o.fields dp
    let found ← first (fun i => do
      let (r, de) ← readi o p dp (DIRENT * i) DIRENT
      panicIf (r ≠ DIRENT) .dirlinkRead
      if deInum de = 0 then
        return some (DIRENT * i)
      else
        return none) (rounds m.size) 0
    let off := found.getD (DIRENT * rounds m.size)
    let r ← writei o p dp (dirent inum name) off DIRENT
    panicIf (r ≠ DIRENT) .dirlink
    return 0

end Dir

/-- `*path`. -/
def peek (path : List UInt8) : UInt8 := path.headD 0

/-- The next path element, cut to `DIRSIZ` bytes, and the path after it. -/
def skipelem (path : List UInt8) : Option (Name × List UInt8) :=
  let s := path.dropWhile (· == slash)
  if peek s = 0 then
    none
  else
    let elem := s.takeWhile (fun c => c != slash && c != 0)
    some (elem.take DIRSIZ, (s.drop elem.length).dropWhile (· == slash))

section Path

variable {σ P : Type} [DecidableEq P] (o : Ops σ P) (p : P)

/-- The loop of `namex`. Every round takes at least one byte off the path. -/
def namexLoop (nameiparent : Bool) : Nat → Ip → List UInt8 → Prog σ Panic (Option (Ip × Name))
  | 0, _, _ => fail .outOfSteps
  | steps + 1, ip, path =>
    match skipelem path with
    | none =>
      if nameiparent then do
        iput o p ip
        return none
      else
        return some (ip, [])
    | some (name, path) => do
      ilock o p ip
      let m ← o.fields ip
      if m.type ≠ T_DIR then do
        iunlockput o p ip
        return none
      else if nameiparent ∧ peek path = 0 then do
        iunlock o p ip
        return some (ip, name)
      else do
        match ← dirlookup o p ip name with
        | none => do
          iunlockput o p ip
          return none
        | some (next, _) => do
          iunlockput o p ip
          namexLoop nameiparent steps next path

def namex (path : List UInt8) (nameiparent : Bool) : Prog σ Panic (Option (Ip × Name)) := do
  if peek path = slash then do
    let ip ← o.kernel (iget ROOTDEV ROOTINO)
    namexLoop o p nameiparent (path.length + 1) ip path
  else do
    match ← o.kernel (gets fun k => (k.proc p).cwd) with
    | none => fail .nullPointer
    | some cwd => do
      let ip ← o.kernel (idup cwd)
      namexLoop o p nameiparent (path.length + 1) ip path

def namei (path : List UInt8) : Prog σ Panic (Option Ip) := do
  return (← namex o p path false).map Prod.fst

def nameiparent (path : List UInt8) : Prog σ Panic (Option (Ip × Name)) :=
  namex o p path true

end Path

end Xv6.Fs
