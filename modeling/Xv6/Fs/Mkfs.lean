import Xv6.Fs.Calls
import Xv6.Fs.Disk

/-!
The disk that `mkfs` makes when it is given no files, and the machine that has
just booted from it.
-/

namespace Xv6.Fs

def FSSIZE : Nat := 1000
def NINODES : Nat := 200

def nbitmap : Nat := FSSIZE / (BSIZE * 8) + 1
def ninodeblocks : Nat := NINODES / IPB + 1
def nlog : Nat := LOGSIZE
def nmeta : Nat := 2 + nlog + ninodeblocks + nbitmap

def mkfsSuper : Superblock where
  size := FSSIZE
  nblocks := FSSIZE - nmeta
  ninodes := NINODES
  nlog := nlog
  logstart := 2
  inodestart := 2 + nlog
  bmapstart := 2 + nlog + ninodeblocks

def putSuper (sb : Superblock) : Block :=
  let b := Bytes.zero.setNum 4 0 sb.size
  let b := b.setNum 4 4 sb.nblocks
  let b := b.setNum 4 8 sb.ninodes
  let b := b.setNum 4 12 sb.nlog
  let b := b.setNum 4 16 sb.logstart
  let b := b.setNum 4 20 sb.inodestart
  b.setNum 4 24 sb.bmapstart

/-- The inode of the root directory, whose entries are in the first data
block. -/
def rootInode : Dinode where
  type := T_DIR
  major := 0
  minor := 0
  nlink := 1
  size := BSIZE
  addrs := fun j => if j.val = 0 then nmeta else 0

def rootBlock : Block :=
  (Bytes.zero.splice 0 DIRENT (dirent ROOTINO dot)).splice DIRENT DIRENT (dirent ROOTINO dotdot)

/-- The bitmap with the first `used` blocks taken. -/
def usedBitmap (used : Nat) : Block := fun i =>
  if 8 * i.val + 8 ≤ used then 255 else UInt8.ofNat (2 ^ (used - 8 * i.val) - 1)

def mkfs (b : Nat) : Block :=
  if b = 1 then putSuper mkfsSuper
  else if b = mkfsSuper.iblock ROOTINO then putDinode Bytes.zero (ROOTINO % IPB) rootInode
  else if b = mkfsSuper.bmapstart then usedBitmap (nmeta + 1)
  else if b = nmeta then rootBlock
  else Bytes.zero

/-- The console delivers nothing. -/
def booted : FsState Slot where
  kernel := userinit fun _ _ => (0, fun _ => 0)
  disk := mkfs
  disksize := FSSIZE
  sb := mkfsSuper
  copy := fun _ => Dinode.empty 0
  held := []
  logged := []

example : getSuper (mkfs 1) = mkfsSuper := by decide +kernel

end Xv6.Fs
