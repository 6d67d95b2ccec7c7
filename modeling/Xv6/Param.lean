import Xv6.Lib.ByteSeq

/-!
The compile-time constants of `param.h`, `fs.h` and `stat.h` that the modelled
functions read, under the names the source gives them, and the type of one
disk block.
-/

namespace Xv6

/-- Maximum number of blocks any file-system operation writes. -/
def MAXOPBLOCKS : Nat := 10

/-- Maximum number of data blocks in the on-disk log, as `param.h` puts it. -/
def LOGSIZE : Nat := MAXOPBLOCKS * 3

/-- Number of buffers in the block cache. -/
def NBUF : Nat := MAXOPBLOCKS * 3

/-- Bytes in a block. -/
def BSIZE : Nat := 512

abbrev Block := Bytes BSIZE

/-- Processes and containers. -/
def NPROC : Nat := 64
def NCPU : Nat := 8
def NCONT : Nat := 20

instance : NeZero NPROC := ⟨by decide⟩
instance : NeZero NCONT := ⟨by decide⟩

/-- Active inodes, open files per system, open files per process. -/
def NINODE : Nat := 50
def NFILE : Nat := 100
def NOFILE : Nat := 16

instance : NeZero NINODE := ⟨by decide⟩
instance : NeZero NOFILE := ⟨by decide⟩

def NDEV : Nat := 10
def CONSOLE : Nat := 1

def ROOTDEV : Nat := 1
def ROOTINO : Nat := 1

/-- Block numbers in an inode and in its indirect block, and bytes in a name. -/
def NDIRECT : Nat := 12
def NINDIRECT : Nat := 128
def MAXFILE : Nat := NDIRECT + NINDIRECT
def DIRSIZ : Nat := 14

/-- Inodes per block and bitmap bits per block. -/
def IPB : Nat := 8
def BPB : Nat := BSIZE * 8

/-- `sizeof(struct dirent)`. -/
def DIRENT : Nat := 16

def T_DIR : Int := 1
def T_FILE : Int := 2
def T_DEV : Int := 3

def O_RDONLY : UInt32 := 0x000
def O_WRONLY : UInt32 := 0x001
def O_RDWR : UInt32 := 0x002
def O_CREATE : UInt32 := 0x200

end Xv6
