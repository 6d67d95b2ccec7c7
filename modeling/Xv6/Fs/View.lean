import Xv6.Fs.Layout
import Xv6.Lib.Ownership

/-!
The disk seen as inodes, bitmap bits and data blocks, and when these three fit
together: the ledger of block numbers. Every block number stands at a place, an
inode `i` with a position `q`: `q < NDIRECT` are the direct blocks, `NDIRECT`
is the indirect block, and the positions after it are the entries of the
indirect block.
-/

namespace Xv6.Fs

open Prog

/-- Blocks before the data blocks. -/
def Superblock.nmeta (sb : Superblock) : Nat := sb.size - sb.nblocks

/-- The regions of the disk are in the order boot block, superblock, log,
inodes, bitmap, data, and `int` is wide enough for the loops over blocks. -/
structure Layout (sb : Superblock) (disksize : Nat) : Prop where
  super : 2 ≤ sb.inodestart
  order : sb.inodestart ≤ sb.bmapstart
  inodes : ∀ i < sb.ninodes, sb.iblock i < sb.bmapstart
  region : sb.bmapstart < sb.nmeta
  bitmap : ∀ b < sb.size, sb.bblock b < sb.nmeta
  disk : sb.size ≤ disksize
  fits : sb.size + BPB < 2 ^ 31

namespace Layout

variable {sb : Superblock} {ds : Nat} (hl : Layout sb ds)

include hl

theorem one_lt_iblock (i : Nat) : 1 < sb.iblock i := by
  have hle : sb.inodestart ≤ sb.iblock i := Nat.le_add_left _ _
  have := hl.super
  omega

theorem one_lt_bblock (b : Nat) : 1 < sb.bblock b := by
  have hle : sb.bmapstart ≤ sb.bblock b := Nat.le_add_left _ _
  have := hl.super
  have := hl.order
  omega

theorem iblock_lt_bblock {i : Nat} (hi : i < sb.ninodes) (b : Nat) :
    sb.iblock i < sb.bblock b :=
  (hl.inodes i hi).trans_le (Nat.le_add_left _ _)

theorem one_lt_nmeta : 1 < sb.nmeta := by
  have := hl.super
  have := hl.order
  have := hl.region
  omega

end Layout

structure View where
  ino : Nat → Dinode
  bit : Nat → Bool
  blk : Nat → Block

namespace View

variable (v : View)

def setIno (i : Nat) (di : Dinode) : View := { v with ino := set v.ino i di }

def setBit (b : Nat) (x : Bool) : View := { v with bit := set v.bit b x }

def setBlk (b : Nat) (d : Block) : View := { v with blk := set v.blk b d }

@[simp] theorem setIno_ino (i : Nat) (di : Dinode) :
    (v.setIno i di).ino = set v.ino i di := rfl

@[simp] theorem setIno_bit (i : Nat) (di : Dinode) : (v.setIno i di).bit = v.bit := rfl

@[simp] theorem setIno_blk (i : Nat) (di : Dinode) : (v.setIno i di).blk = v.blk := rfl

@[simp] theorem setBit_ino (b : Nat) (x : Bool) : (v.setBit b x).ino = v.ino := rfl

@[simp] theorem setBit_bit (b : Nat) (x : Bool) : (v.setBit b x).bit = set v.bit b x := rfl

@[simp] theorem setBit_blk (b : Nat) (x : Bool) : (v.setBit b x).blk = v.blk := rfl

@[simp] theorem setBlk_ino (b : Nat) (d : Block) : (v.setBlk b d).ino = v.ino := rfl

@[simp] theorem setBlk_bit (b : Nat) (d : Block) : (v.setBlk b d).bit = v.bit := rfl

@[simp] theorem setBlk_blk (b : Nat) (d : Block) : (v.setBlk b d).blk = set v.blk b d := rfl

@[simp] theorem setIno_eta (i : Nat) : v.setIno i (v.ino i) = v := by
  simp [setIno]

end View

/-- `v` is what the disk shows under this superblock. -/
structure Shows (sb : Superblock) (disk : Nat → Block) (v : View) : Prop where
  super : getSuper (disk 1) = sb
  ino : ∀ i < sb.ninodes, getDinode (disk (sb.iblock i)) (i % IPB) = v.ino i
  bit : ∀ b < sb.size, bitSet (disk (sb.bblock b)) (b % BPB) = v.bit b
  blk : ∀ b, sb.nmeta ≤ b → b < sb.size → disk b = v.blk b

def viewOf (sb : Superblock) (disk : Nat → Block) : View where
  ino i := getDinode (disk (sb.iblock i)) (i % IPB)
  bit b := bitSet (disk (sb.bblock b)) (b % BPB)
  blk := disk

theorem shows_viewOf {sb : Superblock} {disk : Nat → Block} (h : getSuper (disk 1) = sb) :
    Shows sb disk (viewOf sb disk) where
  super := h
  ino _ _ := rfl
  bit _ _ := rfl
  blk _ _ _ := rfl

namespace Shows

variable {sb : Superblock} {ds : Nat} {disk : Nat → Block} {v : View}

variable {i b : Nat}

section

variable (hl : Layout sb ds) (h : Shows sb disk v)
include hl h

theorem setIno (hi : i < sb.ninodes) {d : Block} {di : Dinode} (hself : getDinode d (i % IPB) = di)
    (hother : ∀ j, j ≠ i % IPB → getDinode d j = getDinode (disk (sb.iblock i)) j) :
    Shows sb (set disk (sb.iblock i) d) (v.setIno i di) where
  super := by
    rw [set_of_ne _ _ (hl.one_lt_iblock i).ne]
    exact h.super
  ino := by
    intro j hj
    by_cases hji : j = i
    · subst hji
      simpa using hself
    · simp only [View.setIno_ino, set_of_ne _ _ hji]
      by_cases hblock : sb.iblock j = sb.iblock i
      · rw [hblock, set_self, hother, ← hblock, h.ino j hj]
        unfold Superblock.iblock IPB at *
        omega
      · rw [set_of_ne _ _ hblock, h.ino j hj]
  bit := by
    intro b hb
    rw [set_of_ne _ _ (hl.iblock_lt_bblock hi b).ne', h.bit b hb, View.setIno_bit]
  blk := by
    intro b hb hsize
    have hlt : sb.iblock i < b :=
      (hl.iblock_lt_bblock hi b).trans ((hl.bitmap b hsize).trans_le hb)
    rw [set_of_ne _ _ hlt.ne', h.blk b hb hsize, View.setIno_blk]

theorem putIno (hi : i < sb.ninodes) {di : Dinode} (hdi : di.Wf) :
    Shows sb (set disk (sb.iblock i) (putDinode (disk (sb.iblock i)) (i % IPB) di))
      (v.setIno i di) :=
  h.setIno hl hi (getDinode_putDinode_self _ (Nat.mod_lt _ (by decide)) hdi)
    (fun _ hj => getDinode_putDinode_of_ne _ hj _)

theorem clearIno (hi : i < sb.ninodes) (type : Int) :
    Shows sb (set disk (sb.iblock i) (clearDinode (disk (sb.iblock i)) (i % IPB) type))
      (v.setIno i (Dinode.empty (short type))) :=
  h.setIno hl hi (getDinode_clearDinode_self _ (Nat.mod_lt _ (by decide)) type)
    (fun _ hj => getDinode_clearDinode_of_ne _ hj _)

theorem setBit (hb : b < sb.size) {d : Block} {x : Bool} (hself : bitSet d (b % BPB) = x)
    (hother : ∀ j, j ≠ b % BPB → bitSet d j = bitSet (disk (sb.bblock b)) j) :
    Shows sb (set disk (sb.bblock b) d) (v.setBit b x) where
  super := by
    rw [set_of_ne _ _ (hl.one_lt_bblock b).ne]
    exact h.super
  ino := by
    intro i hi
    rw [set_of_ne _ _ (hl.iblock_lt_bblock hi b).ne, h.ino i hi, View.setBit_ino]
  bit := by
    intro c hc
    by_cases hcb : c = b
    · subst hcb
      simpa using hself
    · simp only [View.setBit_bit, set_of_ne _ _ hcb]
      by_cases hblock : sb.bblock c = sb.bblock b
      · rw [hblock, set_self, hother, ← hblock, h.bit c hc]
        unfold Superblock.bblock BPB BSIZE at *
        omega
      · rw [set_of_ne _ _ hblock, h.bit c hc]
  blk := by
    intro c hc hsize
    rw [set_of_ne _ _ ((hl.bitmap b hb).trans_le hc).ne', h.blk c hc hsize, View.setBit_blk]

theorem mark (hb : b < sb.size) :
    Shows sb (set disk (sb.bblock b) (markBit (disk (sb.bblock b)) (b % BPB)))
      (v.setBit b true) := by
  have hlt : b % BPB < BPB := Nat.mod_lt _ (by decide)
  refine h.setBit hl hb ?_ ?_
  · simp [bitSet_markBit _ hlt]
  · intro j hj
    simp [bitSet_markBit _ hlt, hj]

theorem clear (hb : b < sb.size) :
    Shows sb (set disk (sb.bblock b) (clearBit (disk (sb.bblock b)) (b % BPB)))
      (v.setBit b false) := by
  have hlt : b % BPB < BPB := Nat.mod_lt _ (by decide)
  refine h.setBit hl hb ?_ ?_
  · simp [bitSet_clearBit _ hlt]
  · intro j hj
    simp [bitSet_clearBit _ hlt, hj]

theorem write (hb : sb.nmeta ≤ b) (hsize : b < sb.size) (d : Block) :
    Shows sb (set disk b d) (v.setBlk b d) where
  super := by
    rw [set_of_ne _ _ (hl.one_lt_nmeta.trans_le hb).ne]
    exact h.super
  ino := by
    intro i hi
    have hlt : sb.iblock i < b :=
      (hl.iblock_lt_bblock hi b).trans ((hl.bitmap b hsize).trans_le hb)
    rw [set_of_ne _ _ hlt.ne, h.ino i hi, View.setBlk_ino]
  bit := by
    intro c hc
    rw [set_of_ne _ _ ((hl.bitmap c hc).trans_le hb).ne, h.bit c hc, View.setBlk_bit]
  blk := by
    intro c hc hcsize
    by_cases hcb : c = b
    · subst hcb
      simp
    · simp only [View.setBlk_blk, set_of_ne _ _ hcb]
      exact h.blk c hc hcsize

end

end Shows

end Xv6.Fs
