import Mathlib.Data.Nat.Bitwise
import Xv6.Fs.Kernel

/-!
The on-disk format of `fs.h`: the superblock, the inodes, the free bitmap and
the indirect blocks, as reads and writes of the bytes of a block.
-/

namespace Xv6.Fs

open ByteSeq

structure Superblock where
  size : Nat
  nblocks : Nat
  ninodes : Nat
  nlog : Nat
  logstart : Nat
  inodestart : Nat
  bmapstart : Nat
deriving DecidableEq, Repr

/-- `struct superblock` in the bytes of block 1. -/
def getSuper (b : Block) : Superblock where
  size := b.num 4 0
  nblocks := b.num 4 4
  ninodes := b.num 4 8
  nlog := b.num 4 12
  logstart := b.num 4 16
  inodestart := b.num 4 20
  bmapstart := b.num 4 24

def Superblock.iblock (sb : Superblock) (i : Nat) : Nat := i / IPB + sb.inodestart

def Superblock.bblock (sb : Superblock) (b : Nat) : Nat := b / BPB + sb.bmapstart

/-- `struct dinode`. -/
structure Dinode where
  type : Int
  major : Int
  minor : Int
  nlink : Int
  size : Nat
  addrs : Fin (NDIRECT + 1) → Nat

namespace Dinode

def fields (di : Dinode) : Meta where
  type := di.type
  major := di.major
  minor := di.minor
  nlink := di.nlink
  size := di.size

def addr (di : Dinode) (i : Nat) : Nat := if h : i < NDIRECT + 1 then di.addrs ⟨i, h⟩ else 0

def setAddr (di : Dinode) (i v : Nat) : Dinode :=
  { di with addrs := fun j => if j.val = i then v else di.addrs j }

def setSize (di : Dinode) (size : Nat) : Dinode := { di with size := size }

def setType (di : Dinode) (type : Int) : Dinode := { di with type := type }

/-- Assignments to `major`, `minor` and `nlink`. -/
def amend (di : Dinode) (f : Meta → Meta) : Dinode :=
  { di with
    major := (di.fields.amend f).major
    minor := (di.fields.amend f).minor
    nlink := (di.fields.amend f).nlink }

/-- All zero but the type. -/
def empty (type : Int) : Dinode where
  type := type
  major := 0
  minor := 0
  nlink := 0
  size := 0
  addrs := fun _ => 0

/-- The fields have the values that their C types hold. -/
structure Wf (di : Dinode) : Prop where
  type : short di.type = di.type
  major : short di.major = di.major
  minor : short di.minor = di.minor
  nlink : short di.nlink = di.nlink
  size : di.size < 2 ^ 32
  addrs : ∀ j, di.addrs j < 2 ^ 32

@[ext] theorem ext_addr {a b : Dinode} (hfields : a.fields = b.fields)
    (haddr : ∀ i < NDIRECT + 1, a.addr i = b.addr i) : a = b := by
  obtain ⟨_, _, _, _, _, x⟩ := a
  obtain ⟨_, _, _, _, _, y⟩ := b
  have hxy : x = y := by
    funext j
    have hj := haddr j.val j.isLt
    simpa [addr, j.isLt] using hj
  simp_all [fields]

theorem addr_setAddr (di : Dinode) {i : Nat} (hi : i < NDIRECT + 1) (v k : Nat) :
    (di.setAddr i v).addr k = if k = i then v else di.addr k := by
  unfold addr setAddr
  by_cases hk : k < NDIRECT + 1
  · simp [hk]
  · have hne : k ≠ i := by omega
    simp [hk, hne]

@[simp] theorem fields_setAddr (di : Dinode) (i v : Nat) :
    (di.setAddr i v).fields = di.fields := rfl

@[simp] theorem addr_setSize (di : Dinode) (size i : Nat) :
    (di.setSize size).addr i = di.addr i := rfl

@[simp] theorem addr_empty (type : Int) (i : Nat) : (empty type).addr i = 0 := by
  simp [addr, empty]

end Dinode

theorem short_short (z : Int) : short (short z) = short z := by
  have hlt := ofSigned_lt 2 z
  unfold short toSigned
  split
  · next hpos =>
      have hfit : ofSigned 2 ((ofSigned 2 z : Nat) : Int) = ofSigned 2 z := by
        unfold ofSigned at *
        omega
      rw [hfit, if_pos hpos]
  · next hneg =>
      have hfit : ofSigned 2 ((ofSigned 2 z : Int) - 256 ^ 2) = ofSigned 2 z := by
        unfold ofSigned at *
        omega
      rw [hfit, if_neg hneg]

/-- `sizeof(struct dinode)`. -/
def DINODE : Nat := 64

def getDinode (b : Block) (i : Nat) : Dinode where
  type := toSigned 2 (b.num 2 (DINODE * i))
  major := toSigned 2 (b.num 2 (DINODE * i + 2))
  minor := toSigned 2 (b.num 2 (DINODE * i + 4))
  nlink := toSigned 2 (b.num 2 (DINODE * i + 6))
  size := b.num 4 (DINODE * i + 8)
  addrs := fun j => b.num 4 (DINODE * i + 12 + 4 * j.val)

/-- The stores of `iupdate` into the inode's place. -/
def putDinode (b : Block) (i : Nat) (di : Dinode) : Block :=
  let b := b.setNum 2 (DINODE * i) (ofSigned 2 di.type)
  let b := b.setNum 2 (DINODE * i + 2) (ofSigned 2 di.major)
  let b := b.setNum 2 (DINODE * i + 4) (ofSigned 2 di.minor)
  let b := b.setNum 2 (DINODE * i + 6) (ofSigned 2 di.nlink)
  let b := b.setNum 4 (DINODE * i + 8) di.size
  b.splice (DINODE * i + 12) (4 * (NDIRECT + 1))
    (fun k => leByte (di.addr (k / 4)) (k % 4))

/-- The stores of `ialloc`: `memset(dip, 0, sizeof(*dip)); dip->type = type;` -/
def clearDinode (b : Block) (i : Nat) (type : Int) : Block :=
  (b.splice (DINODE * i) DINODE (fun _ => 0)).setNum 2 (DINODE * i) (ofSigned 2 type)

section Dinodes

variable (b : Block)

theorem num_putDinode_of_disjoint (i : Nat) (di : Dinode) {w off : Nat}
    (h : off + w ≤ DINODE * i ∨ DINODE * i + DINODE ≤ off) :
    (putDinode b i di).num w off = b.num w off := by
  unfold DINODE at h
  unfold putDinode NDIRECT DINODE
  rw [Bytes.num_splice_of_disjoint _ _ (by omega)]
  simp (disch := omega) only [Bytes.num_setNum_of_disjoint]

theorem num_clearDinode_of_disjoint (i : Nat) (type : Int) {w off : Nat}
    (h : off + w ≤ DINODE * i ∨ DINODE * i + DINODE ≤ off) :
    (clearDinode b i type).num w off = b.num w off := by
  unfold DINODE at h
  unfold clearDinode DINODE
  rw [Bytes.num_setNum_of_disjoint _ _ (by omega), Bytes.num_splice_of_disjoint _ _ (by omega)]

theorem getDinode_congr {b c : Block} {i : Nat}
    (h : ∀ w k, k + w ≤ DINODE → b.num w (DINODE * i + k) = c.num w (DINODE * i + k)) :
    getDinode b i = getDinode c i := by
  have h0 := h 2 0 (by decide)
  have hsize := h 4 8 (by decide)
  have haddrs (j : Fin (NDIRECT + 1)) :
      b.num 4 (DINODE * i + 12 + 4 * j.val) = c.num 4 (DINODE * i + 12 + 4 * j.val) := by
    have hj := j.isLt
    have hfits : 12 + 4 * j.val + 4 ≤ DINODE := by
      unfold NDIRECT at hj
      unfold DINODE
      omega
    have := h 4 (12 + 4 * j.val) hfits
    rwa [← Nat.add_assoc] at this
  simp only [Nat.add_zero] at h0
  simp only [getDinode, h0, h 2 2 (by decide), h 2 4 (by decide), h 2 6 (by decide), hsize,
    haddrs]

theorem getDinode_putDinode_of_ne {i j : Nat} (h : j ≠ i) (di : Dinode) :
    getDinode (putDinode b i di) j = getDinode b j := by
  apply getDinode_congr
  intro w k hk
  apply num_putDinode_of_disjoint
  unfold DINODE at hk ⊢
  omega

theorem getDinode_clearDinode_of_ne {i j : Nat} (h : j ≠ i) (type : Int) :
    getDinode (clearDinode b i type) j = getDinode b j := by
  apply getDinode_congr
  intro w k hk
  apply num_clearDinode_of_disjoint
  unfold DINODE at hk ⊢
  omega

/-- The codec of disk inodes loses nothing that the C types can hold. -/
theorem getDinode_putDinode_self {i : Nat} (hi : i < IPB) {di : Dinode} (h : di.Wf) :
    getDinode (putDinode b i di) i = di := by
  have hsize : di.size % 256 ^ 4 = di.size := Nat.mod_eq_of_lt (by have := h.size; omega)
  have hz (z : Int) : ofSigned 2 z % 256 ^ 2 = ofSigned 2 z := Nat.mod_eq_of_lt (ofSigned_lt 2 z)
  unfold IPB at hi
  have haddr (j : Fin (NDIRECT + 1)) :
      (putDinode b i di).num 4 (DINODE * i + 12 + 4 * j.val) = di.addrs j := by
    have hj : j.val < 13 := j.isLt
    unfold putDinode
    rw [Bytes.num_splice_of_inside _ _ (by unfold NDIRECT; omega)
      (by unfold NDIRECT DINODE BSIZE; omega)]
    have hbytes : leNat (fun k => leByte (di.addr ((4 * j.val + k) / 4)) ((4 * j.val + k) % 4)) 4 =
        leNat (leByte (di.addr j.val)) 4 := by
      apply leNat_congr
      intro k hk
      rw [show (4 * j.val + k) / 4 = j.val by omega, show (4 * j.val + k) % 4 = k by omega]
    rw [hbytes, leNat_leByte]
    have hlt := h.addrs j
    simp only [Dinode.addr, j.isLt, dif_pos]
    exact Nat.mod_eq_of_lt (by omega)
  have hfields : (getDinode (putDinode b i di) i).fields = di.fields := by
    have hbsize : BSIZE = 512 := rfl
    unfold Dinode.fields getDinode putDinode DINODE NDIRECT
    simp (disch := omega) only [Bytes.num_splice_of_disjoint,
      Bytes.num_setNum_of_disjoint, Bytes.num_setNum_self, hz, hsize]
    congr 1
    · exact h.type
    · exact h.major
    · exact h.minor
    · exact h.nlink
  apply Dinode.ext_addr hfields
  intro k hk
  have := haddr ⟨k, hk⟩
  simpa [Dinode.addr, hk, getDinode] using this

theorem getDinode_clearDinode_self {i : Nat} (hi : i < IPB) (type : Int) :
    getDinode (clearDinode b i type) i = Dinode.empty (short type) := by
  unfold IPB at hi
  have hzero {w k : Nat} (hk : 2 ≤ k) (hw : k + w ≤ 64) :
      (clearDinode b i type).num w (64 * i + k) = 0 := by
    unfold clearDinode DINODE
    rw [Bytes.num_setNum_of_disjoint _ _ (by omega),
      Bytes.num_splice_of_inside _ _ hw (by unfold BSIZE; omega), leNat_zero]
  have htype : (clearDinode b i type).num 2 (64 * i) = ofSigned 2 type := by
    unfold clearDinode DINODE
    rw [Bytes.num_setNum_self _ _ (by unfold BSIZE; omega)]
    exact Nat.mod_eq_of_lt (ofSigned_lt 2 type)
  have haddr (j : Fin (NDIRECT + 1)) :
      (clearDinode b i type).num 4 (64 * i + 12 + 4 * j.val) = 0 := by
    have hj : j.val < 13 := j.isLt
    have := hzero (w := 4) (k := 12 + 4 * j.val) (by omega) (by omega)
    rwa [← Nat.add_assoc] at this
  simp only [getDinode, DINODE, htype, haddr, hzero (by omega) (by omega : 2 + 2 ≤ 64),
    hzero (by omega) (by omega : 4 + 2 ≤ 64), hzero (by omega) (by omega : 6 + 2 ≤ 64),
    hzero (by omega) (by omega : 8 + 4 ≤ 64)]
  rfl

theorem getDinode_wf (i : Nat) : (getDinode b i).Wf := by
  have hshort (off : Nat) : short (toSigned 2 (b.num 2 off)) = toSigned 2 (b.num 2 off) := by
    have hlt := b.num_lt 2 off
    have hfit : b.num 2 off = ofSigned 2 (b.num 2 off) := by
      unfold ofSigned
      omega
    rw [hfit]
    exact short_short _
  exact
    { type := hshort _
      major := hshort _
      minor := hshort _
      nlink := hshort _
      size := by have := b.num_lt 4 (DINODE * i + 8); simpa [getDinode] using this
      addrs := fun j => by
        have := b.num_lt 4 (DINODE * i + 12 + 4 * j.val)
        simpa [getDinode] using this }

end Dinodes

/-! ### Bitmap blocks -/

def bitSet (b : Block) (bi : Nat) : Bool := (b.byte (bi / 8)).toNat &&& (1 <<< (bi % 8)) != 0

def markBit (b : Block) (bi : Nat) : Block :=
  b.splice (bi / 8) 1 (fun _ => UInt8.ofNat ((b.byte (bi / 8)).toNat ||| (1 <<< (bi % 8))))

def clearBit (b : Block) (bi : Nat) : Block :=
  b.splice (bi / 8) 1
    (fun _ => UInt8.ofNat ((b.byte (bi / 8)).toNat &&& (255 ^^^ (1 <<< (bi % 8)))))

section Bits

theorem bitSet_eq_testBit (b : Block) (bi : Nat) :
    bitSet b bi = (b.byte (bi / 8)).toNat.testBit (bi % 8) := by
  unfold bitSet
  rw [Nat.one_shiftLeft, Nat.and_two_pow]
  cases (b.byte (bi / 8)).toNat.testBit (bi % 8) <;> simp

variable (b : Block) {bi : Nat}

theorem byte_markBit (hbi : bi < BPB) (k : Nat) :
    ((markBit b bi).byte k).toNat =
      if k = bi / 8 then (b.byte k).toNat ||| 2 ^ (bi % 8) else (b.byte k).toNat := by
  have hpow : 2 ^ (bi % 8) < 2 ^ 8 := Nat.pow_lt_pow_right (by omega) (Nat.mod_lt _ (by omega))
  unfold BPB BSIZE at hbi
  unfold markBit
  rw [Bytes.byte_splice]
  by_cases hk : k = bi / 8
  · have hor : (b.byte k).toNat ||| 2 ^ (bi % 8) < 2 ^ 8 :=
      Nat.or_lt_two_pow (b.byte k).toNat_lt hpow
    rw [if_pos (by unfold BSIZE; omega), if_pos hk, Nat.one_shiftLeft, ← hk]
    exact (UInt8.toNat_ofNat' ..).trans (Nat.mod_eq_of_lt hor)
  · rw [if_neg (by omega), if_neg hk]

theorem byte_clearBit (hbi : bi < BPB) (k : Nat) :
    ((clearBit b bi).byte k).toNat =
      if k = bi / 8 then (b.byte k).toNat &&& (255 ^^^ 2 ^ (bi % 8)) else (b.byte k).toNat := by
  unfold BPB BSIZE at hbi
  unfold clearBit
  rw [Bytes.byte_splice]
  by_cases hk : k = bi / 8
  · have hand : (b.byte k).toNat &&& (255 ^^^ 2 ^ (bi % 8)) < 2 ^ 8 :=
      Nat.lt_of_le_of_lt Nat.and_le_left (b.byte k).toNat_lt
    rw [if_pos (by unfold BSIZE; omega), if_pos hk, Nat.one_shiftLeft, ← hk]
    exact (UInt8.toNat_ofNat' ..).trans (Nat.mod_eq_of_lt hand)
  · rw [if_neg (by omega), if_neg hk]

theorem bitSet_markBit (hbi : bi < BPB) (j : Nat) :
    bitSet (markBit b bi) j = (decide (j = bi) || bitSet b j) := by
  rw [bitSet_eq_testBit, bitSet_eq_testBit, byte_markBit b hbi]
  by_cases hj : j / 8 = bi / 8
  · rw [if_pos hj, Nat.testBit_or, Nat.testBit_two_pow]
    have : (bi % 8 = j % 8) ↔ j = bi := by omega
    simp only [this, Bool.or_comm]
  · have : j ≠ bi := by
      rintro rfl
      exact hj rfl
    simp [hj, this]

theorem bitSet_clearBit (hbi : bi < BPB) (j : Nat) :
    bitSet (clearBit b bi) j = (decide (j ≠ bi) && bitSet b j) := by
  rw [bitSet_eq_testBit, bitSet_eq_testBit, byte_clearBit b hbi]
  by_cases hj : j / 8 = bi / 8
  · have hall : Nat.testBit 255 (j % 8) = true := by
      have : ∀ k < 8, Nat.testBit 255 k = true := by decide
      exact this _ (Nat.mod_lt _ (by omega))
    rw [if_pos hj, Nat.testBit_and, Nat.testBit_xor, Nat.testBit_two_pow, hall]
    have : (bi % 8 = j % 8) ↔ j = bi := by omega
    simp only [this, Bool.true_xor, decide_not, Bool.and_comm]
  · have : j ≠ bi := by
      rintro rfl
      exact hj rfl
    simp [hj, this]

end Bits

/-! ### Indirect blocks -/

def tableGet (b : Block) (j : Nat) : Nat := b.num 4 (4 * j)

def tableSet (b : Block) (j v : Nat) : Block := b.setNum 4 (4 * j) v

theorem tableGet_tableSet_self (b : Block) {j v : Nat} (hj : j < NINDIRECT) (hv : v < 2 ^ 32) :
    tableGet (tableSet b j v) j = v := by
  unfold NINDIRECT at hj
  unfold tableGet tableSet
  rw [Bytes.num_setNum_self _ _ (by unfold BSIZE; omega)]
  exact Nat.mod_eq_of_lt (by omega)

theorem tableGet_tableSet_of_ne (b : Block) {j k : Nat} (h : k ≠ j) (v : Nat) :
    tableGet (tableSet b j v) k = tableGet b k :=
  Bytes.num_setNum_of_disjoint _ _ (by omega)

@[simp] theorem tableGet_zero (j : Nat) : tableGet Bytes.zero j = 0 := Bytes.num_zero _ _

end Xv6.Fs
