import Xv6.Fs.View

/-!
The ledger of blocks over a view of the disk, the four changes of it that
`bmap` and `itrunc` make, and the bytes of a file.
-/

namespace Xv6.Fs

open Prog

/-- The block number at position `q` of an inode. -/
def Dinode.ref (di : Dinode) (blk : Nat → Block) (q : Nat) : Nat :=
  if q ≤ NDIRECT then di.addr q
  else if di.addr NDIRECT ≠ 0 ∧ q ≤ MAXFILE then
    tableGet (blk (di.addr NDIRECT)) (q - (NDIRECT + 1))
  else 0

namespace View

variable (sb : Superblock) (v : View)

/-- The block number at a place; zero for inodes that are not allocated. -/
def own (p : Nat × Nat) : Nat :=
  if p.1 < sb.ninodes ∧ (v.ino p.1).type ≠ 0 then (v.ino p.1).ref v.blk p.2 else 0

/-- The position of the `k`-th block of a file. -/
def position (k : Nat) : Nat := if k < NDIRECT then k else k + 1

def blockAt (i k : Nat) : Nat := v.own sb (i, position k)

/-- The byte of inode `i` at `off`, zero where no block is allocated. -/
def byteAt (i off : Nat) : UInt8 :=
  if v.blockAt sb i (off / BSIZE) = 0 then 0
  else (v.blk (v.blockAt sb i (off / BSIZE))).byte (off % BSIZE)

def Free (b : Nat) : Prop := sb.nmeta ≤ b ∧ b < sb.size ∧ v.bit b = false

end View

/-- The bitmap has a bit for exactly the metadata blocks and the blocks at some
place, and no block is at two places. -/
structure Ledger (sb : Superblock) (v : View) : Prop where
  owns : Owns (v.own sb) (fun b => sb.nmeta ≤ b ∧ b < sb.size ∧ v.bit b = true)
  reserved : ∀ b < sb.nmeta, v.bit b = true

/-- No holes: a file that is not a device has its first `nb` blocks. -/
def Filled (sb : Superblock) (v : View) (nb : Nat → Nat) : Prop :=
  ∀ i < sb.ninodes, (v.ino i).type ≠ 0 → (v.ino i).type ≠ T_DEV →
    ∀ k, v.blockAt sb i k ≠ 0 ↔ k < nb i

/-- Bytes written behind others, as one write. -/
theorem overlay_add (i j off m len o : Nat) (src : Nat → UInt8) (x : UInt8) :
    (if j = i ∧ off + m ≤ o ∧ o < off + m + len then src (m + (o - (off + m)))
      else if j = i ∧ off ≤ o ∧ o < off + m then src (o - off) else x) =
      if j = i ∧ off ≤ o ∧ o < off + (m + len) then src (o - off) else x := by
  by_cases hj : j = i
  · by_cases hsecond : off + m ≤ o ∧ o < off + m + len
    · rw [if_pos ⟨hj, hsecond⟩, if_pos ⟨hj, by omega, by omega⟩]
      congr 1
      omega
    · rw [if_neg (fun hc => hsecond hc.2)]
      by_cases hfirst : off ≤ o ∧ o < off + m
      · rw [if_pos ⟨hj, hfirst⟩, if_pos ⟨hj, by omega, by omega⟩]
      · rw [if_neg (fun hc => hfirst hc.2), if_neg (fun hc => by omega)]
  · rw [if_neg (fun hc => hj hc.1), if_neg (fun hc => hj hc.1), if_neg (fun hc => hj hc.1)]

section

variable {sb : Superblock} {ds : Nat} {v v' : View} {i q b : Nat}

theorem View.own_of_alloc (hi : i < sb.ninodes) (ht : (v.ino i).type ≠ 0) (q : Nat) :
    v.own sb (i, q) = (v.ino i).ref v.blk q := if_pos ⟨hi, ht⟩

theorem View.position_ne (k : Nat) : View.position k ≠ NDIRECT := by
  unfold View.position
  split <;> omega

theorem View.position_injective : Function.Injective View.position := by
  intro j k h
  unfold View.position at h
  split at h <;> split at h <;> omega

theorem Dinode.ref_addr (di : Dinode) (blk : Nat → Block) (hq : q ≤ NDIRECT) :
    di.ref blk q = di.addr q := if_pos hq

variable {di : Dinode}

theorem Dinode.ref_entry (blk : Nat → Block) (ht : di.addr NDIRECT ≠ 0) {j : Nat}
    (hj : j < NINDIRECT) : di.ref blk (NDIRECT + 1 + j) = tableGet (blk (di.addr NDIRECT)) j := by
  unfold Dinode.ref
  rw [if_neg (by omega), if_pos ⟨ht, by unfold MAXFILE; omega⟩, Nat.add_sub_cancel_left]

/-- Without an indirect block, or with one that is all zero, nothing stands
beyond the addresses. -/
theorem Dinode.ref_eq_zero {blk : Nat → Block} (hq : NDIRECT < q)
    (hempty : di.addr NDIRECT ≠ 0 → ∀ j < NINDIRECT, tableGet (blk (di.addr NDIRECT)) j = 0) :
    di.ref blk q = 0 := by
  unfold Dinode.ref
  rw [if_neg (by omega)]
  split
  · next ht =>
      apply hempty ht.1
      have := ht.2
      unfold MAXFILE at this
      omega
  · rfl

/-- The block numbers of an inode depend on its addresses and its own indirect
block only. -/
theorem Dinode.ref_congr {di' : Dinode} {blk blk' : Nat → Block} {q : Nat}
    (haddr : q ≤ NDIRECT → di'.addr q = di.addr q)
    (htable : NDIRECT < q → di'.addr NDIRECT = di.addr NDIRECT)
    (hblk : NDIRECT < q → di.addr NDIRECT ≠ 0 → q ≤ MAXFILE →
      tableGet (blk' (di.addr NDIRECT)) (q - (NDIRECT + 1)) =
        tableGet (blk (di.addr NDIRECT)) (q - (NDIRECT + 1))) :
    di'.ref blk' q = di.ref blk q := by
  unfold Dinode.ref
  by_cases hq : q ≤ NDIRECT
  · rw [if_pos hq, if_pos hq, haddr hq]
  · rw [if_neg hq, if_neg hq, htable (by omega)]
    by_cases ht : di.addr NDIRECT ≠ 0 ∧ q ≤ MAXFILE
    · rw [if_pos ht, if_pos ht, hblk (by omega) ht.1 ht.2]
    · rw [if_neg ht, if_neg ht]

namespace Ledger

variable {p : Nat × Nat}

theorem used (h : Ledger sb v) (hp : v.own sb p ≠ 0) :
    sb.nmeta ≤ v.own sb p ∧ v.own sb p < sb.size ∧ v.bit (v.own sb p) = true :=
  h.owns.used_of_ne_zero hp

theorem own_ne_free (hl : Layout sb ds) (h : Ledger sb v) (hb : v.Free sb b) (p : Nat × Nat) :
    v.own sb p ≠ b := by
  obtain ⟨hmeta, hsize, hbit⟩ := hb
  have := hl.one_lt_nmeta
  refine h.owns.ne_of_not_used (by omega) ?_ p
  rintro ⟨-, -, htrue⟩
  rw [hbit] at htrue
  cases htrue

/-- A new block at a place that had none. -/
theorem assign (hl : Layout sb ds) (h : Ledger sb v) (hp : v.own sb p = 0) (hb : v.Free sb b)
    (hown : v'.own sb = Function.update (v.own sb) p b) (hbit : v'.bit = set v.bit b true) :
    Ledger sb v' where
  owns := by
    obtain ⟨hmeta, hsize, hfree⟩ := hb
    have := hl.one_lt_nmeta
    rw [hown]
    refine (h.owns.assign hp (by omega : b ≠ 0) (fun hused => ?_)).congr_used ?_
    · rw [hfree] at hused
      cases hused.2.2
    · intro c
      rw [hbit]
      by_cases hcb : c = b
      · subst hcb
        simp [hmeta, hsize]
      · simp [set_of_ne _ _ hcb, hcb]
  reserved := by
    intro c hc
    have hne : c ≠ b := by
      have := hb.1
      omega
    rw [hbit, set_of_ne _ _ hne]
    exact h.reserved c hc

/-- The block of a place is given back. -/
theorem release (h : Ledger sb v) (hp : v.own sb p ≠ 0)
    (hown : v'.own sb = Function.update (v.own sb) p 0)
    (hbit : v'.bit = set v.bit (v.own sb p) false) : Ledger sb v' where
  owns := by
    rw [hown]
    refine (h.owns.release hp).congr_used ?_
    intro c
    rw [hbit]
    by_cases hcb : c = v.own sb p
    · subst hcb
      simp
    · simp [set_of_ne _ _ hcb, hcb]
  reserved := by
    intro c hc
    have hne : c ≠ v.own sb p := by
      have := (h.used hp).1
      omega
    rw [hbit, set_of_ne _ _ hne]
    exact h.reserved c hc

end Ledger

namespace View

/-- A change of the block number at one place, seen in the whole table. -/
theorem own_eq_update (hi : i < sb.ninodes) (ht : (v.ino i).type ≠ 0)
    (htype : ∀ j, (v'.ino j).type = (v.ino j).type) (hself : (v'.ino i).ref v'.blk q = b)
    (hother : ∀ j r, j < sb.ninodes → (v.ino j).type ≠ 0 → (j, r) ≠ (i, q) →
      (v'.ino j).ref v'.blk r = (v.ino j).ref v.blk r) :
    v'.own sb = Function.update (v.own sb) (i, q) b := by
  funext ⟨j, r⟩
  by_cases hjr : (j, r) = (i, q)
  · cases hjr
    rw [Function.update_self, own_of_alloc hi (by rwa [htype]), hself]
  · rw [Function.update_of_ne hjr]
    unfold own
    rw [htype]
    by_cases hj : j < sb.ninodes ∧ (v.ino j).type ≠ 0
    · rw [if_pos hj, if_pos hj, hother j r hj.1 hj.2 hjr]
    · rw [if_neg hj, if_neg hj]

theorem byteAt_of_blockAt {j off : Nat}
    (hsame : v'.blockAt sb j (off / BSIZE) = v.blockAt sb j (off / BSIZE))
    (hblk : v.blockAt sb j (off / BSIZE) ≠ 0 →
      v'.blk (v.blockAt sb j (off / BSIZE)) = v.blk (v.blockAt sb j (off / BSIZE))) :
    v'.byteAt sb j off = v.byteAt sb j off := by
  unfold byteAt
  rw [hsame]
  by_cases h0 : v.blockAt sb j (off / BSIZE) = 0
  · rw [if_pos h0, if_pos h0]
  · rw [if_neg h0, if_neg h0, hblk h0]

theorem byteAt_of_assign (hl : Layout sb ds) {p : Nat × Nat}
    (hp : v.own sb p = 0) (hb : v.Free sb b)
    (hown : v'.own sb = Function.update (v.own sb) p b) (hzero : v'.blk b = Bytes.zero)
    (hblk : ∀ j k, v.blockAt sb j k ≠ 0 →
      v'.blk (v.blockAt sb j k) = v.blk (v.blockAt sb j k)) :
    v'.byteAt sb = v.byteAt sb := by
  have := hl.one_lt_nmeta
  have := hb.1
  funext j off
  by_cases hjp : (j, position (off / BSIZE)) = p
  · unfold byteAt
    have hnew : v'.blockAt sb j (off / BSIZE) = b := by
      unfold blockAt
      rw [hown, hjp, Function.update_self]
    have hold : v.blockAt sb j (off / BSIZE) = 0 := by
      unfold blockAt
      rw [hjp, hp]
    rw [hnew, hold, if_neg (by omega), if_pos rfl, hzero, Bytes.byte_zero]
  · refine byteAt_of_blockAt ?_ (hblk j _)
    unfold blockAt
    rw [hown, Function.update_of_ne hjp]

theorem byteAt_of_release {p : Nat × Nat} (hown : v'.own sb = Function.update (v.own sb) p 0)
    (hblk : ∀ j k, v.blockAt sb j k ≠ 0 →
      v'.blk (v.blockAt sb j k) = v.blk (v.blockAt sb j k)) {j : Nat} (hj : j ≠ p.1) :
    v'.byteAt sb j = v.byteAt sb j := by
  funext off
  refine byteAt_of_blockAt ?_ (hblk j _)
  unfold blockAt
  rw [hown, Function.update_of_ne]
  rintro rfl
  exact hj rfl

/-! ### The changes that `bmap` and `itrunc` make -/

/-- A free block, cleared, becomes the address at position `q ≤ NDIRECT`. -/
def takeAddr (v : View) (i q b : Nat) : View where
  ino := set v.ino i ((v.ino i).setAddr q b)
  bit := set v.bit b true
  blk := set v.blk b Bytes.zero

/-- A free block, cleared, becomes entry `j` of the indirect block `t`. -/
def takeEntry (v : View) (t j b : Nat) : View where
  ino := v.ino
  bit := set v.bit b true
  blk := set (set v.blk b Bytes.zero) t (tableSet (v.blk t) j b)

def dropAddr (v : View) (i q : Nat) : View where
  ino := set v.ino i ((v.ino i).setAddr q 0)
  bit := set v.bit ((v.ino i).addr q) false
  blk := v.blk

def dropEntry (v : View) (t j : Nat) : View where
  ino := v.ino
  bit := set v.bit (tableGet (v.blk t) j) false
  blk := set v.blk t (tableSet (v.blk t) j 0)

end View

namespace Ledger

theorem addr_ne_free (hl : Layout sb ds) (h : Ledger sb v) (hb : v.Free sb b)
    (hi : i < sb.ninodes) (ht : (v.ino i).type ≠ 0) (hq : q ≤ NDIRECT) :
    (v.ino i).addr q ≠ b := by
  rw [← Dinode.ref_addr _ v.blk hq, ← View.own_of_alloc hi ht]
  exact h.own_ne_free hl hb _

/-- Two inodes do not share their indirect block. -/
theorem table_ne (h : Ledger sb v) {j : Nat} (hi : i < sb.ninodes) (hj : j < sb.ninodes)
    (hti : (v.ino i).type ≠ 0) (htj : (v.ino j).type ≠ 0) (hij : j ≠ i)
    (h0 : (v.ino j).addr NDIRECT ≠ 0) : (v.ino j).addr NDIRECT ≠ (v.ino i).addr NDIRECT := by
  have hjown : v.own sb (j, NDIRECT) = (v.ino j).addr NDIRECT := by
    rw [View.own_of_alloc hj htj, Dinode.ref_addr _ _ (Nat.le_refl _)]
  have hiown : v.own sb (i, NDIRECT) = (v.ino i).addr NDIRECT := by
    rw [View.own_of_alloc hi hti, Dinode.ref_addr _ _ (Nat.le_refl _)]
  intro heq
  have hp := h.owns.unique (j, NDIRECT) (i, NDIRECT) (by rw [hjown, hiown, heq])
    (by rwa [hjown])
  exact hij (congrArg Prod.fst hp)

/-- The indirect block of an inode holds no file data. -/
theorem blockAt_ne_table (h : Ledger sb v) (hi : i < sb.ninodes) (ht : (v.ino i).type ≠ 0)
    {j k : Nat} (h0 : v.blockAt sb j k ≠ 0) : v.blockAt sb j k ≠ (v.ino i).addr NDIRECT := by
  intro heq
  have hiown : v.own sb (i, NDIRECT) = (v.ino i).addr NDIRECT := by
    rw [View.own_of_alloc hi ht, Dinode.ref_addr _ _ (Nat.le_refl _)]
  have hp := h.owns.unique (j, View.position k) (i, NDIRECT) (heq.trans hiown.symm) h0
  exact View.position_ne k (congrArg Prod.snd hp)

end Ledger

namespace View

theorem type_setAddr (hino : v'.ino = set v.ino i ((v.ino i).setAddr q b)) (j : Nat) :
    (v'.ino j).type = (v.ino j).type := by
  by_cases hji : j = i
  · rw [hino, hji, set_self]
    rfl
  · rw [hino, set_of_ne _ _ hji]

/-- An address of an inode is changed. If it is that of the indirect block, the
old and the new one list nothing. -/
theorem own_setAddr (hi : i < sb.ninodes) (ht : (v.ino i).type ≠ 0) (hq : q ≤ NDIRECT)
    (hino : v'.ino = set v.ino i ((v.ino i).setAddr q b))
    (hblk : ∀ j < sb.ninodes, (v.ino j).type ≠ 0 →
      v'.blk ((v.ino j).addr NDIRECT) = v.blk ((v.ino j).addr NDIRECT))
    (hold : q = NDIRECT → (v.ino i).addr NDIRECT ≠ 0 → ∀ j < NINDIRECT,
      tableGet (v.blk ((v.ino i).addr NDIRECT)) j = 0)
    (hnew : b ≠ 0 → ∀ j < NINDIRECT, tableGet (v'.blk b) j = 0) :
    v'.own sb = Function.update (v.own sb) (i, q) b := by
  have hq' : q < NDIRECT + 1 := by omega
  have hself : v'.ino i = (v.ino i).setAddr q b := by rw [hino, set_self]
  have hother {j : Nat} (hji : j ≠ i) : v'.ino j = v.ino j := by rw [hino, set_of_ne _ _ hji]
  apply own_eq_update hi ht (type_setAddr hino)
  · rw [hself, Dinode.ref_addr _ _ hq, Dinode.addr_setAddr _ hq', if_pos rfl]
  · intro j r hj htj hne
    by_cases hji : j = i
    · subst hji
      have hrq : r ≠ q := fun heq => hne (by rw [heq])
      rw [hself]
      by_cases hqt : q = NDIRECT ∧ NDIRECT < r
      · obtain ⟨rfl, hr⟩ := hqt
        rw [Dinode.ref_eq_zero hr, Dinode.ref_eq_zero hr (hold rfl)]
        rw [Dinode.addr_setAddr _ hq', if_pos rfl]
        exact hnew
      · apply Dinode.ref_congr
        · intro _
          rw [Dinode.addr_setAddr _ hq', if_neg hrq]
        · intro hr
          rw [Dinode.addr_setAddr _ hq', if_neg (by omega)]
        · intro _ _ _
          rw [hblk j hj htj]
    · rw [hother hji]
      apply Dinode.ref_congr (fun _ => rfl) (fun _ => rfl)
      intro _ _ _
      rw [hblk j hj htj]

theorem own_takeAddr (hl : Layout sb ds) (h : Ledger sb v) (hi : i < sb.ninodes)
    (ht : (v.ino i).type ≠ 0) (hq : q ≤ NDIRECT) (h0 : (v.ino i).addr q = 0)
    (hb : v.Free sb b) :
    (v.takeAddr i q b).own sb = Function.update (v.own sb) (i, q) b := by
  apply own_setAddr hi ht hq rfl
  · intro j hj htj
    exact set_of_ne _ _ (h.addr_ne_free hl hb hj htj (Nat.le_refl _))
  · rintro rfl hne
    exact absurd h0 hne
  · intro _ k _
    rw [show (v.takeAddr i q b).blk b = Bytes.zero from set_self _ _ _, tableGet_zero]

theorem own_dropAddr (hi : i < sb.ninodes) (ht : (v.ino i).type ≠ 0) (hq : q ≤ NDIRECT)
    (hempty : q = NDIRECT → ∀ j < NINDIRECT, tableGet (v.blk ((v.ino i).addr NDIRECT)) j = 0) :
    (v.dropAddr i q).own sb = Function.update (v.own sb) (i, q) 0 :=
  own_setAddr hi ht hq rfl (fun _ _ _ => rfl) (fun heq _ => hempty heq) (fun h0 => absurd rfl h0)

section Entry

variable (h : Ledger sb v) (hi : i < sb.ninodes) (ht : (v.ino i).type ≠ 0)
  (h0 : (v.ino i).addr NDIRECT ≠ 0) {j : Nat} (hj : j < NINDIRECT)
include h hi ht h0 hj

/-- An entry of the indirect block of an inode is changed. -/
theorem own_setEntry (hino : v'.ino = v.ino) (hlt : b < 2 ^ 32)
    (hself : v'.blk ((v.ino i).addr NDIRECT) = tableSet (v.blk ((v.ino i).addr NDIRECT)) j b)
    (hother : ∀ k < sb.ninodes, (v.ino k).type ≠ 0 →
      (v.ino k).addr NDIRECT ≠ (v.ino i).addr NDIRECT →
      v'.blk ((v.ino k).addr NDIRECT) = v.blk ((v.ino k).addr NDIRECT)) :
    v'.own sb = Function.update (v.own sb) (i, NDIRECT + 1 + j) b := by
  apply own_eq_update hi ht
  · exact fun _ => by rw [hino]
  · rw [hino, Dinode.ref_entry _ h0 hj, hself, tableGet_tableSet_self _ hj hlt]
  · intro k r hk htk hne
    rw [hino]
    apply Dinode.ref_congr (fun _ => rfl) (fun _ => rfl)
    intro hr hk0 _
    by_cases hki : k = i
    · subst hki
      have hrj : r - (NDIRECT + 1) ≠ j := by
        rintro rfl
        exact hne (by rw [Nat.add_sub_cancel' (by omega)])
      rw [hself, tableGet_tableSet_of_ne _ hrj]
    · rw [hother k hk htk (h.table_ne hi hk ht htk hki hk0)]

theorem own_takeEntry (hl : Layout sb ds) (hb : v.Free sb b) :
    (v.takeEntry ((v.ino i).addr NDIRECT) j b).own sb =
      Function.update (v.own sb) (i, NDIRECT + 1 + j) b := by
  have hlt : b < 2 ^ 32 := by
    have := hl.fits
    have := hb.2.1
    omega
  refine own_setEntry h hi ht h0 hj rfl hlt (set_self _ _ _) fun k hk htk hne => ?_
  exact (set_of_ne _ _ hne).trans (set_of_ne _ _ (h.addr_ne_free hl hb hk htk (Nat.le_refl _)))

theorem own_dropEntry :
    (v.dropEntry ((v.ino i).addr NDIRECT) j).own sb =
      Function.update (v.own sb) (i, NDIRECT + 1 + j) 0 :=
  own_setEntry h hi ht h0 hj rfl (by norm_num) (set_self _ _ _) fun _ _ _ hne => set_of_ne _ _ hne

end Entry

end View

namespace Ledger

section Take

variable (hl : Layout sb ds) (h : Ledger sb v) (hi : i < sb.ninodes)
  (ht : (v.ino i).type ≠ 0) (hb : v.Free sb b)

include hl h hi ht hb

theorem takeAddr (hq : q ≤ NDIRECT) (h0 : (v.ino i).addr q = 0) :
    Ledger sb (v.takeAddr i q b) ∧ (v.takeAddr i q b).byteAt sb = v.byteAt sb := by
  have hown := View.own_takeAddr hl h hi ht hq h0 hb
  have hp : v.own sb (i, q) = 0 := by rw [View.own_of_alloc hi ht, Dinode.ref_addr _ _ hq, h0]
  refine ⟨h.assign hl hp hb hown rfl, ?_⟩
  apply View.byteAt_of_assign hl hp hb hown (set_self _ _ _)
  intro j k _
  exact set_of_ne _ _ (h.own_ne_free hl hb _)

theorem takeEntry (h0 : (v.ino i).addr NDIRECT ≠ 0) {j : Nat} (hj : j < NINDIRECT)
    (hj0 : tableGet (v.blk ((v.ino i).addr NDIRECT)) j = 0) :
    Ledger sb (v.takeEntry ((v.ino i).addr NDIRECT) j b) ∧
      (v.takeEntry ((v.ino i).addr NDIRECT) j b).byteAt sb = v.byteAt sb := by
  have hown := View.own_takeEntry h hi ht h0 hj hl hb
  have hp : v.own sb (i, NDIRECT + 1 + j) = 0 := by
    rw [View.own_of_alloc hi ht, Dinode.ref_entry _ h0 hj, hj0]
  have hbt : b ≠ (v.ino i).addr NDIRECT :=
    (h.addr_ne_free hl hb hi ht (Nat.le_refl _)).symm
  refine ⟨h.assign hl hp hb hown rfl, ?_⟩
  apply View.byteAt_of_assign hl hp hb hown
  · exact (set_of_ne _ _ hbt).trans (set_self _ _ _)
  · intro k n hkn
    exact (set_of_ne _ _ (h.blockAt_ne_table hi ht hkn)).trans
      (set_of_ne _ _ (h.own_ne_free hl hb _))

end Take

section Drop

variable (h : Ledger sb v) (hi : i < sb.ninodes) (ht : (v.ino i).type ≠ 0)

include h hi ht

theorem dropAddr (hq : q ≤ NDIRECT) (h0 : (v.ino i).addr q ≠ 0)
    (hempty : q = NDIRECT → ∀ j < NINDIRECT, tableGet (v.blk ((v.ino i).addr NDIRECT)) j = 0) :
    Ledger sb (v.dropAddr i q) ∧
      ∀ j, j ≠ i → (v.dropAddr i q).byteAt sb j = v.byteAt sb j := by
  have hown : (v.dropAddr i q).own sb = _ := View.own_dropAddr hi ht hq hempty
  have hp : v.own sb (i, q) = (v.ino i).addr q := by
    rw [View.own_of_alloc hi ht, Dinode.ref_addr _ _ hq]
  refine ⟨h.release (p := (i, q)) (by rwa [hp]) hown (by rw [hp]; rfl), ?_⟩
  intro j hj
  exact View.byteAt_of_release hown (fun _ _ _ => rfl) hj

theorem dropEntry (h0 : (v.ino i).addr NDIRECT ≠ 0) {j : Nat} (hj : j < NINDIRECT)
    (hj0 : tableGet (v.blk ((v.ino i).addr NDIRECT)) j ≠ 0) :
    Ledger sb (v.dropEntry ((v.ino i).addr NDIRECT) j) ∧
      ∀ k, k ≠ i →
        (v.dropEntry ((v.ino i).addr NDIRECT) j).byteAt sb k = v.byteAt sb k := by
  have hown := View.own_dropEntry h hi ht h0 hj
  have hp : v.own sb (i, NDIRECT + 1 + j) = tableGet (v.blk ((v.ino i).addr NDIRECT)) j := by
    rw [View.own_of_alloc hi ht, Dinode.ref_entry _ h0 hj]
  refine ⟨h.release (p := (i, NDIRECT + 1 + j)) (by rwa [hp]) hown (by rw [hp]; rfl), ?_⟩
  intro k hk
  apply View.byteAt_of_release hown _ hk
  intro m n hmn
  exact set_of_ne _ _ (h.blockAt_ne_table hi ht hmn)

end Drop

end Ledger

/-! ### Holes and bytes -/

namespace Filled

variable {nb : Nat → Nat} {k : Nat}

/-- The file grows by its next block. -/
theorem assign (h : Filled sb v nb) (htype : ∀ j, (v'.ino j).type = (v.ino j).type)
    (hown : v'.own sb = Function.update (v.own sb) (i, View.position k) b) (hb : b ≠ 0)
    (hk : nb i = k) : Filled sb v' (set nb i (k + 1)) := by
  intro j hj ht hdev m
  rw [htype] at ht hdev
  have hold := h j hj ht hdev m
  unfold View.blockAt at *
  rw [hown]
  by_cases hjm : (j, View.position m) = (i, View.position k)
  · have hji : j = i := congrArg Prod.fst hjm
    have hmk : m = k := View.position_injective (congrArg Prod.snd hjm)
    subst hji hmk
    rw [Function.update_self, set_self]
    exact ⟨fun _ => Nat.lt_succ_self _, fun _ => hb⟩
  · rw [Function.update_of_ne hjm, hold]
    by_cases hji : j = i
    · subst hji
      have hmk : m ≠ k := fun heq => hjm (by rw [heq])
      rw [set_self]
      omega
    · rw [set_of_ne _ _ hji]

theorem assign_table (h : Filled sb v nb) (htype : ∀ j, (v'.ino j).type = (v.ino j).type)
    (hown : v'.own sb = Function.update (v.own sb) (i, NDIRECT) b) : Filled sb v' nb := by
  intro j hj ht hdev m
  rw [htype] at ht hdev
  have hne : (j, View.position m) ≠ (i, NDIRECT) :=
    fun heq => View.position_ne m (congrArg Prod.snd heq)
  unfold View.blockAt
  rw [hown, Function.update_of_ne hne]
  exact h j hj ht hdev m

end Filled

/-- Storing into a data block of a file moves no block. -/
theorem View.own_setBlk (h : Ledger sb v) {k : Nat} (h0 : v.blockAt sb i k ≠ 0) (d : Block) :
    (v.setBlk (v.blockAt sb i k) d).own sb = v.own sb := by
  funext ⟨j, r⟩
  unfold View.own
  by_cases hj : j < sb.ninodes ∧ (v.ino j).type ≠ 0
  · rw [View.setBlk_ino, if_pos hj, if_pos hj]
    apply Dinode.ref_congr (fun _ => rfl) (fun _ => rfl)
    intro _ _ _
    rw [View.setBlk_blk, set_of_ne _ _ (h.blockAt_ne_table hj.1 hj.2 h0).symm]
  · rw [View.setBlk_ino, if_neg hj, if_neg hj]

theorem View.byteAt_setBlk (h : Ledger sb v) {k : Nat} (h0 : v.blockAt sb i k ≠ 0) (d : Block)
    (j off : Nat) :
    (v.setBlk (v.blockAt sb i k) d).byteAt sb j off =
      if j = i ∧ off / BSIZE = k then d.byte (off % BSIZE) else v.byteAt sb j off := by
  have hat (m : Nat) : (v.setBlk (v.blockAt sb i k) d).blockAt sb j m = v.blockAt sb j m :=
    congrFun (View.own_setBlk h h0 d) _
  unfold View.byteAt
  rw [hat, View.setBlk_blk]
  by_cases hjk : j = i ∧ off / BSIZE = k
  · obtain ⟨rfl, rfl⟩ := hjk
    rw [if_neg h0, if_pos ⟨rfl, rfl⟩, set_self]
  · rw [if_neg hjk]
    by_cases hz : v.blockAt sb j (off / BSIZE) = 0
    · rw [if_pos hz, if_pos hz]
    · rw [if_neg hz, if_neg hz, set_of_ne]
      intro heq
      have hp := h.owns.unique (j, View.position (off / BSIZE)) (i, View.position k) heq hz
      exact hjk ⟨congrArg Prod.fst hp, View.position_injective (congrArg Prod.snd hp)⟩

end

end Xv6.Fs
