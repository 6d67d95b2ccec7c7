import Xv6.Fs.Disk
import Xv6.Fs.Mkfs

/-!
The bitmap allocator on the bytes of the disk, for a bitmap of any number of
blocks: `balloc` takes the least free block and `bfree` undoes it.
-/

namespace Xv6.Fs

open Prog

variable {P : Type}

section Commands

variable {c : FsState P} {α : Type} {E : Panic → FsState P → Prop}

theorem wp_bread {dev b : Nat} {Q : Block → FsState P → Prop} (hdev : dev = 1)
    (hb : b < c.disksize) (hheld : b ∉ c.held)
    (hQ : Q (c.disk b) { c with held := b :: c.held }) : wp (bread dev b) Q E c := by
  unfold bread
  simp only [wp_bind, wp_gets, wp_panicIf, wp_modify, wp_pure, id]
  refine ⟨?_, fun _ => ⟨fun h => absurd h hheld, fun _ => hQ⟩⟩
  rintro (h | h)
  · exact absurd hdev h
  · omega

variable {Q : Unit → FsState P → Prop}

theorem wp_logWrite {b : Nat} {d : Block} (ho : 0 < c.kernel.outstanding)
    (hQ : ∀ l, Q () { c with disk := set c.disk b d, logged := l }) : wp (logWrite b d) Q E c := by
  unfold logWrite
  simp only [wp_bind, wp_gets, wp_panicIf, wp_modify, id]
  exact ⟨fun h => by omega, fun _ => hQ _⟩

theorem wp_brelse {b : Nat} (hQ : Q () { c with held := c.held.erase b }) :
    wp (brelse b) Q E c := hQ

@[simp] theorem wp_setCopy {ip : Ip} {di : Dinode} :
    wp (setCopy ip di) Q E c ↔ Q () { c with copy := set c.copy ip di } := Iff.rfl

end Commands

/-- The number of bitmap blocks that `balloc` goes through. -/
def Superblock.bitmapBlocks (sb : Superblock) : Nat := (sb.size + (BPB - 1)) / BPB

/-- The bit of block `b`. -/
def FsState.bit (c : FsState P) (b : Nat) : Bool := bitSet (c.disk (c.sb.bblock b)) (b % BPB)

/-- Blocks that hold the superblock or a part of the bitmap. -/
def Superblock.Reserved (sb : Superblock) (b : Nat) : Prop :=
  b = 1 ∨ ∃ i < sb.bitmapBlocks, b = sb.bmapstart + i

/-- A state in the middle of a transaction, with a bitmap on the disk whose
blocks the caller does not hold. -/
structure BitmapDisk (c : FsState P) : Prop where
  super : getSuper (c.disk 1) = c.sb
  disk : c.sb.size ≤ c.disksize
  start : 1 < c.sb.bmapstart
  onDisk : ∀ i < c.sb.bitmapBlocks, c.sb.bmapstart + i < c.sb.size
  trans : 0 < c.kernel.outstanding
  held : ∀ b ∈ c.held, ¬ c.sb.Reserved b

/-- The blocks of the superblock and of the bitmap are taken, and so are those
whose buffers the caller holds. -/
structure HasBitmap (c : FsState P) : Prop extends BitmapDisk c where
  fits : c.sb.size < 2 ^ 31 - BPB
  reserved : ∀ b, c.sb.Reserved b → c.bit b = true
  heldTaken : ∀ b ∈ c.held, b < c.sb.size → c.bit b = true

/-- The state after `balloc` has taken block `b`, up to the log. -/
def FsState.taken (c : FsState P) (b : Nat) (l : List Nat) : FsState P :=
  { c with
    disk := set (set c.disk (c.sb.bblock b) (markBit (c.disk (c.sb.bblock b)) (b % BPB))) b
      Bytes.zero
    logged := l }

/-- The state after `bfree` has given block `b` back. -/
def FsState.released (c : FsState P) (b : Nat) (l : List Nat) : FsState P :=
  { c with
    disk := set c.disk (c.sb.bblock b) (clearBit (c.disk (c.sb.bblock b)) (b % BPB))
    logged := l }

section Search

variable {d : Block}

variable {n bi : Nat}

theorem firstClear_spec {r : Nat} (h : firstClear d n bi = some r) :
    bi ≤ r ∧ r < bi + n ∧ bitSet d r = false := by
  induction n generalizing bi with
  | zero => cases h
  | succ n ih =>
    unfold firstClear at h
    split at h
    · obtain ⟨hle, hlt, hbit⟩ := ih h
      exact ⟨by omega, by omega, hbit⟩
    · next hbit =>
        cases h
        exact ⟨Nat.le_refl _, by omega, by simpa using hbit⟩

theorem firstClear_least {r : Nat} (h : firstClear d n bi = some r) {j : Nat} (hle : bi ≤ j)
    (hlt : j < r) : bitSet d j = true := by
  induction n generalizing bi with
  | zero => cases h
  | succ n ih =>
    unfold firstClear at h
    split at h
    · next hbit =>
        by_cases hj : j = bi
        · rwa [hj]
        · exact ih h (by omega)
    · cases h
      omega

theorem firstClear_none (h : firstClear d n bi = none) {j : Nat} (hle : bi ≤ j) (hlt : j < bi + n) :
    bitSet d j = true := by
  induction n generalizing bi with
  | zero => omega
  | succ n ih =>
    unfold firstClear at h
    split at h
    · next hbit =>
        by_cases hj : j = bi
        · rwa [hj]
        · exact ih h (by omega) (by omega)
    · cases h

end Search

section Positions

variable {c : FsState P}

theorem bblock_eq (sb : Superblock) (i bi : Nat) (hbi : bi < BPB) :
    sb.bblock (BPB * i + bi) = sb.bmapstart + i := by
  unfold Superblock.bblock BPB BSIZE at *
  omega

variable {sb : Superblock} {i : Nat}

theorem lt_bitmapBlocks {b : Nat} (hb : b < sb.size) : b / BPB < sb.bitmapBlocks := by
  unfold Superblock.bitmapBlocks BPB BSIZE
  omega

theorem mul_lt_size (hi : i < sb.bitmapBlocks) : BPB * i < sb.size := by
  unfold Superblock.bitmapBlocks BPB BSIZE at *
  omega

theorem reserved_bblock {b : Nat} (hb : b < BPB * sb.bitmapBlocks) : sb.Reserved (sb.bblock b) :=
  Or.inr ⟨b / BPB, Nat.div_lt_of_lt_mul hb, Nat.add_comm _ _⟩

/-- The counters of the loops stay within `int`. -/
theorem HasBitmap.counter_fits (h : HasBitmap c) (hi : i ≤ c.sb.bitmapBlocks) :
    BPB * i < 2 ^ 31 := by
  have hfits := h.fits
  unfold Superblock.bitmapBlocks BPB BSIZE at *
  omega

theorem BitmapDisk.not_held (h : BitmapDisk c) {b : Nat} (hb : c.sb.Reserved b) : b ∉ c.held :=
  fun hmem => h.held b hmem hb

theorem BitmapDisk.bitmap_lt_disk (h : BitmapDisk c) (hi : i < c.sb.bitmapBlocks) :
    c.sb.bmapstart + i < c.disksize :=
  (h.onDisk i hi).trans_le h.disk

end Positions

theorem erase_held (c : FsState P) (b : Nat) : { c with held := (b :: c.held).erase b } = c := by
  rw [List.erase_cons_head]

theorem wp_balloc_least {c : FsState P} (h : HasBitmap c) :
    wp (balloc 1)
      (fun b c' => b < c.sb.size ∧ c.bit b = false ∧ (∀ j < b, c.bit j = true) ∧
        ∃ l, c' = c.taken b l)
      (fun e c' => e = .ballocOutOfBlocks ∧ c' = c ∧ ∀ j < c.sb.size, c.bit j = true) c := by
  unfold balloc
  simp only [wp_bind, wp_gets]
  apply wp_first _ _ (fun i c' => c' = c ∧ ∀ j < BPB * i, j < c.sb.size → c.bit j = true)
  · exact ⟨rfl, fun j hj => absurd hj (Nat.not_lt_zero j)⟩
  · rintro i c' - hi ⟨rfl, hset⟩
    have hi' : i < c'.sb.bitmapBlocks := by
      unfold Superblock.bitmapBlocks
      omega
    have hblock : c'.sb.bblock (BPB * i) = c'.sb.bmapstart + i := bblock_eq _ i 0 (by decide)
    have hres : c'.sb.Reserved (c'.sb.bmapstart + i) := Or.inr ⟨i, hi', rfl⟩
    rw [hblock, wp_bind]
    apply wp_bread rfl (h.bitmap_lt_disk hi') (h.not_held hres)
    have hbit (bi : Nat) (hbi : bi < BPB) :
        c'.bit (BPB * i + bi) = bitSet (c'.disk (c'.sb.bmapstart + i)) bi := by
      unfold FsState.bit
      rw [bblock_eq _ i bi hbi, Nat.mul_add_mod, Nat.mod_eq_of_lt hbi]
    split
    · next bi hfound =>
        obtain ⟨-, hlt, hclear⟩ := firstClear_spec hfound
        have hbiB : bi < BPB := by omega
        have hsize : BPB * i + bi < c'.sb.size := by omega
        have hfree := (hbit bi hbiB).trans hclear
        have hne : BPB * i + bi ≠ c'.sb.bmapstart + i := by
          intro heq
          rw [heq, h.reserved _ hres] at hfree
          cases hfree
        simp only [wp_bind]
        apply wp_logWrite (by exact h.trans)
        intro l
        apply wp_brelse
        unfold bzero
        simp only [wp_bind]
        apply wp_bread rfl (by exact hsize.trans_le h.disk)
        · dsimp only
          rw [List.erase_cons_head]
          intro hmem
          rw [h.heldTaken _ hmem hsize] at hfree
          cases hfree
        apply wp_logWrite (by exact h.trans)
        intro l'
        apply wp_brelse
        refine ⟨hsize, hfree, ?_, l', ?_⟩
        · intro j hj
          by_cases hlow : j < BPB * i
          · exact hset j hlow (by omega)
          · obtain ⟨bj, rfl⟩ : ∃ bj, j = BPB * i + bj := ⟨j - BPB * i, by omega⟩
            rw [hbit bj (by omega)]
            exact firstClear_least hfound (Nat.zero_le _) (by omega)
        · unfold FsState.taken
          simp only [bblock_eq _ i bi hbiB, Nat.mul_add_mod, Nat.mod_eq_of_lt hbiB,
            List.erase_cons_head]
    · next hnone =>
        simp only [wp_bind]
        apply wp_brelse
        refine ⟨erase_held c' _, ?_⟩
        intro j hj hsize
        by_cases hlow : j < BPB * i
        · exact hset j hlow hsize
        · obtain ⟨bj, rfl⟩ : ∃ bj, j = BPB * i + bj := ⟨j - BPB * i, by omega⟩
          have hbj : bj < BPB := by
            rw [Nat.mul_succ] at hj
            omega
          rw [hbit bj hbj]
          exact firstClear_none hnone (Nat.zero_le _) (by omega)
  · rintro c' ⟨rfl, hset⟩
    refine ⟨rfl, rfl, fun j hj => hset j ?_ hj⟩
    unfold BPB BSIZE at *
    omega

theorem wp_bfree_clears {c : FsState P} (h : BitmapDisk c) {b : Nat} (hb : b < c.sb.size)
    (hbit : c.bit b = true) :
    wp (bfree 1 b) (fun _ c' => ∃ l, c' = c.released b l) (fun _ _ => False) c := by
  have hi := lt_bitmapBlocks hb
  have hblock : c.sb.bblock b = c.sb.bmapstart + b / BPB := Nat.add_comm _ _
  have hone : 1 < c.disksize :=
    (h.start.trans_le (Nat.le_add_right _ _)).trans (h.bitmap_lt_disk hi)
  unfold bfree readsb
  simp only [wp_bind]
  apply wp_bread rfl hone (h.not_held (Or.inl rfl))
  simp only [wp_modify]
  apply wp_brelse
  simp only [wp_gets, h.super]
  apply wp_bread rfl
  · rw [hblock]
    exact h.bitmap_lt_disk hi
  · dsimp only
    rw [List.erase_cons_head, hblock]
    exact h.not_held (Or.inr ⟨_, hi, rfl⟩)
  simp only [wp_panicIf]
  refine ⟨fun hclear => ?_, fun _ => ?_⟩
  · rw [FsState.bit] at hbit
    rw [hbit] at hclear
    cases hclear
  · apply wp_logWrite (by exact h.trans)
    intro l
    apply wp_brelse
    refine ⟨l, ?_⟩
    unfold FsState.released
    simp only [List.erase_cons_head]

section Effects

variable {c : FsState P} {b : Nat} {l : List Nat}

/-- A block that is free is none of the reserved ones. -/
theorem HasBitmap.not_reserved (h : HasBitmap c) (hfree : c.bit b = false) :
    ¬ c.sb.Reserved b := by
  intro hres
  rw [h.reserved b hres] at hfree
  cases hfree

theorem taken_bit (h : HasBitmap c) (hfree : c.bit b = false) {j : Nat}
    (hj : j < BPB * c.sb.bitmapBlocks) :
    (c.taken b l).bit j = (decide (j = b) || c.bit j) := by
  have hne : c.sb.bblock j ≠ b := by
    intro heq
    exact h.not_reserved hfree (heq ▸ reserved_bblock hj)
  have hmod : b % BPB < BPB := Nat.mod_lt _ (by decide)
  unfold FsState.bit FsState.taken
  dsimp only
  rw [set_of_ne _ _ hne]
  by_cases hblock : c.sb.bblock j = c.sb.bblock b
  · rw [hblock, set_self, bitSet_markBit _ hmod]
    have hiff : j % BPB = b % BPB ↔ j = b := by
      unfold Superblock.bblock BPB BSIZE at *
      omega
    simp only [hiff]
  · rw [set_of_ne _ _ hblock]
    have hjb : j ≠ b := fun heq => hblock (heq ▸ rfl)
    rw [decide_eq_false hjb, Bool.false_or]

theorem released_bit (j : Nat) :
    (c.released b l).bit j = (decide (j ≠ b) && c.bit j) := by
  have hmod : b % BPB < BPB := Nat.mod_lt _ (by decide)
  unfold FsState.bit FsState.released
  dsimp only
  by_cases hblock : c.sb.bblock j = c.sb.bblock b
  · rw [hblock, set_self, bitSet_clearBit _ hmod]
    have hiff : j % BPB = b % BPB ↔ j = b := by
      unfold Superblock.bblock BPB BSIZE at *
      omega
    simp only [ne_eq, hiff]
  · rw [set_of_ne _ _ hblock]
    have hjb : j ≠ b := fun heq => hblock (heq ▸ rfl)
    rw [decide_eq_true hjb, Bool.true_and]

/-- A bit set and then cleared leaves every byte of the block as it was. -/
theorem clearBit_markBit {d : Block} {bi : Nat} (hbi : bi < BPB) (hclear : bitSet d bi = false) :
    clearBit (markBit d bi) bi = d := by
  apply Bytes.ext_byte
  intro k _
  apply UInt8.toNat_inj.mp
  rw [byte_clearBit _ hbi, byte_markBit _ hbi]
  by_cases hk : k = bi / 8
  · rw [if_pos hk, if_pos hk]
    rw [bitSet_eq_testBit, ← hk] at hclear
    apply Nat.eq_of_testBit_eq
    intro m
    have hall : ∀ m < 8, Nat.testBit 255 m = true := by decide
    rw [Nat.testBit_and, Nat.testBit_or, Nat.testBit_xor, Nat.testBit_two_pow]
    by_cases hm : bi % 8 = m
    · subst hm
      simp [hclear, hall _ (Nat.mod_lt bi (by decide))]
    · by_cases h8 : m < 8
      · simp [hm, hall m h8]
      · have hlt : (d.byte k).toNat < 2 ^ m :=
          (d.byte k).toNat_lt.trans_le (Nat.pow_le_pow_right (by decide) (by omega))
        simp [hm, Nat.testBit_lt_two_pow hlt]
  · rw [if_neg hk, if_neg hk]

theorem bblock_ne_of_free (h : HasBitmap c) (hb : b < c.sb.size) (hfree : c.bit b = false) :
    c.sb.bblock b ≠ b := by
  intro heq
  apply h.not_reserved hfree
  have hlt : b < BPB * c.sb.bitmapBlocks := by
    unfold Superblock.bitmapBlocks BPB BSIZE
    omega
  have hres := reserved_bblock hlt
  rwa [heq] at hres

theorem HasBitmap.reserved_lt (h : HasBitmap c) {x : Nat} (hx : c.sb.Reserved x)
    (hpos : 0 < c.sb.size) : x < c.sb.size := by
  rcases hx with rfl | ⟨i, hi, rfl⟩
  · have hzero := h.onDisk 0 (lt_bitmapBlocks (b := 0) hpos)
    have hstart := h.start
    omega
  · exact h.onDisk i hi

theorem lt_mul_bitmapBlocks {sb : Superblock} {j : Nat} (hj : j < sb.size) :
    j < BPB * sb.bitmapBlocks := by
  unfold Superblock.bitmapBlocks BPB BSIZE
  omega

/-- An allocation leaves a bitmap to allocate from. -/
theorem HasBitmap.taken (h : HasBitmap c) (hb : b < c.sb.size) (hfree : c.bit b = false) :
    HasBitmap (c.taken b l) where
  fits := h.fits
  super := by
    have hone : 1 ≠ b := fun heq => h.not_reserved hfree (Or.inl heq.symm)
    have hblock : 1 ≠ c.sb.bblock b := by
      have hstart := h.start
      have hle : c.sb.bmapstart ≤ c.sb.bblock b := Nat.le_add_left _ _
      omega
    unfold FsState.taken
    dsimp only
    rw [set_of_ne _ _ hone, set_of_ne _ _ hblock]
    exact h.super
  disk := h.disk
  start := h.start
  onDisk := h.onDisk
  reserved := by
    intro x hx
    have hlt := h.reserved_lt hx (Nat.zero_lt_of_lt hb)
    rw [taken_bit h hfree (lt_mul_bitmapBlocks hlt), h.reserved x hx, Bool.or_true]
  trans := h.trans
  held := h.held
  heldTaken := by
    intro x hx hlt
    rw [taken_bit h hfree (lt_mul_bitmapBlocks hlt), h.heldTaken x hx hlt, Bool.or_true]

theorem released_taken (h : HasBitmap c) (hb : b < c.sb.size) (hfree : c.bit b = false)
    {l' : List Nat} {x : Nat} (hx : x ≠ b) :
    ((c.taken b l).released b l').disk x = c.disk x := by
  have hne := bblock_ne_of_free h hb hfree
  unfold FsState.released FsState.taken
  dsimp only
  rw [set_of_ne _ _ hne, set_self, clearBit_markBit (Nat.mod_lt _ (by decide)) hfree]
  by_cases hblock : x = c.sb.bblock b
  · rw [hblock, set_self]
  · rw [set_of_ne _ _ hblock, set_of_ne _ _ hx, set_of_ne _ _ hblock]

end Effects

/-- What `balloc` does: it hands out the least free block, marked and zeroed,
and fails only if there is none. -/
theorem bitmap_allocator_spec (c : FsState P) (h : HasBitmap c) :
    -- no counter of the loops overflows
    (∀ i ≤ c.sb.bitmapBlocks, BPB * i < 2 ^ 31) ∧
    (∀ b < c.sb.size, c.bit b = false → (∀ j < b, c.bit j = true) →
      ∃ c', balloc 1 c = (.ok b, c') ∧ c'.disk b = Bytes.zero ∧
        (∀ j < BPB * c.sb.bitmapBlocks, c'.bit j = (decide (j = b) || c.bit j)) ∧
        (∀ x, x ≠ b → x ≠ c.sb.bblock b → c'.disk x = c.disk x) ∧
        ∃ c'', bfree 1 b c' = (.ok (), c'') ∧ ∀ x, x ≠ b → c''.disk x = c.disk x) ∧
    ((∃ e c', balloc 1 c = (.error e, c')) ↔ ∀ b < c.sb.size, c.bit b = true) ∧
    (∀ e c', balloc 1 c = (.error e, c') → e = .ballocOutOfBlocks ∧ c' = c) ∧
    (∀ b < c.sb.size, c.bit b = true →
      ∃ c', bfree 1 b c = (.ok (), c') ∧
        (∀ j, c'.bit j = (decide (j ≠ b) && c.bit j)) ∧
        ∀ x, x ≠ c.sb.bblock b → c'.disk x = c.disk x) := by
  have hballoc := wp_balloc_least h
  refine ⟨fun i hi => h.counter_fits hi, ?_, ?_, ?_, ?_⟩
  · intro b hb hfree hleast
    cases hrun : balloc 1 c with
    | mk r c' =>
      cases r with
      | error e =>
        have hall := (of_wp_error hballoc hrun).2.2 b hb
        rw [hfree] at hall
        cases hall
      | ok b' =>
        obtain ⟨-, hfree', hleast', l, rfl⟩ := of_wp_ok hballoc hrun
        -- two least free blocks are one
        obtain rfl : b' = b := by
          rcases Nat.lt_trichotomy b' b with hlt | heq | hlt
          · rw [hleast b' hlt] at hfree'
            cases hfree'
          · exact heq
          · rw [hleast' b hlt] at hfree
            cases hfree
        refine ⟨_, rfl, set_self .., fun j hj => taken_bit h hfree hj, ?_, ?_⟩
        · intro x hx hblock
          unfold FsState.taken
          dsimp only
          rw [set_of_ne _ _ hx, set_of_ne _ _ hblock]
        · have hset : (c.taken b' l).bit b' = true := by
            rw [taken_bit h hfree (lt_mul_bitmapBlocks hb), decide_eq_true rfl, Bool.true_or]
          obtain ⟨u, c'', hrun', l', rfl⟩ :=
            exists_of_wp (wp_bfree_clears (h.taken hb hfree).toBitmapDisk hb hset)
          exact ⟨_, hrun', fun x hx => released_taken h hb hfree hx⟩
  · constructor
    · rintro ⟨e, c', hrun⟩
      exact (of_wp_error hballoc hrun).2.2
    · intro hall
      cases hrun : balloc 1 c with
      | mk r c' =>
        cases r with
        | error e => exact ⟨e, c', rfl⟩
        | ok b =>
          obtain ⟨hb, hfree, -⟩ := of_wp_ok hballoc hrun
          rw [hall b hb] at hfree
          cases hfree
  · intro e c' hrun
    have hstop := of_wp_error hballoc hrun
    exact ⟨hstop.1, hstop.2.1⟩
  · intro b hb hbit
    obtain ⟨u, c', hrun, l, rfl⟩ := exists_of_wp (wp_bfree_clears h.toBitmapDisk hb hbit)
    refine ⟨_, hrun, fun j => released_bit j, ?_⟩
    intro x hx
    unfold FsState.released
    dsimp only
    rw [set_of_ne _ _ hx]

/-- The machine that has booted, in its first transaction. -/
def beginning : FsState Slot :=
  { booted with kernel := { booted.kernel with outstanding := 1 } }

theorem beginning_hasBitmap : HasBitmap beginning where
  fits := by decide
  super := by decide +kernel
  disk := Nat.le_refl _
  start := by decide
  onDisk := by decide +kernel
  reserved := by
    have hone : beginning.bit 1 = true := by decide +kernel
    have hbitmap : ∀ i < beginning.sb.bitmapBlocks,
        beginning.bit (beginning.sb.bmapstart + i) = true := by decide +kernel
    rintro b (rfl | ⟨i, hi, rfl⟩)
    · exact hone
    · exact hbitmap i hi
  trans := by decide
  held := fun b hb => (nomatch hb)
  heldTaken := fun b hb => (nomatch hb)

theorem bitmap_allocator_beginning :
    HasBitmap beginning ∧ ∃ c', balloc 1 beginning = (.ok (nmeta + 1), c') ∧
      c'.disk (nmeta + 1) = Bytes.zero := by
  refine ⟨beginning_hasBitmap, ?_⟩
  obtain ⟨c', hrun, hzero, -⟩ := (bitmap_allocator_spec beginning beginning_hasBitmap).2.1
    (nmeta + 1) (by decide) (by decide +kernel) (by decide +kernel)
  exact ⟨c', hrun, hzero⟩

end Xv6.Fs
