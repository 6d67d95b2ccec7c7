import Xv6.Fs.Bitmap
import Xv6.Fs.Ledger

/-!
What the functions of `fs.c` that move whole blocks and inodes do to the view
of the disk: `balloc`, `bfree`, `ialloc`, `iupdate` and the read in `ilock`.
-/

namespace Xv6.Fs

open Prog

variable {P : Type}

/-- A state with these tables, whose disk shows `v` and which holds the
buffers `held`. What was logged is left open. -/
structure St (sb : Superblock) (ds : Nat) (k : Kernel P) (cp : Ip → Dinode) (v : View)
    (held : List Nat) (c : FsState P) : Prop where
  kernel : c.kernel = k
  copy : c.copy = cp
  super : c.sb = sb
  disksize : c.disksize = ds
  held : c.held = held
  shows : Shows sb c.disk v

/-- `balloc` stopped because no block was left. -/
def NoBlocks (e : Panic) (c : FsState P) : Prop :=
  e = .ballocOutOfBlocks ∧ ∀ b < c.sb.size, c.bit b = true

/-- No block is free. -/
def View.Full (sb : Superblock) (v : View) : Prop :=
  ∀ b, sb.nmeta ≤ b → b < sb.size → v.bit b = true

section Specs

variable {sb : Superblock} {ds : Nat} (hl : Layout sb ds) {k : Kernel P} {cp : Ip → Dinode}
  {v : View} {held : List Nat} {c : FsState P}

/-- The buffers held are those of allocated data blocks. -/
def HeldData (sb : Superblock) (v : View) (held : List Nat) : Prop :=
  ∀ b ∈ held, sb.nmeta ≤ b ∧ b < sb.size ∧ v.bit b = true

theorem HeldData.nil : HeldData sb v [] := by
  intro b hb
  cases hb

variable {b : Nat}

theorem HeldData.not_mem_of_lt (h : HeldData sb v held) (hb : b < sb.nmeta) : b ∉ held := by
  intro hmem
  have := (h b hmem).1
  omega

namespace St

/-- A buffer that was read, and possibly changed, is given back. -/
theorem edit (h : St sb ds k cp v held c) {b : Nat} {d : Block} {v' : View} {l : List Nat}
    (hshows : Shows sb (set c.disk b d) v') :
    St sb ds k cp v' held
      { c with held := (b :: c.held).erase b, disk := set c.disk b d, logged := l } where
  kernel := h.kernel
  copy := h.copy
  super := h.super
  disksize := h.disksize
  held := by simpa using h.held
  shows := hshows

theorem look (h : St sb ds k cp v held c) {b : Nat} :
    St sb ds k cp v held { c with held := (b :: c.held).erase b } where
  kernel := h.kernel
  copy := h.copy
  super := h.super
  disksize := h.disksize
  held := by simpa using h.held
  shows := h.shows

end St

theorem St.bit (h : St sb ds k cp v held c) (hb : b < sb.size) : c.bit b = v.bit b := by
  unfold FsState.bit
  rw [h.super, h.shows.bit b hb]

include hl

theorem Layout.nmeta_le_disk : sb.nmeta ≤ ds := (Nat.sub_le _ _).trans hl.disk

theorem Layout.iblock_lt_disk {i : Nat} (hi : i < sb.ninodes) : sb.iblock i < ds :=
  (hl.inodes i hi).trans (hl.region.trans_le hl.nmeta_le_disk)

theorem Layout.reserved_lt (hb : sb.Reserved b) : b < sb.nmeta := by
  rcases hb with rfl | ⟨i, hi, rfl⟩
  · exact hl.one_lt_nmeta
  · have hlt := hl.bitmap _ (mul_lt_size hi)
    rwa [show sb.bblock (BPB * i) = sb.bmapstart + i from bblock_eq sb i 0 (by decide)] at hlt

section

variable (h : St sb ds k cp v held c) (ho : 0 < k.outstanding)
include h ho

theorem St.bitmapDisk (hheld : HeldData sb v held) : BitmapDisk c := by
  obtain ⟨rfl, rfl, rfl, rfl, rfl, hshows⟩ := h
  have horder := hl.order
  have hsuper := hl.super
  exact
    { super := hshows.super
      disk := hl.disk
      start := by omega
      onDisk := fun i hi =>
        (hl.reserved_lt (Or.inr ⟨i, hi, rfl⟩)).trans_le (Nat.sub_le _ _)
      trans := ho
      held := fun b hb hres => hheld.not_mem_of_lt (hl.reserved_lt hres) hb }

theorem St.hasBitmap (hres : ∀ b < sb.nmeta, v.bit b = true) (hheld : HeldData sb v held) :
    HasBitmap c where
  toBitmapDisk := h.bitmapDisk hl ho hheld
  fits := by
    have hfits := hl.fits
    rw [h.super]
    omega
  reserved := by
    intro b hb
    rw [h.super] at hb
    have hlt := hl.reserved_lt hb
    rw [h.bit (hlt.trans_le (Nat.sub_le _ _)), hres b hlt]
  heldTaken := by
    intro b hb hlt
    rw [h.held] at hb
    rw [h.bit (hheld b hb).2.1, (hheld b hb).2.2]

/-- `balloc` marks and clears a block that was free. -/
theorem wp_balloc (hres : ∀ b < sb.nmeta, v.bit b = true) (hheld : HeldData sb v held) :
    wp (balloc 1) (fun b c' => v.Free sb b ∧
        St sb ds k cp ((v.setBit b true).setBlk b Bytes.zero) held c')
      (fun e c' => NoBlocks e c' ∧ v.Full sb) c := by
  refine wp_mono (wp_balloc_least (h.hasBitmap hl ho hres hheld)) ?_ ?_
  swap
  · rintro e c' ⟨rfl, rfl, hall⟩
    refine ⟨⟨rfl, hall⟩, ?_⟩
    intro b _ hb
    rw [← h.bit hb]
    exact hall b (by rwa [h.super])
  rintro b c' ⟨hsize, hclear, -, l, rfl⟩
  rw [h.super] at hsize
  rw [h.bit hsize] at hclear
  have hmeta : sb.nmeta ≤ b := by
    by_contra hlt
    rw [hres b (by omega)] at hclear
    cases hclear
  refine ⟨⟨hmeta, hsize, hclear⟩, ?_⟩
  obtain ⟨rfl, rfl, rfl, rfl, rfl, hshows⟩ := h
  exact ⟨rfl, rfl, rfl, rfl, rfl, (hshows.mark hl hsize).write hl hmeta hsize _⟩

/-- `bfree` of a block whose bit is set clears the bit. -/
theorem wp_bfree (hheld : HeldData sb v held) (hsize : b < sb.size) (hbit : v.bit b = true) :
    wp (bfree 1 b) (fun _ c' => St sb ds k cp (v.setBit b false) held c')
      (fun _ _ => False) c := by
  have hb : b < c.sb.size := by rwa [h.super]
  have hset : c.bit b = true := by rwa [h.bit hsize]
  refine wp_mono (wp_bfree_clears (h.bitmapDisk hl ho hheld) hb hset) ?_ (fun _ _ he => he)
  rintro - c' ⟨l, rfl⟩
  obtain ⟨rfl, rfl, rfl, rfl, rfl, hshows⟩ := h
  exact ⟨rfl, rfl, rfl, rfl, rfl, hshows.clear hl hsize⟩

end

theorem wp_iupdate (h : St sb ds k cp v [] c) (ho : 0 < k.outstanding) {ip : Ip}
    (hdev : (k.icache ip).dev = 1) (hi : (k.icache ip).inum < sb.ninodes) (hwf : (cp ip).Wf) :
    wp (iupdate ip)
      (fun _ c' => St sb ds k cp (v.setIno (k.icache ip).inum (cp ip)) [] c')
      (fun _ _ => False) c := by
  have hlt : sb.iblock (k.icache ip).inum < c.disksize := by
    rw [h.disksize]
    exact hl.iblock_lt_disk hi
  unfold iupdate getEntry getCopy
  simp only [wp_bind, wp_gets, h.super, h.kernel, h.copy]
  apply wp_bread hdev hlt (by simp [h.held])
  apply wp_logWrite (by rw [← h.kernel] at ho; exact ho)
  intro l
  exact wp_brelse (h.edit (h.shows.putIno hl hi hwf))

theorem wp_loadInode (h : St sb ds k cp v [] c) {ip : Ip} (hdev : (k.icache ip).dev = 1)
    (hi : (k.icache ip).inum < sb.ninodes) :
    wp (loadInode ip)
      (fun _ c' => (v.ino (k.icache ip).inum).type ≠ 0 ∧
        St sb ds (k.setEntry ip { k.icache ip with valid := true })
          (set cp ip (v.ino (k.icache ip).inum)) v [] c')
      (fun e _ => e = .ilockNoType ∧ (v.ino (k.icache ip).inum).type = 0) c := by
  have hlt : sb.iblock (k.icache ip).inum < c.disksize := by
    rw [h.disksize]
    exact hl.iblock_lt_disk hi
  unfold loadInode getEntry getCopy setCopy setValid
  simp only [wp_bind, wp_gets, h.super, h.kernel]
  apply wp_bread hdev hlt (by simp [h.held])
  simp only [wp_modify]
  apply wp_brelse
  simp only [wp_panicIf, set_self, h.shows.ino _ hi]
  refine ⟨fun htype => ⟨trivial, htype⟩, fun htype => ⟨htype, ?_⟩⟩
  exact
    { kernel := by rw [h.kernel]
      copy := by rw [h.copy]
      super := h.super
      disksize := h.disksize
      held := by simpa using h.held
      shows := h.shows }

/-- `ialloc` takes the first inode that is free on disk. -/
theorem wp_allocInode (h : St sb ds k cp v [] c) (ho : 0 < k.outstanding) (type : Int) :
    wp (allocInode 1 type)
      (fun i c' => 1 ≤ i ∧ i < sb.ninodes ∧ (v.ino i).type = 0 ∧
        (∀ j, 1 ≤ j → j < i → (v.ino j).type ≠ 0) ∧
        St sb ds k cp (v.setIno i (Dinode.empty (short type))) [] c')
      (fun e _ => e = .iallocNoInodes ∧
        ∀ j, 1 ≤ j → j < sb.ninodes → (v.ino j).type ≠ 0) c := by
  unfold allocInode
  simp only [wp_bind, wp_gets, h.super]
  apply wp_first _ _ (fun i c' => St sb ds k cp v [] c' ∧
    ∀ j, 1 ≤ j → j < i → (v.ino j).type ≠ 0)
  · exact ⟨h, fun j hle hlt => by omega⟩
  · rintro i c' hle hlt ⟨h', hused⟩
    have hi : i < sb.ninodes := by omega
    have hblk : sb.iblock i < c'.disksize := by
      rw [h'.disksize]
      exact hl.iblock_lt_disk hi
    rw [wp_bind]
    apply wp_bread rfl hblk (by simp [h'.held])
    rw [h'.shows.ino i hi]
    apply wp_ite
    · intro htype
      simp only [wp_bind]
      apply wp_logWrite (by rw [← h'.kernel] at ho; exact ho)
      intro l
      apply wp_brelse
      exact ⟨hle, hi, htype, hused, h'.edit (h'.shows.clearIno hl hi type)⟩
    · intro htype
      simp only [wp_bind]
      apply wp_brelse
      refine ⟨h'.look, ?_⟩
      intro j hj hji
      by_cases heq : j = i
      · rwa [heq]
      · exact hused j hj (by omega)
  · rintro c' ⟨-, hused⟩
    refine ⟨rfl, ?_⟩
    intro j hj hlt
    exact hused j hj (by omega)

end Specs

end Xv6.Fs
