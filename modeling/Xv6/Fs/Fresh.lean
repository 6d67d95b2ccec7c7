import Xv6.Fs.Mkfs
import Xv6.Fs.Refine

/-!
The disk that `mkfs` makes without files is sound, and the machine that boots
from it implements a table with one file, the root directory.
-/

namespace Xv6.Fs

open Prog

theorem nmeta_eq : mkfsSuper.nmeta = nmeta := by decide

theorem mkfs_layout : Layout mkfsSuper FSSIZE where
  super := by decide
  order := by decide
  inodes := by decide +kernel
  region := by decide
  bitmap := by decide +kernel
  disk := by decide
  fits := by decide

def freshView : View := viewOf mkfsSuper mkfs

theorem fresh_shows : Shows mkfsSuper mkfs freshView := shows_viewOf (by decide +kernel)

theorem fresh_free {i : Nat} (hi : i < NINODES) (hne : i ≠ ROOTINO) :
    (freshView.ino i).type = 0 := by
  have hall : ∀ i < NINODES, i ≠ ROOTINO → (freshView.ino i).type = 0 := by decide +kernel
  exact hall i hi hne

theorem fresh_root : freshView.ino ROOTINO = rootInode := by
  have hfields : (freshView.ino ROOTINO).fields = rootInode.fields := by decide +kernel
  have haddr : ∀ q < NDIRECT + 1, (freshView.ino ROOTINO).addr q = rootInode.addr q := by
    decide +kernel
  exact Dinode.ext_addr hfields haddr

theorem fresh_bit {b : Nat} (hb : b < FSSIZE) : freshView.bit b = decide (b < nmeta + 1) := by
  have hall : ∀ b < FSSIZE, freshView.bit b = decide (b < nmeta + 1) := by decide +kernel
  exact hall b hb

/-- The one block number on the disk is that of the root directory's block. -/
theorem fresh_own (p : Nat × Nat) :
    freshView.own mkfsSuper p = if p = (ROOTINO, 0) then nmeta else 0 := by
  obtain ⟨i, q⟩ := p
  unfold View.own
  dsimp only
  by_cases hi : i < mkfsSuper.ninodes ∧ (freshView.ino i).type ≠ 0
  · rw [if_pos hi]
    have hroot : i = ROOTINO := by
      by_contra hne
      exact hi.2 (fresh_free hi.1 hne)
    subst hroot
    rw [fresh_root]
    have haddr : ∀ q < NDIRECT + 1, rootInode.addr q = if q = 0 then nmeta else 0 := by decide
    by_cases hq : q ≤ NDIRECT
    · rw [Dinode.ref_addr _ _ hq, haddr q (by omega)]
      simp
    · rw [Dinode.ref_eq_zero (by omega) (fun h => absurd (haddr NDIRECT (by omega)) h), if_neg]
      rintro heq
      cases heq
      exact hq (Nat.zero_le _)
  · rw [if_neg hi, if_neg]
    rintro heq
    cases heq
    exact hi ⟨by decide, by rw [fresh_root]; decide⟩

theorem fresh_sound : Sound mkfsSuper freshView where
  ledger :=
    { owns :=
        { unique := by
            intro p q heq hne
            rw [fresh_own, fresh_own] at heq
            rw [fresh_own] at hne
            by_cases hp : p = (ROOTINO, 0)
            · by_cases hq : q = (ROOTINO, 0)
              · rw [hp, hq]
              · rw [if_pos hp, if_neg hq] at heq
                cases heq
            · rw [if_neg hp] at hne
              exact absurd rfl hne
          used_iff := by
            intro b
            have hmeta := nmeta_eq
            constructor
            · rintro ⟨hle, hlt, hbit⟩
              rw [fresh_bit hlt, decide_eq_true_eq] at hbit
              obtain rfl : b = nmeta := by omega
              exact ⟨by decide, (ROOTINO, 0), by rw [fresh_own, if_pos rfl]⟩
            · rintro ⟨hne, p, hp⟩
              rw [fresh_own] at hp
              by_cases hroot : p = (ROOTINO, 0)
              · rw [if_pos hroot] at hp
                subst hp
                exact ⟨by omega, by decide, by rw [fresh_bit (by decide)]; decide⟩
              · rw [if_neg hroot] at hp
                exact absurd hp.symm hne }
      reserved := by
        intro b hb
        have hmeta := nmeta_eq
        have hlt : nmeta < FSSIZE := by decide
        rw [fresh_bit (by omega), decide_eq_true_eq]
        omega }
  filled := by
    intro i hi halloc _ m
    have hroot : i = ROOTINO := by
      by_contra hne
      exact halloc (fresh_free hi hne)
    subst hroot
    unfold View.blockAt
    rw [fresh_own]
    dsimp only
    rw [fresh_root]
    have hone : blocks rootInode.size = 1 := by decide
    rw [hone]
    constructor
    · intro hne
      by_contra hm
      apply hne
      rw [if_neg]
      intro heq
      have hpos := congrArg Prod.snd heq
      unfold View.position at hpos
      split at hpos <;> omega
    · intro hm
      obtain rfl : m = 0 := by omega
      decide

/-! ### A disk with a file -/

/-- The inode of an empty file, as `ialloc` leaves it. -/
def fileDisk : Nat → Block :=
  set mkfs (mkfsSuper.iblock 2) (clearDinode (mkfs (mkfsSuper.iblock 2)) (2 % IPB) T_FILE)

def fileView : View := freshView.setIno 2 (Dinode.empty (short T_FILE))

theorem file_shows : Shows mkfsSuper fileDisk fileView :=
  fresh_shows.clearIno mkfs_layout (by decide) T_FILE

theorem file_sound : Sound mkfsSuper fileView := by
  refine (fresh_sound.setIno_empty (fun r => ?_) (Dinode.addr_empty _) rfl).1
  rw [fresh_own, if_neg]
  exact fun heq => absurd (congrArg Prod.fst heq) (by decide : (2 : Nat) ≠ ROOTINO)

theorem file_ino : fileView.ino 2 = Dinode.empty (short T_FILE) := by
  rw [fileView, View.setIno_ino, set_self]

theorem file_root : fileView.ino ROOTINO = rootInode := by
  rw [fileView, View.setIno_ino, set_of_ne _ _ (by decide), fresh_root]

end Xv6.Fs
