import Xv6.Fs.Directory
import Xv6.Fs.Reading
import Xv6.Fs.ReadWrite

/-!
Directories on the disk implement finite maps from names to inode numbers:
`dirlookup`, `dirlink` and the clearing of an entry by `sys_unlink`, on a
locked directory.
-/

namespace Xv6.Fs

open Prog SlotMap

variable {P : Type} {sb : Superblock} {ds : Nat} {k k' : Kernel P} {cp : Ip → Dinode} {v : View}
  {dp : Ip} {i : Nat} {c : FsState P} {p : P}

/-- The slots of directory `i`. -/
def View.table (sb : Superblock) (v : View) (i : Nat) : Table Name Nat :=
  dirTable (v.byteAt sb i) (v.ino i).size

/-- The tables differ in unused entries of the inode cache only. -/
def Kernel.SameUsed (k k' : Kernel P) : Prop :=
  k' = { k with icache := k'.icache } ∧
    ∀ jp, 0 < (k.icache jp).ref ∨ 0 < (k'.icache jp).ref → k'.icache jp = k.icache jp

theorem Kernel.SameUsed.refl (k : Kernel P) : k.SameUsed k := ⟨rfl, fun _ _ => rfl⟩

/-- The directory `dp`, locked by `p`, which may have locked other inodes as well. -/
structure LockedDir (sb : Superblock) (ds : Nat) (k : Kernel P) (cp : Ip → Dinode) (v : View)
    (dp : Ip) (i : Nat) (p : P) (c : FsState P) : Prop extends Locked sb ds k cp v dp i c where
  dir : (v.ino i).type = T_DIR
  whole : DIRENT ∣ (v.ino i).size
  distinct : Distinct (v.table sb i)
  ref : 0 < (k.icache dp).ref
  held : (k.icache dp).lock = some p
  -- the inode cache while no other process is in the file system
  locks : ∀ jp, (k.icache jp).lock ≠ none → (k.icache jp).lock = some p ∧ 0 < (k.icache jp).ref
  unique : ∀ ip jp, 0 < (k.icache ip).ref → 0 < (k.icache jp).ref →
    (k.icache ip).dev = (k.icache jp).dev → (k.icache ip).inum = (k.icache jp).inum → ip = jp

/-- The name is that of a directory entry whose inode the caller has locked. -/
def NamesLocked (sb : Superblock) (k : Kernel P) (v : View) (i : Nat) (p : P) (name : Name) :
    Prop :=
  ∃ ip, (k.icache ip).lock = some p ∧ (k.icache ip).dev = 1 ∧
    lookup name (v.table sb i) = some (k.icache ip).inum

/-- Work on the tables that leaves the entry of the inode. -/
theorem Locked.move {c' : FsState P} (h : Locked sb ds k cp v dp i c)
    (hst : St sb ds k' cp v [] c') (hdp : (k'.icache dp).dev = 1 ∧ (k'.icache dp).inum = i) :
    Locked sb ds k' cp v dp i c' :=
  { h with
    st := hst
    dev := hdp.1
    inum := hdp.2 }

namespace LockedDir

theorem size_eq (h : LockedDir sb ds k cp v dp i p c) :
    (v.ino i).size = DIRENT * rounds (v.ino i).size := by
  obtain ⟨n, hn⟩ := h.whole
  rw [hn, rounds_mul]

theorem size_lt (h : LockedDir sb ds k cp v dp i p c) : (v.ino i).size < 2 ^ 32 :=
  (size_le_of_full h.full).trans_lt (by decide)

variable {c' : FsState P}

/-- Inode `inum` has no entry in the inode cache. -/
def Uncached (k : Kernel P) (inum : Nat) : Prop :=
  ∀ jp, 0 < (k.icache jp).ref → ¬ ((k.icache jp).dev = 1 ∧ (k.icache jp).inum = inum)

section

variable (h : LockedDir sb ds k cp v dp i p c) (hc : Locked sb ds k cp v dp i c')
include h hc

/-- What `dirlookup` does once it has found an entry. -/
theorem wp_get (inum : Nat) {Q : Ip → FsState P → Prop} {E : Panic → FsState P → Prop}
    (hold : ∀ ip, 0 < (k.icache ip).ref → (k.icache ip).dev = 1 → (k.icache ip).inum = inum →
      ∀ c', St sb ds (k.setEntry ip { k.icache ip with ref := (k.icache ip).ref + 1 }) cp v [] c' →
        Q ip c')
    (hnew : ∀ ip, (k.icache ip).ref = 0 → Uncached k inum → ∀ c', St sb ds (k.setEntry ip
      { k.icache ip with dev := 1, inum := inum, ref := 1, valid := false }) cp v [] c' → Q ip c')
    (hfull : Uncached k inum → (∀ jp, (k.icache jp).ref ≠ 0) → ∀ c', E .igetNoInodes c') : wp (do
      let e ← diskOps.kernel (entry dp)
      diskOps.kernel (iget e.dev inum)) Q E c' := by
  rw [wp_bind]
  refine hc.st.wp_entry rfl fun c₁ h₁ => h₁.wp_kernel_or ?_
  rw [h.dev]
  refine wp_mono (wp_iget k 1 inum) ?_ ?_
  · rintro ip k' (⟨href, hdev, hinum, rfl⟩ | ⟨hnone, hzero, rfl⟩)
    · exact hold ip href hdev hinum
    · exact hnew ip hzero hnone
  · rintro e k' ⟨rfl, rfl, hnone, hused⟩
    exact fun c' _ => hfull hnone hused c'

/-- `iput` of a reference that `dirlookup` has just got gives it back, unless it
is one to a locked inode. -/
theorem wp_giveBack {inum : Nat}
    (hfree : ∀ ip, (k.icache ip).lock = some p → (k.icache ip).dev = 1 →
      (k.icache ip).inum ≠ inum) {E : Panic → FsState P → Prop}
    (hfull : (∀ jp, (k.icache jp).ref ≠ 0) → ∀ c', E .igetNoInodes c') : wp (do
      let e ← diskOps.kernel (entry dp)
      diskOps.kernel (iget e.dev inum))
      (fun ip => wp (iput diskOps p ip)
        (fun _ c'' => ∃ k', k.SameUsed k' ∧ Locked sb ds k' cp v dp i c'') E) E c' := by
  refine h.wp_get hc inum ?_ ?_ (fun _ => hfull)
  · intro ip href hdev hinum c₁ h₁
    have hlock : (k.icache ip).lock = none := by
      by_contra hlocked
      exact hfree ip (h.locks ip hlocked).1 hdev hinum
    refine wp_mono_total (h₁.wp_iput (Kernel.setEntry_self ..) hlock ?_) ?_
    · rintro ⟨-, -, hone⟩
      dsimp only at hone
      omega
    · intro _ c₂ h₂
      rw [Kernel.setEntry_setEntry] at h₂
      have hsame : ({ k.icache ip with ref := (k.icache ip).ref + 1 - 1 } : Entry P) =
          k.icache ip := by rw [Int.add_sub_cancel]
      dsimp only at h₂
      rw [hsame] at h₂
      have hk : k.setEntry ip (k.icache ip) = k := by simp [Kernel.setEntry]
      rw [hk] at h₂
      exact ⟨k, .refl k, h.toLocked.move h₂ ⟨h.dev, h.inum⟩⟩
  · intro ip hzero _ c₁ h₁
    have hip : ip ≠ dp := by
      rintro rfl
      exact absurd h.ref (by omega)
    have hlock : (k.icache ip).lock = none := by
      by_contra hlocked
      exact absurd (h.locks ip hlocked).2 (by omega)
    refine wp_mono_total (h₁.wp_iput (Kernel.setEntry_self ..) hlock ?_) ?_
    · rintro ⟨hvalid, -⟩
      cases hvalid
    · intro _ c₂ h₂
      rw [Kernel.setEntry_setEntry] at h₂
      refine ⟨_, ⟨rfl, fun jp hjp => ?_⟩, h.toLocked.move h₂ ?_⟩
      · by_cases hj : jp = ip
        · subst hj
          rw [Kernel.setEntry_self] at hjp
          dsimp only at hjp
          omega
        · exact Kernel.setEntry_of_ne _ _ hj
      · rw [Kernel.setEntry_of_ne _ _ hip.symm]
        exact ⟨h.dev, h.inum⟩

/-- A reference to a locked inode is never given back. -/
theorem wp_stuck {jp : Ip} (hlock : (k.icache jp).lock = some p) (hdev : (k.icache jp).dev = 1)
    {Q : Unit → FsState P → Prop} : wp (do
      let e ← diskOps.kernel (entry dp)
      diskOps.kernel (iget e.dev (k.icache jp).inum))
      (fun ip => wp (iput diskOps p ip) Q (fun e _ => e = .sleepsForever))
      (fun e _ => e = .sleepsForever) c' := by
  have hlocked : (k.icache jp).lock ≠ none := by simp [hlock]
  have href := (h.locks jp hlocked).2
  refine h.wp_get hc _ ?_ (fun _ _ hnone => absurd ⟨hdev, rfl⟩ (hnone jp href))
    (fun hnone => absurd ⟨hdev, rfl⟩ (hnone jp href))
  intro ip href' hdev' hinum c₁ h₁
  obtain rfl : ip = jp := h.unique ip jp href' href (hdev'.trans hdev.symm) hinum
  unfold iput
  rw [wp_bind]
  refine h₁.wp_kernel_or ?_
  unfold acquiresleep entry
  simp only [wp_bind, wp_gets, wp_panicIf, Kernel.setEntry_self]
  exact ⟨fun _ _ _ => trivial, fun hfree => absurd hlocked hfree⟩

end

variable [DecidableEq P]

theorem readable (hl : Layout sb ds) (h : LockedDir sb ds k cp v dp i p c) :
    Readable diskOps p dp (Locked sb ds k cp v dp i) (v.ino i).fields (v.byteAt sb i) where
  dir := h.dir
  fields := by
    intro c hc
    exact ⟨hc.fields, hc⟩
  read := by
    intro c j hc hj
    have hsize := h.size_eq
    have hlt := h.size_lt
    have hj' : j < rounds (v.ino i).size := hj
    have hfits : DIRENT * j + DIRENT ≤ (v.ino i).size := by
      unfold DIRENT at *
      omega
    have hentry : DIRENT = 16 := rfl
    refine wp_mono_total (hc.wp_readi hl (by omega) (by decide) (by omega) (by omega)) ?_
    rintro r c' ⟨hr, hbytes, hc'⟩
    rw [Nat.min_eq_left (by omega)] at hr hbytes
    exact ⟨hr, hbytes, hc'⟩

theorem wp_dirlookup (hl : Layout sb ds) (h : LockedDir sb ds k cp v dp i p c) {name : Name}
    (hname : 0 ∉ name) :
    wp (dirlookup diskOps p dp name)
      (fun r c' => (∀ ip off, r = some (ip, off) → ∃ j inum,
          slotOf (v.table sb i) (name.take DIRSIZ) = some j ∧ off = DIRENT * j ∧
          lookup (name.take DIRSIZ) (v.table sb i) = some inum ∧
          (c'.kernel.icache ip).dev = 1 ∧ (c'.kernel.icache ip).inum = inum) ∧
        (r = none → lookup (name.take DIRSIZ) (v.table sb i) = none) ∧
        Locked sb ds c'.kernel cp v dp i c')
      (fun e _ => e = .igetNoInodes ∧ ∀ jp, (k.icache jp).ref ≠ 0) c := by
  refine (h.readable hl).wp_dirlookup hname h.toLocked ?_ ?_
  · intro hnone c' hc'
    have hk := hc'.st.kernel
    exact ⟨fun _ _ hr => (nomatch hr), fun _ => hnone, by rwa [hk]⟩
  · intro j inum hslot hlook _ _ c' hc'
    refine h.wp_get hc' inum ?_ ?_ (fun _ hused _ => ⟨rfl, hused⟩)
    · intro ip _ hdev hinum c₁ h₁
      have hk := h₁.kernel
      refine ⟨?_, fun hr => (nomatch hr), ?_⟩
      · rintro _ _ ⟨⟩
        rw [hk, Kernel.setEntry_self]
        exact ⟨j, inum, hslot, rfl, hlook, hdev, hinum⟩
      · rw [hk]
        refine h.toLocked.move h₁ ?_
        by_cases hip : dp = ip
        · subst hip
          rw [Kernel.setEntry_self]
          exact ⟨h.dev, h.inum⟩
        · rw [Kernel.setEntry_of_ne _ _ hip]
          exact ⟨h.dev, h.inum⟩
    · intro ip hzero _ c₁ h₁
      have hk := h₁.kernel
      have hip : dp ≠ ip := by
        rintro rfl
        exact absurd h.ref (by omega)
      refine ⟨?_, fun hr => (nomatch hr), ?_⟩
      · rintro _ _ ⟨⟩
        rw [hk, Kernel.setEntry_self]
        exact ⟨j, inum, hslot, rfl, hlook, rfl, rfl⟩
      · rw [hk]
        refine h.toLocked.move h₁ ?_
        rw [Kernel.setEntry_of_ne _ _ hip]
        exact ⟨h.dev, h.inum⟩

end LockedDir

/-- The directory after a write to it: its map is `t`, and no other file has
changed. -/
structure Remapped (sb : Superblock) (ds : Nat) (k : Kernel P) (cp : Ip → Dinode) (v : View)
    (dp : Ip) (i : Nat) (t : Table Name Nat) (v' : View) (c' : FsState P) : Prop where
  locked : Locked sb ds k (set cp dp (v'.ino i)) v' dp i c'
  table : v'.table sb i = t
  others : ∀ j, j ≠ i → v'.ino j = v.ino j ∧ v'.byteAt sb j = v.byteAt sb j

variable [DecidableEq P]

/-- `dirlink` refuses a name that is there and changes nothing, and otherwise
adds it to the map, in the first free slot before the directory grows. It
stops only if it needs a block or an entry of the inode cache and there is
none. -/
def Dirlinks (sb : Superblock) (ds : Nat) (k : Kernel P) (cp : Ip → Dinode) (v : View) (dp : Ip)
    (i : Nat) (p : P) (name : Name) (inum : Nat) (c : FsState P) : Prop :=
  wp (dirlink diskOps p dp name inum)
    (fun r c' =>
      (r = -1 ∧ lookup (name.take DIRSIZ) (v.table sb i) ≠ none ∧
        ∃ k', k.SameUsed k' ∧ Locked sb ds k' cp v dp i c') ∨
      (r = 0 ∧ lookup (name.take DIRSIZ) (v.table sb i) = none ∧
        ∃ v', Remapped sb ds k cp v dp i
          (SlotMap.insert (name.take DIRSIZ) inum (v.table sb i)) v' c'))
    (fun e c' => (NoBlocks e c' ∧ freeSlot (v.table sb i) = none) ∨
      (e = .igetNoInodes ∧ ∀ jp, (k.icache jp).ref ≠ 0)) c

namespace LockedDir

/-- A write of one slot. -/
theorem wp_writeSlot (hl : Layout sb ds) (h : LockedDir sb ds k cp v dp i p c) {c₁ : FsState P}
    (hc : Locked sb ds k cp v dp i c₁) (ho : 0 < k.outstanding) {j : Nat} (de : Nat → UInt8)
    (hj : j ≤ rounds (v.ino i).size) (hmax : DIRENT * j + DIRENT ≤ MAXFILE * BSIZE) :
    wp (writei diskOps p dp de (DIRENT * j) DIRENT)
      (fun r c' => r = DIRENT ∧ ∃ v', Remapped sb ds k cp v dp i
        (dirTable (v'.byteAt sb i) (max (v.ino i).size (DIRENT * j + DIRENT))) v' c' ∧
        ∀ o, v'.byteAt sb i o = if DIRENT * j ≤ o ∧ o < DIRENT * j + DIRENT then
          de (o - DIRENT * j) else v.byteAt sb i o)
      (fun e c' => NoBlocks e c' ∧ ¬ j < rounds (v.ino i).size) c₁ := by
  have hsize := h.size_eq
  have hle : DIRENT * j ≤ (v.ino i).size := by
    rw [hsize]
    exact Nat.mul_le_mul_left _ hj
  have hoff : DIRENT * j < 2 ^ 32 := hle.trans_lt h.size_lt
  refine wp_mono (hc.wp_writei hl de ho hoff (by decide) hle hmax) ?_ ?_
  · rintro r c' ⟨hr, v', hlocked, hs⟩
    have hsize' : (v'.ino i).size = max (v.ino i).size (DIRENT * j + DIRENT) :=
      congrArg Meta.size hs.fields
    refine ⟨hr, v', ⟨hlocked, by rw [View.table, hsize'], ?_⟩, ?_⟩
    · intro x hx
      refine ⟨hs.inodes x hx, ?_⟩
      funext o
      rw [hs.bytes, if_neg (fun hc => hx hc.1)]
    · intro o
      rw [hs.bytes]
      simp only [true_and]
  · rintro e c' ⟨hno, hroom⟩
    refine ⟨hno, fun hlt => hroom (room_of_present fun x hx => h.covered ?_ hx)⟩
    rw [hsize]
    unfold DIRENT
    omega

theorem wp_unlink (hl : Layout sb ds) (h : LockedDir sb ds k cp v dp i p c) (ho : 0 < k.outstanding)
    {key : Name} {j : Nat} (hj : slotOf (v.table sb i) key = some j) :
    wp (writei diskOps p dp (fun _ => 0) (DIRENT * j) DIRENT)
      (fun r c' => r = DIRENT ∧
        ∃ v', Remapped sb ds k cp v dp i (clear (v.table sb i) j) v' c')
      (fun _ _ => False) c := by
  have hlt := (findIdx?_dirTable_some.mp hj).1
  have hmax : DIRENT * j + DIRENT ≤ MAXFILE * BSIZE := by
    have hle := size_le_of_full h.full
    have hsize := h.size_eq
    unfold DIRENT at *
    omega
  refine wp_mono (h.wp_writeSlot hl h.toLocked ho (fun _ => 0) hlt.le hmax) ?_ ?_
  · rintro r c' ⟨hr, v', hmapped, hbytes⟩
    refine ⟨hr, v', { hmapped with table := ?_ }⟩
    rw [hmapped.table]
    exact dirTable_unlink h.whole hj hbytes
  · rintro e c' ⟨-, hnot⟩
    exact hnot hlt

omit [DecidableEq P] in
theorem linkSlot_fits (h : LockedDir sb ds k cp v dp i p c)
    (hspace : freeSlot (v.table sb i) ≠ none ∨ (v.ino i).size ≤ MAXFILE * BSIZE - DIRENT) :
    DIRENT * linkSlot (v.table sb i) + DIRENT ≤ MAXFILE * BSIZE := by
  have hsize := h.size_eq
  unfold linkSlot
  cases hfree : freeSlot (v.table sb i) with
  | none =>
    have hle := hspace.resolve_left (fun hne => hne hfree)
    have hlength : (v.table sb i).length = rounds (v.ino i).size := length_dirTable _ _
    have hbig : DIRENT ≤ MAXFILE * BSIZE := by decide
    rw [Option.getD_none, hlength]
    omega
  | some j =>
    have hle := size_le_of_full h.full
    have hlt : j < rounds (v.ino i).size := (findIdx?_dirTable_some.mp hfree).1
    rw [Option.getD_some]
    unfold DIRENT at *
    omega

/-- `dirlink` does so exactly if the name is not one of a locked inode. -/
theorem dirlinks_iff (hl : Layout sb ds) (h : LockedDir sb ds k cp v dp i p c)
    (ho : 0 < k.outstanding) {name : Name} (hname : 0 ∉ name) {inum : Nat} (hpos : inum ≠ 0)
    (hlt : inum < 2 ^ 16)
    (hspace : freeSlot (v.table sb i) ≠ none ∨ (v.ino i).size ≤ MAXFILE * BSIZE - DIRENT) :
    Dirlinks sb ds k cp v dp i p name inum c ↔ ¬ NamesLocked sb k v i p (name.take DIRSIZ) := by
  constructor
  · rintro hspec ⟨jp, hlock, hdev, hself⟩
    have hstuck : wp (dirlink diskOps p dp name inum) (fun _ _ => False)
        (fun e _ => e = .sleepsForever) c := by
      refine (h.readable hl).wp_dirlink hname h.toLocked ?_ ?_
      · intro w hw _ _ c' hc'
        obtain rfl : w = (k.icache jp).inum := Option.some.inj (hw.symm.trans hself)
        exact h.wp_stuck hc' hlock hdev
      · intro hnone
        exact absurd (hnone.symm.trans hself) (by simp)
    unfold Dirlinks at hspec
    rcases hrun : dirlink diskOps p dp name inum c with ⟨e | r, c'⟩
    · have he := of_wp_error hstuck hrun
      subst he
      rcases of_wp_error hspec hrun with ⟨⟨hno, -⟩, -⟩ | ⟨hno, -⟩
      · cases hno
      · cases hno
    · exact of_wp_ok hstuck hrun
  · intro hother
    refine (h.readable hl).wp_dirlink hname h.toLocked ?_ ?_
    · intro w hw _ _ c' hc'
      replace hw : lookup (name.take DIRSIZ) (v.table sb i) = some w := hw
      have hfree (ip : Ip) (hlock : (k.icache ip).lock = some p) (hdev : (k.icache ip).dev = 1) :
          (k.icache ip).inum ≠ w := by
        rintro rfl
        exact hother ⟨ip, hlock, hdev, hw⟩
      refine wp_mono (h.wp_giveBack hc' hfree fun hused _ => Or.inr ⟨rfl, hused⟩) ?_
        (fun _ _ he => he)
      intro ip c'' hput
      refine wp_mono hput ?_ (fun _ _ he => he)
      intro _ c₃ hkept
      exact Or.inl ⟨rfl, by rw [hw]; exact Option.some_ne_none w, hkept⟩
    · intro hnone c' hc'
      have hslot : linkSlot (v.table sb i) ≤ rounds (v.ino i).size := linkSlot_le _ _
      have hmax := h.linkSlot_fits hspace
      refine wp_mono (h.wp_writeSlot hl hc' ho (dirent inum name) hslot hmax) ?_ ?_
      · rintro r c'' ⟨hr, v', hmapped, hbytes⟩
        rw [if_pos hr]
        refine Or.inr ⟨rfl, hnone, v', { hmapped with table := ?_ }⟩
        rw [hmapped.table]
        exact dirTable_link h.whole hpos hlt hname hbytes
      · rintro e c'' ⟨hno, hnot⟩
        replace hnot : ¬ linkSlot (v.table sb i) < rounds (v.ino i).size := hnot
        refine Or.inl ⟨hno, ?_⟩
        cases hfree : freeSlot (v.table sb i) with
        | none => rfl
        | some j =>
          rw [linkSlot, hfree] at hnot
          exact absurd (findIdx?_dirTable_some.mp hfree).1 hnot

end LockedDir

/-- A locked directory is a finite map from names, cut to `DIRSIZ` bytes, to
inode numbers. Bytes after the zero of the name buffer do not matter;
`dirlookup` finds exactly the names of the map; clearing the slot it found
removes this name only. `dirlink` adds a name that is not there and refuses one
that is there, except for a name of an inode that the caller has locked, such as
the directory itself, where it waits for the caller's own lock. -/
theorem directory_finite_map (hl : Layout sb ds) (h : LockedDir sb ds k cp v dp i p c)
    (ho : 0 < k.outstanding) (buf : Nat → UInt8) {inum : Nat} (hpos : 1 ≤ inum)
    (hlt : inum ≤ 65535)
    (hspace : freeSlot (v.table sb i) ≠ none ∨ (v.ino i).size ≤ MAXFILE * BSIZE - DIRENT) :
    ((∀ t, namecmp buf t = namecmp (cbyte (cstr buf)) t) ∧
      strncpy buf DIRSIZ = (List.range DIRSIZ).map (cbyte (cstr buf))) ∧
    wp (dirlookup diskOps p dp (cstr buf))
      (fun r c' => (∀ ip off, r = some (ip, off) → ∃ j inum,
          slotOf (v.table sb i) (cstr buf) = some j ∧ off = DIRENT * j ∧
          lookup (cstr buf) (v.table sb i) = some inum ∧
          (c'.kernel.icache ip).dev = 1 ∧ (c'.kernel.icache ip).inum = inum) ∧
        (r = none → lookup (cstr buf) (v.table sb i) = none) ∧
        Locked sb ds c'.kernel cp v dp i c')
      (fun e _ => e = .igetNoInodes ∧ ∀ jp, (k.icache jp).ref ≠ 0) c ∧
    (∀ j, slotOf (v.table sb i) (cstr buf) = some j →
      wp (writei diskOps p dp (fun _ => 0) (DIRENT * j) DIRENT)
        (fun r c' => r = DIRENT ∧
          ∃ v', Remapped sb ds k cp v dp i (clear (v.table sb i) j) v' c' ∧
            Distinct (v'.table sb i) ∧ ∀ key, lookup key (v'.table sb i) =
              if key = cstr buf then none else lookup key (v.table sb i))
        (fun _ _ => False) c) ∧
    (lookup (cstr buf) (v.table sb i) = none →
      Distinct (SlotMap.insert (cstr buf) inum (v.table sb i)) ∧
      ∀ key, lookup key (SlotMap.insert (cstr buf) inum (v.table sb i)) =
        if key = cstr buf then some inum else lookup key (v.table sb i)) ∧
    (Dirlinks sb ds k cp v dp i p (cstr buf) inum c ↔
      ¬ NamesLocked sb k v i p (cstr buf)) := by
  have hname := zero_notMem_cstr buf
  refine ⟨⟨namecmp_cstr buf, strncpy_cstr buf⟩, ?_, ?_, ?_, ?_⟩
  · have hlook := h.wp_dirlookup hl hname
    rwa [take_cstr] at hlook
  · intro j hj
    refine wp_mono_total (h.wp_unlink hl ho hj) ?_
    rintro r c' ⟨hr, v', hmapped⟩
    refine ⟨hr, v', hmapped, ?_, ?_⟩
    · rw [hmapped.table]
      exact h.distinct.clear j
    · intro key
      rw [hmapped.table]
      exact lookup_clear h.distinct hj key
  · intro hnone
    exact ⟨h.distinct.insert hnone, lookup_insert hnone⟩
  · have hiff := h.dirlinks_iff hl ho hname (by omega : inum ≠ 0) (by omega) hspace
    rwa [take_cstr] at hiff

theorem creating_dir : LockedDir mkfsSuper FSSIZE creating.kernel creating.copy fileView 0
    ROOTINO 0 creating where
  toLocked := creating_root
  dir := by
    rw [file_root]
    rfl
  whole := by
    rw [file_root]
    decide
  distinct := by decide +kernel
  ref := by decide +kernel
  held := by decide +kernel
  locks := by decide +kernel
  unique := by decide +kernel

theorem creating_table : lookup (cstr (cbyte [97])) (fileView.table mkfsSuper ROOTINO) = none ∧
    (freeSlot (fileView.table mkfsSuper ROOTINO)).isSome = true := by
  decide +kernel

/-- The new file gets the name "a". -/
theorem directory_finite_map_creating :
    Dirlinks mkfsSuper FSSIZE creating.kernel creating.copy fileView 0 ROOTINO (0 : Slot)
      (cstr (cbyte [97])) 2 creating := by
  have hdir := creating_dir
  have ho : 0 < creating.kernel.outstanding := by decide
  have hlook := creating_table.1
  have hfree := creating_table.2
  generalize creating = c at hdir ho ⊢
  have hspace := Or.inl (b := (fileView.ino ROOTINO).size ≤ MAXFILE * BSIZE - DIRENT)
    (Option.isSome_iff_ne_none.mp hfree)
  have hmap := directory_finite_map mkfs_layout hdir ho (cbyte [97])
    (by decide : 1 ≤ 2) (by decide) hspace
  refine hmap.2.2.2.2.mpr ?_
  rintro ⟨ip, -, -, hsome⟩
  rw [hlook] at hsome
  cases hsome

/-- `dirlink` of the name "." does not return. -/
theorem dirlink_dot_stuck :
    lookup dot (freshView.table mkfsSuper ROOTINO) = some ROOTINO ∧
      (dirlink diskOps (0 : Slot) 0 dot 5 lockedRoot).1 = .error .sleepsForever := by
  constructor
  · decide +kernel
  · decide +kernel

end Xv6.Fs
