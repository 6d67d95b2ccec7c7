import Xv6.Mkfs.Image

/-!
The image that `mkfs` writes, and when it is consistent. The root directory
gets its size rounded up at the end, by a formula that adds a block of size
where the entries fill their last block.
-/

namespace Xv6.Mkfs

open Prog Fs

/-! ### The contents of the image -/

def entryBytes (inum : Nat) (name : Name) : List UInt8 := bytesOf (dirent inum name) DIRENT

/-- The entries of the root directory when files with these names are there. -/
def rootBytes (names : List Name) : List UInt8 :=
  entryBytes ROOTINO dot ++ entryBytes ROOTINO dotdot ++
    (names.mapIdx fun k name => entryBytes (k + 2) name).flatten

def contentsOf (files : List Input) : List (List UInt8) :=
  rootBytes (files.map Input.stripped) :: files.map Input.contents

theorem rootBytes_concat (names : List Name) (name : Name) :
    rootBytes (names ++ [name]) = rootBytes names ++ entryBytes (names.length + 2) name := by
  unfold rootBytes
  rw [List.mapIdx_concat, List.flatten_append, List.flatten_singleton, List.append_assoc,
    List.append_assoc, List.append_assoc]

theorem rootBytes_length (names : List Name) :
    (rootBytes names).length = DIRENT * (names.length + 2) := by
  induction names using List.reverseRecOn with
  | nil => rfl
  | append_singleton names name ih =>
    rw [rootBytes_concat, List.length_append, ih, entryBytes, bytesOf_length, List.length_append,
      List.length_singleton]
    unfold DIRENT
    omega

/-- Fewer than `NINODES` inodes, at most `FSSIZE` blocks, and every file within
`MAXFILE` blocks. -/
structure Fits (files : List Input) : Prop where
  few : files.length + 1 < NINODES
  room : nmeta + total (contentsOf files) ≤ FSSIZE
  each : ∀ f ∈ files, blocks f.contents.length ≤ MAXFILE

/-- Some files are complete, and of the next one `x` is there. -/
def midway (names : List Name) (done : List Input) (x : List UInt8) : List (List UInt8) :=
  rootBytes names :: (done.map Input.contents ++ [x])

section

variable {files done rest : List Input} {f : Input} {names : List Name} {x : List UInt8}

theorem midway_within (hsplit : done ++ f :: rest = files) (hnames : names.length ≤ files.length)
    (hx : x.length ≤ f.contents.length) : Within (midway names done x) (contentsOf files) := by
  intro i hi
  cases i with
  | zero =>
    refine ⟨by simp [contentsOf], ?_⟩
    simp only [midway, contentsOf, List.getElem_cons_zero, rootBytes_length, List.length_map]
    exact Nat.mul_le_mul_left _ (by omega)
  | succ k =>
    have hk : k < done.length + 1 := by simpa [midway] using hi
    have hlen : files.length = done.length + (rest.length + 1) := by
      rw [← hsplit, List.length_append, List.length_cons]
    refine ⟨by simp [contentsOf]; omega, ?_⟩
    simp only [midway, contentsOf, List.getElem_cons_succ, List.getElem_map]
    by_cases hlast : k < done.length
    · rw [List.getElem_append_left (by simpa using hlast), List.getElem_map]
      simp only [← hsplit, List.getElem_append_left hlast, le_refl]
    · obtain rfl : k = done.length := by omega
      rw [List.getElem_append_right (by simp)]
      simp only [← hsplit, List.length_map, Nat.sub_self, List.getElem_cons_zero]
      rw [List.getElem_append_right (Nat.le_refl _)]
      simpa using hx

theorem Fits.midway (h : Fits files) (hsplit : done ++ f :: rest = files)
    (hnames : names.length ≤ files.length) (hx : x.length ≤ f.contents.length) :
    nmeta + total (midway names done x) ≤ FSSIZE :=
  (Nat.add_le_add_left (midway_within hsplit hnames hx).total_le _).trans h.room

/-- The root directory stays within its first seven blocks. -/
theorem Fits.root (h : Fits files) {len : Nat} (hlen : len ≤ DIRENT * (files.length + 2)) :
    blocks len ≤ MAXFILE := by
  have hfew := h.few
  unfold NINODES at hfew
  unfold blocks MAXFILE NDIRECT NINDIRECT BSIZE
  unfold DIRENT at hlen
  omega

end

/-! ### Adding a file -/

section AddFile

variable {s : State} {files done rest : List Input} {f : Input}

/-- The loop that copies the file. -/
theorem Image.pieces_spec {names : List Name} (hfits : Fits files)
    (hsplit : done ++ f :: rest = files)
    (hnames : names.length ≤ files.length) (h : Image s (midway names done [])) :
    wp (forEach (fun piece => iappend (done.length + 1 + 1) (cbyte piece) piece.length) f.pieces)
      (fun _ s' => Image s' (midway names done f.contents)) (fun _ _ => False) s := by
  refine wp_forEach f.pieces (fun left s' =>
    ∃ copied, copied ++ left = f.pieces ∧ Image s' (midway names done copied.flatten))
    ⟨[], rfl, h⟩ ?_ ?_
  · rintro piece left s' ⟨copied, hpieces, himage⟩
    have hnext : (copied.flatten ++ piece).length ≤ f.contents.length := by
      unfold Input.contents
      rw [← hpieces, List.flatten_append, List.flatten_cons]
      simp only [List.length_append]
      omega
    have hi : done.length + 1 < (midway names done copied.flatten).length := by simp [midway]
    have hget : (midway names done copied.flatten)[done.length + 1] = copied.flatten := by
      simp [midway]
    have hset : (midway names done copied.flatten).set (done.length + 1)
        ((midway names done copied.flatten)[done.length + 1] ++
          bytesOf (cbyte piece) piece.length) =
        midway names done (copied ++ [piece]).flatten := by
      rw [hget, bytesOf_cbyte, List.flatten_append, List.flatten_singleton]
      simp [midway]
    have hmem : f ∈ files := by
      rw [← hsplit]
      simp
    refine wp_mono (himage.iappend_spec hi ?_ ?_) ?_ fun _ _ hf => hf
    · rw [hget, ← List.length_append]
      exact (blocks_mono hnext).trans (hfits.each f hmem)
    · rw [hset]
      refine hfits.midway hsplit hnames ?_
      rwa [List.flatten_append, List.flatten_singleton]
    · intro _ s'' himage'
      rw [hset] at himage'
      exact ⟨copied ++ [piece], by rw [List.append_assoc]; exact hpieces, himage'⟩
  · rintro s' ⟨copied, hpieces, himage⟩
    rw [List.append_nil] at hpieces
    rw [hpieces] at himage
    exact himage

theorem Image.addFile_spec (hfits : Fits files) (hsplit : done ++ f :: rest = files)
    (hslash : slash ∉ f.name) (h : Image s (contentsOf done)) :
    wp (addFile ROOTINO f) (fun _ s' => Image s' (contentsOf (done ++ [f])))
      (fun _ _ => False) s := by
  have hlen : files.length = done.length + (rest.length + 1) := by
    rw [← hsplit, List.length_append, List.length_cons]
  have hcount : (contentsOf done).length = done.length + 1 := by simp [contentsOf]
  have hfew := hfits.few
  unfold addFile
  simp only [wp_bind, wp_panicIf]
  refine ⟨fun hc => absurd hc hslash, fun _ => ?_⟩
  refine wp_mono (h.ialloc_spec (by omega) (by rw [hcount]; rfl)) ?_ fun _ _ hf => hf
  rintro _ s₁ ⟨rfl, h₁⟩
  rw [hcount]
  obtain ⟨names, hnames⟩ : ∃ names, names = done.map Input.stripped := ⟨_, rfl⟩
  have hnlen : names.length = done.length := by rw [hnames, List.length_map]
  have hnew : contentsOf done ++ [[]] = midway names done [] := by
    rw [hnames]
    rfl
  rw [hnew] at h₁
  have hpos : 0 < (midway names done []).length := Nat.succ_pos _
  have hset : (midway names done []).set 0 ((midway names done [])[0] ++
      bytesOf (dirent (done.length + 1 + 1) f.stripped) DIRENT) =
      midway (names ++ [f.stripped]) done [] := by
    have hget : (midway names done [])[0] = rootBytes names := rfl
    rw [hget]
    unfold midway
    rw [List.set_cons_zero, rootBytes_concat, hnlen]
    rfl
  have hentry : (names ++ [f.stripped]).length ≤ files.length := by
    rw [List.length_append, List.length_singleton]
    omega
  refine wp_mono (h₁.iappend_spec (i := 0) hpos ?_ ?_) ?_ fun _ _ hf => hf
  · apply hfits.root
    simp only [midway, List.getElem_cons_zero, rootBytes_length]
    unfold DIRENT
    omega
  · rw [hset]
    exact hfits.midway hsplit hentry (Nat.zero_le _)
  · intro _ s₂ h₂
    rw [hset] at h₂
    refine wp_mono (h₂.pieces_spec hfits hsplit hentry) ?_ fun _ _ hf => hf
    intro _ s₃ h₃
    have hdone : midway (names ++ [f.stripped]) done f.contents = contentsOf (done ++ [f]) := by
      unfold midway contentsOf
      rw [hnames, List.map_append, List.map_append, List.map_singleton, List.map_singleton]
    rwa [hdone] at h₃

end AddFile

/-! ### The image -/

/-- The blank disk with a superblock. -/
theorem image_nil {s : State} (hfreeinode : s.freeinode = 1) (hfreeblock : s.freeblock = nmeta)
    (hsuper : s.disk 1 = putSuper mkfsSuper)
    (hzero : ∀ b < FSSIZE, b ≠ 1 → s.disk b = Bytes.zero) : Image s [] := by
  have htype : ∀ j, (inodes s.disk j).type = 0 := by
    intro j
    unfold inodes
    split
    · next hj =>
        have hbounds := iblock_bounds hj
        have hlt : mkfsSuper.iblock j < FSSIZE := hbounds.2.trans (by decide)
        rw [hzero _ hlt (by omega)]
        change ByteSeq.toSigned 2 ((Bytes.zero : Block).num 2 _) = 0
        rw [Bytes.num_zero]
        rfl
    · rfl
  have hown : ∀ p, (view s).own mkfsSuper p = 0 := fun p => if_neg fun hc => hc.2 (htype p.1)
  constructor
  case next => exact hfreeinode
  case few => decide
  case super =>
    rw [hsuper]
    decide +kernel
  case ledger =>
    refine ⟨⟨fun p q _ h0 => absurd (hown p) h0, ?_⟩, ?_⟩
    · intro b
      refine iff_of_false ?_ fun ⟨h0, p, hp⟩ => h0 (hp.symm.trans (hown p))
      rintro ⟨hmeta, -, hbit⟩
      have hlt : b < s.freeblock := of_decide_eq_true hbit
      rw [nmeta_eq] at hmeta
      omega
    · intro b hb
      rw [nmeta_eq] at hb
      exact decide_eq_true (hfreeblock ▸ hb)
  case filled =>
    intro j _ ht
    exact absurd (htype j) ht
  case inode => intro i hi; cases hi
  case table => intro i hi; cases hi
  case unused => exact fun j _ _ => htype j
  case bytes => intro i hi; cases hi
  case zero =>
    intro b hb hsize
    have hone : 1 < nmeta := by decide
    exact hzero b hsize (by omega)
  case count => exact hfreeblock

theorem bitSet_firstBits {used : Nat} (hused : used ≤ BPB) (j : Nat) :
    bitSet (firstBits used) j = decide (j < used) := by
  induction used with
  | zero =>
    unfold firstBits bitSet
    rw [Bytes.byte_zero]
    simp
  | succ used ih =>
    rw [firstBits, bitSet_markBit _ (by omega), ih (by omega)]
    rw [← Bool.decide_or]
    congr 1
    exact propext ⟨fun _ => by omega, fun _ => by omega⟩

/-- The size that the root directory gets in the end. -/
def rootSize (files : List Input) : Nat :=
  ((rootBytes (files.map Input.stripped)).length / BSIZE + 1) * BSIZE

/-- The number of blocks of the inodes on the finished image. -/
def blocksOf (files : List Input) (j : Nat) : Nat :=
  blocks ((contentsOf files).getD (j - 1) []).length

/-- What the image has in the end, seen as inodes, bitmap and data blocks. -/
structure Written (files : List Input) (disk : Nat → Block) (v : View) : Prop where
  shows : Shows mkfsSuper disk v
  ledger : Ledger mkfsSuper v
  filled : Filled mkfsSuper v (blocksOf files)
  root : (v.ino ROOTINO).fields = fileMeta 0 (rootSize files)
  file : ∀ i (hi : i < files.length),
    (v.ino (i + 2)).fields = fileMeta (i + 1) files[i].contents.length
  unused : ∀ j < NINODES, j = 0 ∨ files.length + 1 < j → (v.ino j).type = 0
  wf : ∀ j, (v.ino j).Wf
  bytes : ∀ i (hi : i < (contentsOf files).length) o (ho : o < (contentsOf files)[i].length),
    v.byteAt mkfsSuper (i + 1) o = (contentsOf files)[i][o]

/-- The end of `main`: the size of the root directory and the bitmap. -/
theorem Image.written {s : State} {files : List Input} (hfits : Fits files)
    (h : Image s (contentsOf files)) :
    Written files
      (set (withInode s ROOTINO ((inodes s.disk ROOTINO).setSize (rootSize files))).disk
        mkfsSuper.bmapstart (firstBits s.freeblock))
      (workView s ROOTINO ((inodes s.disk ROOTINO).setSize (rootSize files))) := by
  obtain ⟨din, hdin⟩ : ∃ din, din = (inodes s.disk ROOTINO).setSize (rootSize files) := ⟨_, rfl⟩
  rw [← hdin]
  have hrange : ROOTINO < NINODES := by decide
  have hlen : (contentsOf files).length = files.length + 1 := by simp [contentsOf]
  have hpos : 0 < (contentsOf files).length := by omega
  have hfew := hfits.few
  have hsize : rootSize files < 2 ^ 32 := by
    unfold rootSize
    rw [rootBytes_length, List.length_map]
    unfold NINODES at hfew
    unfold DIRENT BSIZE
    omega
  have hw : din.Wf := by
    rw [hdin]
    exact { inodes_wf s.disk ROOTINO with size := hsize }
  have hino := inodes_withInode (s := s) hrange hw
  have hown : (workView s ROOTINO din).own mkfsSuper = (view s).own mkfsSuper := by
    rw [hdin, workView_setSize_own, workView_eq]
  have hself : (workView s ROOTINO din).ino ROOTINO = din := workView_ino ..
  have hother : ∀ j, j ≠ ROOTINO → (workView s ROOTINO din).ino j = inodes s.disk j :=
    fun j hj => set_of_ne _ _ hj
  have htype : ∀ j, ((workView s ROOTINO din).ino j).type = (inodes s.disk j).type := by
    intro j
    by_cases hj : j = ROOTINO
    · rw [hj, hself, hdin]
      rfl
    · rw [hother j hj]
  constructor
  case shows =>
    have hroom := hfits.room
    constructor
    · rw [set_of_ne _ _ (by decide), super_withInode hrange]
      exact h.super
    · intro j hj
      rw [set_of_ne _ _ (mkfs_layout.inodes j hj).ne]
      have hread := congrFun hino j
      rw [inodes_of_lt _ hj] at hread
      exact hread
    · intro b hb
      change b < 1000 at hb
      have hblock : mkfsSuper.bblock b = mkfsSuper.bmapstart := by
        unfold Superblock.bblock BPB BSIZE
        omega
      have hmod : b % BPB = b := Nat.mod_eq_of_lt (hb.trans (by decide))
      have hused : s.freeblock ≤ BPB := by
        rw [h.count]
        exact hroom.trans (by decide)
      rw [hblock, set_self, hmod, bitSet_firstBits hused]
      rfl
    · intro b hb hlt
      rw [nmeta_eq] at hb
      have hne : b ≠ mkfsSuper.bmapstart := by
        have : mkfsSuper.bmapstart < nmeta := by decide
        omega
      rw [set_of_ne _ _ hne, disk_withInode_of_ge hrange hb, workView_blk s _ _ hb]
  case ledger =>
    refine ⟨?_, h.ledger.reserved⟩
    rw [hown]
    exact h.ledger.owns
  case filled =>
    intro j hj ht hdev k
    rw [htype] at ht hdev
    unfold View.blockAt
    rw [hown]
    have hfilled := h.filled j hj ht hdev k
    obtain ⟨i, rfl⟩ : ∃ i, j = i + 1 := by
      refine Nat.exists_eq_succ_of_ne_zero fun h0 => ht ?_
      exact h.unused j hj (Or.inl h0)
    have hi : i < (contentsOf files).length := by
      by_contra hout
      exact ht (h.unused (i + 1) hj (Or.inr (by omega)))
    dsimp only at hfilled
    rw [h.size hi] at hfilled
    unfold blocksOf
    rw [Nat.add_sub_cancel, List.getD_eq_getElem _ _ hi]
    exact hfilled
  case root =>
    rw [hself, hdin]
    have hfields : (inodes s.disk ROOTINO).fields = _ := h.inode 0 hpos
    change { (inodes s.disk ROOTINO).fields with size := rootSize files } = _
    rw [hfields]
    rfl
  case file =>
    intro i hi
    rw [hother _ (by unfold ROOTINO; omega), h.inode (i + 1) (by omega)]
    simp [contentsOf]
  case unused =>
    intro j hj hout
    rw [htype]
    exact h.unused j hj (by omega)
  case wf =>
    intro j
    by_cases hj : j = ROOTINO
    · rw [hj, hself]
      exact hw
    · rw [hother j hj]
      exact inodes_wf _ _
  case bytes =>
    intro i hi o ho
    rw [byteAt_congr hown rfl]
    exact h.bytes i hi o ho

section

variable {files : List Input} (hfits : Fits files) (hslash : ∀ f ∈ files, slash ∉ f.name)
  (disk : Nat → Block)
include hfits hslash

theorem main_spec :
    wp (main files) (fun _ s => ∃ v, Written files s.disk v) (fun _ _ => False) (start disk) := by
  have hfew := hfits.few
  have hentry : ∀ x : List UInt8, x.length ≤ (rootBytes (files.map Input.stripped)).length →
      nmeta + total [x] ≤ FSSIZE := by
    intro x hx
    have hwithin : Within [x] (contentsOf files) := by
      intro i hi
      obtain rfl : i = 0 := by simpa using hi
      exact ⟨by simp [contentsOf], hx⟩
    exact (Nat.add_le_add_left hwithin.total_le _).trans hfits.room
  rw [rootBytes_length, List.length_map] at hentry
  unfold main wsect
  simp only [wp_bind, wp_modify, wp_panicIf]
  refine wp_times FSSIZE (fun k s => s.freeinode = 1 ∧ s.freeblock = nmeta ∧
    ∀ b < k, s.disk b = Bytes.zero) ⟨rfl, rfl, fun b hb => absurd hb (Nat.not_lt_zero b)⟩ ?_ ?_
  · rintro k s - ⟨hfreeinode, hfreeblock, hzero⟩
    refine ⟨hfreeinode, hfreeblock, fun b hb => ?_⟩
    by_cases hbk : b = k
    · subst hbk
      exact set_self _ _ _
    · exact (set_of_ne _ _ hbk).trans (hzero b (by omega))
  · rintro s ⟨hfreeinode, hfreeblock, hzero⟩
    have h₀ : Image { s with disk := set s.disk 1 (putSuper mkfsSuper) } [] :=
      image_nil hfreeinode hfreeblock (set_self s.disk 1 _)
        fun b hb hne => (set_of_ne _ _ hne).trans (hzero b hb)
    refine wp_mono (h₀.ialloc_spec (by decide) rfl) ?_ fun _ _ hf => hf
    rintro _ s₁ ⟨rfl, h₁⟩
    refine ⟨fun hc => absurd rfl hc, fun _ => ?_⟩
    have hdot : Image s₁ [[]] := h₁
    refine wp_mono (hdot.iappend_spec (i := 0) (n := DIRENT) (Nat.succ_pos _) (by decide)
      (hentry _ (Nat.le_mul_of_pos_right _ (by omega)))) ?_ fun _ _ hf => hf
    intro _ s₂ h₂
    have hdotdot : Image s₂ [entryBytes ROOTINO dot] := h₂
    refine wp_mono (hdotdot.iappend_spec (i := 0) (n := DIRENT) (Nat.succ_pos _) (by decide)
      (hentry _ ?_)) ?_ fun _ _ hf => hf
    · change DIRENT + DIRENT ≤ _
      unfold DIRENT
      omega
    · intro _ s₃ h₃
      have hroot : Image s₃ (contentsOf []) := h₃
      refine wp_forEach files (fun rest s' => ∃ done, done ++ rest = files ∧
        Image s' (contentsOf done))
        ⟨[], rfl, hroot⟩ ?_ ?_
      · rintro f rest s' ⟨done, hsplit, himage⟩
        have hmem : f ∈ files := by
          rw [← hsplit]
          simp
        refine wp_mono (himage.addFile_spec hfits hsplit (hslash f hmem)) ?_ fun _ _ hf => hf
        intro _ s'' himage'
        exact ⟨done ++ [f], by rw [List.append_assoc]; exact hsplit, himage'⟩
      · rintro s' ⟨done, hsplit, himage⟩
        rw [List.append_nil] at hsplit
        subst hsplit
        refine wp_rinode (by decide) ?_
        refine wp_winode ?_
        have hsize : (inodes s'.disk ROOTINO).size = (rootBytes (done.map Input.stripped)).length :=
          himage.size (Nat.succ_pos _)
        have hroom := hfits.room
        unfold balloc wsect
        simp only [wp_gets, wp_bind, wp_panicIf, wp_modify]
        refine ⟨fun hc => ?_, fun _ => ?_⟩
        · change BSIZE * 8 ≤ s'.freeblock at hc
          rw [himage.count] at hc
          exact absurd (hc.trans hroom) (by decide)
        · have hwritten := himage.written hfits
          unfold rootSize at hwritten
          rw [← hsize] at hwritten
          exact ⟨_, hwritten⟩

theorem main_writes : ∃ s v, main files (start disk) = (.ok (), s) ∧ Written files s.disk v := by
  have hmain := main_spec hfits hslash disk
  unfold wp at hmain
  split at hmain
  · next s hrun =>
      obtain ⟨v, hv⟩ := hmain
      exact ⟨s, v, hrun, hv⟩
  · exact hmain.elim

end

/-! ### Consistency -/

/-- The bitmap marks exactly the metadata blocks and the blocks that inodes
refer to, no block is referred to twice, and every inode has a block for each
index below its size. -/
structure Consistent (disk : Nat → Block) : Prop where
  ledger : Ledger (getSuper (disk 1)) (viewOf (getSuper (disk 1)) disk)
  filled : ∀ i < (getSuper (disk 1)).ninodes, ((viewOf (getSuper (disk 1)) disk).ino i).type ≠ 0 →
    ∀ k < blocks ((viewOf (getSuper (disk 1)) disk).ino i).size,
      (viewOf (getSuper (disk 1)) disk).blockAt (getSuper (disk 1)) i k ≠ 0

section

variable {sb : Superblock} {disk : Nat → Block} {v : View} (h : Shows sb disk v)
  (hledger : Ledger sb v)
include h hledger

theorem own_viewOf : (viewOf sb disk).own sb = v.own sb := by
  funext ⟨j, q⟩
  unfold View.own
  dsimp only
  by_cases hj : j < sb.ninodes
  · have hino : (viewOf sb disk).ino j = v.ino j := h.ino j hj
    rw [hino]
    split
    · next halloc =>
        refine Dinode.ref_congr (fun _ => rfl) (fun _ => rfl) fun _ h0 _ => ?_
        have hown : v.own sb (j, NDIRECT) = (v.ino j).addr NDIRECT := by
          rw [View.own_of_alloc hj halloc.2, Dinode.ref_addr _ _ (Nat.le_refl _)]
        obtain ⟨hmeta, hsize, -⟩ := hledger.used (p := (j, NDIRECT)) (by rwa [hown])
        rw [hown] at hmeta hsize
        rw [← h.blk _ hmeta hsize]
        rfl
    · rfl
  · rw [if_neg (fun hc => hj hc.1), if_neg (fun hc => hj hc.1)]

theorem ledger_viewOf : Ledger sb (viewOf sb disk) where
  owns := by
    rw [own_viewOf h hledger]
    refine hledger.owns.congr_used fun b => ?_
    refine and_congr_right fun _ => and_congr_right fun hb => ?_
    rw [← h.bit b hb]
    rfl
  reserved := by
    intro b hb
    have hlt : b < sb.size := by
      unfold Superblock.nmeta at hb
      omega
    exact (h.bit b hlt).trans (hledger.reserved b hb)

end

section Consistent

variable {files : List Input} {disk : Nat → Block} {v : View}

/-- The inodes are those of the files, and the root directory. -/
theorem Written.cases (h : Written files disk v) {j : Nat} (hj : j < NINODES)
    (ht : (v.ino j).type ≠ 0) : j = ROOTINO ∨ ∃ i, ∃ _ : i < files.length, j = i + 2 := by
  by_cases hroot : j = ROOTINO
  · exact Or.inl hroot
  · refine Or.inr ⟨j - 2, ?_, ?_⟩
    all_goals
      unfold ROOTINO at hroot
      have hused : ¬ (j = 0 ∨ files.length + 1 < j) := fun hout => ht (h.unused j hj hout)
      omega

theorem Written.consistent_iff (h : Written files disk v) :
    Consistent disk ↔ blocks (rootSize files) ≤
      blocks (rootBytes (files.map Input.stripped)).length := by
  have hsuper := h.shows.super
  have hino : ∀ j < NINODES, (viewOf mkfsSuper disk).ino j = v.ino j := h.shows.ino
  have hat : ∀ j k, (viewOf mkfsSuper disk).blockAt mkfsSuper j k = v.blockAt mkfsSuper j k :=
    fun j k => congrFun (own_viewOf h.shows h.ledger) _
  have hroot : (v.ino ROOTINO).size = rootSize files := congrArg Meta.size h.root
  have hdir : (v.ino ROOTINO).type = T_DIR := congrArg Meta.type h.root
  have hfilled := h.filled ROOTINO (by decide) (by rw [hdir]; decide) (by rw [hdir]; decide)
  have hblocks : blocksOf files ROOTINO =
      blocks (rootBytes (files.map Input.stripped)).length := rfl
  rw [hblocks] at hfilled
  constructor
  · intro hc
    have hall := hc.filled
    rw [hsuper] at hall
    by_contra hlt
    have hk := hall ROOTINO (by decide) (by rw [hino _ (by decide), hdir]; decide)
      (blocks (rootBytes (files.map Input.stripped)).length)
      (by rw [hino _ (by decide), hroot]; omega)
    rw [hat] at hk
    exact absurd ((hfilled _).mp hk) (Nat.lt_irrefl _)
  · intro hle
    constructor
    · rw [hsuper]
      exact ledger_viewOf h.shows h.ledger
    · rw [hsuper]
      intro j hj ht k hk
      rw [hino j hj] at ht hk
      rw [hat]
      rcases h.cases hj ht with rfl | ⟨i, hi, rfl⟩
      · rw [hroot] at hk
        exact (hfilled k).mpr (by omega)
      · have hfields := h.file i hi
        have htype : (v.ino (i + 2)).type = T_FILE := congrArg Meta.type hfields
        have hsize : (v.ino (i + 2)).size = files[i].contents.length := congrArg Meta.size hfields
        refine (h.filled (i + 2) hj (by rw [htype]; decide) (by rw [htype]; decide) k).mpr ?_
        have hget : (contentsOf files).getD (i + 2 - 1) [] = files[i].contents := by
          simp [contentsOf, hi]
        unfold blocksOf
        rw [hget, ← hsize]
        exact hk

theorem rootSize_le_iff (files : List Input) :
    blocks (rootSize files) ≤ blocks (rootBytes (files.map Input.stripped)).length ↔
      (files.length + 2) % 32 ≠ 0 := by
  unfold rootSize
  rw [rootBytes_length, List.length_map]
  unfold blocks BSIZE DIRENT
  omega

end Consistent

theorem mkfs_consistent_iff {files : List Input} (hfits : Fits files)
    (hslash : ∀ f ∈ files, slash ∉ f.name) (disk : Nat → Block) :
    ∃ s, main files (start disk) = (.ok (), s) ∧
      (Consistent s.disk ↔ (files.length + 2) % 32 ≠ 0) := by
  obtain ⟨s, v, hrun, hv⟩ := main_writes hfits hslash disk
  exact ⟨s, hrun, hv.consistent_iff.trans (rootSize_le_iff files)⟩

/-- A file of one byte. -/
def smallFile : Input where
  name := [95, 97]
  pieces := [[1]]
  name_ok := by decide
  pieces_ok := by decide

theorem mkfs_consistent_oneFile :
    ∃ s, main [smallFile] (start fun _ => Bytes.zero) = (.ok (), s) ∧ Consistent s.disk := by
  have hfits : Fits [smallFile] := ⟨by decide, by decide, by decide⟩
  obtain ⟨s, hrun, hiff⟩ := mkfs_consistent_iff hfits (by decide) fun _ => Bytes.zero
  exact ⟨s, hrun, hiff.mpr (by decide)⟩

/-- With thirty files the entries of the root directory fill its first block,
and the size says two. -/
theorem mkfs_thirtyFiles_not_consistent :
    ∃ s, Fits (List.replicate 30 smallFile) ∧
      main (List.replicate 30 smallFile) (start fun _ => Bytes.zero) = (.ok (), s) ∧
      ¬ Consistent s.disk := by
  have hfits : Fits (List.replicate 30 smallFile) := ⟨by decide, by decide +kernel, by decide⟩
  obtain ⟨s, v, hrun, hv⟩ := main_writes hfits (by decide) fun _ => Bytes.zero
  refine ⟨s, hfits, hrun, fun hc => ?_⟩
  exact absurd ((rootSize_le_iff _).mp (hv.consistent_iff.mp hc)) (by decide)

end Xv6.Mkfs
