import Xv6.Mkfs.Append

/-!
The image after each step of `mkfs`: the inodes from 1 on have the contents of
a list of byte strings, the first of which is the root directory.
-/

namespace Xv6.Mkfs

open Prog Fs

def bytesOf (p : Nat → UInt8) (n : Nat) : List UInt8 := (List.range n).map p

@[simp] theorem bytesOf_length (p : Nat → UInt8) (n : Nat) : (bytesOf p n).length = n := by
  simp [bytesOf]

@[simp] theorem bytesOf_getElem (p : Nat → UInt8) {n o : Nat} (ho : o < (bytesOf p n).length) :
    (bytesOf p n)[o] = p o := by
  simp [bytesOf]

theorem bytesOf_cbyte (piece : List UInt8) : bytesOf (cbyte piece) piece.length = piece := by
  refine List.ext_getElem (by simp) fun o ho ho' => ?_
  rw [bytesOf_getElem]
  simp [cbyte, ho']

/-- The blocks that files with these contents take. -/
def total (files : List (List UInt8)) : Nat := (files.map fun f => need (blocks f.length)).sum

theorem total_set {files : List (List UInt8)} {i : Nat} (hi : i < files.length) (f : List UInt8) :
    total (files.set i f) + need (blocks files[i].length) =
      total files + need (blocks f.length) := by
  induction files generalizing i with
  | nil => cases hi
  | cons g files ih =>
    cases i with
    | zero =>
      simp only [total, List.set_cons_zero, List.map_cons, List.sum_cons, List.getElem_cons_zero]
      omega
    | succ i =>
      have hrest := ih (i := i) (by simpa using hi)
      simp only [total, List.set_cons_succ, List.map_cons, List.sum_cons,
        List.getElem_cons_succ] at hrest ⊢
      omega

theorem total_concat (files : List (List UInt8)) (f : List UInt8) :
    total (files ++ [f]) = total files + need (blocks f.length) := by
  simp [total]

/-- Every file is at most as long as the one at the same place of the other
list, which may have more files. -/
def Within (files all : List (List UInt8)) : Prop :=
  ∀ i (hi : i < files.length), ∃ ha : i < all.length, files[i].length ≤ all[i].length

theorem Within.total_le {files all : List (List UInt8)} (h : Within files all) :
    total files ≤ total all := by
  induction files generalizing all with
  | nil => exact Nat.zero_le _
  | cons f files ih =>
    obtain ⟨ha, hle⟩ := h 0 (by simp)
    cases all with
    | nil => simp at ha
    | cons g all =>
      have hrest : Within files all := by
        intro i hi
        obtain ⟨ha', hle'⟩ := h (i + 1) (by simpa using hi)
        exact ⟨by simpa using ha', by simpa using hle'⟩
      have hfirst := need_mono (blocks_mono (by simpa using hle : f.length ≤ g.length))
      have := ih hrest
      simp only [total, List.map_cons, List.sum_cons] at this ⊢
      omega

/-- The fields of the inode of the file at place `i`. -/
def fileMeta (i len : Nat) : Meta := ⟨if i = 0 then T_DIR else T_FILE, 0, 0, 1, len⟩

structure Image (s : State) (files : List (List UInt8)) : Prop where
  next : s.freeinode = files.length + 1
  few : files.length < NINODES
  super : getSuper (s.disk 1) = mkfsSuper
  ledger : Ledger mkfsSuper (view s)
  filled : Filled mkfsSuper (view s) (fun j => blocks (inodes s.disk j).size)
  inode : ∀ i (hi : i < files.length), (inodes s.disk (i + 1)).fields = fileMeta i files[i].length
  table : ∀ i (hi : i < files.length),
    (inodes s.disk (i + 1)).addr NDIRECT ≠ 0 ↔ NDIRECT < blocks files[i].length
  unused : ∀ j < NINODES, j = 0 ∨ files.length < j → (inodes s.disk j).type = 0
  bytes : ∀ i (hi : i < files.length) o (ho : o < files[i].length),
    (view s).byteAt mkfsSuper (i + 1) o = files[i][o]
  zero : ∀ b, s.freeblock ≤ b → b < FSSIZE → s.disk b = Bytes.zero
  count : s.freeblock = nmeta + total files

/-! ### Reading and writing inodes -/

theorem inodes_of_lt (disk : Nat → Block) {j : Nat} (hj : j < NINODES) :
    inodes disk j = getDinode (disk (mkfsSuper.iblock j)) (j % IPB) := if_pos hj

theorem wp_rinode {s : State} {inum : Nat} {Q : Dinode → State → Prop} (hi : inum < NINODES)
    {E : Abort → State → Prop} (hQ : Q (inodes s.disk inum) s) : wp (rinode inum) Q E s := by
  rw [inodes_of_lt _ hi] at hQ
  exact hQ

/-- The disk after `winode`. -/
def withInode (s : State) (inum : Nat) (din : Dinode) : State :=
  { s with
    disk := set s.disk (mkfsSuper.iblock inum)
      (putDinode (s.disk (mkfsSuper.iblock inum)) (inum % IPB) din) }

theorem wp_winode {s : State} {inum : Nat} {din : Dinode} {Q : Unit → State → Prop}
    {E : Abort → State → Prop} (hQ : Q () (withInode s inum din)) : wp (winode inum din) Q E s := hQ

section WithInode

variable {s : State} {inum : Nat} {din : Dinode} (hi : inum < NINODES)

include hi

theorem iblock_bounds : 1 < mkfsSuper.iblock inum ∧ mkfsSuper.iblock inum < nmeta :=
  ⟨mkfs_layout.one_lt_iblock inum,
    (mkfs_layout.inodes inum hi).trans (nmeta_eq ▸ mkfs_layout.region)⟩

theorem inodes_withInode (hw : din.Wf) :
    inodes (withInode s inum din).disk = set (inodes s.disk) inum din := by
  funext j
  unfold inodes withInode
  dsimp only
  by_cases hj : j = inum
  · subst hj
    rw [if_pos hi, set_self, set_self, getDinode_putDinode_self _ (Nat.mod_lt _ (by decide)) hw]
  · rw [set_of_ne _ _ hj]
    by_cases hlt : j < NINODES
    · rw [if_pos hlt, if_pos hlt]
      by_cases hblock : mkfsSuper.iblock j = mkfsSuper.iblock inum
      · rw [hblock, set_self, getDinode_putDinode_of_ne]
        unfold Superblock.iblock IPB at *
        omega
      · rw [set_of_ne _ _ hblock]
    · rw [if_neg hlt, if_neg hlt]

theorem disk_withInode_of_ge {b : Nat} (hb : nmeta ≤ b) :
    (withInode s inum din).disk b = s.disk b := by
  have := (iblock_bounds hi).2
  exact set_of_ne _ _ (by omega)

theorem super_withInode : (withInode s inum din).disk 1 = s.disk 1 := by
  have hne : 1 ≠ mkfsSuper.iblock inum := (iblock_bounds hi).1.ne
  unfold withInode
  dsimp only
  rw [set_of_ne _ _ hne]

theorem view_withInode (hw : din.Wf) : view (withInode s inum din) = workView s inum din := by
  have hblk : dataBlocks (withInode s inum din).disk = dataBlocks s.disk := by
    funext b
    unfold dataBlocks
    split
    · rfl
    · next hb => exact disk_withInode_of_ge hi (Nat.not_lt.mp hb)
  unfold view workView View.setIno
  rw [inodes_withInode hi hw, hblk]
  rfl

end WithInode

/-- The size plays no part in who owns which block. -/
theorem workView_setSize_own (s : State) (i z : Nat) (din : Dinode) :
    (workView s i (din.setSize z)).own mkfsSuper = (workView s i din).own mkfsSuper := by
  have htype : ∀ j, ((workView s i (din.setSize z)).ino j).type =
      ((workView s i din).ino j).type := by
    intro j
    by_cases hj : j = i
    · subst hj
      rw [workView_ino, workView_ino]
      rfl
    · unfold workView View.setIno
      simp only [set_of_ne _ _ hj]
  have haddr : ∀ j q, ((workView s i (din.setSize z)).ino j).addr q =
      ((workView s i din).ino j).addr q := by
    intro j q
    by_cases hj : j = i
    · subst hj
      rw [workView_ino, workView_ino, Dinode.addr_setSize]
    · unfold workView View.setIno
      simp only [set_of_ne _ _ hj]
  funext t
  obtain ⟨j, q⟩ := t
  unfold View.own
  dsimp only
  rw [htype]
  split
  · exact Dinode.ref_congr (fun _ => haddr j q) (fun _ => haddr j NDIRECT) (fun _ _ _ => rfl)
  · rfl

theorem byteAt_congr {v v' : View} (hown : v'.own mkfsSuper = v.own mkfsSuper)
    (hblk : v'.blk = v.blk) :
    v'.byteAt mkfsSuper = v.byteAt mkfsSuper := by
  unfold View.byteAt View.blockAt
  rw [hown, hblk]

theorem inodes_wf (disk : Nat → Block) (j : Nat) : (inodes disk j).Wf := by
  unfold inodes
  split
  · exact getDinode_wf _ _
  · exact ⟨rfl, rfl, rfl, rfl, Nat.two_pow_pos 32, fun _ => Nat.two_pow_pos 32⟩

/-! ### `iappend` -/

namespace Image

variable {s : State} {files : List (List UInt8)} {i n : Nat} {p : Nat → UInt8}

theorem type_ne (h : Image s files) (hi : i < files.length) : (inodes s.disk (i + 1)).type ≠ 0 ∧
    (inodes s.disk (i + 1)).type ≠ T_DEV := by
  have htype : (inodes s.disk (i + 1)).type = if i = 0 then T_DIR else T_FILE :=
    congrArg Meta.type (h.inode i hi)
  rw [htype]
  split <;> decide

theorem size (h : Image s files) (hi : i < files.length) :
    (inodes s.disk (i + 1)).size = files[i].length :=
  congrArg Meta.size (h.inode i hi)

theorem workView_eq (s : State) (i : Nat) : workView s i (inodes s.disk i) = view s :=
  View.setIno_eta ..

theorem range (h : Image s files) (hi : i < files.length) : i + 1 < NINODES := by
  have := h.few
  omega

theorem need_le (hi : i < files.length) : need (blocks files[i].length) ≤ total files := by
  have hset := total_set hi []
  have hnone : need (blocks ([] : List UInt8).length) = 0 := by decide
  omega

section

variable (h : Image s files) (hi : i < files.length)
include h hi

theorem work :
    Work s (i + 1) (inodes s.disk (i + 1)) (fun j => blocks (inodes s.disk j).size)
      (nmeta + total files - need (blocks files[i].length)) := by
  have hle := need_le hi
  refine ⟨h.range hi, ?_, h.zero, by rw [h.count]; omega, ?_⟩
  · rw [workView_eq]
    exact ⟨h.ledger, h.filled, (h.type_ne hi).1, (h.type_ne hi).2, inodes_wf _ _⟩
  · have htable := h.table i hi
    rw [h.count, h.size hi]
    unfold need at hle ⊢
    by_cases h0 : (inodes s.disk (i + 1)).addr NDIRECT = 0
    · rw [if_neg (fun hlt => htable.mpr hlt h0)] at hle ⊢
      rw [if_pos h0]
      omega
    · rw [if_pos (htable.mp h0)] at hle ⊢
      rw [if_neg h0]
      omega

/-- The inode of a file that has grown goes to the disk. -/
theorem appended {din : Dinode} {s' : State}
    (happ : Appended s (i + 1) (inodes s.disk (i + 1)) (fun j => blocks (inodes s.disk j).size)
      (nmeta + total files - need (blocks files[i].length)) p files[i].length n din s')
    (hmax : blocks (files[i].length + n) ≤ MAXFILE) :
    Image (withInode s' (i + 1) (din.setSize (files[i].length + n)))
      (files.set i (files[i] ++ bytesOf p n)) := by
  obtain ⟨len, hlen⟩ : ∃ len, len = files[i].length := ⟨_, rfl⟩
  rw [← hlen] at happ hmax ⊢
  have hrange := h.range hi
  have hwork := happ.work
  have hregular := hwork.growing.regular
  rw [workView_ino] at hregular
  have hw : (din.setSize (len + n)).Wf := by
    have hsize : len + n < 2 ^ 32 := by
      unfold blocks MAXFILE NDIRECT NINDIRECT BSIZE at hmax
      omega
    exact { hregular.wf with size := hsize }
  have hview := view_withInode (s := s') hrange hw
  have hown := workView_setSize_own s' (i + 1) (len + n) din
  have hino : inodes (withInode s' (i + 1) (din.setSize (len + n))).disk =
      set (inodes s.disk) (i + 1) (din.setSize (len + n)) := by
    rw [inodes_withInode hrange hw, inodes_congr happ.low]
  have hlist : ∀ {k : Nat}, k < (files.set i (files[i] ++ bytesOf p n)).length → k < files.length :=
    fun hk => by rwa [List.length_set] at hk
  have hg : Growing mkfsSuper (i + 1) _ (workView s' (i + 1) (din.setSize (len + n))) :=
    hwork.growing.congr hown rfl
      (fun j => by
        by_cases hj : j = i + 1
        · subst hj
          rw [workView_ino, workView_ino]
          rfl
        · exact congrArg Dinode.type ((set_of_ne _ _ hj).trans (set_of_ne _ _ hj).symm))
      (by rw [workView_ino]; exact ⟨hregular.alloc, hregular.notDev, hw⟩)
  have hnb : (fun j => blocks (set (inodes s.disk) (i + 1) (din.setSize (len + n)) j).size) =
      set (fun j => blocks (inodes s.disk j).size) (i + 1) (blocks (len + n)) := by
    funext j
    by_cases hj : j = i + 1
    · subst hj
      rw [set_self, set_self]
      rfl
    · rw [set_of_ne _ _ hj, set_of_ne _ _ hj]
  have hcount := hwork.count_need (by rw [set_self]; exact happ.tight)
  rw [set_self] at hcount
  have hgrown : (files[i] ++ bytesOf p n).length = len + n := by
    rw [List.length_append, bytesOf_length, hlen]
  constructor
  case next =>
    rw [List.length_set]
    exact happ.freeinode.trans h.next
  case few =>
    rw [List.length_set]
    exact h.few
  case super =>
    rw [super_withInode hrange, happ.low 1 (by decide)]
    exact h.super
  case ledger =>
    rw [hview]
    exact hg.ledger
  case filled =>
    rw [hview, hino, hnb]
    exact hg.filled
  case inode =>
    intro k hk
    rw [hino]
    by_cases hki : k = i
    · subst hki
      rw [set_self, List.getElem_set_self, hgrown]
      have hfields : din.fields = fileMeta k files[k].length := happ.fields.trans (h.inode k hi)
      change { din.fields with size := len + n } = _
      rw [hfields]
      rfl
    · rw [set_of_ne _ _ (by omega), List.getElem_set_ne (Ne.symm hki)]
      exact h.inode k (hlist hk)
  case table =>
    intro k hk
    rw [hino]
    by_cases hki : k = i
    · subst hki
      rw [set_self, List.getElem_set_self, hgrown, Dinode.addr_setSize]
      refine ⟨happ.tight, fun hlt => hwork.addr_of_lt ?_⟩
      rwa [set_self]
    · rw [set_of_ne _ _ (by omega), List.getElem_set_ne (Ne.symm hki)]
      exact h.table k (hlist hk)
  case unused =>
    intro j hj hout
    rw [List.length_set] at hout
    rw [hino, set_of_ne _ _ (by omega)]
    exact h.unused j hj hout
  case bytes =>
    intro k hk o ho
    rw [hview, byteAt_congr hown rfl, happ.bytes, workView_eq]
    by_cases hki : k = i
    · subst hki
      simp only [List.getElem_set_self, hgrown] at ho ⊢
      by_cases hin : len ≤ o
      · rw [if_pos ⟨trivial, hin, ho⟩, List.getElem_append_right (hlen ▸ hin),
          bytesOf_getElem, hlen]
      · rw [if_neg (fun hc => hin hc.2.1), List.getElem_append_left (by omega)]
        exact h.bytes k hi o (by omega)
    · simp only [List.getElem_set_ne (Ne.symm hki)] at ho ⊢
      rw [if_neg (fun hc => hki (by omega))]
      exact h.bytes k (hlist hk) o ho
  case zero =>
    intro b hb hsize
    have hstart := hwork.start
    change s'.freeblock ≤ b at hb
    rw [disk_withInode_of_ge hrange (by omega)]
    exact hwork.zero b hb hsize
  case count =>
    change s'.freeblock = _
    have hle := need_le hi
    have hset := total_set hi (files[i] ++ bytesOf p n)
    rw [hgrown] at hset
    rw [hcount]
    rw [← hlen] at hle hset
    omega

theorem iappend_spec (hmax : blocks (files[i].length + n) ≤ MAXFILE)
    (hfit : nmeta + total (files.set i (files[i] ++ bytesOf p n)) ≤ FSSIZE) :
    wp (iappend (i + 1) p n) (fun _ s' => Image s' (files.set i (files[i] ++ bytesOf p n)))
      (fun _ _ => False) s := by
  have hset := total_set hi (files[i] ++ bytesOf p n)
  rw [List.length_append, bytesOf_length] at hset
  have hle := need_le hi
  have htight : Tight (inodes s.disk (i + 1)) (blocks (inodes s.disk (i + 1)).size) := by
    rw [h.size hi]
    exact (h.table i hi).mp
  unfold iappend
  rw [wp_bind]
  apply wp_rinode (h.range hi)
  refine wp_seq (iappendLoop_spec (h.work hi) htight rfl (Nat.le_refl n)
    (by rwa [h.size hi]) (by rw [h.size hi]; omega)) ?_
  rintro _ s' ⟨din, rfl, happ⟩
  apply wp_winode
  rw [h.size hi] at happ ⊢
  exact h.appended hi happ hmax

end

/-! ### `ialloc` -/

/-- A new inode owns nothing. -/
theorem own_newInode (h : Image s files) (hlt : files.length + 1 < NINODES) (type : Int) :
    (workView s (files.length + 1) (newInode type)).own mkfsSuper = (view s).own mkfsSuper := by
  have hfree : (inodes s.disk (files.length + 1)).type = 0 := h.unused _ hlt (Or.inr (by omega))
  funext ⟨j, q⟩
  by_cases hj : j = files.length + 1
  · subst hj
    have hold : (view s).own mkfsSuper (files.length + 1, q) = 0 :=
      if_neg fun hc => hc.2 hfree
    have hnone : ∀ q, (newInode type).addr q = 0 := by
      intro q
      unfold Dinode.addr
      split <;> rfl
    rw [hold]
    unfold View.own
    split
    · rw [workView_ino]
      by_cases hq : q ≤ NDIRECT
      · rw [Dinode.ref_addr _ _ hq, hnone]
      · exact Dinode.ref_eq_zero (by omega) fun h0 => absurd (hnone NDIRECT) h0
    · rfl
  · have hino : (workView s (files.length + 1) (newInode type)).ino j = (view s).ino j :=
      set_of_ne _ _ hj
    unfold View.own
    rw [hino]
    rfl

section

variable {type : Int} (h : Image s files) (hlt : files.length + 1 < NINODES)
  (htype : type = if files.length = 0 then T_DIR else T_FILE)
include h hlt htype

theorem newFile :
    Image (withInode { s with freeinode := files.length + 1 + 1 } (files.length + 1)
      (newInode type))
      (files ++ [[]]) := by
  have hshort : short type = type := by
    rw [htype]
    split <;> decide
  have hw : (newInode type).Wf :=
    ⟨hshort, rfl, rfl, rfl, Nat.two_pow_pos 32, fun _ => Nat.two_pow_pos 32⟩
  obtain ⟨s₁, hs₁⟩ : ∃ s₁ : State, s₁ = { s with freeinode := files.length + 1 + 1 } := ⟨_, rfl⟩
  have hdisk : s₁.disk = s.disk := by rw [hs₁]
  have hview₁ : ∀ j din, workView s₁ j din = workView s j din := by
    intro j din
    rw [hs₁]
    rfl
  rw [← hs₁]
  have hview := view_withInode (s := s₁) hlt hw
  rw [hview₁] at hview
  have hino := inodes_withInode (s := s₁) hlt hw
  rw [hdisk] at hino
  have hown := h.own_newInode hlt type
  have hold {k : Nat} (hk : k < (files ++ [[]]).length) (hne : k ≠ files.length) :
      k < files.length := by
    rw [List.length_append, List.length_singleton] at hk
    omega
  constructor
  case next =>
    rw [List.length_append, List.length_singleton]
    change s₁.freeinode = _
    rw [hs₁]
  case few =>
    rw [List.length_append, List.length_singleton]
    exact hlt
  case super =>
    rw [super_withInode hlt, hdisk]
    exact h.super
  case ledger =>
    rw [hview]
    refine ⟨?_, h.ledger.reserved⟩
    rw [hown]
    exact h.ledger.owns
  case filled =>
    rw [hview, hino]
    intro j hj ht hdev k
    unfold View.blockAt
    rw [hown]
    dsimp only
    by_cases hnew : j = files.length + 1
    · subst hnew
      have hfree : (inodes s.disk (files.length + 1)).type = 0 := h.unused _ hlt (Or.inr (by omega))
      have hnone : (view s).own mkfsSuper (files.length + 1, View.position k) = 0 :=
        if_neg fun hc => hc.2 hfree
      have hzero : blocks (newInode type).size = 0 := by
        change blocks 0 = 0
        decide
      rw [set_self, hnone, hzero]
      exact iff_of_false (fun hc => hc rfl) (Nat.not_lt_zero k)
    · have hsame : (workView s (files.length + 1) (newInode type)).ino j = inodes s.disk j :=
        set_of_ne _ _ hnew
      rw [hsame] at ht hdev
      rw [set_of_ne _ _ hnew]
      exact h.filled j hj ht hdev k
  case inode =>
    intro k hk
    rw [hino]
    by_cases hnew : k = files.length
    · subst hnew
      rw [set_self, List.getElem_concat_length rfl]
      unfold fileMeta
      rw [← htype]
      rfl
    · rw [set_of_ne _ _ (by omega), List.getElem_append_left (hold hk hnew)]
      exact h.inode k (hold hk hnew)
  case table =>
    intro k hk
    rw [hino]
    by_cases hnew : k = files.length
    · subst hnew
      rw [set_self, List.getElem_concat_length rfl]
      exact iff_of_false (fun hc => hc rfl) (by decide)
    · rw [set_of_ne _ _ (by omega), List.getElem_append_left (hold hk hnew)]
      exact h.table k (hold hk hnew)
  case unused =>
    intro j hj hout
    rw [List.length_append, List.length_singleton] at hout
    rw [hino, set_of_ne _ _ (by omega)]
    exact h.unused j hj (by omega)
  case bytes =>
    intro k hk o ho
    rw [hview, byteAt_congr hown rfl]
    by_cases hnew : k = files.length
    · subst hnew
      simp only [List.getElem_concat_length, List.length_nil] at ho
      omega
    · simp only [List.getElem_append_left (hold hk hnew)] at ho ⊢
      exact h.bytes k (hold hk hnew) o ho
  case zero =>
    intro b hb hsize
    have hb' : s.freeblock ≤ b := by
      rw [hs₁] at hb
      exact hb
    have hcount := h.count
    rw [disk_withInode_of_ge hlt (by omega), hdisk]
    exact h.zero b hb' hsize
  case count =>
    rw [total_concat]
    change s₁.freeblock = _
    rw [hs₁]
    exact h.count

theorem ialloc_spec :
    wp (ialloc type) (fun inum s' => inum = files.length + 1 ∧ Image s' (files ++ [[]]))
      (fun _ _ => False) s := by
  unfold ialloc
  simp only [wp_bind, wp_gets, wp_modify]
  rw [h.next]
  apply wp_winode
  exact ⟨rfl, h.newFile hlt htype⟩

end

end Image

end Xv6.Mkfs
