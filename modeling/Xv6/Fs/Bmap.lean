import Xv6.Fs.Blocks

/-!
`bmap`, and the loops of `readi` and `writei` around it. While these work on an
inode its copy in memory is ahead of the disk, until `iupdate` writes it; the
ledger is kept for the disk with the copy in the place of the disk inode.
-/

namespace Xv6.Fs

open Prog

variable {P : Type}

/-- `w` is the disk with the copy at `ip` in place of the inode `i` it belongs
to. The other copies are `cp`, the inodes on the disk itself are `ino`. -/
structure Ahead (sb : Superblock) (ds : Nat) (k : Kernel P) (ip : Ip) (i : Nat)
    (cp : Ip → Dinode) (ino : Nat → Dinode) (w : View) (held : List Nat) (c : FsState P) :
    Prop where
  st : St sb ds k (set cp ip (w.ino i)) ⟨ino, w.bit, w.blk⟩ held c
  dev : (k.icache ip).dev = 1
  inum : (k.icache ip).inum = i
  range : i < sb.ninodes
  ino : w.ino = set ino i (w.ino i)

/-- A file that has blocks to read and write: allocated and not a device, its
fields within their C types. -/
structure Regular (di : Dinode) : Prop where
  alloc : di.type ≠ 0
  notDev : di.type ≠ T_DEV
  wf : di.Wf

theorem Dinode.Wf.setAddr {di : Dinode} (h : di.Wf) (q : Nat) {b : Nat} (hb : b < 2 ^ 32) :
    (di.setAddr q b).Wf :=
  { h with
    addrs := by
      intro j
      unfold Dinode.setAddr
      dsimp only
      split
      · exact hb
      · exact h.addrs j }

theorem Regular.setAddr {di : Dinode} (h : Regular di) (q : Nat) {b : Nat} (hb : b < 2 ^ 32) :
    Regular (di.setAddr q b) where
  alloc := h.alloc
  notDev := h.notDev
  wf := h.wf.setAddr q hb

section

variable {sb : Superblock} {ds : Nat} (hl : Layout sb ds) {k : Kernel P} {ip : Ip} {i : Nat}
  {cp : Ip → Dinode} {ino : Nat → Dinode} {w : View} {held : List Nat} {c : FsState P}

/-- What stays true of `w` while blocks are added. -/
structure Growing (sb : Superblock) (i : Nat) (nb : Nat → Nat) (w : View) : Prop where
  ledger : Ledger sb w
  filled : Filled sb w nb
  regular : Regular (w.ino i)

variable {v w' : View} {bn b : Nat}

theorem View.blockAt_eq_addr {k : Nat} (hi : i < sb.ninodes) (ht : (v.ino i).type ≠ 0)
    (hk : k < NDIRECT) : v.blockAt sb i k = (v.ino i).addr k := by
  unfold View.blockAt View.position
  rw [if_pos hk, View.own_of_alloc hi ht, Dinode.ref_addr _ _ hk.le]

theorem View.blockAt_eq_entry {k : Nat} (hi : i < sb.ninodes) (ht : (v.ino i).type ≠ 0)
    (hk : NDIRECT ≤ k) (hmax : k - NDIRECT < NINDIRECT) (h0 : (v.ino i).addr NDIRECT ≠ 0) :
    v.blockAt sb i k = tableGet (v.blk ((v.ino i).addr NDIRECT)) (k - NDIRECT) := by
  unfold View.blockAt View.position
  rw [if_neg (by omega), View.own_of_alloc hi ht, ← Dinode.ref_entry _ h0 hmax]
  congr 1
  omega

theorem Filled.le_of_blockAt_zero {nb : Nat → Nat} (hg : Growing sb i nb w) (hi : i < sb.ninodes)
    (h0 : w.blockAt sb i bn = 0) : nb i ≤ bn := by
  have hiff := hg.filled i hi hg.regular.alloc hg.regular.notDev bn
  by_contra hlt
  exact hiff.mpr (by omega) h0

/-- The positions that must hold a block for block `bn` of a file to be there:
its own, and that of the indirect block if it is listed there. -/
def Behind (bn q : Nat) : Prop := q = View.position bn ∨ q = NDIRECT ∧ NDIRECT ≤ bn

/-- No block was left for one of the positions `Q` of the file: those that
were served are the only change to the ledger of `w`. -/
def Stuck (sb : Superblock) (i : Nat) (w : View) (Q : Nat → Prop) : Prop :=
  ∃ w', Ledger sb w' ∧ w'.Full sb ∧
    (∀ p, ¬ (p.1 = i ∧ Q p.2) → w'.own sb p = w.own sb p) ∧ ∃ q, Q q ∧ w'.own sb (i, q) = 0

/-- The outcome of `bmap`: block `bn` of the file is there, and nothing is
changed if it was there before. No other block of a file has come, gone or
moved. -/
structure Located (sb : Superblock) (ds : Nat) (k : Kernel P) (ip : Ip) (i : Nat)
    (cp : Ip → Dinode) (ino : Nat → Dinode) (w : View) (bn b : Nat) (w' : View)
    (c : FsState P) : Prop where
  ahead : Ahead sb ds k ip i cp ino w' [] c
  ledger : Ledger sb w'
  regular : Regular (w'.ino i)
  block : b = w'.blockAt sb i bn
  behind : ∀ q, Behind bn q → w'.own sb (i, q) ≠ 0
  own : ∀ p, ¬ (p.1 = i ∧ Behind bn p.2) → w'.own sb p = w.own sb p
  bytes : w'.byteAt sb = w.byteAt sb
  fields : (w'.ino i).fields = (w.ino i).fields
  same : w.blockAt sb i bn ≠ 0 → w' = w

theorem View.own_table (hi : i < sb.ninodes) (ht : (v.ino i).type ≠ 0) :
    v.own sb (i, NDIRECT) = (v.ino i).addr NDIRECT := by
  rw [View.own_of_alloc hi ht, Dinode.ref_addr _ _ (Nat.le_refl _)]

/-- A block behind the indirect block needs it. -/
theorem View.table_ne_zero (hi : i < sb.ninodes) (ht : (v.ino i).type ≠ 0) (hbn : NDIRECT ≤ bn)
    (h0 : v.blockAt sb i bn ≠ 0) : (v.ino i).addr NDIRECT ≠ 0 := by
  intro htable
  apply h0
  unfold View.blockAt View.position
  rw [if_neg (by omega), View.own_of_alloc hi ht, Dinode.ref_eq_zero (by omega) (absurd htable)]

theorem behind_position (bn : Nat) : Behind bn (View.position bn) := Or.inl rfl

theorem Located.present (h : Located sb ds k ip i cp ino w bn b w' c) : b ≠ 0 := by
  rw [h.block]
  exact h.behind _ (behind_position bn)

theorem Located.of_same (h : Ahead sb ds k ip i cp ino w [] c) (hledger : Ledger sb w)
    (hregular : Regular (w.ino i)) (h0 : w.blockAt sb i bn ≠ 0) :
    Located sb ds k ip i cp ino w bn (w.blockAt sb i bn) w c where
  ahead := h
  ledger := hledger
  regular := hregular
  block := rfl
  behind := by
    rintro q (rfl | ⟨rfl, hbn⟩)
    · exact h0
    · rw [View.own_table h.range hregular.alloc]
      exact View.table_ne_zero h.range hregular.alloc hbn h0
  own := fun _ _ => rfl
  bytes := rfl
  fields := rfl
  same := fun _ => rfl

theorem Located.of_new (h : Ahead sb ds k ip i cp ino w' [] c) (h0 : w.blockAt sb i bn = 0)
    (hb : b ≠ 0) (hown : w'.own sb = Function.update (w.own sb) (i, View.position bn) b)
    (hledger : Ledger sb w') (hregular : Regular (w'.ino i)) (hbytes : w'.byteAt sb = w.byteAt sb)
    (hfields : (w'.ino i).fields = (w.ino i).fields) : Located sb ds k ip i cp ino w bn b w' c := by
  have hat : w'.blockAt sb i bn = b := by
    unfold View.blockAt
    rw [hown, Function.update_self]
  exact
    { ahead := h
      ledger := hledger
      regular := hregular
      block := hat.symm
      behind := by
        rintro q (rfl | ⟨rfl, hbn⟩)
        · exact fun hz => hb (hat.symm.trans hz)
        · rw [View.own_table h.range hregular.alloc]
          exact View.table_ne_zero h.range hregular.alloc hbn (by rwa [hat])
      own := by
        intro p hp
        rw [hown, Function.update_of_ne]
        rintro rfl
        exact hp ⟨rfl, behind_position bn⟩
      bytes := hbytes
      fields := hfields
      same := fun hne => absurd h0 hne }

/-- `bmap` after a step that can only have given the file its indirect block. -/
theorem Located.of_prior {w₀ : View} (h : Located sb ds k ip i cp ino w bn b w' c)
    (hbn : NDIRECT ≤ bn) (hown : ∀ p, p ≠ (i, NDIRECT) → w.own sb p = w₀.own sb p)
    (hbytes : w.byteAt sb = w₀.byteAt sb) (hfields : (w.ino i).fields = (w₀.ino i).fields)
    (hsame : w₀.blockAt sb i bn ≠ 0 → w = w₀) : Located sb ds k ip i cp ino w₀ bn b w' c :=
  { h with
    own := by
      intro p hp
      rw [h.own p hp]
      apply hown
      rintro rfl
      exact hp ⟨rfl, Or.inr ⟨rfl, hbn⟩⟩
    bytes := h.bytes.trans hbytes
    fields := h.fields.trans hfields
    same := by
      intro h0
      obtain rfl := hsame h0
      exact h.same h0 }

theorem Ahead.look (h : Ahead sb ds k ip i cp ino w held c) :
    Ahead sb ds k ip i cp ino w held { c with held := (b :: c.held).erase b } :=
  { h with st := h.st.look }

/-- A fresh block as address `q` of the inode. -/
theorem Ahead.takeAddr {q : Nat} (h : Ahead sb ds k ip i cp ino w held c) {c' : FsState P}
    (hst : St sb ds k (set cp ip (w.ino i))
      ((View.setBit ⟨ino, w.bit, w.blk⟩ b true).setBlk b Bytes.zero) held c') :
    Ahead sb ds k ip i cp ino (w.takeAddr i q b) held
      { c' with copy := set c'.copy ip ((w.ino i).setAddr q b) } where
  st :=
    { hst with
      copy := by
        unfold View.takeAddr
        simp [hst.copy] }
  dev := h.dev
  inum := h.inum
  range := h.range
  ino := by
    unfold View.takeAddr
    rw [h.ino]
    simp

include hl

theorem Ledger.free_bounds (hb : w.Free sb b) : b ≠ 0 ∧ b < 2 ^ 32 := by
  have := hl.one_lt_nmeta
  have := hl.fits
  have := hb.1
  have := hb.2.1
  exact ⟨by omega, by omega⟩

section

variable (h : Ahead sb ds k ip i cp ino w [] c) (hledger : Ledger sb w)
include h hledger

/-- The first part of `bmap` for a block behind the indirect block. -/
theorem wp_bmap_table (hreg : Regular (w.ino i))
    (ho : (w.ino i).addr NDIRECT = 0 → 0 < k.outstanding) :
    wp (if (w.ino i).addr NDIRECT = 0 then do
          let b ← balloc 1
          setCopy ip ((w.ino i).setAddr NDIRECT b)
          pure b
        else pure ((w.ino i).addr NDIRECT) : FsM P Nat)
      (fun t c' => ∃ w', Ahead sb ds k ip i cp ino w' [] c' ∧ Ledger sb w' ∧
        Regular (w'.ino i) ∧ t = (w'.ino i).addr NDIRECT ∧ t ≠ 0 ∧
        (∀ p, p ≠ (i, NDIRECT) → w'.own sb p = w.own sb p) ∧ w'.byteAt sb = w.byteAt sb ∧
        (w'.ino i).fields = (w.ino i).fields ∧ ((w.ino i).addr NDIRECT ≠ 0 → w' = w))
      (fun e c' => (NoBlocks e c' ∧ w.Full sb) ∧ (w.ino i).addr NDIRECT = 0) c := by
  apply wp_ite
  · intro h0
    rw [wp_bind]
    refine wp_mono (wp_balloc hl h.st (ho h0) hledger.reserved HeldData.nil) ?_ ?_
    · rintro b c' ⟨hfree, hst⟩
      have hfree' : w.Free sb b := hfree
      obtain ⟨hb0, hb32⟩ := Ledger.free_bounds hl hfree'
      obtain ⟨hledger', hbytes⟩ := hledger.takeAddr hl h.range hreg.alloc hfree'
        (Nat.le_refl _) h0
      have hown := View.own_takeAddr hl hledger h.range hreg.alloc (Nat.le_refl _) h0 hfree'
      have hino : (w.takeAddr i NDIRECT b).ino i = (w.ino i).setAddr NDIRECT b := set_self _ _ _
      refine ⟨w.takeAddr i NDIRECT b, h.takeAddr hst, hledger', ?_, ?_, hb0, ?_, hbytes, ?_, ?_⟩
      · rw [hino]
        exact hreg.setAddr _ hb32
      · rw [hino, Dinode.addr_setAddr _ (Nat.lt_succ_self _), if_pos rfl]
      · intro p hp
        rw [hown, Function.update_of_ne hp]
      · rw [hino, Dinode.fields_setAddr]
      · exact fun hne => absurd h0 hne
    · intro e _ he
      exact ⟨he, h0⟩
  · intro h0
    exact ⟨w, h, hledger, hreg, rfl, h0, fun _ _ => rfl, rfl, rfl, fun _ => rfl⟩

theorem Ahead.table_read (ht : (w.ino i).type ≠ 0) (h0 : (w.ino i).addr NDIRECT ≠ 0) :
    HeldData sb w [(w.ino i).addr NDIRECT] ∧
      c.disk ((w.ino i).addr NDIRECT) = w.blk ((w.ino i).addr NDIRECT) ∧
      (w.ino i).addr NDIRECT < c.disksize := by
  have hown : w.own sb (i, NDIRECT) = (w.ino i).addr NDIRECT := by
    rw [View.own_of_alloc h.range ht, Dinode.ref_addr _ _ (Nat.le_refl _)]
  have hused := hledger.used (p := (i, NDIRECT)) (by rwa [hown])
  rw [hown] at hused
  refine ⟨?_, h.st.shows.blk _ hused.1 hused.2.1, ?_⟩
  · intro b hb
    rw [List.mem_singleton] at hb
    rwa [hb]
  · rw [h.st.disksize]
    exact hused.2.1.trans_le hl.disk

/-- The second part of `bmap` for a block behind the indirect block: its entry
in the indirect block `t`. The buffer of `t` is held during `balloc`. -/
theorem wp_bmap_entry (hreg : Regular (w.ino i)) (ho : w.blockAt sb i bn = 0 → 0 < k.outstanding)
    (hdir : NDIRECT ≤ bn) (hind : bn - NDIRECT < NINDIRECT) (h0 : (w.ino i).addr NDIRECT ≠ 0) :
    wp (do
        let d ← bread 1 ((w.ino i).addr NDIRECT)
        if tableGet d (bn - NDIRECT) = 0 then do
          let b ← balloc 1
          logWrite ((w.ino i).addr NDIRECT) (tableSet d (bn - NDIRECT) b)
          brelse ((w.ino i).addr NDIRECT)
          pure b
        else do
          brelse ((w.ino i).addr NDIRECT)
          pure (tableGet d (bn - NDIRECT)) : FsM P Nat)
      (fun b c' => ∃ w', Located sb ds k ip i cp ino w bn b w' c')
      (fun e c' => (NoBlocks e c' ∧ w.Full sb) ∧ w.blockAt sb i bn = 0) c := by
  have hi := h.range
  have ht := hreg.alloc
  obtain ⟨hheld, hdisk, hlt⟩ := h.table_read hl hledger ht h0
  have hat := View.blockAt_eq_entry (v := w) hi ht hdir hind h0
  obtain ⟨hmeta, hsize, -⟩ := hheld _ (List.mem_singleton_self _)
  rw [wp_bind]
  apply wp_bread rfl hlt (by simp [h.st.held])
  rw [hdisk]
  have hst : St sb ds k (set cp ip (w.ino i)) ⟨ino, w.bit, w.blk⟩ [(w.ino i).addr NDIRECT]
      { c with held := (w.ino i).addr NDIRECT :: c.held } :=
    { h.st with held := by rw [h.st.held] }
  apply wp_ite
  · intro hz
    have hempty := hat.trans hz
    simp only [wp_bind]
    refine wp_mono (wp_balloc hl hst (ho hempty) hledger.reserved hheld) ?_
      (fun e _ he => ⟨he, hempty⟩)
    rintro b c' ⟨hfree, hst'⟩
    have hfree' : w.Free sb b := hfree
    obtain ⟨hb0, -⟩ := Ledger.free_bounds hl hfree'
    obtain ⟨hledger', hkept⟩ := hledger.takeEntry hl hi ht hfree' h0 hind hz
    have hown := View.own_takeEntry hledger hi ht h0 hind hl hfree'
    apply wp_logWrite (by rw [hst'.kernel]; exact ho hempty)
    intro l
    apply wp_brelse
    have hahead : Ahead sb ds k ip i cp ino
        (w.takeEntry ((w.ino i).addr NDIRECT) (bn - NDIRECT) b) []
        { c' with
          disk := set c'.disk ((w.ino i).addr NDIRECT)
            (tableSet (w.blk ((w.ino i).addr NDIRECT)) (bn - NDIRECT) b)
          logged := l
          held := c'.held.erase ((w.ino i).addr NDIRECT) } :=
      { st :=
          { hst' with
            held := by simp [hst'.held]
            shows := hst'.shows.write hl hmeta hsize _ }
        dev := h.dev
        inum := h.inum
        range := hi
        ino := h.ino }
    have hpos : (i, View.position bn) = (i, NDIRECT + 1 + (bn - NDIRECT)) := by
      unfold View.position
      rw [if_neg (by omega)]
      congr 1
      omega
    exact ⟨_, Located.of_new hahead hempty hb0 (by rw [hown, hpos]) hledger' hreg hkept rfl⟩
  · intro hz
    rw [← hat] at hz ⊢
    simp only [wp_bind]
    apply wp_brelse
    exact ⟨w, Located.of_same h.look hledger hreg hz⟩

/-- Block `bn` of a file: the block there is, or one that is allocated. -/
theorem wp_bmap_located (hreg : Regular (w.ino i)) (ho : w.blockAt sb i bn = 0 → 0 < k.outstanding)
    (hmax : bn < MAXFILE) :
    wp (bmap ip bn) (fun b c' => ∃ w', Located sb ds k ip i cp ino w bn b w' c')
      (fun e c' => (NoBlocks e c' ∧ Stuck sb i w (Behind bn)) ∧ w.blockAt sb i bn = 0) c := by
  have hi := h.range
  have ht := hreg.alloc
  unfold bmap getEntry getCopy
  simp only [wp_bind, wp_gets, h.st.kernel, h.st.copy, set_self, h.dev]
  apply wp_ite
  · intro hdir
    have hat : w.blockAt sb i bn = (w.ino i).addr bn := View.blockAt_eq_addr hi ht hdir
    apply wp_ite
    · intro h0
      have hempty := hat.trans h0
      rw [wp_bind]
      refine wp_mono (wp_balloc hl h.st (ho hempty) hledger.reserved HeldData.nil) ?_ ?_
      · rintro b c' ⟨hfree, hst⟩
        have hfree' : w.Free sb b := hfree
        obtain ⟨hb0, hb32⟩ := Ledger.free_bounds hl hfree'
        obtain ⟨hledger', hbytes⟩ := hledger.takeAddr hl hi ht hfree' hdir.le h0
        have hown := View.own_takeAddr hl hledger hi ht hdir.le h0 hfree'
        have hino : (w.takeAddr i bn b).ino i = (w.ino i).setAddr bn b := set_self _ _ _
        refine ⟨w.takeAddr i bn b, Located.of_new (h.takeAddr hst) hempty hb0 ?_ hledger' ?_
          hbytes ?_⟩
        · rw [hown, View.position, if_pos hdir]
        · rw [hino]
          exact hreg.setAddr _ hb32
        · rw [hino, Dinode.fields_setAddr]
      · exact fun e _ he => ⟨⟨he.1, w, hledger, he.2, fun _ _ => rfl, _, behind_position bn,
          hempty⟩, hempty⟩
    · intro h0
      rw [← hat] at h0 ⊢
      exact ⟨w, Located.of_same h hledger hreg h0⟩
  · intro hdir
    apply wp_ite
    · intro hind
      have htable0 (h0 : (w.ino i).addr NDIRECT = 0) : w.blockAt sb i bn = 0 := by
        by_contra hne
        exact View.table_ne_zero hi ht (by omega) hne h0
      rw [wp_bind]
      refine wp_mono (wp_bmap_table hl h hledger hreg (fun h0 => ho (htable0 h0))) ?_ ?_
      · rintro t c' ⟨w', h', hledger', hreg', rfl, ht0, hown, hbytes, hfields, hsame⟩
        have hat : w'.blockAt sb i bn = w.blockAt sb i bn :=
          hown _ (fun heq => View.position_ne bn (congrArg Prod.snd heq))
        refine wp_mono (wp_bmap_entry hl h' hledger' hreg' (by rwa [hat]) (by omega) hind ht0)
          ?_ ?_
        · rintro b c'' ⟨w'', hloc⟩
          refine ⟨w'', hloc.of_prior (by omega) hown hbytes hfields ?_⟩
          intro hne
          exact hsame (fun h0 => hne (htable0 h0))
        · rintro e c'' ⟨⟨hno, hfull⟩, hempty⟩
          rw [hat] at hempty
          refine ⟨⟨hno, w', hledger', hfull, ?_, _, behind_position bn, hat.trans hempty⟩, hempty⟩
          intro p hp
          apply hown
          rintro rfl
          exact hp ⟨rfl, Or.inr ⟨rfl, by omega⟩⟩
      · rintro e c' ⟨⟨hno, hfull⟩, h0⟩
        refine ⟨⟨hno, w, hledger, hfull, fun _ _ => rfl, NDIRECT, Or.inr ⟨rfl, by omega⟩, ?_⟩,
          htable0 h0⟩
        rw [View.own_table hi ht, h0]
    · intro hind
      unfold MAXFILE at hmax
      omega

end

end

end Xv6.Fs
