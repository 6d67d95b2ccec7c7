import Xv6.Fs.Bmap

/-!
The loops of `readi` and `writei` over the blocks of a file, and `itrunc`.
-/

namespace Xv6.Fs

open Prog

variable {P : Type}

/-- The number of blocks that `size` bytes need. -/
def blocks (size : Nat) : Nat := (size + (BSIZE - 1)) / BSIZE

theorem blocks_mono {a b : Nat} (h : a ≤ b) : blocks a ≤ blocks b :=
  Nat.div_le_div_right (by omega)

theorem lt_blocks_iff {k size : Nat} : k < blocks size ↔ BSIZE * k < size := by
  unfold blocks BSIZE
  omega

/-- Block `m` holds one of the `len` bytes at `off`. -/
def Covers (off len m : Nat) : Prop := ∃ o, off ≤ o ∧ o < off + len ∧ o / BSIZE = m

variable {off m len : Nat}

theorem covers_add {x : Nat} :
    Covers off (m + len) x ↔ Covers off m x ∨ Covers (off + m) len x := by
  constructor
  · rintro ⟨o, hle, hlt, hx⟩
    by_cases ho : o < off + m
    · exact Or.inl ⟨o, hle, ho, hx⟩
    · exact Or.inr ⟨o, by omega, by omega, hx⟩
  · rintro (⟨o, hle, hlt, hx⟩ | ⟨o, hle, hlt, hx⟩)
    · exact ⟨o, hle, by omega, hx⟩
    · exact ⟨o, by omega, by omega, hx⟩

theorem covers_block {x : Nat} (hpos : 0 < m) (hfit : off % BSIZE + m ≤ BSIZE) :
    Covers off m x ↔ x = off / BSIZE := by
  constructor
  · rintro ⟨o, hle, hlt, rfl⟩
    unfold BSIZE at *
    omega
  · rintro rfl
    exact ⟨off, Nat.le_refl _, by omega, rfl⟩

/-- The positions that must hold a block for these bytes to be there. -/
def Places (off len q : Nat) : Prop := ∃ m, Covers off len m ∧ Behind m q

theorem places_add {q : Nat} :
    Places off (m + len) q ↔ Places off m q ∨ Places (off + m) len q := by
  constructor
  · rintro ⟨x, hx, hq⟩
    rcases covers_add.mp hx with hx | hx
    · exact Or.inl ⟨x, hx, hq⟩
    · exact Or.inr ⟨x, hx, hq⟩
  · rintro (⟨x, hx, hq⟩ | ⟨x, hx, hq⟩)
    · exact ⟨x, covers_add.mpr (Or.inl hx), hq⟩
    · exact ⟨x, covers_add.mpr (Or.inr hx), hq⟩

theorem not_places_position (h : ¬ Covers off len m) : ¬ Places off len (View.position m) := by
  rintro ⟨x, hx, hpos | ⟨hpos, -⟩⟩
  · rw [View.position_injective hpos] at h
    exact h hx
  · exact View.position_ne m hpos

section

variable {sb : Superblock} {ds : Nat} (hl : Layout sb ds) {k : Kernel P} {ip : Ip} {i : Nat}
  {cp : Ip → Dinode} {ino : Nat → Dinode} {w : View} {c : FsState P} {nb : Nat → Nat}

variable {v w' v' : View} {m off n rounds tot : Nat} {src : Nat → UInt8}

theorem View.blockAt_of_ge (hm : MAXFILE ≤ m) : v.blockAt sb i m = 0 := by
  have hmax : MAXFILE = NDIRECT + NINDIRECT := rfl
  have href : (v.ino i).ref v.blk (m + 1) = 0 := by
    unfold Dinode.ref
    rw [if_neg (by omega), if_neg (by omega)]
  unfold View.blockAt View.position
  rw [if_neg (by omega)]
  unfold View.own
  split
  · exact href
  · rfl

/-- A block of the file, as it is on the disk. -/
theorem Ahead.block_read (hl : Layout sb ds) (h : Ahead sb ds k ip i cp ino w [] c)
    (hledger : Ledger sb w) {bn : Nat} (h0 : w.blockAt sb i bn ≠ 0) :
    sb.nmeta ≤ w.blockAt sb i bn ∧ w.blockAt sb i bn < sb.size ∧
      c.disk (w.blockAt sb i bn) = w.blk (w.blockAt sb i bn) ∧
      w.blockAt sb i bn < c.disksize := by
  obtain ⟨hmeta, hsize, -⟩ := hledger.used h0
  refine ⟨hmeta, hsize, h.st.shows.blk _ hmeta hsize, ?_⟩
  rw [h.st.disksize]
  exact hsize.trans_le hl.disk

theorem View.byteAt_eq {bn : Nat} (hbn : off / BSIZE = bn) (h0 : v.blockAt sb i bn ≠ 0) :
    v.byteAt sb i off = (v.blk (v.blockAt sb i bn)).byte (off % BSIZE) := by
  subst hbn
  exact if_neg h0

include hl

/-- The loop of `readi` over blocks that are all there changes nothing and
copies the bytes of the file. -/
theorem wp_readLoop_present {dst : Nat → UInt8} (h : Ahead sb ds k ip i cp ino w [] c)
    (hledger : Ledger sb w) (hreg : Regular (w.ino i)) (hrounds : n - tot ≤ rounds)
    (hin : ∀ m, Covers off (n - tot) m → w.blockAt sb i m ≠ 0) :
    wp (readLoop ip n rounds tot off dst)
      (fun r c' => r = (fun j => if tot ≤ j ∧ j < n then w.byteAt sb i (off + (j - tot))
        else dst j) ∧ Ahead sb ds k ip i cp ino w [] c')
      (fun _ _ => False) c := by
  induction rounds generalizing tot off dst c with
  | zero =>
    refine ⟨?_, h⟩
    funext j
    rw [if_neg (by omega)]
  | succ rounds ih =>
    unfold readLoop
    apply wp_ite
    · intro htot
      have h0 : w.blockAt sb i (off / BSIZE) ≠ 0 :=
        hin _ ⟨off, Nat.le_refl _, by omega, rfl⟩
      have hmax : off / BSIZE < MAXFILE := by
        by_contra hge
        exact h0 (View.blockAt_of_ge (Nat.not_lt.mp hge))
      unfold getEntry
      simp only [wp_bind, wp_gets, h.st.kernel, h.dev]
      refine wp_mono (wp_bmap_located hl h hledger hreg (fun hz => absurd hz h0) hmax) ?_
        (fun e _ he => absurd he.2 h0)
      rintro b c' ⟨w', hm⟩
      obtain rfl := hm.same h0
      obtain rfl := hm.block
      have h' := hm.ahead
      obtain ⟨-, -, hdisk, hlt⟩ := h'.block_read hl hledger h0
      apply wp_bread rfl hlt (by simp [h'.st.held])
      apply wp_brelse
      rw [hdisk]
      have hlt' : off % BSIZE < BSIZE := Nat.mod_lt _ (by decide)
      generalize hmin : min (n - tot) (BSIZE - off % BSIZE) = m
      have hrest (x : Nat) (hx : Covers (off + m) (n - (tot + m)) x) :
          w'.blockAt sb i x ≠ 0 := by
        apply hin
        rw [show n - tot = m + (n - (tot + m)) by omega]
        exact covers_add.mpr (Or.inr hx)
      refine wp_mono (ih h'.look (by omega) hrest) ?_ (fun _ _ hf => hf)
      rintro r c'' ⟨rfl, h''⟩
      refine ⟨?_, h''⟩
      funext j
      by_cases hj : tot ≤ j ∧ j < tot + m
      · have hidx : (off + (j - tot)) / BSIZE = off / BSIZE := by
          unfold BSIZE at *
          omega
        have hmod : (off + (j - tot)) % BSIZE = off % BSIZE + (j - tot) := by
          unfold BSIZE at *
          omega
        rw [if_neg (by omega), if_pos hj, if_pos (by omega), View.byteAt_eq hidx h0, hmod]
      · rw [if_neg hj]
        by_cases hj' : tot + m ≤ j ∧ j < n
        · rw [if_pos hj', if_pos (by omega)]
          congr 1
          omega
        · rw [if_neg hj', if_neg (by omega)]
    · intro htot
      refine ⟨?_, h⟩
      funext j
      rw [if_neg (by omega)]

/-- The same for a file without holes. -/
theorem wp_readLoop {dst : Nat → UInt8} (h : Ahead sb ds k ip i cp ino w [] c)
    (hg : Growing sb i nb w) (hrounds : n - tot ≤ rounds) (hin : off + (n - tot) ≤ BSIZE * nb i) :
    wp (readLoop ip n rounds tot off dst)
      (fun r c' => r = (fun j => if tot ≤ j ∧ j < n then w.byteAt sb i (off + (j - tot))
        else dst j) ∧ Ahead sb ds k ip i cp ino w [] c')
      (fun _ _ => False) c := by
  refine wp_readLoop_present hl h hg.ledger hg.regular hrounds ?_
  rintro m ⟨o, hle, hlt, rfl⟩
  apply (hg.filled i h.range hg.regular.alloc hg.regular.notDev _).mpr
  unfold BSIZE at *
  omega

omit hl in
/-- The outcome of writing `len` bytes at `off`: the bytes are there, and the
blocks that hold them are the only ones that may have come to the file. -/
structure Overlaid (sb : Superblock) (w : View) (i : Nat) (src : Nat → UInt8) (off len : Nat)
    (w' : View) : Prop where
  ledger : Ledger sb w'
  places : ∀ q, Places off len q → w'.own sb (i, q) ≠ 0
  own : ∀ p, ¬ (p.1 = i ∧ Places off len p.2) → w'.own sb p = w.own sb p
  bytes : ∀ j o, w'.byteAt sb j o =
    if j = i ∧ off ≤ o ∧ o < off + len then src (o - off) else w.byteAt sb j o

omit hl in
theorem Overlaid.refl (hledger : Ledger sb w) : Overlaid sb w i src off 0 w where
  ledger := hledger
  places := by
    rintro q ⟨m, ⟨o, hle, hlt, -⟩, -⟩
    omega
  own := fun _ _ => rfl
  bytes := by
    intro j o
    rw [if_neg (by omega)]

omit hl in
theorem Overlaid.trans {w'' : View} {len : Nat} (h : Overlaid sb w i src off m w')
    (h' : Overlaid sb w' i (fun x => src (m + x)) (off + m) len w'') :
    Overlaid sb w i src off (m + len) w'' where
  ledger := h'.ledger
  places := by
    intro q hq
    by_cases hsecond : Places (off + m) len q
    · exact h'.places q hsecond
    · rw [h'.own (i, q) (fun hc => hsecond hc.2)]
      exact h.places q ((places_add.mp hq).resolve_right hsecond)
  own := by
    intro p hp
    rw [h'.own p (fun hc => hp ⟨hc.1, places_add.mpr (Or.inr hc.2)⟩),
      h.own p (fun hc => hp ⟨hc.1, places_add.mpr (Or.inl hc.2)⟩)]
  bytes := by
    intro j o
    rw [h'.bytes, h.bytes]
    exact overlay_add ..

/-- The bytes are written in a state whose copy of the inode is ahead of the disk. No
address has changed if the file had them before. -/
structure Written (sb : Superblock) (ds : Nat) (k : Kernel P) (ip : Ip) (i : Nat)
    (cp : Ip → Dinode) (ino : Nat → Dinode) (w : View) (src : Nat → UInt8) (off len : Nat)
    (w' : View) (c : FsState P) : Prop extends Overlaid sb w i src off len w' where
  ahead : Ahead sb ds k ip i cp ino w' [] c
  regular : Regular (w'.ino i)
  fields : (w'.ino i).fields = (w.ino i).fields
  same : (∀ m, Covers off len m → w.blockAt sb i m ≠ 0) →
    w'.ino = w.ino ∧ ∀ m, w'.blockAt sb i m = w.blockAt sb i m

omit hl in
theorem Written.refl (h : Ahead sb ds k ip i cp ino w [] c) (hledger : Ledger sb w)
    (hreg : Regular (w.ino i)) : Written sb ds k ip i cp ino w src off 0 w c :=
  ⟨.refl hledger, h, hreg, rfl, fun _ => ⟨rfl, fun _ => rfl⟩⟩

omit hl in
theorem Written.trans {w'' : View} {c' : FsState P} {len : Nat}
    (h : Written sb ds k ip i cp ino w src off m w' c)
    (h' : Written sb ds k ip i cp ino w' (fun x => src (m + x)) (off + m) len w'' c') :
    Written sb ds k ip i cp ino w src off (m + len) w'' c' where
  toOverlaid := h.toOverlaid.trans h'.toOverlaid
  ahead := h'.ahead
  regular := h'.regular
  fields := h'.fields.trans h.fields
  same := by
    intro hall
    obtain ⟨hino, hblocks⟩ := h.same (fun x hx => hall x (covers_add.mpr (Or.inl hx)))
    obtain ⟨hino', hblocks'⟩ := h'.same (fun x hx => by
      rw [hblocks]
      exact hall x (covers_add.mpr (Or.inr hx)))
    exact ⟨hino'.trans hino, fun x => (hblocks' x).trans (hblocks x)⟩

omit hl in
theorem Ledger.congr (h : Ledger sb w) (hown : w'.own sb = w.own sb) (hbit : w'.bit = w.bit) :
    Ledger sb w' := by
  refine ⟨?_, ?_⟩
  · rw [hown, hbit]
    exact h.owns
  · rw [hbit]
    exact h.reserved

omit hl in
theorem Growing.congr (h : Growing sb i nb w) (hown : w'.own sb = w.own sb) (hbit : w'.bit = w.bit)
    (htype : ∀ j, (w'.ino j).type = (w.ino j).type) (hregular : Regular (w'.ino i)) :
    Growing sb i nb w' where
  ledger := h.ledger.congr hown hbit
  filled := by
    intro j hj ht hdev m
    unfold View.blockAt
    rw [htype] at ht hdev
    rw [hown]
    exact h.filled j hj ht hdev m
  regular := hregular

omit hl in
theorem Stuck.mono {Q Q' : Nat → Prop} (h : Stuck sb i w Q) (hsub : ∀ q, Q q → Q' q) :
    Stuck sb i w Q' := by
  obtain ⟨w', hledger, hfull, hown, q, hq, h0⟩ := h
  exact ⟨w', hledger, hfull, fun p hp => hown p (fun hc => hp ⟨hc.1, hsub _ hc.2⟩), q, hsub q hq,
    h0⟩

omit hl in
theorem Written.stuck {len : Nat} (h : Written sb ds k ip i cp ino w src off m w' c)
    (hstuck : Stuck sb i w' (Places (off + m) len)) : Stuck sb i w (Places off (m + len)) := by
  obtain ⟨w'', hledger, hfull, hown, q, hq, h0⟩ := hstuck
  refine ⟨w'', hledger, hfull, ?_, q, places_add.mpr (Or.inr hq), h0⟩
  intro p hp
  rw [hown p (fun hc => hp ⟨hc.1, places_add.mpr (Or.inr hc.2)⟩),
    h.own p (fun hc => hp ⟨hc.1, places_add.mpr (Or.inl hc.2)⟩)]

/-- One round of the loop of `writei`: `m` bytes within one block. -/
theorem Located.written {c' : FsState P} {b : Nat} {l : List Nat}
    (hm : Located sb ds k ip i cp ino w (off / BSIZE) b w' c') (hpos : 0 < m)
    (hfit : off % BSIZE + m ≤ BSIZE) : Written sb ds k ip i cp ino w src off m
      (w'.setBlk b ((w'.blk b).splice (off % BSIZE) m src))
      { c' with
        disk := set c'.disk b ((c'.disk b).splice (off % BSIZE) m src)
        logged := l
        held := (b :: c'.held).erase b } := by
  have h' := hm.ahead
  have h0 := hm.present
  have hblock := hm.block
  rw [hblock] at h0
  obtain ⟨hmeta, hsize, hdisk, -⟩ := h'.block_read hl hm.ledger h0
  have hown := View.own_setBlk hm.ledger h0 ((w'.blk b).splice (off % BSIZE) m src)
  rw [← hblock] at hmeta hsize hdisk hown
  have hat (j x : Nat) : (w'.setBlk b ((w'.blk b).splice (off % BSIZE) m src)).blockAt sb j x =
      w'.blockAt sb j x := congrFun hown _
  have hcovers (x : Nat) : Covers off m x ↔ x = off / BSIZE := covers_block hpos hfit
  refine ⟨⟨hm.ledger.congr hown rfl, ?_, ?_, ?_⟩, ?_, hm.regular, hm.fields, ?_⟩
  · rintro q ⟨x, hx, hq⟩
    rw [(hcovers x).mp hx] at hq
    rw [hown]
    exact hm.behind q hq
  · intro p hp
    rw [hown]
    apply hm.own
    rintro ⟨hpi, hq⟩
    exact hp ⟨hpi, _, (hcovers _).mpr rfl, hq⟩
  · intro j o
    rw [hblock, View.byteAt_setBlk hm.ledger h0, ← hblock, hm.bytes]
    by_cases hjo : j = i ∧ o / BSIZE = off / BSIZE
    · obtain ⟨rfl, ho⟩ := hjo
      have hbyte : w'.byteAt sb j o = _ := View.byteAt_eq ho h0
      rw [← hblock, hm.bytes] at hbyte
      rw [if_pos ⟨rfl, ho⟩, Bytes.byte_splice]
      by_cases hin : off ≤ o ∧ o < off + m
      · have hsub : o % BSIZE - off % BSIZE = o - off := by
          unfold BSIZE at *
          omega
        rw [if_pos (by unfold BSIZE at *; omega), if_pos ⟨rfl, hin⟩, hsub]
      · rw [if_neg (by unfold BSIZE at *; omega), if_neg (fun hc => hin hc.2), ← hbyte]
    · rw [if_neg hjo, if_neg]
      rintro ⟨rfl, hle, hlt'⟩
      apply hjo
      refine ⟨rfl, ?_⟩
      unfold BSIZE at *
      omega
  · rw [hdisk]
    exact { h' with st := h'.st.edit (h'.st.shows.write hl hmeta hsize _) }
  · intro hall
    obtain rfl := hm.same (hall _ ((hcovers _).mpr rfl))
    exact ⟨rfl, fun x => hat i x⟩

theorem wp_writeLoop (h : Ahead sb ds k ip i cp ino w [] c) (hledger : Ledger sb w)
    (hreg : Regular (w.ino i)) (ho : 0 < k.outstanding) (hrounds : n - tot ≤ rounds)
    (hmax : off + (n - tot) ≤ MAXFILE * BSIZE) : wp (writeLoop ip src n rounds tot off)
      (fun r c' => r = off + (n - tot) ∧ ∃ w', Written sb ds k ip i cp ino w
        (fun x => src (tot + x)) off (n - tot) w' c')
      (fun e c' => NoBlocks e c' ∧ Stuck sb i w (Places off (n - tot))) c := by
  induction rounds generalizing tot off w c with
  | zero =>
    have hdone : n - tot = 0 := by omega
    rw [hdone]
    exact ⟨rfl, w, Written.refl h hledger hreg⟩
  | succ rounds ih =>
    unfold writeLoop
    apply wp_ite
    · intro htot
      have hbmax : off / BSIZE < MAXFILE := by
        unfold BSIZE at *
        omega
      have hlt : off % BSIZE < BSIZE := Nat.mod_lt _ (by decide)
      unfold getEntry
      simp only [wp_bind, wp_gets, h.st.kernel, h.dev]
      refine wp_mono (wp_bmap_located hl h hledger hreg (fun _ => ho) hbmax) ?_ ?_
      swap
      · rintro e c' ⟨⟨hno, hstuck⟩, -⟩
        exact ⟨hno, hstuck.mono (fun q hq => ⟨_, ⟨off, Nat.le_refl _, by omega, rfl⟩, hq⟩)⟩
      rintro b c' ⟨w', hm⟩
      have h' := hm.ahead
      have h0 := hm.present
      rw [hm.block] at h0
      obtain ⟨-, -, -, hltb⟩ := h'.block_read hl hm.ledger h0
      rw [← hm.block] at hltb
      apply wp_bread rfl hltb (by simp [h'.st.held])
      apply wp_logWrite (by rw [← h'.st.kernel] at ho; exact ho)
      intro l
      apply wp_brelse
      generalize hmin : min (n - tot) (BSIZE - off % BSIZE) = m
      have hround : Written sb ds k ip i cp ino w (fun x => src (tot + x)) off m _ _ :=
        hm.written hl (l := l) (by omega) (by omega)
      have hsum : m + (n - (tot + m)) = n - tot := by omega
      refine wp_mono (ih hround.ahead hround.ledger hround.regular (by omega) (by omega)) ?_ ?_
      · rintro r c'' ⟨rfl, w'', hrest⟩
        refine ⟨by omega, w'', ?_⟩
        simp only [Nat.add_assoc] at hrest
        have hall := hround.trans hrest
        rwa [hsum] at hall
      · rintro e c'' ⟨hno, hstuck⟩
        refine ⟨hno, ?_⟩
        rw [← hsum]
        exact hround.stuck hstuck
    · intro htot
      have hdone : n - tot = 0 := by omega
      rw [hdone]
      exact ⟨rfl, w, Written.refl h hledger hreg⟩

omit hl in
/-- The ledger and the absence of holes, for the sizes in the inodes. -/
structure Sound (sb : Superblock) (v : View) : Prop where
  ledger : Ledger sb v
  filled : Filled sb v (fun j => blocks (v.ino j).size)

omit hl in
/-- Fields other than the type and the addresses do not matter to the ledger. -/
theorem View.own_setIno {di : Dinode} (htype : di.type = (v.ino i).type)
    (haddr : ∀ q, di.addr q = (v.ino i).addr q) : (v.setIno i di).own sb = v.own sb := by
  funext ⟨j, r⟩
  unfold View.own
  by_cases hj : j = i
  · subst hj
    rw [View.setIno_ino, set_self, htype]
    split
    · exact Dinode.ref_congr (fun _ => haddr _) (fun _ => haddr _) (fun _ _ _ => rfl)
    · rfl
  · rw [View.setIno_ino, set_of_ne _ _ hj, View.setIno_blk]

omit hl in
theorem View.byteAt_congr (hown : v'.own sb = v.own sb) (hblk : v'.blk = v.blk) :
    v'.byteAt sb = v.byteAt sb := by
  funext j o
  unfold View.byteAt View.blockAt
  rw [hown, hblk]

omit hl in
theorem View.setIno_type {di : Dinode} (htype : di.type = (v.ino i).type) (j : Nat) :
    ((v.setIno i di).ino j).type = (v.ino j).type := by
  by_cases hj : j = i
  · subst hj
    rw [View.setIno_ino, set_self, htype]
  · rw [View.setIno_ino, set_of_ne _ _ hj]

omit hl in
/-- Where an operation on the inode of a valid entry starts. -/
theorem St.ahead (h : St sb ds k cp v [] c) (hcopy : cp ip = v.ino i) (hdev : (k.icache ip).dev = 1)
    (hinum : (k.icache ip).inum = i) (hi : i < sb.ninodes) :
    Ahead sb ds k ip i cp v.ino v [] c where
  st := by
    rw [← hcopy, set_eta]
    exact h
  dev := hdev
  inum := hinum
  range := hi
  ino := (set_eta _ _).symm

omit hl in
/-- The copy is changed. -/
theorem Ahead.setCopy (h : Ahead sb ds k ip i cp ino w [] c) (di : Dinode) :
    Ahead sb ds k ip i cp ino (w.setIno i di) [] { c with copy := set c.copy ip di } where
  st := { h.st with copy := by simp [h.st.copy] }
  dev := h.dev
  inum := h.inum
  range := h.range
  ino := by
    rw [View.setIno_ino, h.ino]
    simp

/-- `iupdate` brings the disk up to the copy. -/
theorem Ahead.wp_iupdate (h : Ahead sb ds k ip i cp ino w [] c) (ho : 0 < k.outstanding)
    (hwf : (w.ino i).Wf) :
    wp (iupdate ip) (fun _ c' => St sb ds k (set cp ip (w.ino i)) w [] c')
      (fun _ _ => False) c := by
  have hi := h.range
  obtain rfl := h.inum
  refine wp_mono (Fs.wp_iupdate hl h.st ho h.dev hi ?_) ?_ (fun _ _ hf => hf)
  · rwa [set_self]
  · intro _ c' hst
    have hw : View.setIno ⟨ino, w.bit, w.blk⟩ (k.icache ip).inum
        (set cp ip (w.ino (k.icache ip).inum) ip) = w := by
      rw [set_self]
      unfold View.setIno
      rw [← h.ino]
    rwa [hw] at hst

omit hl in
/-- The disk after `n` bytes were written to inode `i` at `off`. -/
structure Stored (sb : Superblock) (v : View) (i : Nat) (src : Nat → UInt8) (off n : Nat)
    (v' : View) : Prop extends Overlaid sb v i src off n v' where
  inodes : ∀ j, j ≠ i → v'.ino j = v.ino j
  fields : (v'.ino i).fields = { (v.ino i).fields with size := max (v.ino i).size (off + n) }

omit hl in
theorem Stored.present (h : Stored sb v i src off n v') (m : Nat) (hm : Covers off n m) :
    v'.blockAt sb i m ≠ 0 :=
  h.places _ ⟨m, hm, behind_position m⟩

omit hl in
theorem Stored.other (h : Stored sb v i src off n v') (j m : Nat)
    (hm : ¬ (j = i ∧ Covers off n m)) :
    v'.blockAt sb j m = v.blockAt sb j m := by
  apply h.own
  rintro ⟨rfl, hplace⟩
  exact not_places_position (fun hc => hm ⟨rfl, hc⟩) hplace

omit hl in
theorem covers_lt_blocks {size : Nat} (hm : Covers off n m) (hle : off + n ≤ size) :
    m < blocks size := by
  obtain ⟨o, -, hlt, rfl⟩ := hm
  rw [lt_blocks_iff]
  have := Nat.mul_div_le o BSIZE
  omega

/-- `writei` behind its checks, on a file without holes below its size. A write
within the file changes no address, so the inode need not be written. -/
theorem wp_writeInode_stored (h : Ahead sb ds k ip i cp v.ino v [] c) (hledger : Ledger sb v)
    (hr : Regular (v.ino i)) (hfull : ∀ m < blocks (v.ino i).size, v.blockAt sb i m ≠ 0)
    (ho : 0 < k.outstanding) (hoff : off ≤ (v.ino i).size) (hmax : off + n ≤ MAXFILE * BSIZE) :
    wp (writeInode ip src off n)
      (fun _ c' => ∃ v', St sb ds k (set cp ip (v'.ino i)) v' [] c' ∧
        Stored sb v i src off n v')
      (fun e c' => NoBlocks e c' ∧ Stuck sb i v (Places off n)) c := by
  unfold writeInode getCopy
  rw [wp_bind]
  refine wp_mono (wp_writeLoop hl h hledger hr ho (Nat.sub_le _ _) (by simpa)) ?_
    (fun _ _ he => he)
  rintro r c' ⟨rfl, w', hw⟩
  simp only [Nat.sub_zero, Nat.zero_add] at hw ⊢
  have hsize : (w'.ino i).size = (v.ino i).size := congrArg Meta.size hw.fields
  have hother (j : Nat) (hj : j ≠ i) : w'.ino j = v.ino j := by
    rw [hw.ahead.ino, set_of_ne _ _ hj]
  have hcopy : c'.copy ip = w'.ino i := by rw [hw.ahead.st.copy, set_self]
  simp only [wp_bind, wp_gets, hcopy, wp_when, hsize, wp_setCopy]
  refine ⟨?_, ?_⟩
  · rintro ⟨-, hgrow⟩
    have hwf : ((w'.ino i).setSize (off + n)).Wf :=
      { hw.regular.wf with
        size := by
          unfold MAXFILE NDIRECT NINDIRECT BSIZE at hmax
          change off + n < 2 ^ 32
          omega }
    have hup := (hw.ahead.setCopy ((w'.ino i).setSize (off + n))).wp_iupdate hl ho
      (by rw [View.setIno_ino, set_self]; exact hwf)
    refine wp_mono_total hup ?_
    intro _ c'' hst
    have hown : (w'.setIno i ((w'.ino i).setSize (off + n))).own sb = w'.own sb :=
      View.own_setIno rfl (fun _ => rfl)
    refine ⟨_, hst, ⟨hw.ledger.congr hown rfl, ?_, ?_, ?_⟩, ?_, ?_⟩
    · rw [hown]
      exact hw.places
    · rw [hown]
      exact hw.own
    · rw [View.byteAt_congr hown rfl]
      exact hw.bytes
    · intro j hj
      rw [View.setIno_ino, set_of_ne _ _ hj, hother j hj]
    · rw [View.setIno_ino, set_self, Nat.max_eq_right hgrow.le, ← hw.fields]
      rfl
  · intro hsmall
    have hle : off + n ≤ (v.ino i).size := by omega
    obtain ⟨hsame, -⟩ := hw.same (fun m hm => hfull m (covers_lt_blocks hm hle))
    refine ⟨w', ?_, hw.toOverlaid, hother, ?_⟩
    · have hst := hw.ahead.st
      rwa [show (⟨v.ino, w'.bit, w'.blk⟩ : View) = w' by rw [← hsame]] at hst
    · rw [Nat.max_eq_left hle, hw.fields]
      rfl

omit hl in
/-- A write leaves no holes where there were none. -/
theorem Stored.sound (h : Stored sb v i src off n v') (hs : Sound sb v) (hi : i < sb.ninodes)
    (hr : Regular (v.ino i)) (hoff : off ≤ (v.ino i).size) : Sound sb v' where
  ledger := h.ledger
  filled := by
    intro j hj ht hdev m
    change _ ↔ m < blocks (v'.ino j).size
    by_cases hji : j = i
    · subst hji
      have hsize : (v'.ino j).size = max (v.ino j).size (off + n) := congrArg Meta.size h.fields
      rw [hsize, lt_blocks_iff]
      by_cases hm : Covers off n m
      · obtain ⟨o, hle, hlt, rfl⟩ := hm
        have := Nat.mul_div_le o BSIZE
        exact ⟨fun _ => by omega, fun _ => h.present _ ⟨o, hle, hlt, rfl⟩⟩
      · rw [h.other j m (fun hc => hm hc.2), hs.filled j hi hr.alloc hr.notDev m, lt_blocks_iff]
        -- a block that is not covered ends before `off` or begins behind the bytes written
        have hcases : BSIZE * m < off ∨ off + n ≤ BSIZE * m := by
          by_contra hc
          exact hm ⟨BSIZE * m, by omega, by omega, Nat.mul_div_cancel_left m (by decide)⟩
        omega
    · rw [h.inodes j hji] at ht hdev ⊢
      rw [h.other j m (fun hc => hji hc.1)]
      exact hs.filled j hj ht hdev m

/-- `writei` behind its checks. -/
theorem wp_writeInode (h : Ahead sb ds k ip i cp v.ino v [] c) (hs : Sound sb v)
    (hr : Regular (v.ino i)) (ho : 0 < k.outstanding) (hoff : off ≤ (v.ino i).size)
    (hmax : off + n ≤ MAXFILE * BSIZE) : wp (writeInode ip src off n)
      (fun _ c' => ∃ v', St sb ds k (set cp ip (v'.ino i)) v' [] c' ∧ Sound sb v' ∧
        (∀ j, j ≠ i → v'.ino j = v.ino j) ∧
        (v'.ino i).fields = { (v.ino i).fields with size := max (v.ino i).size (off + n) } ∧
        ∀ j o, v'.byteAt sb j o =
          if j = i ∧ off ≤ o ∧ o < off + n then src (o - off) else v.byteAt sb j o)
      NoBlocks c := by
  have hfull (m : Nat) (hm : m < blocks (v.ino i).size) : v.blockAt sb i m ≠ 0 :=
    (hs.filled i h.range hr.alloc hr.notDev m).mpr hm
  refine wp_mono (wp_writeInode_stored hl h hs.ledger hr hfull ho hoff hmax) ?_
    (fun _ _ he => he.1)
  rintro _ c' ⟨v', hst, hstored⟩
  exact ⟨v', hst, hstored.sound hs h.range hr hoff, hstored.inodes, hstored.fields, hstored.bytes⟩

end

end Xv6.Fs
