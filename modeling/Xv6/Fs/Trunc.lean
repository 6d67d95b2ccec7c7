import Xv6.Fs.Contents

/-!
`itrunc`, and the other changes of one inode: allocation, freeing, and
assignments to the fields.
-/

namespace Xv6.Fs

open Prog

variable {P : Type}

section

variable {sb : Superblock} {ds : Nat} (hl : Layout sb ds) {k : Kernel P} {ip : Ip} {i : Nat}
  {cp : Ip → Dinode} {ino : Nat → Dinode} {v w : View} {c : FsState P}

/-- What stays true of `w`, which was `v`, while `itrunc` gives blocks of
inode `i` back. -/
structure Shrinking (sb : Superblock) (i : Nat) (v w : View) : Prop where
  ledger : Ledger sb w
  fields : (w.ino i).fields = (v.ino i).fields
  wf : (w.ino i).Wf
  other : ∀ j r, j ≠ i → w.own sb (j, r) = v.own sb (j, r)
  bytes : ∀ j, j ≠ i → w.byteAt sb j = v.byteAt sb j

theorem Shrinking.type (h : Shrinking sb i v w) : (w.ino i).type = (v.ino i).type :=
  congrArg Meta.type h.fields

variable {q : Nat} {di : Dinode}

section

variable (h : Shrinking sb i v w) (hi : i < sb.ninodes) (ht : (v.ino i).type ≠ 0)
include h hi ht

theorem Shrinking.dropAddr (hq : q ≤ NDIRECT) (h0 : (w.ino i).addr q ≠ 0)
    (hempty : q = NDIRECT → ∀ j < NINDIRECT, tableGet (w.blk ((w.ino i).addr NDIRECT)) j = 0) :
    Shrinking sb i v (w.dropAddr i q) := by
  rw [← h.type] at ht
  have hino : (w.dropAddr i q).ino i = (w.ino i).setAddr q 0 := set_self _ _ _
  have hown : (w.dropAddr i q).own sb = _ := View.own_dropAddr hi ht hq hempty
  obtain ⟨hledger, hbytes⟩ := h.ledger.dropAddr hi ht hq h0 hempty
  refine ⟨hledger, ?_, ?_, ?_, ?_⟩
  · rw [hino, Dinode.fields_setAddr, h.fields]
  · rw [hino]
    exact h.wf.setAddr _ (by norm_num)
  · intro j r hj
    rw [hown, Function.update_of_ne (fun heq => hj (congrArg Prod.fst heq)), h.other j r hj]
  · intro j hj
    rw [hbytes j hj, h.bytes j hj]

theorem Shrinking.dropEntry (h0 : (w.ino i).addr NDIRECT ≠ 0) {j : Nat} (hj : j < NINDIRECT)
    (hj0 : tableGet (w.blk ((w.ino i).addr NDIRECT)) j ≠ 0) :
    Shrinking sb i v (w.dropEntry ((w.ino i).addr NDIRECT) j) := by
  rw [← h.type] at ht
  have hown := View.own_dropEntry h.ledger hi ht h0 hj
  obtain ⟨hledger, hbytes⟩ := h.ledger.dropEntry hi ht h0 hj hj0
  refine ⟨hledger, h.fields, h.wf, ?_, ?_⟩
  · intro m r hm
    rw [hown, Function.update_of_ne (fun heq => hm (congrArg Prod.fst heq)), h.other m r hm]
  · intro m hm
    rw [hbytes m hm, h.bytes m hm]

/-- A block at a place of the inode can be given to `bfree`. -/
theorem Shrinking.addr_used (hq : q ≤ NDIRECT) (h0 : (w.ino i).addr q ≠ 0) :
    sb.nmeta ≤ (w.ino i).addr q ∧ (w.ino i).addr q < sb.size ∧
      w.bit ((w.ino i).addr q) = true := by
  rw [← h.type] at ht
  have hown : w.own sb (i, q) = (w.ino i).addr q := by
    rw [View.own_of_alloc hi ht, Dinode.ref_addr _ _ hq]
  have hused := h.ledger.used (p := (i, q)) (by rwa [hown])
  rwa [hown] at hused

theorem Shrinking.entry_used (h0 : (w.ino i).addr NDIRECT ≠ 0) {j : Nat} (hj : j < NINDIRECT)
    (hj0 : tableGet (w.blk ((w.ino i).addr NDIRECT)) j ≠ 0) :
    tableGet (w.blk ((w.ino i).addr NDIRECT)) j < sb.size ∧
      w.bit (tableGet (w.blk ((w.ino i).addr NDIRECT)) j) = true := by
  rw [← h.type] at ht
  have hown : w.own sb (i, NDIRECT + 1 + j) = tableGet (w.blk ((w.ino i).addr NDIRECT)) j := by
    rw [View.own_of_alloc hi ht, Dinode.ref_entry _ h0 hj]
  have hused := h.ledger.used (p := (i, NDIRECT + 1 + j)) (by rwa [hown])
  rw [hown] at hused
  exact hused.2

end

/-- What is in a block that belongs to nobody does not matter. -/
theorem Shrinking.setBlk (h : Shrinking sb i v w) {t : Nat} (hbit : w.bit t = false)
    (d : Block) : Shrinking sb i v (w.setBlk t d) := by
  have hne {p : Nat × Nat} (hp : w.own sb p ≠ 0) : w.own sb p ≠ t := by
    intro heq
    have hused := (h.ledger.used hp).2.2
    rw [heq, hbit] at hused
    cases hused
  have hown : (w.setBlk t d).own sb = w.own sb := by
    funext ⟨j, r⟩
    unfold View.own
    by_cases hj : j < sb.ninodes ∧ (w.ino j).type ≠ 0
    · rw [View.setBlk_ino, if_pos hj, if_pos hj]
      apply Dinode.ref_congr (fun _ => rfl) (fun _ => rfl)
      intro _ h0 _
      have htable : w.own sb (j, NDIRECT) = (w.ino j).addr NDIRECT := by
        rw [View.own_of_alloc hj.1 hj.2, Dinode.ref_addr _ _ (Nat.le_refl _)]
      have hjt := hne (p := (j, NDIRECT)) (by rw [htable]; exact h0)
      rw [htable] at hjt
      rw [View.setBlk_blk, set_of_ne _ _ hjt]
    · rw [View.setBlk_ino, if_neg hj, if_neg hj]
  refine ⟨⟨?_, h.ledger.reserved⟩, h.fields, h.wf, ?_, ?_⟩
  · rw [hown]
    exact h.ledger.owns
  · intro j r hj
    rw [hown, h.other j r hj]
  · intro j hj
    rw [← h.bytes j hj]
    funext o
    unfold View.byteAt View.blockAt
    rw [hown]
    split
    · rfl
    · next h0 => rw [View.setBlk_blk, set_of_ne _ _ (hne h0)]

/-- The address `q` of the inode is cleared in the copy. -/
theorem Ahead.dropAddr {held : List Nat} (h : Ahead sb ds k ip i cp ino w held c) {bit : Nat → Bool}
    {blk : Nat → Block} {c' : FsState P}
    (hst : St sb ds k (set cp ip (w.ino i)) ⟨ino, bit, blk⟩ [] c') :
    Ahead sb ds k ip i cp ino ⟨set w.ino i ((w.ino i).setAddr q 0), bit, blk⟩ []
      { c' with copy := set c'.copy ip ((w.ino i).setAddr q 0) } where
  st := { hst with copy := by simp [hst.copy] }
  dev := h.dev
  inum := h.inum
  range := h.range
  ino := by
    rw [h.ino]
    simp

include hl

/-- The first loop of `itrunc`. -/
theorem wp_itrunc_direct (h : Ahead sb ds k ip i cp ino v [] c) (hledger : Ledger sb v)
    (ht : (v.ino i).type ≠ 0) (hwf : (v.ino i).Wf) (ho : 0 < k.outstanding) :
    wp (times (fun q => do
          let di ← getCopy ip
          when (di.addr q ≠ 0) do
            bfree 1 (di.addr q)
            setCopy ip (di.setAddr q 0)) NDIRECT)
      (fun _ c' => ∃ w, Ahead sb ds k ip i cp ino w [] c' ∧ Shrinking sb i v w ∧
        ∀ q < NDIRECT, (w.ino i).addr q = 0)
      (fun _ _ => False) c := by
  apply wp_times _ (fun q c' => ∃ w, Ahead sb ds k ip i cp ino w [] c' ∧ Shrinking sb i v w ∧
    ∀ r < q, (w.ino i).addr r = 0)
  · exact ⟨v, h, ⟨hledger, rfl, hwf, fun _ _ _ => rfl, fun _ _ => rfl⟩,
      fun r hr => absurd hr (Nat.not_lt_zero r)⟩
  · rintro q c' hq ⟨w, h', hs, hzero⟩
    have hi := h'.range
    have hcopy : c'.copy ip = w.ino i := by rw [h'.st.copy, set_self]
    have hq' : q < NDIRECT + 1 := by omega
    unfold getCopy
    simp only [wp_bind, wp_gets, hcopy, wp_when]
    refine ⟨?_, ?_⟩
    · intro h0
      obtain ⟨-, hsize, hbit⟩ := hs.addr_used hi ht hq.le h0
      refine wp_mono_total (wp_bfree hl h'.st ho HeldData.nil hsize hbit) ?_
      intro _ c'' hst
      have hino : (w.dropAddr i q).ino i = (w.ino i).setAddr q 0 := set_self _ _ _
      refine ⟨w.dropAddr i q, ?_, hs.dropAddr hi ht hq.le h0 (fun heq => by omega), ?_⟩
      · exact h'.dropAddr hst
      · intro r hr
        rw [hino, Dinode.addr_setAddr _ hq']
        split
        · rfl
        · exact hzero r (by omega)
    · intro h0
      refine ⟨w, h', hs, ?_⟩
      intro r hr
      by_cases hrq : r = q
      · rw [hrq]
        simpa using h0
      · exact hzero r (by omega)
  · exact fun c' hw => hw

/-- The second loop of `itrunc`, over the entries of the indirect block `t`,
whose buffer is held. The entries stay in the block; `u` is the view in which
those given back are already zero. -/
theorem wp_itrunc_entries (hs : Shrinking sb i v w) (hi : i < sb.ninodes)
    (ht : (v.ino i).type ≠ 0) (ho : 0 < k.outstanding) (h0 : (w.ino i).addr NDIRECT ≠ 0)
    (hst : St sb ds k cp ⟨ino, w.bit, w.blk⟩ [(w.ino i).addr NDIRECT] c) :
    wp (times (fun j => when (tableGet (w.blk ((w.ino i).addr NDIRECT)) j ≠ 0)
          (bfree 1 (tableGet (w.blk ((w.ino i).addr NDIRECT)) j))) NINDIRECT)
      (fun _ c' => ∃ u, Shrinking sb i v u ∧ u.ino = w.ino ∧
        (∀ b, b ≠ (w.ino i).addr NDIRECT → u.blk b = w.blk b) ∧
        (∀ m < NINDIRECT, tableGet (u.blk ((w.ino i).addr NDIRECT)) m = 0) ∧
        St sb ds k cp ⟨ino, u.bit, w.blk⟩ [(w.ino i).addr NDIRECT] c')
      (fun _ _ => False) c := by
  generalize htab : (w.ino i).addr NDIRECT = t at *
  refine wp_times NINDIRECT (fun j c' => ∃ u, Shrinking sb i v u ∧ u.ino = w.ino ∧
    (∀ b, b ≠ t → u.blk b = w.blk b) ∧ (∀ m < j, tableGet (u.blk t) m = 0) ∧
    (∀ m, j ≤ m → tableGet (u.blk t) m = tableGet (w.blk t) m) ∧
    St sb ds k cp ⟨ino, u.bit, w.blk⟩ [t] c') ?_ ?_ ?_
  · exact ⟨w, hs, rfl, fun _ _ => rfl, fun m hm => absurd hm (Nat.not_lt_zero m),
      fun _ _ => rfl, hst⟩
  · rintro j c' hj ⟨u, hu, hino, hblk, hdone, htodo, hst'⟩
    have hut : (u.ino i).addr NDIRECT = t := by rw [hino, htab]
    have hu0 : (u.ino i).addr NDIRECT ≠ 0 := by rwa [hut]
    simp only [wp_when]
    refine ⟨?_, ?_⟩
    · intro hj0
      rw [← htodo j (Nat.le_refl _)] at hj0 ⊢
      have hused := hu.entry_used hi ht hu0 hj (by rwa [hut])
      have hdrop := hu.dropEntry hi ht hu0 hj (by rwa [hut])
      rw [hut] at hused hdrop
      have hheld : HeldData sb ⟨ino, u.bit, w.blk⟩ [t] := by
        intro b hb
        rw [List.mem_singleton] at hb
        have htused := hu.addr_used hi ht (Nat.le_refl _) hu0
        rw [hut] at htused
        rwa [hb]
      refine wp_mono_total (wp_bfree hl hst' ho hheld hused.1 hused.2) ?_
      intro _ c'' hst''
      have hnew : (u.dropEntry t j).blk t = tableSet (u.blk t) j 0 := set_self _ _ _
      refine ⟨u.dropEntry t j, hdrop, hino, ?_, ?_, ?_, hst''⟩
      · intro b hb
        exact (set_of_ne _ _ hb).trans (hblk b hb)
      · intro m hm
        rw [hnew]
        by_cases hmj : m = j
        · rw [hmj, tableGet_tableSet_self _ hj (by norm_num)]
        · rw [tableGet_tableSet_of_ne _ hmj, hdone m (by omega)]
      · intro m hm
        rw [hnew, tableGet_tableSet_of_ne _ (by omega), htodo m (by omega)]
    · intro hj0
      refine ⟨u, hu, hino, hblk, ?_, fun m hm => htodo m (by omega), hst'⟩
      intro m hm
      by_cases hmj : m = j
      · rw [hmj, htodo j (Nat.le_refl _)]
        simpa using hj0
      · exact hdone m (by omega)
  · rintro c' ⟨u, hu, hino, hblk, hdone, -, hst'⟩
    exact ⟨u, hu, hino, hblk, hdone, hst'⟩

theorem wp_itrunc_indirect (h : Ahead sb ds k ip i cp ino w [] c) (hs : Shrinking sb i v w)
    (ht : (v.ino i).type ≠ 0) (ho : 0 < k.outstanding)
    (hdirect : ∀ q < NDIRECT, (w.ino i).addr q = 0) :
    wp (when ((w.ino i).addr NDIRECT ≠ 0) do
          let d ← bread 1 ((w.ino i).addr NDIRECT)
          times (fun j => when (tableGet d j ≠ 0) (bfree 1 (tableGet d j))) NINDIRECT
          brelse ((w.ino i).addr NDIRECT)
          bfree 1 ((w.ino i).addr NDIRECT)
          setCopy ip ((w.ino i).setAddr NDIRECT 0))
      (fun _ c' => ∃ w', Ahead sb ds k ip i cp ino w' [] c' ∧ Shrinking sb i v w' ∧
        ∀ q, (w'.ino i).addr q = 0)
      (fun _ _ => False) c := by
  have hi := h.range
  have hzero {di : Dinode} (hd : ∀ q < NDIRECT, di.addr q = 0) (h0 : di.addr NDIRECT = 0)
      (q : Nat) : di.addr q = 0 := by
    by_cases hlt : q < NDIRECT
    · exact hd q hlt
    · by_cases heq : q = NDIRECT
      · rw [heq, h0]
      · exact dif_neg (by omega)
  rw [wp_when]
  refine ⟨?_, ?_⟩
  · intro h0
    obtain ⟨hheld, hdisk, hlt⟩ := h.table_read hl hs.ledger (by rwa [hs.type]) h0
    simp only [wp_bind]
    apply wp_bread rfl hlt (by simp [h.st.held])
    rw [hdisk]
    have hst : St sb ds k (set cp ip (w.ino i)) ⟨ino, w.bit, w.blk⟩ [(w.ino i).addr NDIRECT]
        { c with held := (w.ino i).addr NDIRECT :: c.held } :=
      { h.st with held := by rw [h.st.held] }
    refine wp_mono_total (wp_itrunc_entries hl hs hi ht ho h0 hst) ?_
    rintro _ c' ⟨u, hu, hino, hblk, hempty, hst'⟩
    have hut : (u.ino i).addr NDIRECT = (w.ino i).addr NDIRECT := by rw [hino]
    obtain ⟨-, hsize, hbit⟩ := hu.addr_used hi ht (Nat.le_refl _) (by rwa [hut])
    rw [hut] at hsize hbit
    apply wp_brelse
    have hst'' : St sb ds k (set cp ip (w.ino i)) ⟨ino, u.bit, w.blk⟩ []
        { c' with held := c'.held.erase ((w.ino i).addr NDIRECT) } :=
      { hst' with held := by simp [hst'.held] }
    refine wp_mono_total (wp_bfree hl hst'' ho HeldData.nil hsize hbit) ?_
    intro _ c'' hfreed
    have hdrop := hu.dropAddr hi ht (Nat.le_refl _) (by rwa [hut])
      (fun _ j hj => by rw [hut]; exact hempty j hj)
    have hclear : (u.dropAddr i NDIRECT).bit ((w.ino i).addr NDIRECT) = false := by
      rw [← hut]
      exact set_self _ _ _
    refine ⟨_, h.dropAddr hfreed, ?_, ?_⟩
    · -- the ghost view differs from the disk in the freed block only
      have hback := hdrop.setBlk hclear (w.blk ((w.ino i).addr NDIRECT))
      have heq : (u.dropAddr i NDIRECT).setBlk ((w.ino i).addr NDIRECT)
          (w.blk ((w.ino i).addr NDIRECT)) =
          ⟨set w.ino i ((w.ino i).setAddr NDIRECT 0),
            set u.bit ((w.ino i).addr NDIRECT) false, w.blk⟩ := by
        unfold View.setBlk View.dropAddr
        rw [hino]
        congr 1
        funext b
        by_cases hb : b = (w.ino i).addr NDIRECT
        · rw [hb, set_self]
        · rw [set_of_ne _ _ hb, hblk b hb]
      rwa [heq] at hback
    · apply hzero
      · intro q hq
        simp only [set_self]
        rw [Dinode.addr_setAddr _ (Nat.lt_succ_self _), if_neg (by omega)]
        exact hdirect q hq
      · simp only [set_self]
        rw [Dinode.addr_setAddr _ (Nat.lt_succ_self _), if_pos rfl]
  · intro h0
    exact ⟨w, h, hs, hzero hdirect (by simpa using h0)⟩

omit hl in
/-- Inode `i` has given all its blocks back. -/
structure Truncated (sb : Superblock) (i : Nat) (v v' : View) : Prop where
  sound : Sound sb v'
  other : ∀ j, j ≠ i → v'.ino j = v.ino j
  fields : (v'.ino i).fields = { (v.ino i).fields with size := 0 }
  addrs : ∀ q, (v'.ino i).addr q = 0
  wf : (v'.ino i).Wf
  bytes : ∀ j, j ≠ i → v'.byteAt sb j = v.byteAt sb j

omit hl in
theorem View.own_of_no_addrs (haddr : ∀ q, (v.ino i).addr q = 0) (r : Nat) :
    v.own sb (i, r) = 0 := by
  unfold View.own
  split
  · by_cases hr : r ≤ NDIRECT
    · rw [Dinode.ref_addr _ _ hr, haddr]
    · exact Dinode.ref_eq_zero (by omega) (fun h0 => absurd (haddr _) h0)
  · rfl

omit hl in
theorem View.byteAt_of_no_addrs (haddr : ∀ q, (v.ino i).addr q = 0) (o : Nat) :
    v.byteAt sb i o = 0 :=
  if_pos (View.own_of_no_addrs haddr _)

omit hl in
/-- An inode without blocks is in order, whatever the others are. -/
theorem Sound.of_empty {v' : View} (hs : Sound sb v) (hledger : Ledger sb v')
    (hino : ∀ j, j ≠ i → v'.ino j = v.ino j)
    (hown : ∀ j r, j ≠ i → v'.own sb (j, r) = v.own sb (j, r))
    (haddr : ∀ q, (v'.ino i).addr q = 0) (hsize : (v'.ino i).size = 0) : Sound sb v' := by
  refine ⟨hledger, ?_⟩
  intro j hj ht hdev m
  by_cases hji : j = i
  · subst hji
    have h0 : v'.blockAt sb j m = 0 := View.own_of_no_addrs haddr _
    have hnb : blocks (v'.ino j).size = 0 := by
      rw [hsize]
      decide
    simp only [h0, hnb]
    simp
  · rw [hino j hji] at ht hdev
    have hfilled := hs.filled j hj ht hdev m
    unfold View.blockAt at *
    simp only [hown j _ hji, hino j hji]
    exact hfilled

theorem wp_itrunc (h : Ahead sb ds k ip i cp v.ino v [] c) (hs : Sound sb v)
    (ht : (v.ino i).type ≠ 0) (hwf : (v.ino i).Wf) (ho : 0 < k.outstanding) :
    wp (itrunc ip)
      (fun _ c' => ∃ v', St sb ds k (set cp ip (v'.ino i)) v' [] c' ∧ Truncated sb i v v')
      (fun _ _ => False) c := by
  unfold itrunc getEntry
  simp only [wp_bind, wp_gets, h.st.kernel, h.dev]
  refine wp_mono_total (wp_itrunc_direct hl h hs.ledger ht hwf ho) ?_
  rintro _ c' ⟨w, h', hw, hdirect⟩
  have hcopy : c'.copy ip = w.ino i := by rw [h'.st.copy, set_self]
  unfold getCopy
  rw [wp_gets, hcopy]
  refine wp_mono_total (wp_itrunc_indirect hl h' hw ht ho hdirect) ?_
  rintro _ c'' ⟨w', h'', hw', hzero⟩
  have hcopy' : c''.copy ip = w'.ino i := by rw [h''.st.copy, set_self]
  rw [wp_gets, hcopy', wp_setCopy]
  have hwf' : ((w'.ino i).setSize 0).Wf := { hw'.wf with size := by norm_num [Dinode.setSize] }
  have hup := (h''.setCopy ((w'.ino i).setSize 0)).wp_iupdate hl ho
    (by rw [View.setIno_ino, set_self]; exact hwf')
  refine wp_mono_total hup ?_
  intro _ c₃ hst
  have hown : (w'.setIno i ((w'.ino i).setSize 0)).own sb = w'.own sb :=
    View.own_setIno rfl (fun _ => rfl)
  have hino (j : Nat) (hj : j ≠ i) : (w'.setIno i ((w'.ino i).setSize 0)).ino j = v.ino j := by
    rw [View.setIno_ino, set_of_ne _ _ hj, h''.ino, set_of_ne _ _ hj]
  have hself : (w'.setIno i ((w'.ino i).setSize 0)).ino i = (w'.ino i).setSize 0 := set_self _ _ _
  have haddr (q : Nat) : ((w'.setIno i ((w'.ino i).setSize 0)).ino i).addr q = 0 := by
    rw [hself, Dinode.addr_setSize, hzero]
  have hledger : Ledger sb (w'.setIno i ((w'.ino i).setSize 0)) :=
    ⟨by rw [hown]; exact hw'.ledger.owns, hw'.ledger.reserved⟩
  refine ⟨_, hst, hs.of_empty hledger hino ?_ haddr (by rw [hself]; rfl), hino, ?_, haddr, ?_, ?_⟩
  · intro j r hj
    rw [hown, hw'.other j r hj]
  · rw [hself, ← hw'.fields]
    rfl
  · rw [hself]
    exact hwf'
  · intro j hj
    rw [View.byteAt_congr hown rfl, hw'.bytes j hj]

omit hl in
/-- An inode that gets no blocks and had none. -/
theorem View.own_setIno_empty (hold : ∀ r, v.own sb (i, r) = 0) (haddr : ∀ q, di.addr q = 0) :
    (v.setIno i di).own sb = v.own sb := by
  funext ⟨j, r⟩
  by_cases hj : j = i
  · subst hj
    rw [hold]
    apply View.own_of_no_addrs
    intro q
    rw [View.setIno_ino, set_self, haddr]
  · unfold View.own
    rw [View.setIno_ino, set_of_ne _ _ hj, View.setIno_blk]

omit hl in
theorem Sound.setIno_empty (hs : Sound sb v) (hold : ∀ r, v.own sb (i, r) = 0)
    (haddr : ∀ q, di.addr q = 0) (hsize : di.size = 0) :
    Sound sb (v.setIno i di) ∧ (v.setIno i di).byteAt sb = v.byteAt sb := by
  have hown := View.own_setIno_empty hold haddr
  have hself : (v.setIno i di).ino i = di := set_self _ _ _
  refine ⟨hs.of_empty (i := i) ⟨?_, hs.ledger.reserved⟩ ?_ ?_ ?_ ?_,
    View.byteAt_congr hown rfl⟩
  · rw [hown]
    exact hs.ledger.owns
  · intro j hj
    exact set_of_ne _ _ hj
  · intro j r _
    rw [hown]
  · rw [hself]
    exact haddr
  · rw [hself, hsize]

omit hl in
/-- `major`, `minor` and `nlink` have nothing to do with the blocks. -/
theorem Sound.amend (hs : Sound sb v) (f : Meta → Meta) :
    Sound sb (v.setIno i ((v.ino i).amend f)) ∧
      (v.setIno i ((v.ino i).amend f)).byteAt sb = v.byteAt sb := by
  have hown : (v.setIno i ((v.ino i).amend f)).own sb = v.own sb :=
    View.own_setIno rfl (fun _ => rfl)
  have hsize (j : Nat) : ((v.setIno i ((v.ino i).amend f)).ino j).size = (v.ino j).size := by
    by_cases hj : j = i
    · subst hj
      simp [Dinode.amend]
    · simp [set_of_ne _ _ hj]
  refine ⟨⟨⟨?_, hs.ledger.reserved⟩, ?_⟩, View.byteAt_congr hown rfl⟩
  · rw [hown]
    exact hs.ledger.owns
  · intro j hj ht hdev m
    have htype : ((v.setIno i ((v.ino i).amend f)).ino j).type = (v.ino j).type :=
      View.setIno_type (by rfl) j
    rw [htype] at ht hdev
    unfold View.blockAt
    simp only [hown, hsize]
    exact hs.filled j hj ht hdev m

omit hl in
theorem Dinode.Wf.amend (h : di.Wf) (f : Meta → Meta) : (di.amend f).Wf :=
  { h with
    major := short_short _
    minor := short_short _
    nlink := short_short _ }

theorem wp_updateInode (h : Ahead sb ds k ip i cp v.ino v [] c) (hwf : (v.ino i).Wf)
    (ho : 0 < k.outstanding) (f : Meta → Meta) :
    wp (updateInode ip f)
      (fun _ c' => St sb ds k (set cp ip ((v.ino i).amend f))
        (v.setIno i ((v.ino i).amend f)) [] c')
      (fun _ _ => False) c := by
  have hcopy : c.copy ip = v.ino i := by rw [h.st.copy, set_self]
  have hself : (v.setIno i ((v.ino i).amend f)).ino i = (v.ino i).amend f := set_self _ _ _
  unfold updateInode getCopy
  simp only [wp_bind, wp_gets, hcopy, wp_setCopy]
  have hup := (h.setCopy ((v.ino i).amend f)).wp_iupdate hl ho
    (by rw [hself]; exact hwf.amend f)
  rwa [hself] at hup

theorem wp_freeInode (h : Ahead sb ds k ip i cp v.ino v [] c) (hs : Sound sb v)
    (ht : (v.ino i).type ≠ 0) (hwf : (v.ino i).Wf) (ho : 0 < k.outstanding) :
    wp (freeInode ip)
      (fun _ c' => ∃ v', St sb ds (k.setEntry ip { k.icache ip with valid := false })
          (set cp ip (v'.ino i)) v' [] c' ∧ Sound sb v' ∧ (v'.ino i).type = 0 ∧
        (∀ j, j ≠ i → v'.ino j = v.ino j) ∧ ∀ j, j ≠ i → v'.byteAt sb j = v.byteAt sb j)
      (fun _ _ => False) c := by
  unfold freeInode getCopy setValid
  simp only [wp_bind]
  refine wp_mono_total (wp_itrunc hl h hs ht hwf ho) ?_
  rintro _ c' ⟨v', hst, htr⟩
  have hcopy : c'.copy ip = v'.ino i := by rw [hst.copy, set_self]
  have hahead : Ahead sb ds k ip i (set cp ip (v'.ino i)) v'.ino v' [] c' :=
    hst.ahead (set_self _ _ _) h.dev h.inum h.range
  have hself : (v'.setIno i ((v'.ino i).setType 0)).ino i = (v'.ino i).setType 0 := set_self _ _ _
  simp only [wp_gets, hcopy, wp_setCopy]
  have hup := (hahead.setCopy ((v'.ino i).setType 0)).wp_iupdate hl ho
    (by rw [hself]; exact { htr.wf with type := (by decide : short 0 = 0) })
  refine wp_mono_total hup ?_
  intro _ c'' hst'
  rw [wp_modify]
  have haddr (q : Nat) : ((v'.ino i).setType 0).addr q = 0 := htr.addrs q
  obtain ⟨hsound, hbytes⟩ := htr.sound.setIno_empty (View.own_of_no_addrs htr.addrs) haddr
    (congrArg Meta.size htr.fields)
  refine ⟨v'.setIno i ((v'.ino i).setType 0), ?_, hsound, ?_, ?_, ?_⟩
  · exact
      { hst' with
        kernel := by rw [hst'.kernel]
        copy := by rw [hst'.copy, set_set] }
  · rw [hself]
    rfl
  · intro j hj
    exact (set_of_ne _ _ hj).trans (htr.other j hj)
  · intro j hj
    rw [hbytes, htr.bytes j hj]

end

end Xv6.Fs
