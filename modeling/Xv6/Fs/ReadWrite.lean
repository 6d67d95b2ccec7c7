import Xv6.Fs.Fresh
import Xv6.Fs.Logged

/-!
`readi` and `writei` on a file whose blocks below its size are all there, for
every offset and count that the arguments can have.
-/

namespace Xv6.Fs

open Prog

variable {P : Type}

/-! ### Room on the disk -/

section Room

variable (sb : Superblock) (v : View) (i off n : Nat)

/-- The positions of inode `i` that must get a block before the `n` bytes at
`off` can be written. -/
def View.missing : Set (Nat × Nat) := {p | p.1 = i ∧ Places off n p.2 ∧ v.own sb p = 0}

/-- There are blocks for all of them. -/
def View.Room : Prop := (v.missing sb i off n).ncard ≤ {b | v.Free sb b}.ncard

variable {sb v i off n}

theorem missing_finite : (v.missing sb i off n).Finite := by
  apply (Set.finite_Iic ((i, off + n + NDIRECT + 1) : Nat × Nat)).subset
  rintro ⟨j, q⟩ ⟨hj, ⟨m, ⟨o, -, hlt, rfl⟩, hq⟩, -⟩
  have hdiv := Nat.div_le_self o BSIZE
  refine ⟨hj.le, ?_⟩
  change q ≤ off + n + NDIRECT + 1
  rcases hq with rfl | ⟨rfl, -⟩
  · unfold View.position
    split <;> omega
  · omega

/-- Every data block is free or at a place. -/
theorem Ledger.count (h : Ledger sb v) :
    {p | v.own sb p ≠ 0}.ncard + {b | v.Free sb b}.ncard = (Set.Ico sb.nmeta sb.size).ncard := by
  have hsplit : {b | sb.nmeta ≤ b ∧ b < sb.size ∧ v.bit b = true} ∪ {b | v.Free sb b} =
      Set.Ico sb.nmeta sb.size := by
    ext b
    constructor
    · rintro (⟨hle, hlt, -⟩ | ⟨hle, hlt, -⟩) <;> exact ⟨hle, hlt⟩
    · rintro ⟨hle, hlt⟩
      cases hb : v.bit b
      · exact Or.inr ⟨hle, hlt, hb⟩
      · exact Or.inl ⟨hle, hlt, hb⟩
  have hdisj : Disjoint {b | sb.nmeta ≤ b ∧ b < sb.size ∧ v.bit b = true}
      {b | v.Free sb b} := by
    rw [Set.disjoint_left]
    rintro b ⟨-, -, hset⟩ ⟨-, -, hclear⟩
    rw [hset] at hclear
    cases hclear
  have hfin := Set.finite_Ico sb.nmeta sb.size
  rw [← hsplit] at hfin
  rw [h.owns.ncard_places, ← hsplit]
  exact (Set.ncard_union_eq hdisj (hfin.subset Set.subset_union_left)
    (hfin.subset Set.subset_union_right)).symm

theorem Ledger.places_finite (h : Ledger sb v) : {p | v.own sb p ≠ 0}.Finite := by
  refine Set.Finite.of_finite_image (f := v.own sb)
    ((Set.finite_Ico sb.nmeta sb.size).subset ?_) ?_
  · rintro b ⟨p, hp, rfl⟩
    obtain ⟨hle, hlt, -⟩ := h.used hp
    exact ⟨hle, hlt⟩
  · intro p hp q _ heq
    exact h.owns.unique p q heq hp

theorem Ledger.ncard_union_missing (h : Ledger sb v) (i off n : Nat) :
    ({p | v.own sb p ≠ 0} ∪ v.missing sb i off n).ncard =
      {p | v.own sb p ≠ 0}.ncard + (v.missing sb i off n).ncard := by
  refine Set.ncard_union_eq ?_ h.places_finite missing_finite
  rw [Set.disjoint_left]
  rintro p hp ⟨-, -, h0⟩
  exact hp h0

/-- A write that was done had room. -/
theorem Stored.room {v' : View} {src : Nat → UInt8} (hs : Stored sb v i src off n v')
    (h : Ledger sb v) : v.Room sb i off n := by
  have hplaces : {p | v.own sb p ≠ 0} ∪ v.missing sb i off n = {p | v'.own sb p ≠ 0} := by
    ext ⟨j, q⟩
    by_cases hp : j = i ∧ Places off n q
    · obtain ⟨rfl, hq⟩ := hp
      refine ⟨fun _ => hs.places q hq, fun _ => ?_⟩
      by_cases h0 : v.own sb (j, q) = 0
      · exact Or.inr ⟨rfl, hq, h0⟩
      · exact Or.inl h0
    · change _ ∨ _ ↔ v'.own sb (j, q) ≠ 0
      rw [hs.own (j, q) hp]
      exact ⟨fun hor => hor.resolve_right (fun hm => hp ⟨hm.1, hm.2.1⟩), Or.inl⟩
  have hcount := h.ncard_union_missing i off n
  rw [hplaces] at hcount
  have hbefore := h.count
  have hafter := hs.ledger.count
  unfold View.Room
  omega

/-- A block that is there needs no other one. -/
theorem own_ne_zero_of_behind {m q : Nat} (h0 : v.blockAt sb i m ≠ 0) (hq : Behind m q) :
    v.own sb (i, q) ≠ 0 := by
  rcases hq with rfl | ⟨rfl, hm⟩
  · exact h0
  · unfold View.blockAt View.own at h0
    unfold View.own
    split at h0
    · next halloc =>
        rw [if_pos halloc, Dinode.ref_addr _ _ (Nat.le_refl _)]
        intro hzero
        apply h0
        have hposition : View.position m = m + 1 := if_neg (by omega)
        dsimp only
        rw [hposition, Dinode.ref, if_neg (by omega), if_neg (fun hc => hc.1 hzero)]
    · exact absurd rfl h0

theorem room_of_present (h : ∀ m, Covers off n m → v.blockAt sb i m ≠ 0) : v.Room sb i off n := by
  have hempty : v.missing sb i off n = ∅ := by
    ext ⟨j, q⟩
    refine ⟨?_, fun hp => (nomatch hp)⟩
    rintro ⟨hj, ⟨m, hm, hq⟩, h0⟩
    dsimp only at hj hq
    subst hj
    exact own_ne_zero_of_behind (h m hm) hq h0
  unfold View.Room
  rw [hempty, Set.ncard_empty]
  exact Nat.zero_le _

theorem room_zero : v.Room sb i off 0 :=
  room_of_present fun _ ⟨_, hle, hlt, _⟩ => absurd hle (by omega)

/-- A file without holes is not longer than a file can be. -/
theorem size_le_of_full (h : ∀ m < blocks (v.ino i).size, v.blockAt sb i m ≠ 0) :
    (v.ino i).size ≤ MAXFILE * BSIZE := by
  by_contra hgt
  apply h MAXFILE
  · rw [lt_blocks_iff, Nat.mul_comm]
    omega
  · exact View.blockAt_of_ge (Nat.le_refl _)

/-- A write that got stuck had none. -/
theorem Stuck.no_room (hs : Stuck sb i v (Places off n)) (h : Ledger sb v) :
    ¬ v.Room sb i off n := by
  obtain ⟨w, hledger, hfull, hown, q, hq, h0⟩ := hs
  have hsub : {p | w.own sb p ≠ 0} ⊂ {p | v.own sb p ≠ 0} ∪ v.missing sb i off n := by
    refine ⟨?_, ?_⟩
    · rintro ⟨j, r⟩ hp
      by_cases hplace : j = i ∧ Places off n r
      · by_cases hv : v.own sb (j, r) = 0
        · exact Or.inr ⟨hplace.1, hplace.2, hv⟩
        · exact Or.inl hv
      · left
        change v.own sb (j, r) ≠ 0
        rw [← hown (j, r) hplace]
        exact hp
    · intro hle
      have hmem : (i, q) ∈ {p | v.own sb p ≠ 0} ∪ v.missing sb i off n := by
        by_cases hv : v.own sb (i, q) = 0
        · exact Or.inr ⟨rfl, hq, hv⟩
        · exact Or.inl hv
      exact hle hmem h0
  have hlt := Set.ncard_lt_ncard hsub (h.places_finite.union missing_finite)
  have hempty : {b | w.Free sb b} = ∅ := by
    ext b
    refine ⟨?_, fun hb => (nomatch hb)⟩
    rintro ⟨hle, hsize, hclear⟩
    rw [hfull b hle hsize] at hclear
    cases hclear
  have hbefore := h.count
  have hafter := hledger.count
  rw [hempty, Set.ncard_empty] at hafter
  rw [h.ncard_union_missing] at hlt
  unfold View.Room
  omega

end Room

/-- `ip` is the locked, valid entry of inode `i`, which is a file without holes
below its size; other files may have holes. -/
structure Locked (sb : Superblock) (ds : Nat) (k : Kernel P) (cp : Ip → Dinode) (v : View)
    (ip : Ip) (i : Nat) (c : FsState P) : Prop where
  st : St sb ds k cp v [] c
  dev : (k.icache ip).dev = 1
  inum : (k.icache ip).inum = i
  range : i < sb.ninodes
  copy : cp ip = v.ino i
  ledger : Ledger sb v
  alloc : (v.ino i).type ≠ 0
  notDev : (v.ino i).type ≠ T_DEV
  full : ∀ m < blocks (v.ino i).size, v.blockAt sb i m ≠ 0

section

variable {sb : Superblock} {ds : Nat} {k : Kernel P} {cp : Ip → Dinode} {v : View} {ip : Ip}
  {i : Nat} {c : FsState P} {off n : Nat} {p : P}

namespace Locked

theorem regular (h : Locked sb ds k cp v ip i c) : Regular (v.ino i) where
  alloc := h.alloc
  notDev := h.notDev
  wf := by
    rw [← h.st.shows.ino i h.range]
    exact getDinode_wf _ _

theorem fields (h : Locked sb ds k cp v ip i c) : (c.copy ip).fields = (v.ino i).fields := by
  rw [h.st.copy, h.copy]

theorem ahead (h : Locked sb ds k cp v ip i c) : Ahead sb ds k ip i cp v.ino v [] c :=
  h.st.ahead h.copy h.dev h.inum h.range

variable [DecidableEq P]

/-- The checks of `readi`. -/
theorem readi_eq (h : Locked sb ds k cp v ip i c) (off n : Nat) :
    readi diskOps p ip off n c =
      if (v.ino i).size < off ∨ (off + n) % 2 ^ 32 < off then (.ok (-1, fun _ => 0), c)
      else
        (do
          let n := if off + n > (v.ino i).size then (v.ino i).size - off else n
          let bytes ← diskOps.read ip off n
          return ((n : Int), bytes)) c := by
  have hdev : ¬ (v.ino i).fields.type = T_DEV := h.notDev
  change (if (c.copy ip).fields.type = T_DEV then _ else _ : FsM P (Int × (Nat → UInt8))) c = _
  rw [h.fields, if_neg hdev]
  by_cases hbad : (v.ino i).size < off ∨ (off + n) % 2 ^ 32 < off
  · rw [if_pos hbad, if_pos (by exact hbad)]
    rfl
  · rw [if_neg hbad, if_neg (by exact hbad)]
    rfl

/-- The checks of `writei`. -/
theorem writei_eq (h : Locked sb ds k cp v ip i c) (src : Nat → UInt8) (off n : Nat) :
    writei diskOps p ip src off n c =
      if (v.ino i).size < off ∨ (off + n) % 2 ^ 32 < off ∨ MAXFILE * BSIZE < off + n then
        (.ok (-1), c)
      else
        (do
          diskOps.write ip src off n
          return (n : Int)) c := by
  have hdev : ¬ (v.ino i).fields.type = T_DEV := h.notDev
  change (if (c.copy ip).fields.type = T_DEV then _ else _ : FsM P Int) c = _
  rw [h.fields, if_neg hdev]
  by_cases hbad : (v.ino i).size < off ∨ (off + n) % 2 ^ 32 < off
  · rw [if_pos (by exact hbad), if_pos (by tauto)]
    rfl
  · rw [if_neg (by exact hbad)]
    by_cases hlong : MAXFILE * BSIZE < off + n
    · rw [if_pos (by exact hlong), if_pos (by tauto)]
      rfl
    · rw [if_neg (by exact hlong), if_neg (by tauto)]

end Locked

/-- The C test for a sum beyond 32 bits. -/
theorem wraps_iff (hoff : off < 2 ^ 32) (hn : n < 2 ^ 32) :
    (off + n) % 2 ^ 32 < off ↔ 2 ^ 32 ≤ off + n := by
  omega

/-- The bytes of a file that are there to be read. -/
theorem Locked.covered (h : Locked sb ds k cp v ip i c) {len m : Nat}
    (hle : off + len ≤ (v.ino i).size) (hm : Covers off len m) : v.blockAt sb i m ≠ 0 :=
  h.full m (covers_lt_blocks hm hle)

variable (hl : Layout sb ds) [DecidableEq P]

include hl

theorem Locked.wp_readi (h : Locked sb ds k cp v ip i c) (hoff : off < 2 ^ 32)
    (hn : n < 2 ^ 32) (hle : off ≤ (v.ino i).size) (hfits : off + n < 2 ^ 32) :
    wp (readi diskOps p ip off n)
      (fun r c' => r.1 = (min n ((v.ino i).size - off) : Nat) ∧
        (∀ j < min n ((v.ino i).size - off), r.2 j = v.byteAt sb i (off + j)) ∧
        Locked sb ds k cp v ip i c')
      (fun _ _ => False) c := by
  have hbad : ¬ ((v.ino i).size < off ∨ (off + n) % 2 ^ 32 < off) := by
    rw [wraps_iff hoff hn]
    omega
  have hlen : (if off + n > (v.ino i).size then (v.ino i).size - off else n) =
      min n ((v.ino i).size - off) := by
    split <;> omega
  unfold wp
  rw [h.readi_eq, if_neg hbad, hlen]
  change wp (_ >>= _) _ _ c
  rw [wp_bind]
  refine wp_mono_total (wp_readLoop_present hl h.ahead h.ledger h.regular (Nat.sub_le _ _)
    (fun m hm => h.covered (by omega) hm)) ?_
  rintro r c' ⟨rfl, hahead⟩
  have hst := hahead.st
  rw [← h.copy, set_eta] at hst
  refine ⟨rfl, ?_, { h with st := hst }⟩
  intro j hj
  dsimp only
  rw [if_pos ⟨Nat.zero_le j, hj⟩, Nat.sub_zero]

theorem Locked.wp_writei (h : Locked sb ds k cp v ip i c) (src : Nat → UInt8)
    (ho : 0 < k.outstanding) (hoff : off < 2 ^ 32) (hn : n < 2 ^ 32)
    (hle : off ≤ (v.ino i).size) (hmax : off + n ≤ MAXFILE * BSIZE) :
    wp (writei diskOps p ip src off n)
      (fun r c' => r = n ∧ ∃ v', Locked sb ds k (set cp ip (v'.ino i)) v' ip i c' ∧
        Stored sb v i src off n v')
      (fun e c' => NoBlocks e c' ∧ ¬ v.Room sb i off n) c := by
  have hbad : ¬ ((v.ino i).size < off ∨ (off + n) % 2 ^ 32 < off ∨ MAXFILE * BSIZE < off + n) := by
    rw [wraps_iff hoff hn]
    unfold MAXFILE NDIRECT NINDIRECT BSIZE at *
    omega
  unfold wp
  rw [h.writei_eq, if_neg hbad]
  change wp (_ >>= _) _ _ c
  rw [wp_bind]
  refine wp_mono (wp_writeInode_stored hl h.ahead h.ledger h.regular h.full ho hle hmax) ?_
    (fun _ _ he => ⟨he.1, he.2.no_room h.ledger⟩)
  rintro _ c' ⟨v', hst, hs⟩
  have htype : (v'.ino i).type = (v.ino i).type := congrArg Meta.type hs.fields
  have hsize : (v'.ino i).size = max (v.ino i).size (off + n) := congrArg Meta.size hs.fields
  refine ⟨rfl, v', ?_, hs⟩
  exact
    { st := hst
      dev := h.dev
      inum := h.inum
      range := h.range
      copy := set_self ..
      ledger := hs.ledger
      alloc := by rw [htype]; exact h.alloc
      notDev := by rw [htype]; exact h.notDev
      full := by
        intro m hm
        by_cases hc : Covers off n m
        · exact hs.present m hc
        · rw [hs.other i m (fun hc' => hc hc'.2)]
          apply h.full
          -- a block below the new size that was not written is below the old size
          rw [lt_blocks_iff] at hm ⊢
          rw [hsize] at hm
          by_contra hge
          exact hc ⟨BSIZE * m, by omega, by omega, Nat.mul_div_cancel_left m (by decide)⟩ }

/-- `writei` refuses exactly the offsets behind the end and the ends that do
not fit, and otherwise writes the bytes and nothing else. It stops only if the
disk has no room for them, or the log none for the blocks that it logs, which
are at most six for every block of the file and the one of the inode. `readi`
returns the bytes that are there. -/
theorem readi_writei_spec (h : Locked sb ds k cp v ip i c) (src : Nat → UInt8)
    (hoff : off < 2 ^ 32) (hn : n < 2 ^ 32) (hlog : logFits sb.nlog [] c.logged = true) :
    (inLog (writei diskOps p ip src off n) c = (.ok (-1), c) ↔
      (v.ino i).size < off ∨ 2 ^ 32 ≤ off + n ∨ MAXFILE * BSIZE < off + n) ∧
    (0 < k.outstanding →
      ¬ ((v.ino i).size < off ∨ 2 ^ 32 ≤ off + n ∨ MAXFILE * BSIZE < off + n) →
      wp (inLog (writei diskOps p ip src off n))
        (fun r c' => r = n ∧ ∃ v', Locked sb ds k (set cp ip (v'.ino i)) v' ip i c' ∧
          (v'.ino i).fields = { (v.ino i).fields with size := max (v.ino i).size (off + n) } ∧
          (∀ o, v'.byteAt sb i o =
            if off ≤ o ∧ o < off + n then src (o - off) else v.byteAt sb i o) ∧
          ∀ j, j ≠ i → v'.ino j = v.ino j ∧ v'.byteAt sb j = v.byteAt sb j)
        (fun e c' => e = .tooBigTransaction ∧ logFits sb.nlog [] c'.logged = false ∧
            sb.logRoom < c.logged.length + (6 * reached off n + 1) ∨
          NoBlocks e c' ∧ ¬ v.Room sb i off n) c) ∧
    ((readi diskOps p ip off n c).1.map Prod.fst = .ok (-1) ↔
      (v.ino i).size < off ∨ 2 ^ 32 ≤ off + n) ∧
    (¬ ((v.ino i).size < off ∨ 2 ^ 32 ≤ off + n) →
      ∃ bytes c', readi diskOps p ip off n c =
        (.ok ((min n ((v.ino i).size - off) : Nat), bytes), c') ∧
        (∀ j < min n ((v.ino i).size - off), bytes j = v.byteAt sb i (off + j)) ∧
        Locked sb ds k cp v ip i c') := by
  have hread (hok : ¬ ((v.ino i).size < off ∨ 2 ^ 32 ≤ off + n)) :=
    exists_of_wp (h.wp_readi hl (p := p) hoff hn (by omega) (by omega))
  refine ⟨⟨?_, ?_⟩, ?_, ⟨?_, ?_⟩, ?_⟩
  · intro hrun
    by_contra hok
    have hresult := (inLog_ok hrun).1
    rw [h.writei_eq, if_neg (by rwa [wraps_iff hoff hn])] at hresult
    rcases hwrite : diskOps.write ip src off n c with ⟨e | _, c'⟩
    · rw [bind_error hwrite] at hresult
      cases hresult
    · rw [bind_ok hwrite] at hresult
      have hneg : (n : Int) = -1 := Except.ok.inj (congrArg Prod.fst hresult)
      omega
  · intro hbad
    have hrun : writei diskOps p ip src off n c = (.ok (-1), c) := by
      rw [h.writei_eq, if_pos (by rwa [wraps_iff hoff hn])]
    unfold inLog
    rw [hrun, h.st.super, if_pos hlog]
  · intro ho hok
    have hwrite := h.wp_writei hl (p := p) src ho hoff hn (by omega) (by omega)
    have hlogs : (writei diskOps p ip src off n c).2.logged.length ≤
        c.logged.length + (6 * reached off n + 1) := by
      rw [h.writei_eq, if_neg (by rwa [wraps_iff hoff hn])]
      exact (Logs.bind (logs_writeInode ip src off n) (fun _ => .pure (k := 0) _) rfl).length c
    have hlogged := wp_inLog hwrite hlogs
    rw [h.st.super] at hlogged
    refine wp_mono hlogged ?_ (fun _ _ he => he)
    rintro r c' ⟨hr, v', hlocked, hs⟩
    refine ⟨hr, v', hlocked, hs.fields, ?_, ?_⟩
    · intro o
      rw [hs.bytes]
      simp only [true_and]
    · intro j hj
      refine ⟨hs.inodes j hj, ?_⟩
      funext o
      rw [hs.bytes, if_neg (fun hc => hj hc.1)]
  · intro hrun
    by_contra hok
    obtain ⟨r, c', hr, hcount, -⟩ := hread hok
    rw [hr] at hrun
    have hneg : r.1 = -1 := Except.ok.inj hrun
    omega
  · intro hbad
    rw [h.readi_eq, if_pos (by rwa [wraps_iff hoff hn])]
    rfl
  · intro hok
    obtain ⟨⟨r, bytes⟩, c', hr, hcount, hbytes, hlocked⟩ := hread hok
    exact ⟨bytes, c', by rw [hr, ← hcount], hbytes, hlocked⟩

end

/-! ### A new file -/

/-- The fresh disk, with the root directory locked in the first transaction. -/
def lockedRoot : FsState Slot where
  kernel :=
    { booted.kernel.setEntry 0 { booted.kernel.icache 0 with lock := some 0, valid := true } with
      outstanding := 1 }
  disk := mkfs
  disksize := FSSIZE
  sb := mkfsSuper
  copy := set booted.copy 0 rootInode
  held := []
  logged := []

/-- In `create`: the inode of a new file is locked, and so is the root directory. -/
def creating : FsState Slot :=
  { lockedRoot with
    kernel := lockedRoot.kernel.setEntry 1 { lockedRoot.kernel.icache 0 with inum := 2 }
    disk := fileDisk
    copy := set lockedRoot.copy 1 (Dinode.empty (short T_FILE)) }

theorem creating_locked {ip : Ip} {i : Nat}
    (hentry : (creating.kernel.icache ip).dev = 1 ∧ (creating.kernel.icache ip).inum = i)
    (hi : i < mkfsSuper.ninodes) (hcopy : creating.copy ip = fileView.ino i)
    (htype : (fileView.ino i).type ≠ 0 ∧ (fileView.ino i).type ≠ T_DEV) :
    Locked mkfsSuper FSSIZE creating.kernel creating.copy fileView ip i creating where
  st := ⟨rfl, rfl, rfl, rfl, rfl, file_shows⟩
  dev := hentry.1
  inum := hentry.2
  range := hi
  copy := hcopy
  ledger := file_sound.ledger
  alloc := htype.1
  notDev := htype.2
  full := fun m hm => (file_sound.filled i hi htype.1 htype.2 m).mpr hm

theorem creating_file :
    Locked mkfsSuper FSSIZE creating.kernel creating.copy fileView 1 2 creating :=
  creating_locked ⟨rfl, rfl⟩ (by decide) file_ino.symm (by rw [file_ino]; decide)

theorem creating_root :
    Locked mkfsSuper FSSIZE creating.kernel creating.copy fileView 0 ROOTINO creating :=
  creating_locked ⟨rfl, rfl⟩ (by decide) file_root.symm (by rw [file_root]; decide)

/-- The file is written up to its first indirect block, and read again. -/
theorem readi_writei_creating :
    ∃ c', inLog (writei diskOps (0 : Slot) 1 (fun _ => 7) 0 6656) creating = (.ok 6656, c') ∧
      ∃ bytes c'', readi diskOps (0 : Slot) 1 6600 1000 c' = (.ok (56, bytes), c'') ∧
        bytes 55 = 7 := by
  have hfile := creating_file
  have hok : (inLog (writei diskOps (0 : Slot) 1 (fun _ => 7) 0 6656) creating).1 = .ok 6656 := by
    decide +kernel
  have hlog : logFits mkfsSuper.nlog [] creating.logged = true := rfl
  have hbounds : ¬ ((fileView.ino 2).size < 0 ∨ 2 ^ 32 ≤ 0 + 6656 ∨
      MAXFILE * BSIZE < 0 + 6656) := by
    rw [file_ino]
    decide
  have ho : 0 < creating.kernel.outstanding := by decide
  generalize creating = c at hfile hok hlog ho ⊢
  obtain ⟨-, hwrite, -⟩ := readi_writei_spec mkfs_layout (p := (0 : Slot)) hfile (fun _ => 7)
    (by decide : 0 < 2 ^ 32) (by decide : 6656 < 2 ^ 32) hlog
  rcases hrun : inLog (writei diskOps (0 : Slot) 1 (fun _ => 7) 0 6656) c with ⟨r, c'⟩
  obtain rfl : r = .ok 6656 := by rwa [hrun] at hok
  obtain ⟨-, v', hlocked, hfields, hbytes, -⟩ := of_wp_ok (hwrite ho hbounds) hrun
  have hsize : (v'.ino 2).size = 6656 := by
    rw [show (v'.ino 2).size = _ from congrArg Meta.size hfields, file_ino]
    rfl
  have hlog' : logFits mkfsSuper.nlog [] c'.logged = true := by
    rw [← hfile.st.super]
    exact (inLog_ok hrun).2
  obtain ⟨-, -, -, hread⟩ := readi_writei_spec mkfs_layout (p := (0 : Slot)) hlocked (fun _ => 7)
    (by decide : 6600 < 2 ^ 32) (by decide : 1000 < 2 ^ 32) hlog'
  obtain ⟨bytes, c'', hrun', hcopied, -⟩ := hread (by rw [hsize]; decide)
  rw [hsize] at hrun' hcopied
  refine ⟨c', rfl, bytes, c'', hrun', ?_⟩
  rw [hcopied 55 (by decide), hbytes, if_pos (by decide)]

/-- A write of 31 blocks is within the bounds and finds blocks enough, but not room
in the log. -/
theorem writei_too_big :
    ¬ ((fileView.ino 2).size < 0 ∨ 2 ^ 32 ≤ 0 + 15872 ∨ MAXFILE * BSIZE < 0 + 15872) ∧
      (writei diskOps (0 : Slot) 1 (fun _ => 7) 0 15872 creating).1 = .ok 15872 ∧
      (inLog (writei diskOps (0 : Slot) 1 (fun _ => 7) 0 15872) creating).1 =
        .error .tooBigTransaction := by
  refine ⟨?_, ?_⟩
  · rw [file_ino]
    decide
  · decide +kernel

end Xv6.Fs
