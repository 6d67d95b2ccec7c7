import Xv6.Fs.Fresh
import Xv6.Mkfs.Basic

/-!
`iappend` of `mkfs.c`: the file grows by the bytes given, into the next free
blocks of the disk. The blocks taken are the ones below `freeblock`, so the
ledger of the kernel's file system is kept with these as the blocks in use,
although `mkfs` writes the bitmap only at the end.
-/

namespace Xv6.Mkfs

open Prog Fs

/-- The inodes on the disk. -/
def inodes (disk : Nat → Block) (j : Nat) : Dinode :=
  if j < NINODES then getDinode (disk (mkfsSuper.iblock j)) (j % IPB) else Dinode.empty 0

/-- The blocks after the metadata. -/
def dataBlocks (disk : Nat → Block) (b : Nat) : Block := if b < nmeta then Bytes.zero else disk b

def view (s : State) : View where
  ino := inodes s.disk
  bit b := decide (b < s.freeblock)
  blk := dataBlocks s.disk

/-- The disk with the inode that a function has in memory. -/
def workView (s : State) (i : Nat) (din : Dinode) : View := (view s).setIno i din

/-- The blocks of a file with `nb` data blocks, its indirect block included. -/
def need (nb : Nat) : Nat := nb + if NDIRECT < nb then 1 else 0

variable {b : Nat} {d : Nat → Block}

theorem need_mono {a : Nat} (h : a ≤ b) : need a ≤ need b := by
  unfold need
  split <;> split <;> omega

theorem inodes_congr {d' : Nat → Block} (h : ∀ b < nmeta, d' b = d b) : inodes d' = inodes d := by
  funext j
  unfold inodes
  split
  · next hj =>
      have hlt : mkfsSuper.iblock j < nmeta :=
        (mkfs_layout.inodes j hj).trans (nmeta_eq ▸ mkfs_layout.region)
      rw [h _ hlt]
  · rfl

theorem dataBlocks_of_ge (hb : nmeta ≤ b) : dataBlocks d b = d b :=
  if_neg (Nat.not_lt.mpr hb)

theorem dataBlocks_set (hb : nmeta ≤ b) (x : Block) :
    dataBlocks (set d b x) = set (dataBlocks d) b x := by
  funext c
  unfold dataBlocks
  by_cases hc : c = b
  · subst hc
    rw [if_neg (Nat.not_lt.mpr hb), set_self, set_self]
  · rw [set_of_ne _ _ hc, set_of_ne _ _ hc]

theorem workView_ino (s : State) (i : Nat) (din : Dinode) : (workView s i din).ino i = din :=
  set_self ..

theorem workView_blk (s : State) (i : Nat) (din : Dinode) (hb : nmeta ≤ b) :
    (workView s i din).blk b = s.disk b :=
  dataBlocks_of_ge hb

theorem zero_set (h : d b = Bytes.zero) : set d b Bytes.zero = d := by
  rw [← h, set_eta]

theorem bit_succ (b : Nat) :
    (fun x => decide (x < b + 1)) = set (fun x => decide (x < b)) b true := by
  funext x
  by_cases hx : x = b
  · subst hx
    rw [set_self]
    simp
  · rw [set_of_ne _ _ hx]
    congr 1
    exact propext ⟨fun _ => by omega, fun _ => by omega⟩

/-- Taking the next block as an address, as the kernel's ledger has it. -/
theorem workView_takeAddr {s : State} (i q : Nat) (din : Dinode) (hstart : nmeta ≤ s.freeblock)
    (hzero : s.disk s.freeblock = Bytes.zero) :
    workView { s with freeblock := s.freeblock + 1 } i (din.setAddr q s.freeblock) =
      (workView s i din).takeAddr i q s.freeblock := by
  have hblank : dataBlocks s.disk s.freeblock = Bytes.zero := (dataBlocks_of_ge hstart).trans hzero
  unfold View.takeAddr
  rw [workView_ino]
  unfold workView view View.setIno
  simp only [set_set, zero_set hblank, bit_succ]

theorem workView_takeEntry {s : State} (i j : Nat) {t : Nat} (din : Dinode)
    (hstart : nmeta ≤ s.freeblock) (hzero : s.disk s.freeblock = Bytes.zero) (ht : nmeta ≤ t) :
    workView { s with
        freeblock := s.freeblock + 1
        disk := set s.disk t (tableSet (s.disk t) j s.freeblock) } i din =
      (workView s i din).takeEntry t j s.freeblock := by
  have hblank : dataBlocks s.disk s.freeblock = Bytes.zero := (dataBlocks_of_ge hstart).trans hzero
  have hino : inodes (set s.disk t (tableSet (s.disk t) j s.freeblock)) = inodes s.disk :=
    inodes_congr fun b hb => set_of_ne _ _ (by omega)
  unfold View.takeEntry
  unfold workView view View.setIno
  simp only [zero_set hblank, bit_succ, hino, dataBlocks_set ht, dataBlocks_of_ge ht]

/-! ### One block of the file -/

/-- While a file grows: the ledger for the disk with the inode in memory, and
the count of the blocks taken, of which `base` belong to other files. -/
structure Work (s : State) (i : Nat) (din : Dinode) (nb : Nat → Nat) (base : Nat) : Prop where
  range : i < NINODES
  growing : Growing mkfsSuper i nb (workView s i din)
  zero : ∀ b, s.freeblock ≤ b → b < FSSIZE → s.disk b = Bytes.zero
  start : nmeta ≤ s.freeblock
  count : s.freeblock = base + nb i + if din.addr NDIRECT = 0 then 0 else 1

/-- What a growing file leaves alone: the metadata, its own fields and the bytes
of all files. -/
structure Kept (i : Nat) (s s' : State) (din din' : Dinode) : Prop where
  low : ∀ b < nmeta, s'.disk b = s.disk b
  freeinode : s'.freeinode = s.freeinode
  fields : din'.fields = din.fields
  bytes : (workView s' i din').byteAt mkfsSuper = (workView s i din).byteAt mkfsSuper

namespace Kept

variable {i : Nat} {s s' s'' : State} {din din' din'' : Dinode}

theorem refl (i : Nat) (s : State) (din : Dinode) : Kept i s s din din :=
  ⟨fun _ _ => rfl, rfl, rfl, rfl⟩

theorem trans (h : Kept i s s' din din') (h' : Kept i s' s'' din' din'') :
    Kept i s s'' din din'' where
  low b hb := (h'.low b hb).trans (h.low b hb)
  freeinode := h'.freeinode.trans h.freeinode
  fields := h'.fields.trans h.fields
  bytes := h'.bytes.trans h.bytes

end Kept

namespace Work

variable {s : State} {i fbn : Nat} {din : Dinode} {nb : Nat → Nat} {base : Nat}

section

variable (h : Work s i din nb base)
include h

theorem type_ne : ((workView s i din).ino i).type ≠ 0 :=
  h.growing.regular.alloc

theorem free (hlt : s.freeblock < FSSIZE) : (workView s i din).Free mkfsSuper s.freeblock := by
  refine ⟨?_, hlt, ?_⟩
  · rw [nmeta_eq]
    exact h.start
  · change decide (s.freeblock < s.freeblock) = false
    simp

theorem bounds (hlt : s.freeblock < FSSIZE) : s.freeblock ≠ 0 ∧ s.freeblock < 2 ^ 32 :=
  Ledger.free_bounds mkfs_layout (h.free hlt)

theorem addr_of_lt (hlt : NDIRECT < nb i) : din.addr NDIRECT ≠ 0 := by
  intro h0
  have hat := (h.growing.filled i h.range h.type_ne h.growing.regular.notDev NDIRECT).mpr hlt
  refine hat ?_
  unfold View.blockAt View.position
  rw [if_neg (Nat.lt_irrefl _), View.own_of_alloc h.range h.type_ne,
    Dinode.ref_eq_zero (Nat.lt_succ_self _)]
  rw [workView_ino]
  exact absurd h0

/-- The indirect block is one of the blocks taken. -/
theorem table_used (h0 : din.addr NDIRECT ≠ 0) :
    nmeta ≤ din.addr NDIRECT ∧ din.addr NDIRECT < s.freeblock := by
  have hown : (workView s i din).own mkfsSuper (i, NDIRECT) = din.addr NDIRECT := by
    rw [View.own_of_alloc h.range h.type_ne, Dinode.ref_addr _ _ (Nat.le_refl _), workView_ino]
  obtain ⟨hmeta, -, hbit⟩ := h.growing.ledger.used (p := (i, NDIRECT)) (by rwa [hown])
  rw [hown] at hmeta hbit
  exact ⟨nmeta_eq ▸ hmeta, of_decide_eq_true hbit⟩

/-- The next block becomes address `q`, of which there was none. -/
theorem takeAddr {q : Nat} (hlt : s.freeblock < FSSIZE) (hq : q ≤ NDIRECT) (h0 : din.addr q = 0)
    (nb' : Nat → Nat)
    (hfilled : ∀ v : View, (∀ j, (v.ino j).type = ((workView s i din).ino j).type) →
      v.own mkfsSuper = Function.update ((workView s i din).own mkfsSuper) (i, q) s.freeblock →
      Filled mkfsSuper v nb') (hcount : s.freeblock + 1 =
      base + nb' i + if (din.setAddr q s.freeblock).addr NDIRECT = 0 then 0 else 1) :
    Work { s with freeblock := s.freeblock + 1 } i (din.setAddr q s.freeblock) nb' base ∧
      Kept i s { s with freeblock := s.freeblock + 1 } din (din.setAddr q s.freeblock) := by
  have hzero := h.zero s.freeblock (Nat.le_refl _) hlt
  have hw := workView_takeAddr i q din h.start hzero
  have haddr : ((workView s i din).ino i).addr q = 0 := by rwa [workView_ino]
  obtain ⟨hledger, hbytes⟩ := h.growing.ledger.takeAddr mkfs_layout h.range h.type_ne
    (h.free hlt) hq haddr
  have hown := View.own_takeAddr mkfs_layout h.growing.ledger h.range h.type_ne hq haddr
    (h.free hlt)
  constructor
  · refine ⟨h.range, ?_, fun b hb => h.zero b (Nat.le_of_succ_le hb),
      Nat.le_succ_of_le h.start, hcount⟩
    rw [hw]
    refine ⟨hledger, hfilled _ (View.type_setAddr rfl) hown, ?_⟩
    rw [← hw, workView_ino]
    have hregular := h.growing.regular
    rw [workView_ino] at hregular
    exact hregular.setAddr q (h.bounds hlt).2
  · refine ⟨fun _ _ => rfl, rfl, Dinode.fields_setAddr .., ?_⟩
    rw [hw]
    exact hbytes

/-- The next block becomes entry `j` of the indirect block. -/
theorem takeEntry {j : Nat} (hlt : s.freeblock < FSSIZE) (h0 : din.addr NDIRECT ≠ 0)
    (hj : j < NINDIRECT) (hj0 : tableGet (s.disk (din.addr NDIRECT)) j = 0)
    (hnb : nb i = NDIRECT + j) :
    Work { s with
        freeblock := s.freeblock + 1
        disk := set s.disk (din.addr NDIRECT)
          (tableSet (s.disk (din.addr NDIRECT)) j s.freeblock) } i din
        (set nb i (NDIRECT + j + 1)) base ∧
      Kept i s { s with
        freeblock := s.freeblock + 1
        disk := set s.disk (din.addr NDIRECT)
          (tableSet (s.disk (din.addr NDIRECT)) j s.freeblock) } din din := by
  obtain ⟨t, ht⟩ : ∃ t, t = din.addr NDIRECT := ⟨_, rfl⟩
  have htable : ((workView s i din).ino i).addr NDIRECT = t := by rw [workView_ino, ht]
  have hused : nmeta ≤ t ∧ t < s.freeblock := by
    rw [ht]
    exact h.table_used h0
  have hzero := h.zero s.freeblock (Nat.le_refl _) hlt
  have hw := workView_takeEntry i j din h.start hzero hused.1
  have h0' : ((workView s i din).ino i).addr NDIRECT ≠ 0 := by rwa [workView_ino]
  have hledger := h.growing.ledger.takeEntry mkfs_layout h.range h.type_ne (h.free hlt) h0' hj
    (by rw [htable, workView_blk s i din hused.1, ht]; exact hj0)
  have hown := View.own_takeEntry h.growing.ledger h.range h.type_ne h0' hj mkfs_layout (h.free hlt)
  rw [htable] at hledger hown
  rw [← ht]
  constructor
  · refine ⟨h.range, ?_, ?_, Nat.le_succ_of_le h.start, ?_⟩
    · rw [hw]
      refine ⟨hledger.1, ?_, h.growing.regular⟩
      refine h.growing.filled.assign (b := s.freeblock) (fun _ => rfl) ?_ (h.bounds hlt).1 hnb
      rw [hown]
      unfold View.position
      rw [if_neg (by omega)]
      congr 2
      omega
    · intro b hb hsize
      change set s.disk t _ b = _
      change s.freeblock + 1 ≤ b at hb
      rw [set_of_ne _ _ (by omega)]
      exact h.zero b (by omega) hsize
    · have := h.count
      rw [if_neg h0] at this ⊢
      rw [set_self]
      change s.freeblock + 1 = _
      omega
  · refine ⟨?_, rfl, rfl, ?_⟩
    · intro b hb
      exact set_of_ne _ _ (by omega)
    · rw [hw]
      exact hledger.2

end

end Work

/-- The indirect block is there only for blocks beyond the direct ones. -/
def Tight (din : Dinode) (nb : Nat) : Prop := din.addr NDIRECT ≠ 0 → NDIRECT < nb

section

variable {s : State} {i fbn : Nat} {din : Dinode} {nb : Nat → Nat} {base : Nat}

theorem Work.count_need (h : Work s i din nb base) (htight : Tight din (nb i)) :
    s.freeblock = base + need (nb i) := by
  have := h.count
  unfold need
  by_cases h0 : din.addr NDIRECT = 0
  · rw [if_pos h0] at this
    rw [if_neg (fun hlt => h.addr_of_lt hlt h0)]
    omega
  · rw [if_neg h0] at this
    rw [if_pos (htight h0)]
    omega

/-- The outcome of `fileBlock`: block `fbn` of the file is there. -/
structure Mapped (s : State) (i : Nat) (din : Dinode) (nb : Nat → Nat) (base fbn : Nat)
    (r : Nat × Dinode) (s' : State) : Prop where
  work : Work s' i r.2 (set nb i (max (nb i) (fbn + 1))) base
  tight : Tight r.2 (max (nb i) (fbn + 1))
  kept : Kept i s s' din r.2
  block : r.1 = (workView s' i r.2).blockAt mkfsSuper i fbn

section

variable (h : Work s i din nb base)
include h

theorem Mapped.of_same (htight : Tight din (nb i)) (hlt : fbn < nb i) :
    Mapped s i din nb base fbn ((workView s i din).blockAt mkfsSuper i fbn, din) s where
  work := by rwa [Nat.max_eq_left hlt, set_eta]
  tight := by rwa [Nat.max_eq_left hlt]
  kept := Kept.refl i s din
  block := rfl

theorem Work.le_of_zero (h0 : (workView s i din).blockAt mkfsSuper i fbn = 0) : nb i ≤ fbn :=
  Filled.le_of_blockAt_zero h.growing h.range h0

theorem Work.lt_of_ne_zero (h0 : (workView s i din).blockAt mkfsSuper i fbn ≠ 0) : fbn < nb i :=
  (h.growing.filled i h.range h.type_ne h.growing.regular.notDev fbn).mp h0

theorem fileBlock_direct (htight : Tight din (nb i)) (hfbn : fbn ≤ nb i) (hdir : fbn < NDIRECT)
    (hfit : base + need (max (nb i) (fbn + 1)) ≤ FSSIZE) :
    wp (fileBlock din fbn) (Mapped s i din nb base fbn) (fun _ _ => False) s := by
  have hat : (workView s i din).blockAt mkfsSuper i fbn = din.addr fbn := by
    rw [View.blockAt_eq_addr h.range h.type_ne hdir, workView_ino]
  unfold fileBlock takeBlock
  rw [if_pos hdir]
  apply wp_ite
  · intro h0
    simp only [wp_bind, wp_gets, wp_modify, wp_pure]
    have hnb : nb i = fbn := Nat.le_antisymm (h.le_of_zero (hat.trans h0)) hfbn
    have hmax : max (nb i) (fbn + 1) = fbn + 1 := by omega
    have hcount := h.count_need htight
    rw [hmax] at hfit
    have hstep : need (fbn + 1) = need fbn + 1 := by
      unfold need
      rw [if_neg (by omega), if_neg (by omega)]
    have hlt : s.freeblock < FSSIZE := by
      rw [hnb] at hcount
      omega
    have hdirect : (din.setAddr fbn s.freeblock).addr NDIRECT = din.addr NDIRECT := by
      rw [Dinode.addr_setAddr _ (by omega), if_neg (by omega)]
    have hnone : din.addr NDIRECT = 0 := by
      by_contra hne
      have := htight hne
      omega
    obtain ⟨hwork, hkept⟩ := h.takeAddr hlt (Nat.le_of_lt hdir) h0 (set nb i (fbn + 1))
      (fun v htype hown => h.growing.filled.assign htype
        (by rw [hown, View.position, if_pos hdir]) (h.bounds hlt).1 hnb)
      (by
        rw [hdirect, if_pos hnone, set_self]
        have := h.count
        rw [if_pos hnone] at this
        omega)
    refine ⟨by rwa [hmax], ?_, hkept, ?_⟩
    · intro hne
      exact absurd (hdirect.trans hnone) hne
    · rw [View.blockAt_eq_addr hwork.range hwork.type_ne hdir, workView_ino,
        Dinode.addr_setAddr _ (by omega), if_pos rfl]
  · intro h0
    rw [wp_pure, ← hat]
    exact Mapped.of_same h htight (h.lt_of_ne_zero (hat ▸ h0))

theorem indirectBlock_spec (hlt : din.addr NDIRECT = 0 → s.freeblock < FSSIZE) :
    wp (indirectBlock din)
      (fun din' s' => Work s' i din' nb base ∧ Kept i s s' din din' ∧ din'.addr NDIRECT ≠ 0)
      (fun _ _ => False) s := by
  unfold indirectBlock takeBlock
  apply wp_ite
  · intro h0
    simp only [wp_bind, wp_gets, wp_modify, wp_pure]
    have hself : (din.setAddr NDIRECT s.freeblock).addr NDIRECT = s.freeblock := by
      rw [Dinode.addr_setAddr _ (Nat.lt_succ_self _), if_pos rfl]
    have hpos := (h.bounds (hlt h0)).1
    obtain ⟨hwork, hkept⟩ := h.takeAddr (hlt h0) (Nat.le_refl _) h0 nb
      (fun v htype hown => h.growing.filled.assign_table htype hown)
      (by
        have := h.count
        rw [if_pos h0] at this
        rw [hself, if_neg hpos]
        omega)
    exact ⟨hwork, hkept, by rwa [hself]⟩
  · intro h0
    exact ⟨h, Kept.refl i s din, h0⟩

theorem indirectEntry_spec {s₀ : State} {din₀ : Dinode} (hkept : Kept i s₀ s din₀ din)
    (h0 : din.addr NDIRECT ≠ 0) (hfbn : fbn ≤ nb i) (hdir : NDIRECT ≤ fbn) (hmax : fbn < MAXFILE)
    (hlt : nb i ≤ fbn → s.freeblock < FSSIZE) :
    wp (indirectEntry din (fbn - NDIRECT)) (fun b => Mapped s₀ i din₀ nb base fbn (b, din))
      (fun _ _ => False) s := by
  have hind : fbn - NDIRECT < NINDIRECT := by
    unfold MAXFILE at hmax
    omega
  have hentry : ∀ {s : State}, Work s i din nb base →
      (workView s i din).blockAt mkfsSuper i fbn =
        tableGet (s.disk (din.addr NDIRECT)) (fbn - NDIRECT) := by
    intro s h
    rw [View.blockAt_eq_entry h.range h.type_ne hdir hind (by rwa [workView_ino]), workView_ino,
      workView_blk s i din (h.table_used h0).1]
  unfold indirectEntry rsect takeBlock wsect
  rw [wp_bind, wp_gets]
  apply wp_ite
  · intro hz
    simp only [wp_bind, wp_gets, wp_modify, wp_pure]
    have hnb : nb i = fbn := Nat.le_antisymm (h.le_of_zero ((hentry h).trans hz)) hfbn
    have hfree := hlt (Nat.le_of_eq hnb)
    obtain ⟨hwork, hkept'⟩ := h.takeEntry hfree h0 hind hz (by omega)
    have hnext : max (nb i) (fbn + 1) = NDIRECT + (fbn - NDIRECT) + 1 := by omega
    refine ⟨by rwa [hnext], fun _ => by omega, hkept.trans hkept', ?_⟩
    rw [View.blockAt_eq_entry hwork.range hwork.type_ne hdir hind (by rwa [workView_ino]),
      workView_ino, workView_blk _ i din (h.table_used h0).1]
    dsimp only
    rw [set_self, tableGet_tableSet_self _ hind (h.bounds hfree).2]
  · intro hz
    rw [wp_pure, ← hentry h]
    rw [← hentry h] at hz
    have hlt' := h.lt_of_ne_zero hz
    have hmax' : max (nb i) (fbn + 1) = nb i := Nat.max_eq_left hlt'
    exact ⟨by rwa [hmax', set_eta], fun _ => by omega, hkept, rfl⟩

theorem fileBlock_spec (htight : Tight din (nb i)) (hfbn : fbn ≤ nb i) (hmax : fbn < MAXFILE)
    (hfit : base + need (max (nb i) (fbn + 1)) ≤ FSSIZE) :
    wp (fileBlock din fbn) (Mapped s i din nb base fbn) (fun _ _ => False) s := by
  by_cases hdir : fbn < NDIRECT
  · exact fileBlock_direct h htight hfbn hdir hfit
  · have hcount := h.count_need htight
    have hnone : din.addr NDIRECT = 0 → nb i = NDIRECT := by
      intro h0
      by_contra hne
      exact h.addr_of_lt (by omega) h0
    have hgrow : nb i ≤ fbn → s.freeblock + (if din.addr NDIRECT = 0 then 2 else 1) ≤ FSSIZE := by
      intro hle
      rw [show max (nb i) (fbn + 1) = nb i + 1 by omega] at hfit
      unfold need at hcount hfit
      rw [if_pos (by omega)] at hfit
      split
      · next h0 =>
          have := hnone h0
          rw [if_neg (by omega)] at hcount
          omega
      · next h0 =>
          have := htight h0
          rw [if_pos this] at hcount
          omega
    unfold fileBlock
    rw [if_neg hdir, wp_bind]
    refine wp_mono (indirectBlock_spec h ?_) ?_ fun _ _ hf => hf
    · intro h0
      have := hgrow (by have := hnone h0; omega)
      rw [if_pos h0] at this
      omega
    · rintro din' s' ⟨hwork, hkept, h0⟩
      rw [wp_bind]
      refine indirectEntry_spec hwork hkept h0 hfbn (Nat.not_lt.mp hdir) hmax fun hle => ?_
      have h1 := hgrow hle
      have h2 := h.count
      have h3 := hwork.count
      rw [if_neg h0] at h3
      split at h1
      · next hz =>
          rw [if_pos hz] at h2
          omega
      · next hz =>
          rw [if_neg hz] at h2
          omega

end

end

/-! ### The loop -/

/-- The outcome of appending `n` bytes at `off`. -/
structure Appended (s : State) (i : Nat) (din : Dinode) (nb : Nat → Nat) (base : Nat)
    (p : Nat → UInt8) (off n : Nat) (din' : Dinode) (s' : State) : Prop where
  work : Work s' i din' (set nb i (blocks (off + n))) base
  tight : Tight din' (blocks (off + n))
  low : ∀ b < nmeta, s'.disk b = s.disk b
  freeinode : s'.freeinode = s.freeinode
  fields : din'.fields = din.fields
  bytes : ∀ j o, (workView s' i din').byteAt mkfsSuper j o =
    if j = i ∧ off ≤ o ∧ o < off + n then p (o - off) else (workView s i din).byteAt mkfsSuper j o

section

variable {s : State} {i : Nat} {din : Dinode} {nb : Nat → Nat} {base : Nat} {p : Nat → UInt8}
  {off n : Nat}

theorem Appended.refl (h : Work s i din nb base) (htight : Tight din (nb i))
    (hnb : nb i = blocks off) : Appended s i din nb base p off 0 din s where
  work := by rwa [Nat.add_zero, ← hnb, set_eta]
  tight := by rwa [Nat.add_zero, ← hnb]
  low _ _ := rfl
  freeinode := rfl
  fields := rfl
  bytes := by
    intro j o
    rw [if_neg (by omega)]

theorem Appended.trans {m : Nat} {din' din'' : Dinode} {s' s'' : State}
    (h : Appended s i din nb base p off m din' s')
    (h' : Appended s' i din' (set nb i (blocks (off + m))) base (fun x => p (m + x)) (off + m) n
      din'' s'') : Appended s i din nb base p off (m + n) din'' s'' where
  work := by
    have hwork := h'.work
    rwa [set_set, Nat.add_assoc] at hwork
  tight := by
    have htight := h'.tight
    rwa [Nat.add_assoc] at htight
  low b hb := (h'.low b hb).trans (h.low b hb)
  freeinode := h'.freeinode.trans h.freeinode
  fields := h'.fields.trans h.fields
  bytes := by
    intro j o
    rw [h'.bytes, h.bytes]
    exact overlay_add ..

theorem workView_setBlk (s : State) (i : Nat) (din : Dinode) {b : Nat} (d : Block)
    (hb : nmeta ≤ b) :
    workView { s with disk := set s.disk b d } i din = (workView s i din).setBlk b d := by
  unfold workView view View.setIno View.setBlk
  have hino : inodes (set s.disk b d) = inodes s.disk :=
    inodes_congr fun c hc => set_of_ne _ _ (by omega)
  simp only [hino, dataBlocks_set hb]

/-- One round: `n` bytes within one block. -/
theorem Mapped.appended {s' : State} {r : Nat × Dinode}
    (hm : Mapped s i din nb base (off / BSIZE) r s') (hnb : nb i = blocks off) (hpos : 0 < n)
    (hin : off % BSIZE + n ≤ BSIZE) :
    Appended s i din nb base p off n r.2
      { s' with disk := set s'.disk r.1 ((s'.disk r.1).splice (off % BSIZE) n p) } := by
  have hlast : max (nb i) (off / BSIZE + 1) = blocks (off + n) := by
    rw [hnb]
    unfold blocks BSIZE at *
    omega
  have hwork := hm.work
  have hg := hwork.growing
  rw [hlast] at hwork hg
  have h0 : (workView s' i r.2).blockAt mkfsSuper i (off / BSIZE) ≠ 0 := by
    apply (hg.filled i hwork.range hwork.type_ne hg.regular.notDev _).mpr
    rw [set_self, ← hlast]
    omega
  obtain ⟨hmeta, -, hbit⟩ := hg.ledger.used h0
  change mkfsSuper.nmeta ≤ (workView s' i r.2).blockAt mkfsSuper i (off / BSIZE) at hmeta
  change decide ((workView s' i r.2).blockAt mkfsSuper i (off / BSIZE) <
    s'.freeblock) = true at hbit
  rw [← hm.block] at hmeta hbit
  rw [nmeta_eq] at hmeta
  have hbelow : r.1 < s'.freeblock := of_decide_eq_true hbit
  obtain ⟨d, hd⟩ : ∃ d, d = (s'.disk r.1).splice (off % BSIZE) n p := ⟨_, rfl⟩
  rw [← hd]
  have hw := workView_setBlk s' i r.2 d hmeta
  constructor
  case work =>
    refine ⟨hwork.range, ?_, ?_, hwork.start, hwork.count⟩
    · rw [hw, hm.block]
      exact hg.congr (View.own_setBlk hg.ledger h0 _) rfl (fun _ => rfl) hg.regular
    · intro b hb hsize
      change s'.freeblock ≤ b at hb
      change set s'.disk r.1 d b = _
      rw [set_of_ne _ _ (by omega)]
      exact hwork.zero b hb hsize
  case tight => exact hlast ▸ hm.tight
  case low =>
    intro b hb
    change set s'.disk r.1 d b = _
    rw [set_of_ne _ _ (by omega)]
    exact hm.kept.low b hb
  case freeinode => exact hm.kept.freeinode
  case fields => exact hm.kept.fields
  case bytes =>
    intro j o
    rw [hw]
    have hset : ((workView s' i r.2).setBlk r.1 d).byteAt mkfsSuper j o =
        if j = i ∧ o / BSIZE = off / BSIZE then d.byte (o % BSIZE)
        else (workView s' i r.2).byteAt mkfsSuper j o := by
      rw [hm.block]
      exact View.byteAt_setBlk hg.ledger h0 d j o
    rw [hset, hm.kept.bytes]
    by_cases hjo : j = i ∧ o / BSIZE = off / BSIZE
    · obtain ⟨rfl, ho⟩ := hjo
      have hbyte : (workView s' j r.2).byteAt mkfsSuper j o = _ := View.byteAt_eq ho h0
      rw [← hm.block, hm.kept.bytes] at hbyte
      rw [if_pos ⟨rfl, ho⟩, hd, Bytes.byte_splice]
      by_cases hpart : off ≤ o ∧ o < off + n
      · have hsub : o % BSIZE - off % BSIZE = o - off := by
          unfold BSIZE at *
          omega
        rw [if_pos (by unfold BSIZE at *; omega), if_pos ⟨rfl, hpart⟩, hsub]
      · rw [if_neg (by unfold BSIZE at *; omega), if_neg (fun hc => hpart hc.2), hbyte,
          workView_blk s' j r.2 hmeta]
    · rw [if_neg hjo, if_neg]
      rintro ⟨rfl, hle, hlt⟩
      exact hjo ⟨rfl, by unfold BSIZE at *; omega⟩

theorem iappendLoop_spec {rounds : Nat} (h : Work s i din nb base) (htight : Tight din (nb i))
    (hnb : nb i = blocks off) (hrounds : n ≤ rounds) (hmax : blocks (off + n) ≤ MAXFILE)
    (hfit : base + need (blocks (off + n)) ≤ FSSIZE) :
    wp (iappendLoop rounds p n off din) (fun r s' => ∃ din', r = din'.setSize (off + n) ∧
      Appended s i din nb base p off n din' s') (fun _ _ => False) s := by
  induction rounds generalizing s din nb p off n with
  | zero =>
    obtain rfl : n = 0 := by omega
    exact ⟨din, rfl, Appended.refl h htight hnb⟩
  | succ rounds ih =>
    unfold iappendLoop
    apply wp_ite
    · intro hpos
      have hlt : off / BSIZE < blocks (off + n) := by
        unfold blocks BSIZE
        omega
      have hbn : off / BSIZE ≤ nb i := by
        rw [hnb]
        unfold blocks BSIZE
        omega
      have hgrown : max (nb i) (off / BSIZE + 1) ≤ blocks (off + n) := by
        rw [hnb]
        have := blocks_mono (Nat.le_add_right off n)
        omega
      simp only [wp_bind, wp_panicIf]
      refine ⟨fun habort => by omega, fun _ => ?_⟩
      refine wp_mono (fileBlock_spec h htight hbn (by omega)
        ((Nat.add_le_add_left (need_mono hgrown) _).trans hfit)) ?_ fun _ _ hf => hf
      rintro ⟨x, din₁⟩ s₁ hm
      unfold rsect wsect
      simp only [wp_gets, wp_modify]
      have hoff : off - off / BSIZE * BSIZE = off % BSIZE := by
        unfold BSIZE
        omega
      have hroom : (off / BSIZE + 1) * BSIZE - off = BSIZE - off % BSIZE := by
        unfold BSIZE
        omega
      have hmod : off % BSIZE < BSIZE := Nat.mod_lt _ (by decide)
      rw [hoff, hroom]
      generalize hmin : min n (BSIZE - off % BSIZE) = m
      have hround : Appended s i din nb base p off m din₁ _ :=
        hm.appended hnb (by omega) (by omega)
      have hsplit : off + m + (n - m) = off + n := by omega
      have hrest := ih (p := fun x => p (m + x)) (n := n - m) hround.work
        (by rw [set_self]; exact hround.tight) (by rw [set_self]) (by omega)
        (by rwa [hsplit]) (by rwa [hsplit])
      refine wp_mono hrest ?_ fun _ _ hf => hf
      rintro r s₂ ⟨din₂, rfl, happ⟩
      refine ⟨din₂, by rw [hsplit], ?_⟩
      have hall := hround.trans happ
      rwa [show m + (n - m) = n by omega] at hall
    · intro hzero
      obtain rfl : n = 0 := by omega
      exact ⟨din, rfl, Appended.refl h htight hnb⟩

end

end Xv6.Mkfs
