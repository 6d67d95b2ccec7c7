import Xv6.Fs.Lift
import Xv6.Fs.Abstract
import Xv6.Fs.Trunc

/-!
The bytes on the disk implement the table of files. Each operation of `diskOps`
refines the one of `fileOps`; running out of blocks is the one way to stop that
the table of files does not know.
-/

namespace Xv6.Fs

open Prog

variable {P : Type}

/-- The file that a view of the disk shows at inode `i`. -/
def fileOf (sb : Superblock) (v : View) (i : Nat) : AFile :=
  if (v.ino i).type = 0 then AFile.empty 0 else ⟨(v.ino i).fields, v.byteAt sb i⟩

/-- The disk of `c`, seen as `v`, holds the files of `a`, and the copies of the
valid entries of the inode cache are those on the disk. -/
structure Rel (sb : Superblock) (ds : Nat) (v : View) (c : FsState P) (a : AState P) :
    Prop where
  st : St sb ds a.kernel c.copy v [] c
  sound : Sound sb v
  ninodes : a.ninodes = sb.ninodes
  range : ∀ ip, 0 < (a.kernel.icache ip).ref → (a.kernel.icache ip).dev = ROOTDEV ∧
    1 ≤ (a.kernel.icache ip).inum ∧ (a.kernel.icache ip).inum < sb.ninodes
  unique : ∀ ip jp, 0 < (a.kernel.icache ip).ref → 0 < (a.kernel.icache jp).ref →
    (a.kernel.icache ip).inum = (a.kernel.icache jp).inum → ip = jp
  copy : ∀ ip, 0 < (a.kernel.icache ip).ref → (a.kernel.icache ip).valid = true →
    c.copy ip = v.ino (a.inum ip) ∧ (v.ino (a.inum ip)).type ≠ 0
  files : ∀ i < sb.ninodes, a.files i = fileOf sb v i

def Implements (sb : Superblock) (ds : Nat) (c : FsState P) (a : AState P) : Prop :=
  ∃ v, Rel sb ds v c a

/-- The concrete operation may stop for want of blocks. -/
def OutOfBlocks (e : Panic) : Prop := e = .ballocOutOfBlocks

section Ops

variable {sb : Superblock} {ds : Nat} {v v' : View} {c c' : FsState P} {a : AState P} {ip : Ip}

namespace Rel

theorem wf (h : Rel sb ds v c a) {i : Nat} (hi : i < sb.ninodes) : (v.ino i).Wf := by
  rw [← h.st.shows.ino i hi]
  exact getDinode_wf _ _

section

variable (h : Rel sb ds v c a) (hu : a.Usable ip)
include h hu

theorem inum_lt : a.inum ip < sb.ninodes :=
  (h.range ip hu.1).2.2

/-- The file behind a usable pointer. -/
theorem file_eq : a.file ip = ⟨(v.ino (a.inum ip)).fields, v.byteAt sb (a.inum ip)⟩ := by
  unfold AState.file
  rw [h.files _ (h.inum_lt hu), fileOf, if_neg (h.copy ip hu.1 hu.2).2]

theorem ahead : Ahead sb ds a.kernel ip (a.inum ip) c.copy v.ino v [] c :=
  h.st.ahead (h.copy ip hu.1 hu.2).1 (h.range ip hu.1).1 rfl (h.inum_lt hu)

/-- An operation has changed the inode behind `ip` only, on the disk and in the
copy, and it is still allocated. -/
theorem setFile {f : AFile} (hst : St sb ds a.kernel (set c.copy ip (v'.ino (a.inum ip))) v' [] c')
    (hsound : Sound sb v') (hino : ∀ j, j ≠ a.inum ip → v'.ino j = v.ino j)
    (hbytes : ∀ j, j ≠ a.inum ip → v'.byteAt sb j = v.byteAt sb j)
    (htype : (v'.ino (a.inum ip)).type ≠ 0) (hfields : f.fields = (v'.ino (a.inum ip)).fields)
    (hdata : f.data = v'.byteAt sb (a.inum ip)) :
    Rel sb ds v' c' (a.setFile ip f) where
  st := by
    rw [hst.copy]
    exact hst
  sound := hsound
  ninodes := h.ninodes
  range := h.range
  unique := h.unique
  copy := by
    intro jp href hvalid
    rw [hst.copy]
    by_cases hjp : jp = ip
    · subst hjp
      exact ⟨set_self _ _ _, htype⟩
    · have hne : a.inum jp ≠ a.inum ip := fun heq => hjp (h.unique jp ip href hu.1 heq)
      have hold := h.copy jp href hvalid
      rw [set_of_ne _ _ hjp]
      change c.copy jp = v'.ino (a.inum jp) ∧ (v'.ino (a.inum jp)).type ≠ 0
      rw [hino _ hne]
      exact hold
  files := by
    intro j hj
    by_cases hji : j = a.inum ip
    · subst hji
      unfold AState.setFile fileOf
      rw [if_neg htype]
      simp [← hfields, ← hdata]
    · unfold AState.setFile
      simp only [set_of_ne _ _ hji]
      rw [h.files j hj]
      unfold fileOf
      rw [hino j hji, hbytes j hji]

end

end Rel

end Ops

section Refinement

variable {sb : Superblock} {ds : Nat} {excused : Panic → Prop} (hl : Layout sb ds)

/-- The refinement that relates the two file systems. -/
abbrev Refined (sb : Superblock) (ds : Nat) {α : Type} (x : FsM P α) (y : AM P α) : Prop :=
  Refines (Implements sb ds) .misuse OutOfBlocks x y

theorem kernel_refined {α : Type} (x : KernelM P α) :
    Refines (Implements sb ds) .misuse excused (diskOps.kernel x) (fileOps.kernel x) := by
  rintro c a ⟨v, h⟩ hne
  have hk := h.st.kernel
  unfold wp diskOps fileOps at *
  dsimp only at *
  rw [hk]
  rcases hx : x a.kernel with ⟨e | r, k⟩
  · exact Or.inr rfl
  · rw [hx] at hne
    dsimp only at hne ⊢
    by_cases hallowed : Allowed a.ninodes a.kernel k
    · rw [if_pos hallowed]
      obtain ⟨hrange, hunique⟩ := hallowed
      refine ⟨rfl, v, ?_⟩
      exact
        { st := { h.st with kernel := rfl }
          sound := h.sound
          ninodes := h.ninodes
          range := by
            intro ip href
            obtain ⟨hdev, hle, hlt, -⟩ := hrange ip href
            exact ⟨hdev, hle, h.ninodes ▸ hlt⟩
          unique := fun ip jp hi hj => hunique ip hi jp hj
          copy := by
            intro ip href hvalid
            obtain ⟨-, -, -, hwas⟩ := hrange ip href
            obtain ⟨hvalid', href', hinum⟩ := hwas hvalid
            have hcopy := h.copy ip href' hvalid'
            unfold AState.inum at *
            dsimp only
            rw [hinum]
            exact hcopy
          files := h.files }
    · rw [if_neg hallowed] at hne
      exact absurd rfl hne

theorem fields_refined (ip : Ip) :
    Refines (Implements (P := P) sb ds) .misuse excused (diskOps.fields ip)
      (fileOps.fields ip) := by
  apply Refines.of_guard
  rintro c a ⟨v, h⟩ hg
  have hu : a.Usable ip := by simpa using hg
  refine ⟨?_, v, h⟩
  change Except.ok (a.file ip).fields = Except.ok (c.copy ip).fields
  rw [h.file_eq hu, (h.copy ip hu.1 hu.2).1]

include hl

theorem update_refined (ip : Ip) (f : Meta → Meta) :
    Refines (Implements (P := P) sb ds) .misuse excused (diskOps.update ip f)
      (fileOps.update ip f) := by
  apply Refines.of_guard
  rintro c a ⟨v, h⟩ hg
  obtain ⟨hu, ho⟩ : a.Usable ip ∧ 0 < a.kernel.outstanding := by
    simpa [Nat.pos_iff_ne_zero] using hg
  have hi := h.inum_lt hu
  obtain ⟨hsound, hbytes⟩ := h.sound.amend (i := a.inum ip) f
  have hself : (v.setIno (a.inum ip) ((v.ino (a.inum ip)).amend f)).ino (a.inum ip) =
      (v.ino (a.inum ip)).amend f := set_self _ _ _
  refine wp_mono_total (wp_updateInode hl (h.ahead hu) (h.wf hi) ho f) ?_
  intro _ c' hst
  have hst' : St sb ds a.kernel (set c.copy ip
      ((v.setIno (a.inum ip) ((v.ino (a.inum ip)).amend f)).ino (a.inum ip)))
      (v.setIno (a.inum ip) ((v.ino (a.inum ip)).amend f)) [] c' := by
    rw [hself]
    exact hst
  refine ⟨rfl, _, h.setFile hu hst' hsound ?_ ?_ ?_ ?_ ?_⟩
  · intro j hj
    exact set_of_ne _ _ hj
  · intro j _
    rw [hbytes]
  · rw [hself]
    exact (h.copy ip hu.1 hu.2).2
  · rw [hself, AFile.amend, h.file_eq hu]
    rfl
  · rw [hbytes, AFile.amend, h.file_eq hu]

theorem write_refined (ip : Ip) (src : Nat → UInt8) (off n : Nat) :
    Refined (P := P) sb ds (diskOps.write ip src off n) (fileOps.write ip src off n) := by
  apply Refines.of_guard
  rintro c a ⟨v, h⟩ hg
  simp only [not_or, not_not, Nat.not_lt] at hg
  obtain ⟨hu, hdev, ho, hoff, hmax⟩ := hg
  have hfile := h.file_eq hu
  rw [hfile] at hdev hoff
  have htype := (h.copy ip hu.1 hu.2).2
  have hreg : Regular (v.ino (a.inum ip)) := ⟨htype, hdev, h.wf (h.inum_lt hu)⟩
  refine wp_mono (wp_writeInode hl (h.ahead hu) h.sound hreg (Nat.pos_of_ne_zero ho) hoff hmax)
    ?_ (fun e _ he => Or.inl he.1)
  rintro _ c' ⟨v', hst, hsound, hino, hfields, hbytes⟩
  refine ⟨rfl, v', h.setFile hu hst hsound hino ?_ ?_ ?_ ?_⟩
  · intro j hj
    funext o
    rw [hbytes, if_neg (fun hc => hj hc.1)]
  · rw [show (v'.ino (a.inum ip)).type = (v.ino (a.inum ip)).type from
      congrArg Meta.type hfields]
    exact htype
  · rw [hfields, AFile.write, hfile]
    rfl
  · funext o
    rw [hbytes, AFile.write, hfile]
    simp

theorem read_refined (ip : Ip) (off n : Nat) :
    Refines (Implements (P := P) sb ds) .misuse excused (diskOps.read ip off n)
      (fileOps.read ip off n) := by
  apply Refines.of_guard
  rintro c a ⟨v, h⟩ hg
  simp only [not_or, not_not, Nat.not_lt] at hg
  obtain ⟨hu, hdev, hsize⟩ := hg
  have hfile := h.file_eq hu
  rw [hfile] at hdev hsize
  have htype := (h.copy ip hu.1 hu.2).2
  have hreg : Regular (v.ino (a.inum ip)) := ⟨htype, hdev, h.wf (h.inum_lt hu)⟩
  have hgrow : Growing sb (a.inum ip) (fun j => blocks (v.ino j).size) v :=
    ⟨h.sound.ledger, h.sound.filled, hreg⟩
  have hin : off + (n - 0) ≤ BSIZE * blocks (v.ino (a.inum ip)).size := by
    have hsize' : off + n ≤ (v.ino (a.inum ip)).size := hsize
    unfold blocks BSIZE
    omega
  refine wp_mono_total (wp_readLoop hl (h.ahead hu) hgrow (Nat.sub_le _ _) hin) ?_
  rintro r c' ⟨rfl, hahead⟩
  have hst := hahead.st
  rw [← (h.copy ip hu.1 hu.2).1, set_eta] at hst
  refine ⟨?_, v, ?_⟩
  · change Except.ok (fun j => if j < n then (a.file ip).data (off + j) else 0) = _
    rw [hfile]
    congr 1
    funext j
    simp
  · exact { h with st := by rw [hst.copy]; exact hst, copy := by rw [hst.copy]; exact h.copy }

omit hl in
theorem Rel.type_eq {v : View} {c : FsState P} {a : AState P} (h : Rel sb ds v c a) {i : Nat}
    (hi : i < sb.ninodes) : (a.files i).fields.type = (v.ino i).type := by
  rw [h.files i hi]
  unfold fileOf
  split
  · next h0 => exact h0.symm
  · rfl

theorem alloc_refined (dev : Nat) (type : Int) :
    Refines (Implements (P := P) sb ds) .misuse excused (diskOps.alloc dev type)
      (fileOps.alloc dev type) := by
  apply Refines.of_guard
  rintro c a ⟨v, h⟩ hg
  simp only [not_or, not_not] at hg
  obtain ⟨rfl, ho⟩ := hg
  refine wp_mono (wp_allocInode hl h.st (Nat.pos_of_ne_zero ho) type) ?_ ?_
  · rintro i c' ⟨hpos, hi, hfree, hfirst, hst⟩
    have hfound : a.firstFree = some i := by
      unfold AState.firstFree
      rw [List.find?_range'_eq_some]
      refine ⟨?_, ?_, ?_⟩
      · simpa [h.type_eq hi] using hfree
      · rw [List.mem_range'_1, h.ninodes]
        omega
      · intro j hj hji
        simpa [h.type_eq (hji.trans hi)] using hfirst j hj hji
    have hold (r : Nat) : v.own sb (i, r) = 0 := if_neg (fun hc => hc.2 hfree)
    obtain ⟨hsound, hbytes⟩ := h.sound.setIno_empty hold (Dinode.addr_empty (short type)) rfl
    have hself : (v.setIno i (Dinode.empty (short type))).ino i = Dinode.empty (short type) :=
      set_self _ _ _
    have hother {j : Nat} (hj : j ≠ i) :
        (v.setIno i (Dinode.empty (short type))).ino j = v.ino j := set_of_ne _ _ hj
    rw [hfound]
    refine ⟨rfl, v.setIno i (Dinode.empty (short type)), ?_⟩
    exact
      { st := by
          rw [hst.copy]
          exact hst
        sound := hsound
        ninodes := h.ninodes
        range := h.range
        unique := h.unique
        copy := by
          intro ip href hvalid
          have hcopy := h.copy ip href hvalid
          have hne : a.inum ip ≠ i := by
            rintro rfl
            exact hcopy.2 hfree
          change c'.copy ip = _ ∧ ((v.setIno i _).ino (a.inum ip)).type ≠ 0
          rw [hst.copy]
          change c.copy ip = (v.setIno i _).ino (a.inum ip) ∧ _
          rw [hother hne]
          exact hcopy
        files := by
          intro j hj
          change set a.files i (AFile.empty (short type)) j = _
          unfold fileOf
          by_cases hji : j = i
          · subst hji
            rw [set_self, hself]
            split
            · next h0 => rw [show short type = 0 from h0]
            · have hzero : (v.setIno j (Dinode.empty (short type))).byteAt sb j = fun _ => 0 := by
                funext o
                apply View.byteAt_of_no_addrs
                intro q
                rw [hself, Dinode.addr_empty]
              rw [hzero]
              rfl
          · rw [set_of_ne _ _ hji, hother hji, hbytes, h.files j hj]
            rfl }
  · rintro e _ ⟨rfl, hall⟩
    have hnone : a.firstFree = none := by
      unfold AState.firstFree
      rw [List.find?_range'_eq_none]
      intro j hj hlt
      have hjn : j < sb.ninodes := by
        rw [h.ninodes] at hlt
        omega
      simpa [h.type_eq hjn] using hall j hj hjn
    rw [hnone]
    exact Or.inr rfl

theorem load_refined (ip : Ip) :
    Refines (Implements (P := P) sb ds) .misuse excused (diskOps.load ip) (fileOps.load ip) := by
  apply Refines.of_guard
  rintro c a ⟨v, h⟩ hg
  have href : 0 < (a.kernel.icache ip).ref := by simpa using hg
  obtain ⟨hdev, -, hi⟩ := h.range ip href
  have htype : (a.file ip).fields.type = (v.ino (a.inum ip)).type := h.type_eq hi
  refine wp_mono (wp_loadInode hl h.st hdev hi) ?_ ?_
  · rintro _ c' ⟨halloc, hst⟩
    have hne : ¬ (a.file ip).fields.type = 0 := by
      rw [htype]
      exact halloc
    have hrun : (panicIf ((a.file ip).fields.type = 0) .ilockNoType >>=
        fun _ => modify fun a => a.setValid ip true : AM P Unit) a =
        (.ok (), a.setValid ip true) := by
      rw [panicIf, if_neg hne]
      rfl
    rw [hrun]
    refine ⟨rfl, v, ?_⟩
    exact
      { st := by
          rw [hst.copy]
          exact hst
        sound := h.sound
        ninodes := h.ninodes
        range := by simpa using h.range
        unique := by simpa using h.unique
        copy := by
          intro jp hjref hvalid
          rw [hst.copy, AState.setValid_inum]
          rw [AState.setValid_ref] at hjref
          by_cases hjp : jp = ip
          · subst hjp
            exact ⟨set_self _ _ _, halloc⟩
          · rw [AState.setValid_valid, if_neg hjp] at hvalid
            rw [set_of_ne _ _ hjp]
            exact h.copy jp hjref hvalid
        files := h.files }
  · rintro e _ ⟨rfl, h0⟩
    have hrun : (panicIf ((a.file ip).fields.type = 0) .ilockNoType >>=
        fun _ => modify fun a => a.setValid ip true : AM P Unit) a = (.error .ilockNoType, a) := by
      rw [panicIf, if_pos (htype.trans h0)]
      rfl
    rw [hrun]
    exact Or.inr rfl

theorem free_refined (ip : Ip) :
    Refines (Implements (P := P) sb ds) .misuse excused (diskOps.free ip) (fileOps.free ip) := by
  apply Refines.of_guard
  rintro c a ⟨v, h⟩ hg
  obtain ⟨hu, ho⟩ : a.Usable ip ∧ 0 < a.kernel.outstanding := by
    simpa [Nat.pos_iff_ne_zero] using hg
  have htype := (h.copy ip hu.1 hu.2).2
  refine wp_mono_total (wp_freeInode hl (h.ahead hu) h.sound htype (h.wf (h.inum_lt hu)) ho) ?_
  rintro _ c' ⟨v', hst, hsound, hfree, hother, hbytes⟩
  refine ⟨rfl, v', ?_⟩
  change Rel sb ds v' c' ((a.setFile ip (AFile.empty 0)).setValid ip false)
  exact
    { st := by
        rw [hst.copy]
        exact hst
      sound := hsound
      ninodes := h.ninodes
      range := by
        simp only [AState.setValid_ref, AState.setValid_dev, AState.setValid_icache_inum]
        exact h.range
      unique := by
        simp only [AState.setValid_ref, AState.setValid_icache_inum]
        exact h.unique
      copy := by
        intro jp hjref hvalid
        rw [AState.setValid_ref] at hjref
        by_cases hjp : jp = ip
        · subst hjp
          rw [AState.setValid_valid, if_pos rfl] at hvalid
          cases hvalid
        · rw [AState.setValid_valid, if_neg hjp] at hvalid
          have hne : a.inum jp ≠ a.inum ip := fun heq => hjp (h.unique jp ip hjref hu.1 heq)
          rw [AState.setValid_inum, hst.copy, set_of_ne _ _ hjp]
          change c.copy jp = v'.ino (a.inum jp) ∧ (v'.ino (a.inum jp)).type ≠ 0
          rw [hother _ hne]
          exact h.copy jp hjref hvalid
      files := by
        intro j hj
        change set a.files (a.inum ip) (AFile.empty 0) j = fileOf sb v' j
        unfold fileOf
        by_cases hji : j = a.inum ip
        · subst hji
          rw [set_self, if_pos hfree]
        · rw [set_of_ne _ _ hji, hother j hji, hbytes j hji, h.files j hj]
          rfl }

/-- The file system on the disk refines the table of files. -/
theorem diskOps_refine :
    OpsRefine (P := P) (Implements sb ds) .misuse OutOfBlocks diskOps fileOps where
  kernel := kernel_refined
  alloc := alloc_refined hl
  load := load_refined hl
  fields := fields_refined
  update := update_refined hl
  free := free_refined hl
  read := read_refined hl
  write := write_refined hl

end Refinement

end Xv6.Fs
