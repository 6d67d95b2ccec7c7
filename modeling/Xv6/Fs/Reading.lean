import Xv6.Fs.Contents

/-!
The inode functions of the kernel on a disk that they only read: which entry of
the inode cache they change, with the same view of the disk before and after.
-/

namespace Xv6.Fs

open Prog

section Inodes

variable {P : Type} {sb : Superblock} {ds : Nat} {k : Kernel P} {cp : Ip → Dinode}
  {v : View} {c : FsState P} {p : P} {ip : Ip}

variable {E : Panic → FsState P → Prop} {e : Entry P} {Q : Unit → FsState P → Prop}

section

variable {α : Type} {x : KernelM P α} {Q : α → FsState P → Prop} (h : St sb ds k cp v [] c)
include h

theorem St.wp_kernel_or
    (hx : wp x (fun a k' => ∀ c', St sb ds k' cp v [] c' → Q a c')
      (fun e k' => ∀ c', St sb ds k' cp v [] c' → E e c') k) :
    wp (diskOps.kernel x) Q E c := by
  rw [← h.kernel] at hx
  unfold wp at hx ⊢
  unfold diskOps
  dsimp only
  rcases hrun : x c.kernel with ⟨e | a, k'⟩
  · rw [hrun] at hx
    exact hx _ { h with kernel := rfl }
  · rw [hrun] at hx
    exact hx _ { h with kernel := rfl }

theorem St.wp_kernel
    (hx : wp x (fun a k' => ∀ c', St sb ds k' cp v [] c' → Q a c') (fun _ _ => False) k) :
    wp (diskOps.kernel x) Q E c :=
  h.wp_kernel_or (wp_mono_total hx fun _ _ hq => hq)

end

/-- `iget` takes a reference to the entry of the inode, or an unused entry if it
has none, and stops if all entries are in use. -/
theorem wp_iget (k : Kernel P) (dev inum : Nat) :
    wp (iget dev inum)
      (fun r k' =>
        (0 < (k.icache r).ref ∧ (k.icache r).dev = dev ∧ (k.icache r).inum = inum ∧
          k' = k.setEntry r { k.icache r with ref := (k.icache r).ref + 1 }) ∨
        ((∀ jp, 0 < (k.icache jp).ref → ¬ ((k.icache jp).dev = dev ∧ (k.icache jp).inum = inum)) ∧
          (k.icache r).ref = 0 ∧
          k' = k.setEntry r { k.icache r with dev := dev, inum := inum, ref := 1, valid := false }))
      (fun e k' => e = .igetNoInodes ∧ k' = k ∧
        (∀ jp, 0 < (k.icache jp).ref → ¬ ((k.icache jp).dev = dev ∧ (k.icache jp).inum = inum)) ∧
        ∀ jp, (k.icache jp).ref ≠ 0) k := by
  unfold iget
  simp only [wp_bind, wp_gets]
  split
  · next jp hfound =>
      have hjp := List.find?_some hfound
      simp only [Bool.and_eq_true, decide_eq_true_eq, beq_iff_eq] at hjp
      exact Or.inl ⟨hjp.1.1, hjp.1.2, hjp.2, rfl⟩
  · next hnone =>
      have hnew : ∀ jp, 0 < (k.icache jp).ref →
          ¬ ((k.icache jp).dev = dev ∧ (k.icache jp).inum = inum) := by
        intro jp href hname
        have hjp := List.find?_eq_none.mp hnone jp (List.mem_finRange jp)
        simp [href, hname] at hjp
      split
      · next jp hfound => exact Or.inr ⟨hnew, by simpa using List.find?_some hfound, rfl⟩
      · next hfull =>
          refine ⟨rfl, rfl, hnew, fun jp hzero => ?_⟩
          have hjp := List.find?_eq_none.mp hfull jp (List.mem_finRange jp)
          simp [hzero] at hjp

theorem wp_iget_cached {dev inum : Nat} (ip : Ip) (href : 0 < (k.icache ip).ref)
    (hname : (k.icache ip).dev = dev ∧ (k.icache ip).inum = inum)
    (hother : ∀ jp, jp ≠ ip → (k.icache jp).ref = 0) :
    wp (iget dev inum)
      (fun r k' => r = ip ∧
        k' = k.setEntry ip { k.icache ip with ref := (k.icache ip).ref + 1 })
      (fun _ _ => False) k := by
  refine wp_mono (wp_iget k dev inum) ?_ ?_
  · rintro r k' (⟨hpos, -, -, hk'⟩ | ⟨hnew, -⟩)
    · obtain rfl : r = ip := by
        by_contra hne
        have := hother r hne
        omega
      exact ⟨rfl, hk'⟩
    · exact absurd hname (hnew ip href)
  · rintro e k' ⟨-, -, hnew, -⟩
    exact hnew ip href hname

theorem wp_iget_new {dev inum : Nat} (hfree : ∃ ip, (k.icache ip).ref = 0)
    (hnone : ∀ jp, 0 < (k.icache jp).ref → (k.icache jp).inum ≠ inum) :
    wp (iget dev inum) (fun r k' => (k.icache r).ref = 0 ∧
      k' = k.setEntry r { k.icache r with dev := dev, inum := inum, ref := 1, valid := false })
      (fun _ _ => False) k := by
  refine wp_mono (wp_iget k dev inum) ?_ ?_
  · rintro r k' (⟨hpos, -, hinum, -⟩ | ⟨-, hzero, hk'⟩)
    · exact absurd hinum (hnone r hpos)
    · exact ⟨hzero, hk'⟩
  · rintro e k' ⟨-, -, -, hfull⟩
    obtain ⟨ip, hzero⟩ := hfree
    exact hfull ip hzero

theorem Kernel.setEntry_setEntry (k : Kernel P) (ip : Ip) (e e' : Entry P) :
    (k.setEntry ip e).setEntry ip e' = k.setEntry ip e' := by
  unfold Kernel.setEntry
  simp

section

variable (h : St sb ds k cp v [] c)
include h

theorem St.wp_entry {Q : Entry P → FsState P → Prop} (he : k.icache ip = e)
    (hQ : ∀ c', St sb ds k cp v [] c' → Q e c') : wp (diskOps.kernel (entry ip)) Q E c := by
  refine h.wp_kernel ?_
  rw [entry, wp_gets, he]
  exact hQ

theorem St.wp_setEntry (hQ : ∀ c', St sb ds (k.setEntry ip e) cp v [] c' → Q () c') :
    wp (diskOps.kernel (setEntry ip e)) Q E c :=
  h.wp_kernel hQ

theorem St.wp_acquiresleep (he : k.icache ip = e) (hlock : e.lock = none)
    (hQ : ∀ c', St sb ds (k.setEntry ip { e with lock := some p }) cp v [] c' → Q () c') :
    wp (diskOps.kernel (acquiresleep p ip)) Q E c := by
  refine h.wp_kernel ?_
  unfold acquiresleep entry
  simp only [wp_bind, wp_gets, wp_panicIf, he]
  exact ⟨fun hc => hc hlock, fun _ => hQ⟩

theorem St.wp_releasesleep (he : k.icache ip = e)
    (hQ : ∀ c', St sb ds (k.setEntry ip { e with lock := none }) cp v [] c' → Q () c') :
    wp (diskOps.kernel (releasesleep ip)) Q E c := by
  refine h.wp_kernel ?_
  unfold releasesleep entry
  simp only [wp_bind, wp_gets, he]
  exact hQ

end

/-- `ilock` of an inode that is there. -/
theorem St.wp_ilock (hl : Layout sb ds) (h : St sb ds k cp v [] c) (he : k.icache ip = e)
    (href : 1 ≤ e.ref) (hlock : e.lock = none) (hdev : e.dev = 1) (hi : e.inum < sb.ninodes)
    (htype : (v.ino e.inum).type ≠ 0) (hcopy : e.valid = true → cp ip = v.ino e.inum) :
    wp (ilock diskOps p ip)
      (fun _ c' => St sb ds (k.setEntry ip { e with lock := some p, valid := true })
        (set cp ip (v.ino e.inum)) v [] c') (fun _ _ => False) c := by
  unfold ilock
  simp only [wp_bind, wp_panicIf]
  refine h.wp_entry he fun c₁ h₁ => ⟨fun hc => by omega, fun _ => ?_⟩
  refine h₁.wp_acquiresleep he hlock fun c₂ h₂ => ?_
  rw [wp_when]
  constructor
  · intro _
    have hself : (k.setEntry ip { e with lock := some p }).icache ip = { e with lock := some p } :=
      Kernel.setEntry_self ..
    refine wp_mono (wp_loadInode hl h₂ (by rw [hself]; exact hdev) (by rw [hself]; exact hi)) ?_ ?_
    · rintro _ c₃ ⟨-, h₃⟩
      rwa [hself, Kernel.setEntry_setEntry] at h₃
    · rintro _ _ ⟨-, hzero⟩
      rw [hself] at hzero
      exact htype hzero
  · intro hvalid
    have hv : e.valid = true := by simpa using hvalid
    rw [← hcopy hv, set_eta]
    have hsame : ({ e with lock := some p } : Entry P) =
      { e with lock := some p, valid := true } := by
      rw [← hv]
    rwa [hsame] at h₂

theorem St.wp_iunlock [DecidableEq P] (h : St sb ds k cp v [] c) (he : k.icache ip = e)
    (href : 1 ≤ e.ref) (hlock : e.lock = some p) : wp (iunlock diskOps p ip)
      (fun _ c' => St sb ds (k.setEntry ip { e with lock := none }) cp v [] c')
      (fun _ _ => False) c := by
  unfold iunlock
  simp only [wp_bind, wp_panicIf]
  refine h.wp_entry he fun c₁ h₁ => ⟨fun hc => ?_, fun _ => ?_⟩
  · rcases hc with hc | hc
    · exact hc hlock
    · omega
  · exact h₁.wp_releasesleep he fun c₂ h₂ => h₂

/-- `iput` of an inode that it does not free. -/
theorem St.wp_iput (h : St sb ds k cp v [] c) (he : k.icache ip = e) (hlock : e.lock = none)
    (hkeep : ¬ (e.valid = true ∧ (cp ip).nlink = 0 ∧ e.ref = 1)) : wp (iput diskOps p ip)
      (fun _ c' => St sb ds (k.setEntry ip { e with ref := e.ref - 1 }) cp v [] c')
      (fun _ _ => False) c := by
  unfold iput
  simp only [wp_bind, wp_when]
  refine h.wp_acquiresleep he hlock fun c₁ h₁ => ?_
  refine h₁.wp_entry (Kernel.setEntry_self ..) fun c₂ h₂ => ?_
  have hrest : wp (diskOps.kernel (releasesleep ip)) (fun _ => wp (diskOps.kernel (entry ip))
      (fun e' => wp (diskOps.kernel (setEntry ip { e' with ref := e'.ref - 1 }))
        (fun _ c' => St sb ds (k.setEntry ip { e with ref := e.ref - 1 }) cp v [] c')
        (fun _ _ => False)) (fun _ _ => False)) (fun _ _ => False) c₂ := by
    refine h₂.wp_releasesleep (Kernel.setEntry_self ..) fun c₃ h₃ => ?_
    rw [Kernel.setEntry_setEntry] at h₃
    refine h₃.wp_entry (Kernel.setEntry_self ..) fun c₄ h₄ => ?_
    refine h₄.wp_setEntry fun c₅ h₅ => ?_
    rw [Kernel.setEntry_setEntry] at h₅
    have hsame : ({ e with lock := none, ref := e.ref - 1 } : Entry P) =
        { e with ref := e.ref - 1 } := by
      rw [← hlock]
    rwa [hsame] at h₅
  refine ⟨fun hvalid => ?_, fun _ => hrest⟩
  change ((c₂.copy ip).nlink = 0 ∧ e.ref = 1 → _) ∧ (_ → _)
  refine ⟨fun hc => ?_, fun _ => hrest⟩
  rw [h₂.copy] at hc
  exact absurd ⟨hvalid, hc⟩ hkeep

/-- `readi` of bytes that are in the file, in blocks that are there. -/
theorem St.wp_readi [DecidableEq P] (hl : Layout sb ds) (h : St sb ds k cp v [] c)
    {i off n : Nat} {nb : Nat → Nat}
    (hdev : (k.icache ip).dev = 1) (hinum : (k.icache ip).inum = i) (hi : i < sb.ninodes)
    (hcopy : cp ip = v.ino i) (hg : Growing sb i nb v) (hsize : off + n ≤ (v.ino i).size)
    (hblocks : off + n ≤ BSIZE * nb i) :
    wp (readi diskOps p ip off n)
      (fun r c' => r.1 = n ∧ (∀ j < n, r.2 j = v.byteAt sb i (off + j)) ∧ St sb ds k cp v [] c')
      (fun _ _ => False) c := by
  have hfields : (c.copy ip).fields = (v.ino i).fields := by rw [h.copy, hcopy]
  have hfits := hg.regular.wf.size
  unfold readi
  rw [wp_bind]
  change wp (if (c.copy ip).fields.type = T_DEV then _ else _) _ _ c
  rw [hfields, if_neg (by exact hg.regular.notDev), if_neg]
  · rw [if_neg (by change ¬ (v.ino i).size < off + n; omega), wp_bind]
    refine wp_mono (wp_readLoop hl (h.ahead hcopy hdev hinum hi) hg (Nat.sub_le _ _) (by simpa)) ?_
      fun _ _ hf => hf
    rintro r c' ⟨rfl, hahead⟩
    have hst := hahead.st
    rw [← hcopy, set_eta] at hst
    refine ⟨rfl, fun j hj => ?_, hst⟩
    dsimp only
    rw [if_pos ⟨Nat.zero_le _, hj⟩, Nat.sub_zero]
  · change ¬ ((v.ino i).size < off ∨ _)
    rw [Nat.mod_eq_of_lt (by omega)]
    omega

end Inodes

end Xv6.Fs
