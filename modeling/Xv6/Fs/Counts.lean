import Xv6.Lib.Tally
import Xv6.Fs.Frame

/-!
The reference counts of the inode cache. Every function that works on inodes
says how the counts change: `iget` and `idup` add a reference, `iput` takes one
back, and a path lookup, whether it succeeds or fails, leaves what its result
shows. Nothing is assumed about the disk.
-/

namespace Xv6.Fs

open Prog Tally

/-- The tables above the inode cache. -/
structure Outer (P : Type) where
  ftable : Fin NFILE → File
  pipes : Page → Option PipeEnds
  proc : P → Proc P
  initproc : P
  history : List Event

def Kernel.outer {P : Type} (k : Kernel P) : Outer P :=
  ⟨k.ftable, k.pipes, k.proc, k.initproc, k.history⟩

/-- What is fixed during a call: references that it does not touch, an inode
that one of them keeps in the cache, what `create` had made at the start, and,
for functions that make nothing, that this is all. -/
structure Pins where
  base : Ip → Nat
  owner : Option Owner
  since : List Owner
  made : Option (List Owner)

def Pins.none : Pins := ⟨0, .none, [], .none⟩

theorem Pins.none_add (N : Ip → Nat) : Pins.none.base + N = N := zero_add N

/-- `create` has made the inode again. -/
def Kernel.Remade {P : Type} (k : Kernel P) (u : Owner) (since : List Owner) : Prop :=
  ∃ v ∈ k.made.drop since.length, v.dev = u.dev ∧ v.inum = u.inum

instance {P : Type} (k : Kernel P) (u : Owner) (since : List Owner) :
    Decidable (k.Remade u since) :=
  inferInstanceAs (Decidable (∃ _ ∈ _, _))

/-- The entry of a new inode, marked with its container and recorded. -/
def Kernel.own {P : Type} (k : Kernel P) (ip : Ip) (c : Int) : Kernel P :=
  { k.setEntry ip { k.icache ip with containerID := c } with
    made := k.made ++ [⟨(k.icache ip).dev, (k.icache ip).inum, c⟩] }

section Own

variable {P : Type} (k : Kernel P) (ip : Ip) (c : Int)

theorem Kernel.own_made :
    (k.own ip c).made = k.made ++ [⟨(k.icache ip).dev, (k.icache ip).inum, c⟩] := rfl

theorem Kernel.own_self :
    ((k.own ip c).icache ip).owner = ⟨(k.icache ip).dev, (k.icache ip).inum, c⟩ := by
  change ((k.setEntry ip { k.icache ip with containerID := c }).icache ip).owner = _
  rw [k.setEntry_self]
  rfl

theorem Kernel.own_other {jp : Ip} (hjp : jp ≠ ip) :
    ((k.own ip c).icache jp).owner = (k.icache jp).owner := by
  change ((k.setEntry ip _).icache jp).owner = _
  rw [k.setEntry_of_ne _ hjp]

theorem Kernel.own_entry (jp : Ip) : ((k.own ip c).icache jp).ref = (k.icache jp).ref ∧
    ((k.own ip c).icache jp).dev = (k.icache jp).dev ∧
    ((k.own ip c).icache jp).inum = (k.icache jp).inum := by
  change ((k.setEntry ip { k.icache ip with containerID := c }).icache jp).ref = _ ∧
    ((k.setEntry ip { k.icache ip with containerID := c }).icache jp).dev = _ ∧
    ((k.setEntry ip { k.icache ip with containerID := c }).icache jp).inum = _
  by_cases hjp : jp = ip
  · subst hjp
    simp
  · simp [k.setEntry_of_ne _ hjp]

end Own

/-- The inode cache counts `N` references beside the fixed ones, and no inode
has two entries in use. -/
structure Acc {P : Type} (w : Pins) (t : Outer P) (N : Ip → Nat) (k : Kernel P) : Prop where
  outer : k.outer = t
  ref : ∀ ip, (k.icache ip).ref = (w.base + N) ip
  unique : ∀ ip jp, 0 < (w.base + N) ip → 0 < (w.base + N) jp →
    (k.icache ip).dev = (k.icache jp).dev → (k.icache ip).inum = (k.icache jp).inum → ip = jp
  since : w.since <+: k.made
  kept : ∀ u, w.owner = some u →
    k.Remade u w.since ∨ ∃ ip, 0 < w.base ip ∧ (k.icache ip).owner = u
  made : ∀ m, w.made = some m → k.made = m

namespace Acc

variable {P : Type} {w : Pins} {t : Outer P} {N M : Ip → Nat} {k k' : Kernel P} {ip : Ip}

theorem of_none (href : ∀ ip, (k.icache ip).ref = N ip)
    (hunique : ∀ ip jp, 0 < N ip → 0 < N jp → (k.icache ip).dev = (k.icache jp).dev →
      (k.icache ip).inum = (k.icache jp).inum → ip = jp) : Acc .none k.outer N k where
  outer := rfl
  ref := by rwa [Pins.none_add]
  unique := by rwa [Pins.none_add]
  since := List.nil_prefix
  kept := nofun
  made := nofun

theorem ref_none (h : Acc .none t N k) (ip : Ip) : (k.icache ip).ref = N ip := by
  rw [h.ref ip, Pins.none_add]

/-- All references are fixed from here on. -/
theorem fix {w : Pins} (h : Acc .none t w.base k) (hsince : w.since <+: k.made)
    (hkept : ∀ u, w.owner = some u → ∃ ip, 0 < (k.icache ip).ref ∧ (k.icache ip).owner = u)
    (hmade : ∀ m, w.made = some m → k.made = m) : Acc w t 0 k where
  outer := h.outer
  ref := by
    rw [add_zero]
    exact h.ref_none
  unique := by
    have := h.unique
    rwa [Pins.none_add, ← add_zero w.base] at this
  since := hsince
  kept := by
    intro u hu
    obtain ⟨ip, hpos, howner⟩ := hkept u hu
    have := h.ref_none ip
    exact .inr ⟨ip, by omega, howner⟩
  made := hmade

section

variable (h : Acc w t N k)
include h

/-- Another state in which the entries in use are for the same inodes. -/
theorem congr_ref (houter : k'.outer = k.outer) (hmade : k'.made = k.made)
    (href : ∀ ip, (k'.icache ip).ref = (w.base + M) ip)
    (huse : ∀ ip, 0 < (w.base + M) ip → 0 < (w.base + N) ip)
    (hsame : ∀ ip, (k'.icache ip).owner = (k.icache ip).owner) : Acc w t M k' where
  outer := houter.trans h.outer
  ref := href
  unique := by
    intro ip jp hi hj hdev hinum
    refine h.unique ip jp (huse ip hi) (huse jp hj) ?_ ?_
    · exact (congrArg Owner.dev (hsame ip)).symm.trans (hdev.trans (congrArg Owner.dev (hsame jp)))
    · exact (congrArg Owner.inum (hsame ip)).symm.trans
        (hinum.trans (congrArg Owner.inum (hsame jp)))
  since := by rw [hmade]; exact h.since
  kept := by
    intro u hu
    unfold Kernel.Remade
    simp only [hmade, hsame]
    exact h.kept u hu
  made := by rw [hmade]; exact h.made

/-- Changes of locks and flags do not matter. -/
theorem congr (houter : k'.outer = k.outer) (hmade : k'.made = k.made)
    (hsame : ∀ ip, (k'.icache ip).ref = (k.icache ip).ref ∧
      (k'.icache ip).owner = (k.icache ip).owner) : Acc w t N k' :=
  h.congr_ref houter hmade (fun ip => (hsame ip).1.trans (h.ref ip)) (fun _ hpos => hpos)
    fun ip => (hsame ip).2

/-- Other tables above the inode cache. -/
theorem retable (hicache : k'.icache = k.icache) (hmade : k'.made = k.made) :
    Acc w k'.outer N k' where
  outer := rfl
  ref := by rw [hicache]; exact h.ref
  unique := by rw [hicache]; exact h.unique
  since := by rw [hmade]; exact h.since
  kept := by
    unfold Kernel.Remade
    rw [hicache, hmade]
    exact h.kept
  made := by rw [hmade]; exact h.made

theorem revalidated (hk : k.Revalidated k') : Acc w t N k' := by
  obtain ⟨v, rfl⟩ := hk
  exact h.congr rfl rfl (fun _ => ⟨rfl, rfl⟩)

theorem setEntry_same {e : Entry P} (href : e.ref = (k.icache ip).ref)
    (howner : e.owner = (k.icache ip).owner) : Acc w t N (k.setEntry ip e) := by
  refine h.congr rfl rfl ?_
  intro jp
  by_cases hjp : jp = ip
  · subst hjp
    simp [href, howner]
  · simp [k.setEntry_of_ne _ hjp]

/-- Another count for the entry, which was and may be in use. -/
theorem setRef {r : Int} (hr : r = (w.base + M) ip) (hother : ∀ jp, jp ≠ ip → M jp = N jp)
    (hpos : 0 < (w.base + N) ip) : Acc w t M (k.setEntry ip { k.icache ip with ref := r }) := by
  refine h.congr_ref rfl rfl ?_ ?_ ?_
  · intro jp
    by_cases hjp : jp = ip
    · subst hjp
      simpa using hr
    · simp [k.setEntry_of_ne _ hjp, hother jp hjp, h.ref]
  · intro jp hjp
    by_cases heq : jp = ip
    · rwa [heq]
    · simpa [hother jp heq] using hjp
  · intro jp
    by_cases hjp : jp = ip
    · subst hjp
      simp [Entry.owner]
    · simp [k.setEntry_of_ne _ hjp]

theorem addRef (hpos : 0 < (w.base + N) ip) :
    Acc w t (N + one ip) (k.setEntry ip { k.icache ip with ref := (k.icache ip).ref + 1 }) := by
  refine h.setRef ?_ ?_ hpos
  · simp [one_self, h.ref, add_assoc]
  · intro jp hjp
    simp [one_of_ne hjp]

end

theorem dropRef (h : Acc w t (N + one ip) k) :
    Acc w t N (k.setEntry ip { k.icache ip with ref := (k.icache ip).ref - 1 }) := by
  refine h.setRef ?_ ?_ ?_
  · simp [one_self, h.ref, ← add_assoc]
  · intro jp hjp
    simp [one_of_ne hjp]
  · simp [one_self]

/-- An unused entry is taken for an inode that has none. -/
theorem newRef (h : Acc w t N k) {dev inum : Nat} (hzero : (k.icache ip).ref = 0)
    (hnew : ∀ jp, 0 < (w.base + N) jp →
      ¬ ((k.icache jp).dev = dev ∧ (k.icache jp).inum = inum)) :
    Acc w t (N + one ip) (k.setEntry ip { k.icache ip with
      dev := dev, inum := inum, ref := 1, valid := false }) := by
  have hN : (w.base + N) ip = 0 := by
    have := h.ref ip
    omega
  have hpos {jp : Ip} (hne : jp ≠ ip) (hjp : 0 < (w.base + (N + one ip)) jp) :
      0 < (w.base + N) jp := by
    simpa [one_of_ne hne] using hjp
  refine ⟨h.outer, ?_, ?_, h.since, ?_, h.made⟩
  · intro jp
    rw [← add_assoc, Pi.add_apply]
    by_cases hjp : jp = ip
    · subst hjp
      simp [one_self, hN]
    · simp [k.setEntry_of_ne _ hjp, one_of_ne hjp, h.ref]
  · intro ip' jp' hi hj hdev hinum
    by_cases hi' : ip' = ip
    · by_cases hj' : jp' = ip
      · rw [hi', hj']
      · subst hi'
        simp only [k.setEntry_self, k.setEntry_of_ne _ hj'] at hdev hinum
        exact absurd ⟨hdev.symm, hinum.symm⟩ (hnew jp' (hpos hj' hj))
    · by_cases hj' : jp' = ip
      · subst hj'
        simp only [k.setEntry_self, k.setEntry_of_ne _ hi'] at hdev hinum
        exact absurd ⟨hdev, hinum⟩ (hnew ip' (hpos hi' hi))
      · simp only [k.setEntry_of_ne _ hi', k.setEntry_of_ne _ hj'] at hdev hinum
        exact h.unique ip' jp' (hpos hi' hi) (hpos hj' hj) hdev hinum
  · -- the entry that keeps the inode is in use, so it is not the one taken
    intro u hu
    refine (h.kept u hu).imp_right ?_
    rintro ⟨jp, hjp, howner⟩
    have hne : jp ≠ ip := by
      rintro rfl
      rw [Pi.add_apply] at hN
      omega
    exact ⟨jp, hjp, (congrArg Entry.owner (k.setEntry_of_ne _ hne)).trans howner⟩

/-- The new inode of `create` is fixed, when it is marked. -/
theorem own_fix {m : List Owner} (h : Acc w t (N + one ip) k) (hm : w.made = some m) (c : Int) :
    ∃ u, u.containerID = c ∧
      Acc ⟨w.base + one ip, some u, m ++ [u], some (m ++ [u])⟩ t N (k.own ip c) := by
  have htotal : w.base + one ip + N = w.base + (N + one ip) := by
    rw [add_right_comm, add_assoc]
  have hmade := h.made m hm
  refine ⟨⟨(k.icache ip).dev, (k.icache ip).inum, c⟩, rfl, h.outer, ?_, ?_, ?_, ?_, ?_⟩
  · intro jp
    dsimp only
    rw [htotal]
    exact (k.own_entry ip c jp).1.trans (h.ref jp)
  · intro ip' jp' hi hj hdev hinum
    dsimp only at hi hj
    rw [htotal] at hi hj
    rw [(k.own_entry ip c ip').2.1, (k.own_entry ip c jp').2.1] at hdev
    rw [(k.own_entry ip c ip').2.2, (k.own_entry ip c jp').2.2] at hinum
    exact h.unique ip' jp' hi hj hdev hinum
  · rw [Kernel.own_made, hmade]
  · rintro _ ⟨⟩
    exact .inr ⟨ip, by simp [one_self], k.own_self ip c⟩
  · rintro _ ⟨⟩
    rw [Kernel.own_made, hmade]

/-- `create` marks the entry of a new inode with its container. -/
theorem own (h : Acc w t N k) (hw : w.made = none) (c : Int) : Acc w t N (k.own ip c) where
  outer := h.outer
  ref := fun jp => (k.own_entry ip c jp).1.trans (h.ref jp)
  unique := by
    intro ip' jp' hi hj hdev hinum
    rw [(k.own_entry ip c ip').2.1, (k.own_entry ip c jp').2.1] at hdev
    rw [(k.own_entry ip c ip').2.2, (k.own_entry ip c jp').2.2] at hinum
    exact h.unique ip' jp' hi hj hdev hinum
  since := h.since.trans (List.prefix_append _ _)
  kept := by
    intro v hv
    unfold Kernel.Remade
    rw [Kernel.own_made, List.drop_append_of_le_length h.since.length_le]
    rcases h.kept v hv with ⟨r, hr, hsame⟩ | ⟨jp, hjp, howner⟩
    · exact .inl ⟨r, List.mem_append_left _ hr, hsame⟩
    · by_cases heq : jp = ip
      · subst heq
        refine .inl ⟨_, List.mem_append_right _ (List.mem_singleton_self _), ?_⟩
        rw [← howner]
        exact ⟨rfl, rfl⟩
      · exact .inr ⟨jp, hjp, (k.own_other ip c heq).trans howner⟩
  made := by
    intro m hm
    rw [hw] at hm
    cases hm

end Acc

/-- A triple about the tables in memory for a function that does not stop in
`file.c`. -/
abbrev Spec {σ P α : Type} (view : σ → Kernel P) (Pre : Kernel P → Prop) (x : Prog σ Panic α)
    (Post : α → Kernel P → Prop) : Prop :=
  Triple view (fun e => ¬ e.OfFiles) Pre x Post

section Rules

variable {σ P α : Type} {o : Ops σ P} {view : σ → Kernel P} {Pre : Kernel P → Prop}
  {Post : α → Kernel P → Prop} {w : Pins} {t : Outer P} {N : Ip → Nat}

theorem Frame.triple_kernel (h : Frame o view) {E : Panic → Prop} (hE : E .misuse)
    {x : KernelM P α} (hx : Triple id E Pre x Post) : Triple view E Pre (o.kernel x) Post := by
  intro s hs
  have hpost := hx (view s) hs
  unfold wp at hpost
  refine wp_mono (h.kernel x s) ?_ ?_
  · intro r s' hrun
    rw [hrun] at hpost
    exact hpost
  · rintro e s' (rfl | herr)
    · exact hE
    · rcases hrun : x (view s) with ⟨e' | r, k⟩
      · rw [hrun] at hpost herr
        cases herr
        exact hpost
      · rw [hrun] at herr
        cases herr

theorem Frame.spec_kernel (h : Frame o view) {x : KernelM P α} (hx : Spec id Pre x Post) :
    Spec view Pre (o.kernel x) Post := h.triple_kernel id hx

theorem Leaves.spec {x : Prog σ Panic α} (h : Leaves view x) :
    Spec view (Acc w t N) x (fun _ => Acc w t N) :=
  fun s hs => wp_mono (h s) (fun _ _ hk => hs.revalidated hk) (fun _ _ he => he)

/-- Reading the tables. -/
theorem Frame.spec_gets (h : Frame o view) (f : Kernel P → α) :
    Spec view Pre (o.kernel (gets f)) (fun a k => Pre k ∧ a = f k) :=
  h.spec_kernel (.gets f)

theorem Frame.spec_modify (h : Frame o view) (f : Kernel P → Kernel P) :
    Spec view Pre (o.kernel (modify f)) (fun _ k' => ∃ k, Pre k ∧ k' = f k) :=
  h.spec_kernel (.modified f)

/-- Reading the tables, when the value does not matter. -/
theorem Frame.spec_look (h : Frame o view) (f : Kernel P → α) :
    Spec view Pre (o.kernel (gets f)) (fun _ => Pre) :=
  (h.spec_gets f).post fun _ _ hk => hk.1

end Rules

section Kernel

variable {P : Type} {w : Pins} {t : Outer P} {N : Ip → Nat}

theorem spec_iget (dev inum : Nat) :
    Spec id (Acc w t N) (iget dev inum) (fun ip k => Acc (P := P) w t (N + one ip) k) := by
  intro k (h : Acc w t N k)
  unfold iget
  simp only [wp_bind, wp_gets]
  split
  · next ip hfound =>
      have hip := List.find?_some hfound
      simp only [Bool.and_eq_true, decide_eq_true_eq, h.ref] at hip
      exact h.addRef (by omega)
  · next hnone =>
      split
      · next ip hfound =>
          refine h.newRef (by simpa using List.find?_some hfound) ?_
          rintro jp hjp ⟨hdev, hinum⟩
          have hnot := List.find?_eq_none.mp hnone jp (List.mem_finRange jp)
          simp only [h.ref, hdev, hinum, beq_self_eq_true, Bool.and_true, decide_eq_true_eq] at hnot
          omega
      · exact id

theorem spec_idup {ip : Ip} (hpos : 0 < (w.base + N) ip) :
    Spec id (Acc w t N) (idup ip) (fun jp k => jp = ip ∧ Acc (P := P) w t (N + one ip) k) :=
  fun _ h => ⟨rfl, h.addRef hpos⟩

theorem spec_acquiresleep (p : P) (ip : Ip) :
    Spec id (Acc w t N) (acquiresleep p ip) (fun _ => Acc w t N) :=
  .bind (.gets _) fun e => .bind (.check id) fun _ =>
    .modify fun k h => by
      obtain ⟨h, rfl⟩ := h
      exact h.setEntry_same rfl rfl

theorem spec_releasesleep (ip : Ip) :
    Spec id (Acc w t N) (releasesleep ip) (fun _ => Acc (P := P) w t N) :=
  .bind (.gets _) fun e => .modify fun k h => by
    obtain ⟨h, rfl⟩ := h
    exact h.setEntry_same rfl rfl

theorem spec_beginOp : Spec id (Acc w t N) beginOp (fun _ => Acc (P := P) w t N) :=
  .modify fun _ h => h.congr rfl rfl (fun _ => ⟨rfl, rfl⟩)

theorem spec_endOp : Spec id (Acc w t N) endOp (fun _ => Acc (P := P) w t N) :=
  .modify fun _ h => h.congr rfl rfl (fun _ => ⟨rfl, rfl⟩)

theorem spec_consoleInput (n : Nat) :
    Spec id (Acc w t N) (consoleInput n) (fun _ => Acc (P := P) w t N) :=
  .bind (.gets _) fun _ => .bind
    (.modify fun _ h => h.1.congr rfl rfl (fun _ => ⟨rfl, rfl⟩)) fun _ => .pure _ fun _ h => h

end Kernel

section Inode

variable {σ P : Type} [DecidableEq P] {o : Ops σ P} {view : σ → Kernel P} {w : Pins} {t : Outer P}
  {N M : Ip → Nat} (h : Frame o view) (p : P)

include h

omit [DecidableEq P] in
theorem spec_ilock (ip : Ip) : Spec view (Acc w t N) (ilock o p ip) (fun _ => Acc w t N) :=
  .bind (h.spec_look _) fun _ => .bind (.check id) fun _ =>
    .bind (h.spec_kernel (spec_acquiresleep p ip)) fun _ =>
      .maybe (h.load ip).spec

theorem spec_iunlock (ip : Ip) : Spec view (Acc w t N) (iunlock o p ip) (fun _ => Acc w t N) :=
  .bind (h.spec_look _) fun _ => .bind (.check id) fun _ =>
    h.spec_kernel (spec_releasesleep ip)

omit [DecidableEq P] in
theorem spec_iput (ip : Ip) (hM : M = N + one ip) :
    Spec view (Acc w t M) (iput o p ip) (fun _ => Acc w t N) := by
  subst hM
  refine .bind (h.spec_kernel (spec_acquiresleep p ip)) fun _ => .bind (h.spec_look _) fun e => ?_
  refine .bind (.when (fun _ => ?_) fun _ hk _ => hk) fun _ => ?_
  · exact .bind (h.fields ip).spec fun m => .maybe (h.free ip).spec
  · refine .bind (h.spec_kernel (spec_releasesleep ip)) fun _ => .bind (h.spec_gets _) fun e => ?_
    refine h.spec_kernel (.modify fun k hk => ?_)
    obtain ⟨hk, rfl⟩ := hk
    exact hk.dropRef

theorem spec_iunlockput (ip : Ip) (hM : M = N + one ip) :
    Spec view (Acc w t M) (iunlockput o p ip) (fun _ => Acc w t N) :=
  .bind (spec_iunlock h p ip) fun _ => spec_iput h p ip hM

theorem spec_readi (ip : Ip) (off n : Nat) :
    Spec view (Acc w t N) (readi o p ip off n) (fun _ => Acc w t N) :=
  .bind (h.fields ip).spec fun _ =>
    .ite
      (fun _ => .ite (fun _ => .ret rfl) fun _ =>
        .bind (spec_iunlock h p ip) fun _ => .bind (h.spec_kernel (spec_consoleInput n)) fun _ =>
          .bind (spec_ilock h p ip) fun _ => .ret rfl)
      fun _ => .ite (fun _ => .ret rfl) fun _ =>
        .bind (h.read ip off _).spec fun _ => .ret rfl

theorem spec_writei (ip : Ip) (src : Nat → UInt8) (off n : Nat) :
    Spec view (Acc w t N) (writei o p ip src off n) (fun _ => Acc w t N) :=
  .bind (h.fields ip).spec fun _ =>
    .ite
      (fun _ => .ite (fun _ => .ret rfl) fun _ =>
        .bind (spec_iunlock h p ip) fun _ => .bind (spec_ilock h p ip) fun _ =>
          .ret rfl)
      fun _ => .ite (fun _ => .ret rfl) fun _ =>
        .ite (fun _ => .ret rfl) fun _ =>
          .bind (h.write ip src off n).spec fun _ => .ret rfl

theorem spec_dirlookup (dp : Ip) (name : Name) :
    Spec view (Acc w t N) (dirlookup o p dp name)
      (fun r => Acc w t (N + mark (r.map Prod.fst))) := by
  refine .bind (h.fields dp).spec fun m => .bind (.check id)
    fun _ => .first (I := Acc w t N) (fun i => ?_) (fun _ hk => hk) _ _
  refine .bind (spec_readi h p dp _ _) fun r =>
    .bind (.check id) fun _ => ?_
  refine .ite (fun _ => .ret rfl) fun _ => .ite (fun _ => ?_) fun _ =>
    .ret rfl
  exact .bind (h.spec_look _) fun e => .bind (h.spec_kernel (spec_iget _ _)) fun ip =>
    .ret rfl

theorem spec_dirlink (dp : Ip) (name : Name) (inum : Nat) :
    Spec view (Acc w t N) (dirlink o p dp name inum) (fun _ => Acc w t N) := by
  refine .bind (spec_dirlookup h p dp name) ?_
  rintro (_ | ⟨ip, off⟩)
  · refine .bind (h.fields dp).spec fun m =>
      .bind (.first (Q := fun _ => Acc w t N) (fun i => ?_) (fun _ hk => hk) _ _) fun found => ?_
    · exact .bind (spec_readi h p dp _ _) fun _ =>
        .bind (.check id) fun _ =>
          .ite (fun _ => .ret rfl) fun _ => .ret rfl
    · exact .bind (spec_writei h p dp _ _ _) fun _ =>
        .bind (.check id) fun _ => .ret rfl
  · exact .bind (spec_iput h p ip rfl) fun _ => .ret rfl

theorem spec_namexLoop (parent : Bool) (steps : Nat) (ip : Ip) (path : List UInt8) :
    Spec view (Acc w t (N + one ip)) (namexLoop o p parent steps ip path)
      (fun r => Acc w t (N + mark (r.map Prod.fst))) := by
  induction steps generalizing ip path with
  | zero => exact .fail fun _ _ => id
  | succ steps ih =>
    unfold namexLoop
    split
    · exact .ite (fun _ => .bind (spec_iput h p ip rfl) fun _ => .ret rfl)
        fun _ => .ret rfl
    · refine .bind (spec_ilock h p ip) fun _ => .bind (h.fields ip).spec fun m => ?_
      refine .ite (fun _ => .bind (spec_iunlockput h p ip rfl) fun _ => .ret rfl)
        fun _ => ?_
      refine .ite (fun _ => .bind (spec_iunlock h p ip) fun _ => .ret rfl)
        fun _ => ?_
      refine .bind (spec_dirlookup h p ip _) ?_
      rintro (_ | ⟨next, off⟩)
      · exact .bind (spec_iunlockput h p ip rfl) fun _ => .ret rfl
      · exact .bind (spec_iunlockput h p ip (add_right_comm _ _ _)) fun _ => ih next _

/-- The working directory of the process is among the references. -/
def HasCwd (w : Pins) (t : Outer P) (p : P) (N : Ip → Nat) : Prop :=
  ∀ cwd, (t.proc p).cwd = some cwd → 0 < (w.base + N) cwd

omit h [DecidableEq P] in
theorem HasCwd.add (hcwd : HasCwd w t p N) (X : Ip → Nat) : HasCwd w t p (N + X) := by
  intro cwd hc
  rw [← add_assoc]
  exact Nat.add_pos_left (hcwd cwd hc) _

theorem spec_namex (path : List UInt8) (parent : Bool) (hcwd : HasCwd w t p N) :
    Spec view (Acc w t N) (namex o p path parent)
      (fun r => Acc w t (N + mark (r.map Prod.fst))) := by
  refine .ite (fun _ => .bind (h.spec_kernel (spec_iget _ _)) fun ip =>
    spec_namexLoop h p parent _ ip path) fun _ => .bind (h.spec_gets _) ?_
  rintro (_ | cwd)
  · exact .fail fun _ _ => id
  · refine .of_pure (c := (t.proc p).cwd = some cwd) ?_ ?_
    · rintro k ⟨hk, hc⟩
      rw [← hk.outer]
      exact hc.symm
    · intro hc
      refine .bind (M := fun ip k => ip = cwd ∧ Acc w t (N + one cwd) k)
        (h.spec_kernel ((spec_idup (hcwd cwd hc)).mono (fun _ hk => hk.1) fun _ _ hk => hk)) ?_
      intro ip
      refine .of_pure (c := ip = cwd) (fun _ hk => hk.1) ?_
      rintro rfl
      exact (spec_namexLoop h p parent _ ip path).mono (fun _ hk => hk.2) fun _ _ hk => hk

theorem spec_namei (path : List UInt8) (hcwd : HasCwd w t p N) :
    Spec view (Acc w t N) (namei o p path) (fun r => Acc w t (N + mark r)) :=
  .bind (spec_namex h p path false hcwd) fun _ => .ret rfl

theorem spec_nameiparent (path : List UInt8) (hcwd : HasCwd w t p N) :
    Spec view (Acc w t N) (nameiparent o p path)
      (fun r => Acc w t (N + mark (r.map Prod.fst))) :=
  spec_namex h p path true hcwd

end Inode

/-! ### System calls that change no descriptor -/

section Calls

variable {σ P : Type} [DecidableEq P] {o : Ops σ P} {view : σ → Kernel P} {w : Pins} {t : Outer P}
  {N : Ip → Nat} (h : Frame o view) (p : P) (hcwd : HasCwd w t p N)

include h

omit hcwd p [DecidableEq P] in
theorem spec_endWith (r : Int) : Spec view (Acc w t N) (endWith o r) (fun _ => Acc w t N) :=
  .bind (h.spec_kernel spec_endOp) fun _ => .ret rfl

omit hcwd in
theorem spec_putEnd {M : Ip → Nat} (ip : Ip) (r : Int) (hM : M = N + one ip) :
    Spec view (Acc w t M) (putEnd o p ip r) (fun _ => Acc w t N) :=
  .bind (spec_iunlockput h p ip hM) fun _ => spec_endWith h r

omit hcwd in
/-- The reference to the directory is given back. -/
theorem spec_fillCreated {dp ip : Ip} {M : Ip → Nat} (hM : M = N + one dp) (name : Name)
    (inum dinum : Nat) (type major minor : Int) :
    Spec view (Acc w t M) (fillCreated o p dp ip name inum dinum type major minor)
      (fun r k => r = some ip ∧ Acc w t N k) := by
  refine .bind (h.update ip _).spec fun _ =>
    .bind (.when (fun _ => ?_) fun _ hk _ => hk) fun _ => ?_
  · exact .bind (h.update dp _).spec fun _ => .bind (spec_dirlink h p ip dot _) fun _ =>
      .bind (.check id) fun _ => .bind (spec_dirlink h p ip dotdot _) fun _ => .check id
  · exact .bind (spec_dirlink h p dp name _) fun _ => .bind (.check id) fun _ =>
      .bind (spec_iunlockput h p dp hM) fun _ => .pure _ fun _ hk => ⟨rfl, hk⟩

include hcwd

/-- `Q` holds of what `create` leaves if it does without a new inode, and if the
new inode is marked and the rest keeps the counts. -/
theorem spec_create_by {Q : Option Ip → Kernel P → Prop}
    (hold : ∀ r k, Acc w t (N + mark r) k → Q r k)
    (hnew : ∀ dp ip k, Acc w t (N + one dp + one ip) k →
      ∃ w' N', Acc w' t (N' + one dp) (k.own ip (t.proc p).containerID) ∧
        ∀ k', Acc w' t N' k' → Q (some ip) k')
    (path : List UInt8) (type major minor : Int) :
    Spec view (Acc w t N) (create o p path type major minor) Q := by
  refine .bind (spec_nameiparent h p path hcwd) ?_
  rintro (_ | ⟨dp, name⟩)
  · exact .pure _ fun k hk => hold none k hk
  · refine .bind (spec_ilock h p dp) fun _ => .bind (spec_dirlookup h p dp name) ?_
    rintro (_ | ⟨ip, off⟩)
    · refine .bind (h.spec_look _) fun d => .bind (.bind (h.alloc _ _).spec fun i =>
        h.spec_kernel (spec_iget _ _)) fun ip => .bind (spec_ilock h p ip) fun _ =>
          .bind (h.spec_gets _) fun e => .bind (h.spec_gets _) fun x =>
            .bind (h.spec_modify _) fun _ => .bind (h.spec_modify _) fun _ => ?_
      rintro s ⟨_, ⟨k, ⟨⟨hk, rfl⟩, rfl⟩, rfl⟩, hs⟩
      obtain ⟨w', N', hacc, hQ⟩ := hnew dp ip k hk
      have hview : view s = k.own ip (t.proc p).containerID := by
        rw [hs, ← hk.outer]
        rfl
      refine wp_mono (spec_fillCreated h p rfl name _ _ type major minor s (hview ▸ hacc)) ?_
        fun _ _ he => he
      rintro _ s' ⟨rfl, hk'⟩
      exact hQ _ hk'
    · refine .bind (spec_iunlockput h p dp (add_right_comm _ _ _)) fun _ =>
        .bind (spec_ilock h p ip) fun _ => .bind (h.fields ip).spec fun m => ?_
      exact .ite (fun _ => .pure _ fun k hk => hold (some ip) k hk) fun _ =>
        .bind (spec_iunlockput h p ip rfl) fun _ => .pure _ fun k hk => hold none k hk

theorem spec_create (hw : w.made = none) (path : List UInt8) (type major minor : Int) :
    Spec view (Acc w t N) (create o p path type major minor) (fun r => Acc w t (N + mark r)) := by
  refine spec_create_by h p hcwd (fun _ _ hk => hk) (fun dp ip k hk => ?_) path type major minor
  refine ⟨w, N + one ip, ?_, fun _ hk' => hk'⟩
  rw [add_right_comm]
  exact hk.own hw _

theorem spec_sysLink (old new : List UInt8) :
    Spec view (Acc w t N) (sysLink o p old new) (fun _ => Acc w t N) := by
  refine .bind (h.spec_kernel spec_beginOp) fun _ => .bind (spec_namei h p old hcwd) ?_
  rintro (_ | ip)
  · exact spec_endWith h _
  · refine .bind (spec_ilock h p ip) fun _ => .bind (h.fields ip).spec fun m => .ite (fun _ => ?_)
      fun _ => ?_
    · exact spec_putEnd h p ip _ rfl
    · refine .bind (h.update ip _).spec fun _ => .bind (spec_iunlock h p ip) fun _ =>
        .bind (h.spec_look _) fun e =>
          .bind (M := fun _ => Acc w t (N + one ip))
            (.bind (spec_nameiparent h p new (hcwd.add p _)) ?_) fun linked => ?_
      · rintro (_ | ⟨dp, name⟩)
        · exact .ret rfl
        · refine .bind (spec_ilock h p dp) fun _ => .bind (h.spec_look _) fun de =>
            .ite (fun _ => ?_) fun _ => ?_
          · exact .bind (spec_iunlockput h p dp rfl) fun _ => .ret rfl
          · exact .bind (spec_dirlink h p dp name _) fun _ =>
              .bind (spec_iunlockput h p dp rfl) fun _ => .ret rfl
      · refine .ite (fun _ => ?_) fun _ => ?_
        · exact .bind (spec_iput h p ip rfl) fun _ => spec_endWith h _
        · exact .bind (spec_ilock h p ip) fun _ => .bind (h.update ip _).spec fun _ =>
            spec_putEnd h p ip _ rfl

omit hcwd in
theorem spec_isdirempty (dp : Ip) :
    Spec view (Acc w t N) (isdirempty o p dp) (fun _ => Acc w t N) := by
  refine .bind (h.fields dp).spec fun m =>
    .bind (.first (Q := fun _ => Acc w t N) (fun i => ?_) (fun _ hk => hk) _ _) fun _ =>
      .ret rfl
  exact .bind (spec_readi h p dp _ _) fun _ =>
    .bind (.check id) fun _ =>
      .ite (fun _ => .ret rfl) fun _ => .ret rfl

theorem spec_sysUnlink (path : List UInt8) :
    Spec view (Acc w t N) (sysUnlink o p path) (fun _ => Acc w t N) := by
  refine .bind (h.spec_kernel spec_beginOp) fun _ => .bind (spec_nameiparent h p path hcwd) ?_
  rintro (_ | ⟨dp, name⟩)
  · exact spec_endWith h _
  · -- `removed`: both references are given back; otherwise that of `dp` is kept
    refine .bind (spec_ilock h p dp) fun _ =>
      .bind (M := fun removed => Acc w t (if removed then N else N + one dp)) ?_ fun removed => ?_
    · refine .ite (fun _ => .ret rfl) fun _ => .bind (spec_dirlookup h p dp name) ?_
      rintro (_ | ⟨ip, off⟩)
      · exact .ret rfl
      · refine .bind (spec_ilock h p ip) fun _ => .bind (h.fields ip).spec fun m =>
          .bind (.check id) fun _ =>
            .bind (.ite (fun _ => spec_isdirempty h p ip) fun _ => .ret rfl)
              fun empty => .ite (fun _ => ?_) fun _ => ?_
        · refine .bind (spec_writei h p dp _ _ _) fun _ =>
            .bind (.check id) fun _ =>
              .bind (.maybe (h.update dp _).spec) fun _ => ?_
          exact .bind (spec_iunlockput h p dp (add_right_comm _ _ _)) fun _ =>
            .bind (h.update ip _).spec fun _ => .bind (spec_iunlockput h p ip rfl) fun _ =>
              .ret rfl
        · exact .bind (spec_iunlockput h p ip rfl) fun _ => .ret rfl
    · refine .ite (fun hr => ?_) fun hr => ?_
      · subst hr
        exact spec_endWith h _
      · rw [Bool.not_eq_true] at hr
        subst hr
        exact spec_putEnd h p dp _ rfl

theorem spec_putCreated (hw : w.made = none) (path : List UInt8) (type major minor : Int) :
    Spec view (Acc w t N) (putCreated o p path type major minor) (fun _ => Acc w t N) := by
  refine .bind (h.spec_kernel spec_beginOp) fun _ =>
    .bind (spec_create h p hcwd hw path type major minor) ?_
  rintro (_ | ip)
  · exact spec_endWith h _
  · exact spec_putEnd h p ip _ rfl

omit hcwd in
theorem spec_loadSegment (vm : Vm) (ip : Ip) (phoff i : Nat) :
    Spec view (Acc w t N) (loadSegment o p vm ip phoff i) (fun _ => Acc w t N) := by
  refine .bind (spec_readi h p ip _ _) fun _ => .ite (fun _ => .ret rfl) fun _ =>
    .ite (fun _ => .ret rfl) fun _ => .ite (fun _ => .ret rfl)
      fun _ => .bind ?_ fun _ => .ret rfl
  refine .bind (.first (Q := fun _ => Acc w t N) (fun j => ?_) (fun _ hk => hk) _ _) fun _ =>
    .ret rfl
  exact .bind (spec_readi h p ip _ _) fun _ =>
    .ite (fun _ => .ret rfl) fun _ => .ret rfl

theorem spec_exec (vm : Vm) (path : List UInt8) :
    Spec view (Acc w t N) (exec o p vm path) (fun _ => Acc w t N) := by
  refine .bind (h.spec_kernel spec_beginOp) fun _ => .bind (spec_namei h p path hcwd) ?_
  rintro (_ | ip)
  · exact spec_endWith h _
  · refine .bind (spec_ilock h p ip) fun _ =>
      .bind (M := fun _ => Acc w t (N + one ip)) ?_ fun failed => ?_
    · refine .bind (spec_readi h p ip _ _) fun _ => .ite (fun _ => .ret rfl) fun _ =>
        .bind (.first (Q := fun _ => Acc w t (N + one ip)) (fun i => ?_) (fun _ hk => hk) _ _)
          fun _ => .ret rfl
      exact (spec_loadSegment h p vm ip _ i).post fun r _ hk => by cases r <;> exact hk
    · exact spec_putEnd h p ip _ rfl

theorem spec_openExisting (path : List UInt8) (omode : UInt32) :
    Spec view (Acc w t N) (openExisting o p path omode) (fun r => Acc w t (N + mark r)) := by
  refine .bind (spec_namei h p path hcwd) ?_
  rintro (_ | ip)
  · exact .ret rfl
  · exact .bind (spec_ilock h p ip) fun _ => .bind (h.fields ip).spec fun m =>
      .ite (fun _ => .bind (spec_iunlockput h p ip rfl) fun _ => .ret rfl)
        fun _ => .ret rfl

theorem spec_openPath (hw : w.made = none) (path : List UInt8) (omode : UInt32) :
    Spec view (Acc w t N) (openPath o p path omode) (fun r => Acc w t (N + mark r)) :=
  .ite (fun _ => spec_create h p hcwd hw path _ _ _) fun _ =>
    spec_openExisting h p hcwd path omode

end Calls

end Xv6.Fs
