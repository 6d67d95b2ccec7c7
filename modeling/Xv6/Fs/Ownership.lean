import Xv6.Lib.Transition
import Xv6.Fs.Accounting
import Xv6.Fs.Fading
import Xv6.Fs.Mkfs
import Xv6.Fs.StalePointer
import Xv6.Fs.View

/-!
Which container an inode belongs to. Only the inode cache knows: `create` marks
the entry of a new inode, and an entry that is taken for another inode keeps the
old mark. The mark holds as long as the inode stays in the cache, and as long as
it holds `sys_write` refuses the processes of other containers.
-/

namespace Xv6.Fs

open Prog Tally Transition

section Marks

variable {P : Type}

/-- The entry in use for the inode has the container of `u`. -/
def Kernel.Owned (k : Kernel P) (u : Owner) : Prop :=
  ∀ ip, 0 < (k.icache ip).ref → (k.icache ip).dev = u.dev → (k.icache ip).inum = u.inum →
    (k.icache ip).containerID = u.containerID

/-- The inode is in the cache, with a reference. -/
def Kernel.Cached (k : Kernel P) (u : Owner) : Prop :=
  ∃ ip, 0 < (k.icache ip).ref ∧ (k.icache ip).dev = u.dev ∧ (k.icache ip).inum = u.inum

instance (k : Kernel P) (u : Owner) : Decidable (k.Cached u) :=
  inferInstanceAs (Decidable (∃ _, _))

/-- The descriptor of the process is a file on the inode. -/
def Kernel.Refers (k : Kernel P) (q : P) (fd : Fin NOFILE) (u : Owner) : Prop :=
  ∃ f ip, (k.proc q).ofile fd = some f ∧ (k.ftable f).object = some (.inode ip) ∧
    (k.icache ip).dev = u.dev ∧ (k.icache ip).inum = u.inum

instance (k : Kernel P) (q : P) (fd : Fin NOFILE) (u : Owner) : Decidable (k.Refers q fd u) :=
  inferInstanceAs (Decidable (∃ _ _, _))

/-- Since `create` had made `m`, the mark of the inode holds, unless it was made
again. -/
structure Kernel.Kept (k : Kernel P) (u : Owner) (m : List Owner) : Prop where
  since : m <+: k.made
  owned : k.Remade u m ∨ k.Owned u

/-- `create` has made nothing since it had made `m`, or one inode, for the
container `c`, and its mark holds. -/
def Kernel.Fresh (k : Kernel P) (c : Int) (m : List Owner) : Prop :=
  k.made = m ∨ ∃ u, k.made = m ++ [u] ∧ u.containerID = c ∧ k.Owned u

variable {k k' : Kernel P} {u : Owner} {m : List Owner}

theorem Kernel.Remade.mono (h : k.Remade u m) (hmade : k.made <+: k'.made) : k'.Remade u m := by
  obtain ⟨v, hv, hsame⟩ := h
  obtain ⟨rest, hrest⟩ := hmade
  refine ⟨v, ?_, hsame⟩
  rw [← hrest, List.drop_append]
  exact List.mem_append_left _ hv

theorem Kernel.Remade.since {m' : List Owner} (h : k.Remade u m') (hm : m <+: m') :
    k.Remade u m := by
  obtain ⟨v, hv, hsame⟩ := h
  exact ⟨v, List.drop_subset_drop_left _ hm.length_le hv, hsame⟩

theorem Kernel.Owned.fades (h : k.Owned u) (hk : k.Fades k') : k'.Owned u := by
  intro ip hpos hdev hinum
  have howner := hk.owner ip
  have hold := h ip (hk.used ip hpos) ((congrArg Owner.dev howner).symm.trans hdev)
    ((congrArg Owner.inum howner).symm.trans hinum)
  exact (congrArg Owner.containerID howner).trans hold

theorem Kernel.Kept.fades (h : k.Kept u m) (hk : k.Fades k') : k'.Kept u m := by
  refine ⟨by rw [hk.made]; exact h.since, ?_⟩
  refine h.owned.imp ?_ fun howned => howned.fades hk
  unfold Kernel.Remade
  rw [hk.made]
  exact id

theorem Kernel.Fresh.fades {c : Int} (h : k.Fresh c m) (hk : k.Fades k') : k'.Fresh c m := by
  unfold Kernel.Fresh
  rw [hk.made]
  exact h.imp_right fun ⟨u, hmade, hu, howned⟩ => ⟨u, hmade, hu, howned.fades hk⟩

variable {w : Pins} {t : Outer P} {N : Ip → Nat}

theorem Acc.owned (h : Acc w t N k) (hu : w.owner = some u) : k.Remade u w.since ∨ k.Owned u := by
  refine (h.kept u hu).imp_right ?_
  rintro ⟨ip, hbase, rfl⟩ jp hpos hdev hinum
  have href := h.ref jp
  have hip : jp = ip := by
    refine h.unique jp ip (by omega) ?_ hdev hinum
    exact Nat.add_pos_left hbase _
  rw [hip]
  rfl

theorem Acc.keptOwner (h : Acc w t N k) (hu : w.owner = some u) : k.Kept u w.since :=
  ⟨h.since, h.owned hu⟩

/-- A new inode whose entry is fixed. -/
theorem Acc.fresh {B : Ip → Nat} (h : Acc ⟨B, some u, m ++ [u], some (m ++ [u])⟩ t N k) :
    k.Fresh u.containerID m := by
  have hmade : k.made = m ++ [u] := h.made _ rfl
  refine .inr ⟨u, hmade, rfl, ?_⟩
  rcases h.owned rfl with ⟨v, hv, -⟩ | howned
  · rw [hmade, List.drop_length] at hv
    cases hv
  · exact howned

end Marks

/-! ### What a call does to the marks -/

section Calls

variable {σ α : Type} {o : Ops σ Slot} {view : σ → Kernel Slot} {w : Pins} {t : Outer Slot}
  {p : Slot} {G : Kernel Slot → Prop} (hfades : ∀ k k', G k → k.Fades k' → G k')

include hfades

theorem Fade.after {x : Prog σ Panic α} (hx : Fade view x) :
    Triple view (fun _ => True) G x (fun _ => G) :=
  fun s hs => wp_mono (hx s) (fun _ _ hk => hfades _ _ hs hk) fun _ _ he => he

/-- `fork` takes another reference to the working directory only. -/
theorem after_fork (hG : ∀ N k, Acc w t N k → G k) (hcwd : HasCwd w t p 0) (memory : ForkMemory) :
    Triple id (fun _ => True) (Acc w t 0) (fork p memory) (fun _ => G) := by
  intro k (hk : Acc w t 0 k)
  refine wp_mono (fades_fork p ?_ memory) (fun _ k' hfade => hfades k k' (hG 0 k hk) hfade)
    fun _ _ he => he
  intro cwd hc
  rw [hk.ref cwd]
  rw [show k.proc = t.proc from congrArg Outer.proc hk.outer] at hc
  exact_mod_cast hcwd cwd hc

variable (h : Frame o view) (hG : ∀ N k, Acc w t N k → G k) (hcwd : HasCwd w t p 0)
  (hcreate : ∀ path type major minor, Triple view (fun _ => True) (Acc w t 0)
    (create o p path type major minor) (fun _ => G))

include h

theorem after_putCreated (hcreate : ∀ path type major minor, Triple view (fun _ => True)
    (Acc w t 0) (create o p path type major minor) (fun _ => G)) (path : List UInt8)
    (type major minor : Int) :
    Triple view (fun _ => True) (Acc w t 0) (putCreated o p path type major minor)
      (fun _ => G) := by
  refine .bind (h.spec_kernel spec_beginOp).any fun _ =>
    .bind (hcreate path type major minor) fun r => Fade.after hfades ?_
  cases r with
  | none => exact fade_endWith h _
  | some ip => exact fade_putEnd h p ip _

include hG hcwd

theorem after_sysChdir (path : List UInt8) :
    Triple view (fun _ => True) (Acc w t 0) (sysChdir o p path) (fun _ => G) := by
  refine .bind (h.spec_kernel spec_beginOp).any fun _ => .bind (M := fun _ => G)
    ((spec_namei h p path hcwd).any.post fun _ k hk => hG _ k hk) fun r => ?_
  refine Fade.after hfades ?_
  cases r with
  | none => exact fade_endWith h _
  | some ip =>
    refine .bind (fade_ilock h p ip) fun _ => .bind (h.fields ip).fade fun _ => .ite ?_ ?_
    · exact fade_putEnd h p ip _
    · exact .bind (fade_iunlock h p ip) fun _ => .bind (fade_putCwd h p) fun _ =>
        .bind (h.fade fade_endOp) fun _ => .bind (h.fade (fade_setCwd _ _)) fun _ => .pure _

include hcreate

theorem after_sysOpen (path : List UInt8) (omode : UInt32) :
    Triple view (fun _ => True) (Acc w t 0) (sysOpen o p path omode) (fun _ => G) := by
  refine .bind (h.spec_look _).any fun x => .bind (h.spec_kernel spec_beginOp).any fun _ =>
    .bind (M := fun _ => G) (.ite (fun _ => hcreate _ _ _ _) fun _ =>
      (spec_openExisting h p hcwd _ omode).any.post fun _ k hk => hG _ k hk) fun r => ?_
  refine Fade.after hfades ?_
  cases r with
  | none => exact fade_endWith h _
  | some ip =>
    refine .bind (h.fade fade_filealloc) ?_
    rintro (_ | f)
    · exact fade_putEnd h p ip _
    refine .bind (h.fade (fade_fdalloc p f)) ?_
    rintro (_ | fd)
    · exact .bind (fade_fileclose h p f) fun _ => fade_putEnd h p ip _
    · exact .bind (fade_iunlock h p ip) fun _ => .bind (h.fade fade_endOp) fun _ =>
        .bind (h.fade (fade_openInode _ _ _ _)) fun _ => .pure _

theorem after_callBody (c : Call) :
    Triple view (fun _ => True) (Acc w t 0) (callBody o p c) (fun _ => G) := by
  have hstable {x : Prog σ Panic Int} (hx : Spec view (Acc w t 0) x (fun _ => Acc w t 0)) :
      Triple view (fun _ => True) (Acc w t 0) x (fun _ => G) :=
    hx.any.post fun _ k hk => hG 0 k hk
  have hfade {x : Prog σ Panic Int} (hx : Fade view x) :
      Triple view (fun _ => True) (Acc w t 0) x (fun _ => G) :=
    (hx.after hfades).mono (fun k hk => hG 0 k hk) fun _ _ hk => hk
  cases c with
  | «open» path omode => exact after_sysOpen hfades h hG hcwd hcreate path omode
  | pipe want => exact hfade (.bind (fade_sysPipe h p want) fun _ => .pure _)
  | dup fd => exact hfade (h.fade (fade_sysDup p fd))
  | close fd mem => exact hfade (fade_sysClose h p fd mem)
  | write fd src n mem pipewrite => exact hfade (fade_sysWrite h p fd src n mem pipewrite)
  | link old new => exact hstable (spec_sysLink h p hcwd old new)
  | unlink path => exact hstable (spec_sysUnlink h p hcwd path)
  | mkdir path => exact after_putCreated hfades h hcreate path T_DIR 0 0
  | mknod path major minor => exact after_putCreated hfades h hcreate path T_DEV major minor
  | chdir path => exact after_sysChdir hfades h hG hcwd path
  | exec vm path => exact hstable (spec_exec h p hcwd vm path)
  | fork memory => exact h.triple_kernel trivial (after_fork hfades hG hcwd memory)
  | exit => exact hfade (fade_exit p h)
  | wait killed => exact hfade (h.fade (fade_wait p killed))
  | join id => exact hfade (h.fade (fade_joinContainer p id))
  | leave => exact hfade (h.fade (fade_joinContainer p 0))

end Calls

/-! ### Runs -/

section Runs

variable {σ : Type} {o : Ops σ Slot} {view : σ → Kernel Slot} (h : Frame o view)
  {s s' : σ} {p : Slot} {c : Call} {u : Owner} {m : List Owner}

theorem callStep_eq_some {l : Slot × Call} :
    callStep o s l = some s' ↔ ∃ r, call o l.1 l.2 s = (.ok r, s') := by
  unfold callStep
  rcases call o l.1 l.2 s with ⟨e | r, s''⟩
  · simp
  · simp [eq_comm]

include h

theorem settled_callStep (hs : AtRest (view s)) (hstep : callStep o s (p, c) = some s') :
    AtRest (view s') := by
  obtain ⟨pr, hs⟩ := hs
  obtain ⟨r, hrun⟩ := callStep_eq_some.mp hstep
  exact of_wp_ok (spec_call h c s hs) hrun

/-- A call from a state between calls, whose references are all fixed. -/
theorem after_call {pr : Slot → Proc Slot} {w : Pins} {G : Kernel Slot → Prop}
    (hs : Settled pr (view s)) (hstep : callStep o s (p, c) = some s')
    (hbase : w.base = fileRefs (view s).ftable + cwdRefs pr) (hsince : w.since <+: (view s).made)
    (hkept : ∀ u, w.owner = some u → (view s).Cached u ∧ (view s).Owned u)
    (hmade : ∀ m, w.made = some m → (view s).made = m)
    (hfades : ∀ k k', G k → k.Fades k' → G k') (hG : ∀ t N k, Acc w t N k → G k)
    (hcreate : ∀ t, t.proc p = pr p → HasCwd w t p 0 → ∀ path type major minor,
      Triple view (fun _ => True) (Acc w t 0) (create o p path type major minor) (fun _ => G)) :
    G (view s') := by
  obtain ⟨r, hrun⟩ := callStep_eq_some.mp hstep
  have hproc : (view s).outer.proc = pr := hs.sys.proc
  have hacc : Acc w (view s).outer 0 (view s) := by
    refine .fix (hbase ▸ hs.sys.acc) hsince (fun u hu => ?_) hmade
    obtain ⟨⟨ip, hpos, hdev, hinum⟩, howned⟩ := hkept u hu
    refine ⟨ip, hpos, ?_⟩
    unfold Entry.owner
    rw [hdev, hinum, howned ip hpos hdev hinum]
  have hcall : Triple view (fun _ => True) (Acc w (view s).outer 0) (call o p c)
      (fun _ => G) := by
    refine .bind (h.spec_gets _).any fun x => .of_pure (c := x = pr p) ?_ ?_
    · rintro k ⟨hk, rfl⟩
      rw [← hproc, ← hk.outer]
      rfl
    · rintro rfl
      refine .bind (M := fun _ k => Acc w (view s).outer 0 k ∧ (pr p).state = .live)
        (.panicIf (fun _ _ _ => trivial) fun _ hk hlive => ⟨hk.1, not_not.mp hlive⟩) fun _ =>
          .of_pure (fun _ hk => hk.2) fun hlive => ?_
      have hcwd : HasCwd w (view s).outer p 0 := by
        intro cwd hc
        rw [hproc] at hc
        rw [hbase, add_zero]
        exact Nat.add_pos_right _ (cwdRefs_pos hlive hc)
      exact (after_callBody hfades h (hG _) hcwd (hcreate _ (by rw [hproc]) hcwd) c).mono
        (fun _ hk => hk.1) fun _ _ hk => hk
  exact of_wp_ok (hcall s hacc) hrun

section

variable (hs : AtRest (view s)) (hstep : callStep o s (p, c) = some s')
include hs hstep

theorem made_callStep : (view s).made <+: (view s').made := by
  obtain ⟨pr, hs⟩ := hs
  refine after_call h (w := ⟨fileRefs (view s).ftable + cwdRefs pr, none, (view s).made, none⟩)
    (G := fun k => (view s).made <+: k.made) hs hstep rfl (List.prefix_refl _) nofun nofun
    (fun k k' hk hfades => by rw [hfades.made]; exact hk) (fun _ _ _ hk => hk.since) ?_
  intro t _ hcwd path type major minor
  exact (spec_create h p hcwd rfl path type major minor).any.post fun _ _ hk => hk.since

/-- An inode that is in the cache before a call has its mark after the call. -/
theorem kept_callStep (hcached : (view s).Cached u) (hkept : (view s).Kept u m) :
    (view s').Kept u m := by
  have hgrow := made_callStep h hs hstep
  refine ⟨hkept.since.trans hgrow, ?_⟩
  rcases hkept.owned with hremade | howned
  · exact .inl (hremade.mono hgrow)
  · obtain ⟨pr, hs⟩ := hs
    have hafter : (view s').Kept u (view s).made := by
      refine after_call h
        (w := ⟨fileRefs (view s).ftable + cwdRefs pr, some u, (view s).made, none⟩)
        (G := fun k => k.Kept u (view s).made) hs hstep rfl (List.prefix_refl _) ?_ nofun
        (fun _ _ hk hfades => hk.fades hfades) (fun _ _ _ hk => hk.keptOwner rfl) ?_
      · rintro _ ⟨⟩
        exact ⟨hcached, howned⟩
      · intro t _ hcwd path type major minor
        exact (spec_create h p hcwd rfl path type major minor).any.post fun _ _ hk =>
          hk.keptOwner rfl
    exact hafter.owned.imp_left fun hremade => hremade.since hkept.since

/-- The inode that a call makes has the mark of the process after the call. -/
theorem fresh_callStep : (view s').Fresh ((view s).proc p).containerID (view s).made := by
  obtain ⟨pr, hs⟩ := hs
  refine after_call h (w := ⟨fileRefs (view s).ftable + cwdRefs pr, none, [], some (view s).made⟩)
    (G := fun k => k.Fresh ((view s).proc p).containerID (view s).made) hs hstep rfl
    List.nil_prefix nofun ?_ (fun _ _ hk hfades => hk.fades hfades)
    (fun _ _ _ hk => .inl (hk.made _ rfl)) ?_
  · rintro _ ⟨⟩
    rfl
  · intro t ht hcwd path type major minor
    refine (spec_create_by h p hcwd (fun _ _ hk => .inl (hk.made _ rfl)) (fun dp ip k hk => ?_)
      path type major minor).any
    obtain ⟨u, hu, hfix⟩ := hk.own_fix rfl (t.proc p).containerID
    refine ⟨_, _, hfix, fun k' hk' => ?_⟩
    have hfresh := hk'.fresh
    rw [hu, ht, ← hs.sys.proc] at hfresh
    exact hfresh

end

end Runs

/-- `sys_write` refuses a process of another container than that of the
mark. -/
theorem write_refused {s : FsState Slot} {q : Slot} {fd : Fin NOFILE} {f : Fin NFILE} {ip : Ip}
    (hlive : (s.kernel.proc q).state = .live) (hfd : (s.kernel.proc q).ofile fd = some f)
    (hip : (s.kernel.ftable f).ip = some ip) (hmark : (s.kernel.icache ip).containerID ≠ 0)
    (hother : (s.kernel.proc q).containerID ≠ (s.kernel.icache ip).containerID)
    (src : Nat → UInt8) (n : Nat) (mem pipewrite : Int) :
    call diskOps q (.write fd src n mem pipewrite) s = (.ok (-1), s) := by
  have hruns : panicIf ((s.kernel.proc q).state ≠ .live) Panic.notRunning s = (.ok (), s) := by
    rw [panicIf, if_neg (not_not.mpr hlive)]
    rfl
  have howner : s.kernel.ownerOf f mem = (s.kernel.icache ip).containerID := by
    rw [Kernel.ownerOf, hip]
  unfold call
  rw [bind_ok (kernel_gets _ s), bind_ok hruns]
  change sysWrite diskOps q fd src n mem pipewrite s = _
  rw [sysWrite_eq hfd, howner, if_neg (fun hc => hc.elim hmark hother)]

/-- An open file holds a reference to its inode. -/
theorem Settled.ref_pos {k : Kernel Slot} {pr : Slot → Proc Slot} {f : Fin NFILE} {ip : Ip}
    (h : Settled pr k) (hobject : (k.ftable f).object = some (.inode ip)) :
    0 < (k.icache ip).ref := by
  have hpos : 0 < fileRefs k.ftable ip := by
    rw [fileRefs_apply]
    refine Finset.card_pos.mpr ⟨f, Finset.mem_filter.mpr ⟨Finset.mem_univ f, ?_⟩⟩
    simp only [File.inodeRef, hobject]
  rw [h.sys.acc.ref_none ip, Pi.add_apply]
  omega

/-- An inode that `create` made for a process in a container other than 0 is
written by processes of this container only, as long as it is in the inode cache
whenever a call begins, and until it is made again. -/
theorem owner_enforced {console : Nat → Nat → Int × (Nat → UInt8)} {s₀ s₁ s₂ s₃ : FsState Slot}
    {before after : List (Slot × Call)} {p q : Slot} {c : Call} {u : Owner} {fd : Fin NOFILE}
    (hboot : s₀.kernel = userinit console)
    (hbefore : Transition.exec (callStep diskOps) s₀ before = some s₁)
    (hcreate : callStep diskOps s₁ (p, c) = some s₂)
    (hmade : s₂.kernel.made = s₁.kernel.made ++ [u])
    (hcontainer : (s₁.kernel.proc p).containerID ≠ 0)
    (hafter : Transition.exec (callStep diskOps) s₂ after = some s₃)
    (hcached : AllSteps (callStep diskOps) (fun s _ => s.kernel.Cached u) s₂ after)
    (hagain : ¬ s₃.kernel.Remade u s₂.kernel.made)
    (hlive : (s₃.kernel.proc q).state = .live) (hrefers : s₃.kernel.Refers q fd u)
    (hother : (s₃.kernel.proc q).containerID ≠ (s₁.kernel.proc p).containerID)
    (src : Nat → UInt8) (n : Nat) (mem pipewrite : Int) :
    call diskOps q (.write fd src n mem pipewrite) s₃ = (.ok (-1), s₃) := by
  have hsettled₁ : AtRest s₁.kernel :=
    exec_invariant (fun s : FsState Slot => AtRest s.kernel)
      ⟨_, hboot ▸ settled_userinit console⟩
      (fun _ _ _ hs hstep => settled_callStep diskOps_frame hs hstep) hbefore
  have hsettled₂ := settled_callStep diskOps_frame hsettled₁ hcreate
  obtain ⟨hcid, howned₂⟩ : u.containerID = (s₁.kernel.proc p).containerID ∧ s₂.kernel.Owned u := by
    rcases fresh_callStep diskOps_frame hsettled₁ hcreate with hsame | ⟨v, hv, hcid, howned⟩
    · rw [hmade] at hsame
      simpa using congrArg List.length hsame
    · rw [hmade] at hv
      obtain rfl : u = v := by simpa using hv
      exact ⟨hcid, howned⟩
  obtain ⟨⟨pr, hsettled₃⟩, hkept⟩ : AtRest s₃.kernel ∧
      s₃.kernel.Kept u s₂.kernel.made :=
    exec_invariant_of_allSteps
      (fun s : FsState Slot => AtRest s.kernel ∧ s.kernel.Kept u s₂.kernel.made)
      ⟨hsettled₂, List.prefix_refl _, .inr howned₂⟩
      (fun _ _ _ hs hc hstep => ⟨settled_callStep diskOps_frame hs.1 hstep,
        kept_callStep diskOps_frame hs.1 hstep hc hs.2⟩) hcached hafter
  obtain ⟨f, ip, hfd, hobject, hdev, hinum⟩ := hrefers
  have hmark : (s₃.kernel.icache ip).containerID = (s₁.kernel.proc p).containerID := by
    rw [← hcid]
    exact hkept.owned.resolve_left hagain ip (hsettled₃.ref_pos hobject) hdev hinum
  have hip := (inodeRef_eq_some.mp (show (s₃.kernel.ftable f).inodeRef = some ip by
    simp [File.inodeRef, hobject])).2
  exact write_refused hlive hfd hip (hmark ▸ hcontainer) (hmark ▸ hother) src n mem pipewrite

/-- The child in container 1 makes a file. A process of container 0 that inherits
the descriptor cannot write to it. -/
theorem owner_enforced_fork :
    ∃ s₁ s₂ s₃ : FsState Slot,
      Transition.exec (callStep diskOps) booted [(0, .fork ⟨true, true⟩), (1, .join 1)] = some s₁ ∧
      callStep diskOps s₁ (1, .open [97] (O_CREATE ||| O_RDWR)) = some s₂ ∧
      Transition.exec (callStep diskOps) s₂ [(1, .fork ⟨true, true⟩)] = some s₃ ∧
      (s₃.kernel.proc 2).containerID = 0 ∧
      call diskOps 2 (.write 0 (fun _ => 88) 1 0 0) s₃ = (.ok (-1), s₃) := by
  obtain ⟨s₁, hbefore, s₂, hcreate, s₃, hafter, hmade, hcid, hcached, hagain, hlive, hzero,
      hrefers⟩ : ∃ s₁ : FsState Slot,
      Transition.exec (callStep diskOps) booted [(0, .fork ⟨true, true⟩), (1, .join 1)] = some s₁ ∧
      ∃ s₂, callStep diskOps s₁ (1, .open [97] (O_CREATE ||| O_RDWR)) = some s₂ ∧
      ∃ s₃, Transition.exec (callStep diskOps) s₂ [(1, .fork ⟨true, true⟩)] = some s₃ ∧
        s₂.kernel.made = s₁.kernel.made ++ [⟨ROOTDEV, 2, 1⟩] ∧
        (s₁.kernel.proc 1).containerID = 1 ∧
        AllSteps (callStep diskOps) (fun s _ => s.kernel.Cached ⟨ROOTDEV, 2, 1⟩) s₂
          [(1, .fork ⟨true, true⟩)] ∧
        ¬ s₃.kernel.Remade ⟨ROOTDEV, 2, 1⟩ s₂.kernel.made ∧
        (s₃.kernel.proc 2).state = .live ∧ (s₃.kernel.proc 2).containerID = 0 ∧
        s₃.kernel.Refers 2 0 ⟨ROOTDEV, 2, 1⟩ := by
    decide +kernel
  refine ⟨s₁, s₂, s₃, hbefore, hcreate, hafter, hzero, ?_⟩
  exact owner_enforced rfl hbefore hcreate hmade (by simp [hcid]) hafter hcached hagain hlive
    hrefers (by simp [hcid, hzero]) _ _ _ _

/-- The child in container 1 makes a file and closes it. Container 0 makes a
second file, which takes the entry of the inode, then opens the first, whose mark
is now that of another entry, and writes to it. -/
theorem owner_forgotten :
    ∃ s₁ : FsState Slot,
      Transition.exec (callStep diskOps) booted [(0, .fork ⟨true, true⟩), (1, .join 1)] = some s₁ ∧
      ∃ s₂, callStep diskOps s₁ (1, .open [97] (O_CREATE ||| O_RDWR)) = some s₂ ∧
      ∃ s₃, Transition.exec (callStep diskOps) s₂ [(1, .close 0 0),
        (0, .open [98] (O_CREATE ||| O_RDWR)), (0, .open [97, 49] O_RDWR)] = some s₃ ∧
      ∃ s₄, callStep diskOps s₃ (0, .write 1 (fun _ => 88) 1 0 0) = some s₄ ∧
      s₂.kernel.made = s₁.kernel.made ++ [⟨ROOTDEV, 2, 1⟩] ∧
      (s₁.kernel.proc 1).containerID = 1 ∧ (s₃.kernel.proc 0).containerID = 0 ∧
      ¬ s₃.kernel.Remade ⟨ROOTDEV, 2, 1⟩ s₂.kernel.made ∧
      s₃.kernel.Refers 0 1 ⟨ROOTDEV, 2, 1⟩ ∧
      ((viewOf s₃.sb s₃.disk).ino 2).type = T_FILE ∧ ((viewOf s₃.sb s₃.disk).ino 2).size = 0 ∧
      ((viewOf s₄.sb s₄.disk).ino 2).size = 1 := by
  decide +kernel

end Xv6.Fs
