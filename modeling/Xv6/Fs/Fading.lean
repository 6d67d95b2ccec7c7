import Xv6.Fs.Frame

/-!
Functions that take no new entry of the inode cache. They may give references
back, but an entry in use after them was in use before, for the same inode and
with the same container; and they make no inode.
-/

namespace Xv6.Fs

open Prog

/-- The entries in use are among those that were, with the same marks. -/
structure Kernel.Fades {P : Type} (k k' : Kernel P) : Prop where
  made : k'.made = k.made
  owner : ∀ ip, (k'.icache ip).owner = (k.icache ip).owner
  used : ∀ ip, 0 < (k'.icache ip).ref → 0 < (k.icache ip).ref

namespace Kernel.Fades

variable {P : Type} {k k' k'' : Kernel P}

theorem of_icache (hicache : k'.icache = k.icache) (hmade : k'.made = k.made) : k.Fades k' :=
  ⟨hmade, fun ip => by rw [hicache], fun ip => by rw [hicache]; exact id⟩

theorem refl (k : Kernel P) : k.Fades k := of_icache rfl rfl

theorem trans (h : k.Fades k') (h' : k'.Fades k'') : k.Fades k'' :=
  ⟨h'.made.trans h.made, fun ip => (h'.owner ip).trans (h.owner ip),
    fun ip hpos => h.used ip (h'.used ip hpos)⟩

theorem setEntry {ip : Ip} {e : Entry P} (howner : e.owner = (k.icache ip).owner)
    (hused : 0 < e.ref → 0 < (k.icache ip).ref) : k.Fades (k.setEntry ip e) := by
  refine ⟨rfl, ?_, ?_⟩
  · intro jp
    by_cases hjp : jp = ip
    · subst hjp
      rw [k.setEntry_self, howner]
    · rw [k.setEntry_of_ne _ hjp]
  · intro jp
    by_cases hjp : jp = ip
    · subst hjp
      rw [k.setEntry_self]
      exact hused
    · rw [k.setEntry_of_ne _ hjp]
      exact id

theorem of_revalidated (h : k.Revalidated k') : k.Fades k' := by
  obtain ⟨v, rfl⟩ := h
  exact ⟨rfl, fun _ => rfl, fun _ => id⟩

end Kernel.Fades

def Fading {σ P : Type} (view : σ → Kernel P) (s s' : σ) : Prop := (view s).Fades (view s')

instance {σ P : Type} (view : σ → Kernel P) : Std.Refl (Fading view) := ⟨fun s => .refl (view s)⟩

instance {σ P : Type} (view : σ → Kernel P) : IsTrans σ (Fading view) := ⟨fun _ _ _ => .trans⟩

abbrev Fade {σ P α : Type} (view : σ → Kernel P) (x : Prog σ Panic α) : Prop :=
  Keeps (Fading view) (fun _ => True) x

section Kernel

variable {P : Type}

theorem fade_modify {f : Kernel P → Kernel P}
    (h : ∀ k, (f k).icache = k.icache ∧ (f k).made = k.made) : Fade id (modify f) :=
  .modify fun k => .of_icache (h k).1 (h k).2

theorem fade_setFile (f : Fin NFILE) (x : File) : Fade (P := P) id (setFile f x) :=
  fade_modify fun _ => ⟨rfl, rfl⟩

theorem fade_setPipe (page : Page) (x : Option PipeEnds) : Fade (P := P) id (setPipe page x) :=
  fade_modify fun _ => ⟨rfl, rfl⟩

theorem fade_record (e : Event) : Fade (P := P) id (record e) := fade_modify fun _ => ⟨rfl, rfl⟩

theorem fade_beginOp : Fade (P := P) id beginOp := fade_modify fun _ => ⟨rfl, rfl⟩

theorem fade_endOp : Fade (P := P) id endOp := fade_modify fun _ => ⟨rfl, rfl⟩

theorem fade_acquiresleep (p : P) (ip : Ip) : Fade id (acquiresleep p ip) := by
  intro k
  unfold acquiresleep entry Xv6.Fs.setEntry
  simp only [wp_bind, wp_gets, wp_panicIf, wp_modify]
  exact ⟨fun _ => trivial, fun _ => .setEntry rfl id⟩

theorem fade_releasesleep (ip : Ip) : Fade (P := P) id (releasesleep ip) :=
  fun _ => Kernel.Fades.setEntry rfl id

theorem fade_filealloc : Fade (P := P) id filealloc := by
  refine .bind (.gets _) fun t => ?_
  split
  · exact .pure _
  · exact .bind (fade_setFile _ _) fun _ => .pure _

theorem fade_filedup (f : Fin NFILE) : Fade (P := P) id (filedup f) :=
  .bind (.gets _) fun _ => .bind (.panicIf trivial) fun _ => fade_setFile _ _

theorem fade_openInode (f : Fin NFILE) (ip : Ip) (r w : Bool) :
    Fade (P := P) id (openInode f ip r w) :=
  .bind (.gets _) fun _ => .bind (fade_setFile _ _) fun _ => fade_record _

theorem fade_openPipe (f : Fin NFILE) (page : Page) (w : Bool) :
    Fade (P := P) id (openPipe f page w) :=
  .bind (.gets _) fun _ => .bind (fade_setFile _ _) fun _ => fade_record _

theorem fade_kalloc (want : Option Page) : Fade (P := P) id (kalloc want) := by
  refine .bind (.gets _) fun k => ?_
  split
  · exact .pure _
  · exact .ite (.pure _) (.pure _)

theorem fade_pipeclose (page : Page) (w : Bool) : Fade (P := P) id (pipeclose page w) := by
  refine .bind (.gets _) fun k => ?_
  split
  · exact .fail trivial
  · exact .ite (.bind (fade_setPipe _ _) fun _ => fade_record _) (fade_setPipe _ _)

theorem fade_fileOwner (f : Fin NFILE) (mem : Int) : Fade (P := P) id (fileOwner f mem) := by
  refine .bind (.gets _) fun k => ?_
  split <;> exact .pure _

variable [DecidableEq P]

theorem fade_setProc (p : P) (x : Proc P) : Fade id (setProc p x) := fade_modify fun _ => ⟨rfl, rfl⟩

theorem fade_setOfile (p : P) (fd : Fin NOFILE) (v : Option (Fin NFILE)) :
    Fade id (setOfile p fd v) := .bind (.gets _) fun _ => fade_setProc _ _

theorem fade_setCwd (p : P) (v : Option Ip) : Fade id (setCwd p v) :=
  .bind (.gets _) fun _ => fade_setProc _ _

theorem fade_fdalloc (p : P) (f : Fin NFILE) : Fade id (fdalloc p f) := by
  refine .bind (.gets _) fun x => ?_
  split
  · exact .pure _
  · exact .bind (fade_setOfile _ _ _) fun _ => .pure _

theorem fade_sysDup (p : P) (fd : Fin NOFILE) : Fade id (sysDup p fd) := by
  refine .bind (.gets _) fun x => ?_
  split
  · exact .pure _
  · refine .bind (fade_fdalloc _ _) ?_
    rintro (_ | fd')
    · exact .pure _
    · exact .bind (fade_filedup _) fun _ => .pure _

end Kernel

section Ops

variable {σ P α : Type} {o : Ops σ P} {view : σ → Kernel P} (h : Frame o view)

theorem Leaves.fade {x : Prog σ Panic α} (hx : Leaves view x) : Fade view x :=
  fun s => wp_mono (hx s) (fun _ _ hk => .of_revalidated hk) (fun _ _ _ => trivial)

include h

theorem Frame.fade {x : KernelM P α} (hx : Fade id x) : Fade view (o.kernel x) := by
  intro s
  have hpost := hx (view s)
  unfold wp at hpost
  refine wp_mono (h.kernel x s) ?_ (fun _ _ _ => trivial)
  intro r s' hrun
  rw [hrun] at hpost
  exact hpost

theorem Frame.fade_gets (f : Kernel P → α) : Fade view (o.kernel (gets f)) := h.fade (.gets f)

theorem fade_ilock (p : P) (ip : Ip) : Fade view (ilock o p ip) :=
  .bind (h.fade_gets _) fun _ => .bind (.panicIf trivial) fun _ =>
    .bind (h.fade (fade_acquiresleep p ip)) fun _ => .when (h.load ip).fade

/-- A change that depends on what was read right before it. -/
theorem Frame.fade_update {f : Kernel P → α} {g : α → Kernel P → Kernel P}
    (hg : ∀ k : Kernel P, k.Fades (g (f k) k)) :
    Fade view (do
      let a ← o.kernel (gets f)
      o.kernel (modify (g a))) := by
  intro s
  refine wp_bind.mpr (wp_mono (h.kernel (gets f) s) ?_ fun _ _ _ => trivial)
  intro a s' hread
  obtain ⟨rfl, hview⟩ : f (view s) = a ∧ view s = view s' := by
    simpa [gets] using hread
  refine wp_mono (h.kernel (modify _) s') ?_ fun _ _ _ => trivial
  intro _ s'' hwrite
  obtain hview' : g (f (view s)) (view s') = view s'' := by
    simpa [Prog.modify] using hwrite
  change (view s).Fades (view s'')
  rw [← hview', ← hview]
  exact hg (view s)

theorem fade_iput (p : P) (ip : Ip) : Fade view (iput o p ip) := by
  refine .bind (h.fade (fade_acquiresleep p ip)) fun _ => .bind (h.fade_gets _) fun _ =>
    .bind (.when (.bind (h.fields ip).fade fun _ => .when (h.free ip).fade)) fun _ =>
      .bind (h.fade (fade_releasesleep ip)) fun _ => h.fade_update fun k => ?_
  refine .setEntry rfl fun hpos => ?_
  dsimp only at hpos
  omega

variable (p : P)

theorem fade_fileclose (f : Fin NFILE) : Fade view (fileclose o p f) := by
  refine .bind (h.fade_gets _) fun t => .bind (.panicIf trivial) fun _ =>
    .ite (h.fade (fade_setFile _ _)) (.bind (h.fade (fade_setFile _ _)) fun _ => ?_)
  split
  · exact .pure _
  · exact .bind (h.fade (fade_record _)) fun _ => h.fade (fade_pipeclose _ _)
  · exact .bind (h.fade fade_beginOp) fun _ => .bind (h.fade (fade_record _)) fun _ =>
      .bind (fade_iput h p _) fun _ => h.fade fade_endOp
  · exact .fail trivial

theorem fade_closePair (rf wf : Fin NFILE) :
    Fade view (closePair o p rf wf : Prog σ Panic (Option α)) :=
  .bind (fade_fileclose h p rf) fun _ => .bind (fade_fileclose h p wf) fun _ => .pure _

theorem fade_pipealloc (want : Option Page) : Fade view (pipealloc o p want) := by
  refine .bind (h.fade fade_filealloc) ?_
  rintro (_ | f0)
  · exact .pure _
  refine .bind (h.fade fade_filealloc) ?_
  rintro (_ | f1)
  · exact .bind (fade_fileclose h p f0) fun _ => .pure _
  refine .bind (h.fade (fade_kalloc want)) ?_
  rintro (_ | page)
  · exact fade_closePair h p f0 f1
  · exact .bind (h.fade (fade_setPipe _ _)) fun _ => .bind (h.fade (fade_record _)) fun _ =>
      .bind (h.fade (fade_openPipe f0 page false)) fun _ =>
        .bind (h.fade (fade_openPipe f1 page true)) fun _ => .pure _

theorem fade_putCwd : Fade view (putCwd o p) := by
  refine .bind (h.fade_gets _) ?_
  rintro (_ | ip)
  · exact .fail trivial
  · exact fade_iput h p ip

variable [DecidableEq P]

theorem fade_iunlock (ip : Ip) : Fade view (iunlock o p ip) :=
  .bind (h.fade_gets _) fun _ => .bind (.panicIf trivial) fun _ => h.fade (fade_releasesleep ip)

theorem fade_iunlockput (ip : Ip) : Fade view (iunlockput o p ip) :=
  .bind (fade_iunlock h p ip) fun _ => fade_iput h p ip

omit [DecidableEq P] p in
theorem fade_endWith (r : Int) : Fade view (endWith o r) :=
  .bind (h.fade fade_endOp) fun _ => .pure _

theorem fade_putEnd (ip : Ip) (r : Int) : Fade view (putEnd o p ip r) :=
  .bind (fade_iunlockput h p ip) fun _ => fade_endWith h r

theorem fade_writei (ip : Ip) (src : Nat → UInt8) (off n : Nat) :
    Fade view (writei o p ip src off n) :=
  .bind (h.fields ip).fade fun _ =>
    .ite (.ite (.pure _) (.bind (fade_iunlock h p ip) fun _ =>
      .bind (fade_ilock h p ip) fun _ => .pure _))
      (.ite (.pure _) (.ite (.pure _) (.bind (h.write ip src off n).fade fun _ => .pure _)))

theorem fade_filewriteLoop (f : Fin NFILE) (ip : Ip) (src : Nat → UInt8) (n rounds i : Nat) :
    Fade view (filewriteLoop o p f ip src n rounds i) := by
  induction rounds generalizing i with
  | zero => exact .pure _
  | succ rounds ih =>
    refine .ite ?_ (.pure _)
    exact .bind (h.fade fade_beginOp) fun _ => .bind (fade_ilock h p ip) fun _ =>
      .bind (h.fade_gets _) fun t => .bind (fade_writei h p ip _ _ _) fun r =>
        .bind (.when (h.fade (fade_setFile _ _))) fun _ => .bind (fade_iunlock h p ip) fun _ =>
          .bind (h.fade fade_endOp) fun _ => .ite (.pure _) (.bind (.panicIf trivial) fun _ => ih _)

theorem fade_filewrite (f : Fin NFILE) (src : Nat → UInt8) (n : Nat) (pipewrite : Int) :
    Fade view (filewrite o p f src n pipewrite) := by
  refine .bind (h.fade_gets _) fun t => .ite (.pure _) ?_
  split
  · exact .pure _
  · exact .bind (fade_filewriteLoop h p f _ src n n 0) fun _ => .pure _
  · exact .fail trivial
  · exact .fail trivial

theorem fade_sysWrite (fd : Fin NOFILE) (src : Nat → UInt8) (n : Nat) (mem pipewrite : Int) :
    Fade view (sysWrite o p fd src n mem pipewrite) := by
  refine .bind (h.fade_gets _) fun x => ?_
  split
  · exact .pure _
  · exact .bind (h.fade (fade_fileOwner _ mem)) fun _ =>
      .ite (fade_filewrite h p _ src n pipewrite)
        (.ite (.pure _) (fade_filewrite h p _ src n pipewrite))

theorem fade_sysClose (fd : Fin NOFILE) (mem : Int) : Fade view (sysClose o p fd mem) := by
  refine .bind (h.fade_gets _) fun x => ?_
  split
  · exact .pure _
  · exact .bind (h.fade (fade_fileOwner _ mem)) fun _ =>
      .ite (.pure _) (.bind (h.fade (fade_setOfile _ _ _)) fun _ =>
        .bind (fade_fileclose h p _) fun _ => .pure _)

theorem fade_sysPipe (want : Option Page) : Fade view (sysPipe o p want) := by
  refine .bind (fade_pipealloc h p want) ?_
  rintro (_ | ⟨rf, wf⟩)
  · exact .pure _
  refine .bind (h.fade (fade_fdalloc p rf)) ?_
  rintro (_ | fd0)
  · exact fade_closePair h p rf wf
  refine .bind (h.fade (fade_fdalloc p wf)) ?_
  rintro (_ | fd1)
  · exact .bind (h.fade (fade_setOfile _ _ _)) fun _ => fade_closePair h p rf wf
  · exact .pure _

end Ops

section Processes

variable {σ : Type} {o : Ops σ Slot} {view : σ → Kernel Slot} (p : Slot)

theorem fade_wait (killed : Bool) : Fade id (wait p killed) := by
  refine .bind (.gets _) fun k => ?_
  split
  · exact .bind (fade_setProc _ _) fun _ => .pure _
  · exact .ite (.pure _) (.fail trivial)

theorem fade_joinContainer (id' : Int) : Fade id (joinContainer p id') :=
  .bind (.gets _) fun _ => .bind (fade_setProc _ _) fun _ => .pure _

theorem cwd_set {pr : Slot → Proc Slot} {q : Slot} {x : Proc Slot} (hx : x.cwd = (pr q).cwd) :
    (set pr q x p).cwd = (pr p).cwd := by
  by_cases hp : p = q
  · subst hp
    rw [set_self, hx]
  · rw [set_of_ne _ _ hp]

section

variable {k : Kernel Slot} (hcwd : ∀ cwd, (k.proc p).cwd = some cwd → 0 < (k.icache cwd).ref)
include hcwd

theorem fades_shareFiles {np : Slot} :
    wp (shareFiles p np) (fun _ k' => k.Fades k') (fun _ _ => True) k := by
  refine wp_bind.mpr (wp_forEach _ (fun _ k' => k'.icache = k.icache ∧ k'.made = k.made ∧
    (k'.proc p).cwd = (k.proc p).cwd) ⟨rfl, rfl, rfl⟩ ?_ ?_)
  · rintro fd rest k' hk'
    unfold copyFd
    simp only [wp_bind, wp_gets]
    split
    · exact hk'
    · simp only [filedup, setOfile, setFile, Xv6.Fs.setProc, wp_bind, wp_gets, wp_panicIf,
        wp_modify]
      refine ⟨fun _ => trivial, fun _ => ⟨hk'.1, hk'.2.1, ?_⟩⟩
      rw [← hk'.2.2]
      exact cwd_set p rfl
  · rintro k' ⟨hicache, hmade, hc⟩
    simp only [wp_bind, wp_gets, hc]
    split
    · trivial
    · next cwd hcwd' =>
        simp only [idup, entry, Xv6.Fs.setEntry, setCwd, Xv6.Fs.setProc, wp_bind, wp_gets,
          wp_modify, wp_pure]
        have hdup : k'.Fades (k'.setEntry cwd { k'.icache cwd with
            ref := (k'.icache cwd).ref + 1 }) := by
          refine .setEntry rfl fun _ => ?_
          rw [hicache]
          exact hcwd cwd hcwd'
        exact (Kernel.Fades.of_icache hicache hmade).trans
          (hdup.trans (.of_icache rfl rfl))

/-- `fork` takes another reference to the working directory only. -/
theorem fades_fork (memory : ForkMemory) :
    wp (fork p memory) (fun _ k' => k.Fades k') (fun _ _ => True) k := by
  unfold fork
  simp only [wp_bind, wp_gets, id_eq]
  split
  · exact .refl k
  · next np hfound =>
      have hpid : k.Fades { k with
          nextpid := k.nextpid + 1, proc := set k.proc np ((k.proc np).setPid k.nextpid) } :=
        .of_icache rfl rfl
      simp only [Xv6.Fs.setProc, wp_bind, wp_modify]
      refine wp_ite (fun _ => hpid) fun _ => ?_
      refine wp_bind.mpr (wp_mono (fades_shareFiles p ?_) ?_ fun _ _ he => he)
      · intro cwd hc
        dsimp only at hc
        rw [cwd_set p (x := (k.proc np).setPid k.nextpid) rfl] at hc
        exact hcwd cwd hc
      · intro _ k' hk'
        have hstart : k'.Fades { k' with proc := set k'.proc np ((k'.proc np).start p) } :=
          .of_icache rfl rfl
        exact hpid.trans (hk'.trans hstart)

end

theorem fade_exit (h : Frame o view) : Fade view (exit o p) := by
  refine .bind (h.fade_gets _) fun _ => .bind (.panicIf trivial) fun _ =>
    .bind (.forEach (fun fd => .bind (h.fade_gets _) fun x => ?_) _) fun _ =>
      .bind (h.fade fade_beginOp) fun _ => .bind (fade_putCwd h p) fun _ =>
        .bind (h.fade fade_endOp) fun _ => .bind (h.fade (fade_setCwd _ _)) fun _ =>
          .bind (h.fade (fade_modify fun _ => ⟨rfl, rfl⟩)) fun _ => .bind (h.fade_gets _) fun _ =>
            .bind (h.fade (fade_setProc _ _)) fun _ => .pure _
  split
  · exact .pure _
  · exact .bind (fade_fileclose h p _) fun _ => h.fade (fade_setOfile _ _ _)

end Processes

end Xv6.Fs
