import Xv6.Fs.Descriptors
import Xv6.Fs.Mkfs

/-!
Reference counts at system-call boundaries. From the state that `userinit`
leaves, any sequence of calls by any processes, on any disk, keeps the counts of
the file table and of the inode cache exact, and the history of opened and
closed files in order.
-/

namespace Xv6.Fs

open Prog Tally

/-- Processes that have exited, or never were, hold no descriptor. -/
def Tidy (pr : Slot → Proc Slot) : Prop :=
  ∀ q, (pr q).state ≠ .live → ∀ fd, (pr q).ofile fd = none

/-- A state between two calls: the descriptors and working directories are all
the references there are. -/
structure Settled (pr : Slot → Proc Slot) (k : Kernel Slot) : Prop where
  sys : Sys pr (slots pr) ∅ (cwdRefs pr) k
  tidy : Tidy pr

abbrev AtRest (k : Kernel Slot) : Prop := ∃ pr, Settled pr k

section Rules

variable {σ α : Type} {o : Ops σ Slot} {view : σ → Kernel Slot} {pr : Slot → Proc Slot}
  {R : Fin NFILE → Nat} {F : Finset (Fin NFILE)} {X : Ip → Nat} {p : Slot} {x : Prog σ Panic α}

theorem cwdRefs_pos (hlive : (pr p).state = .live) {cwd : Ip} (hcwd : (pr p).cwd = some cwd) :
    0 < cwdRefs pr cwd := by
  rw [cwdRefs_apply]
  exact Finset.card_pos.mpr ⟨p, by simp [Proc.cwdRef, hlive, hcwd]⟩

/-- The working directory of the process is among the references `X`. -/
def CwdIn (pr : Slot → Proc Slot) (p : Slot) (X : Ip → Nat) : Prop :=
  ∀ cwd, (pr p).cwd = some cwd → 0 < X cwd

theorem cwdIn_cwdRefs (hlive : (pr p).state = .live) : CwdIn pr p (cwdRefs pr) :=
  fun _ hcwd => cwdRefs_pos hlive hcwd

/-- Functions that work on inodes, with the working directory of the process. -/
theorem spec_sys_add (hcwd : CwdIn pr p X) {Y : α → Ip → Nat}
    (hx : ∀ t N, HasCwd .none t p N →
      Spec view (Acc .none t N) x (fun r => Acc .none t (N + Y r))) :
    Spec view (Sys pr R F X) x (fun r => Sys pr R F (X + Y r)) := by
  refine spec_sys fun t N ht => ?_
  have hhas : HasCwd .none t p (N + X) := by
    intro cwd hc
    rw [ht] at hc
    rw [Pins.none_add]
    exact Nat.add_pos_right _ (hcwd cwd hc)
  simp only [← add_assoc]
  exact hx t (N + X) hhas

theorem spec_sys_same (hx : ∀ t N, Spec view (Acc .none t N) x (fun _ => Acc .none t N)) :
    Spec view (Sys pr R F X) x (fun _ => Sys pr R F X) :=
  spec_sys fun t N _ => hx t (N + X)

theorem spec_fileOwner {Pre : Kernel Slot → Prop} (f : Fin NFILE) (mem : Int) :
    Spec id Pre (fileOwner f mem) (fun _ => Pre) := by
  intro k hk
  unfold fileOwner
  simp only [wp_bind, wp_gets]
  split <;> exact hk

variable (h : Frame o view)

include h

/-- The process that makes the call. -/
theorem spec_proc {Q : α → Kernel Slot → Prop} {f : Proc Slot → Prog σ Panic α}
    (hf : Spec view (Settled pr) (f (pr p)) Q) :
    Spec view (Settled pr) (o.kernel (gets fun k => k.proc p) >>= f) Q := by
  refine .bind (h.spec_gets _) fun x => .of_pure (c := x = pr p) ?_ ?_
  · rintro k ⟨hk, rfl⟩
    rw [hk.sys.proc]
  · rintro rfl
    exact hf.mono (fun _ hk => hk.1) fun _ _ hk => hk

end Rules

/-! ### Calls on descriptors -/

section Calls

variable {σ : Type} {o : Ops σ Slot} {view : σ → Kernel Slot} {pr : Slot → Proc Slot}
  {R : Fin NFILE → Nat} {F : Finset (Fin NFILE)} {X : Ip → Nat} {p : Slot} (h : Frame o view)

theorem Tidy.putFd (ht : Tidy pr) (hlive : (pr p).state = .live) (fd : Fin NOFILE)
    (v : Option (Fin NFILE)) : Tidy (putFd pr p fd v) := by
  intro q hq fd'
  by_cases hqp : q = p
  · subst hqp
    exact absurd (by simpa [Fs.putFd] using hlive) hq
  · simp only [Fs.putFd, set_of_ne _ _ hqp] at *
    exact ht q hq fd'

theorem spec_sysDup (hlive : (pr p).state = .live) (fd : Fin NOFILE) :
    Spec id (Settled pr) (sysDup p fd) (fun _ => AtRest) := by
  intro k (hk : Settled pr k)
  unfold sysDup
  simp only [wp_bind, wp_gets]
  rw [hk.sys.proc]
  split
  · exact ⟨pr, hk⟩
  · next f hf =>
      refine wp_bind.mpr (wp_mono (spec_fdalloc f k hk.sys) ?_ fun _ _ he => he)
      rintro (_ | fd') k' hk'
      · exact ⟨pr, hk', hk.tidy⟩
      · obtain ⟨hfree, hsys⟩ := hk'
        have hdup := spec_filedup (slots_pos hf) k' hsys
        refine wp_bind.mpr (wp_mono hdup ?_ fun _ _ he => he)
        intro _ k'' hk''
        refine ⟨putFd pr p fd' (some f), ?_, hk.tidy.putFd hlive fd' _⟩
        rw [slots_give hfree, cwdRefs_putFd]
        exact hk''

include h

theorem spec_sysClose (hlive : (pr p).state = .live) (fd : Fin NOFILE) (mem : Int) :
    Spec view (Settled pr) (sysClose o p fd mem) (fun _ => AtRest) := by
  refine spec_proc h ?_
  cases hf : (pr p).ofile fd with
  | none => exact .pure _ fun _ hk => ⟨pr, hk⟩
  | some f =>
    refine .bind (h.spec_kernel (spec_fileOwner f mem)) fun owner => .ite
      (fun _ => .pure _ fun _ hk => ⟨pr, hk⟩) fun _ => .of_pure (c := Tidy pr)
        (fun _ hk => hk.tidy) fun ht => ?_
    refine .bind (h.spec_kernel ((spec_setOfile fd none).mono
      (fun _ hk => hk.sys) fun _ _ hk => hk)) fun _ => ?_
    refine .bind (spec_fileclose h p (slots_take hf)) fun _ => .pure _ fun _ hk => ?_
    refine ⟨putFd pr p fd none, ?_, ht.putFd hlive fd none⟩
    rw [cwdRefs_putFd]
    exact hk

theorem spec_filewriteLoop (f : Fin NFILE) (ip : Ip) (src : Nat → UInt8) (n rounds i : Nat) :
    Spec view (Sys pr R F X) (filewriteLoop o p f ip src n rounds i) (fun _ => Sys pr R F X) := by
  have hkeep {α : Type} {x : Prog σ Panic α} (t : Fin NFILE → File)
      (hx : ∀ t N, Spec view (Acc .none t N) x (fun _ => Acc .none t N)) :
      Spec view (fun k => Sys pr R F X k ∧ t = k.ftable) x
        (fun _ k => Sys pr R F X k ∧ t = k.ftable) :=
    spec_sys_keep (Y := fun _ => X) (fun ft => t = ft) fun u N _ => hx u (N + X)
  induction rounds generalizing i with
  | zero => exact .ret rfl
  | succ rounds ih =>
    refine .ite (fun _ => ?_) fun _ => .ret rfl
    refine .bind (spec_sys_same fun _ _ => h.spec_kernel spec_beginOp) fun _ =>
      .bind (spec_sys_same fun _ _ => spec_ilock h p ip) fun _ =>
        .bind (h.spec_gets _) fun t =>
          .bind (hkeep t fun _ _ => spec_writei h p ip _ _ _) fun r =>
            .bind (M := fun _ => Sys pr R F X) (.when (fun _ => ?_) fun _ hk _ => hk.1) fun _ => ?_
    · refine h.spec_kernel (.modify fun k hk => ?_)
      obtain ⟨hk, rfl⟩ := hk
      exact hk.store_same rfl (hk.files.store (hk.files.ref f) (hk.files.closed f)
        (hk.files.opened f) fun _ _ => ⟨rfl, Iff.rfl⟩)
    · exact .bind (spec_sys_same fun _ _ => spec_iunlock h p ip) fun _ =>
        .bind (spec_sys_same fun _ _ => h.spec_kernel spec_endOp) fun _ =>
          .ite (fun _ => .ret rfl) fun _ => .bind (.check id) fun _ => ih _

theorem spec_filewrite (f : Fin NFILE) (src : Nat → UInt8) (n : Nat) (pipewrite : Int) :
    Spec view (Sys pr R F X) (filewrite o p f src n pipewrite) (fun _ => Sys pr R F X) := by
  refine .bind (h.spec_look _) fun t => .ite (fun _ => .ret rfl) fun _ => ?_
  split
  · exact .ret rfl
  · exact .bind (spec_filewriteLoop h f _ src n n 0) fun _ => .ret rfl
  · exact .fail fun _ _ => id
  · exact .fail fun _ _ => id

theorem spec_sysWrite (fd : Fin NOFILE) (src : Nat → UInt8) (n : Nat) (mem pipewrite : Int) :
    Spec view (Settled pr) (sysWrite o p fd src n mem pipewrite) (fun _ => AtRest) := by
  refine spec_proc h ?_
  cases hf : (pr p).ofile fd with
  | none => exact .pure _ fun _ hk => ⟨pr, hk⟩
  | some f =>
    have hwrite : Spec view (Settled pr) (filewrite o p f src n pipewrite) (fun _ => AtRest) :=
      .of_pure (c := Tidy pr) (fun _ hk => hk.tidy) fun ht =>
        (spec_filewrite h f src n pipewrite).mono (fun _ hk => hk.sys)
          fun _ _ hk => ⟨pr, hk, ht⟩
    exact .bind (h.spec_kernel (spec_fileOwner f mem)) fun owner => .ite (fun _ => hwrite)
      fun _ => .ite (fun _ => .pure _ fun _ hk => ⟨pr, hk⟩) fun _ => hwrite

theorem spec_sysOpen (hlive : (pr p).state = .live) (path : List UInt8) (omode : UInt32) :
    Spec view (Settled pr) (sysOpen o p path omode) (fun _ => AtRest) := by
  refine spec_proc h (.of_pure (c := Tidy pr) (fun _ hk => hk.tidy) fun ht => ?_)
  refine .bind (M := fun _ => Sys pr (slots pr) ∅ (cwdRefs pr))
    ((spec_sys_same fun _ _ => h.spec_kernel spec_beginOp).mono (fun _ hk => hk.sys)
      fun _ _ hk => hk) fun _ =>
    .bind (spec_sys_add (cwdIn_cwdRefs hlive) fun t N hcwd => spec_openPath h p hcwd rfl _ omode) ?_
  rintro (_ | ip)
  · exact (spec_sys_same fun _ _ => spec_endWith h _).post fun _ _ hk => ⟨pr, hk, ht⟩
  have hput : Spec view (Sys pr (slots pr) ∅ (cwdRefs pr + one ip)) (putEnd o p ip (-1))
      (fun _ => AtRest) :=
    (spec_sys fun t N _ => spec_putEnd h p ip _ (add_assoc _ _ _).symm).post
      fun _ _ hk => ⟨pr, hk, ht⟩
  refine .bind (h.spec_kernel spec_filealloc) ?_
  rintro (_ | f)
  · exact hput
  refine .of_pure (c := slots pr f = 0) (fun _ hk => hk.1) fun hnew =>
    .bind ((h.spec_kernel (spec_fdalloc f)).mono (fun _ hk => hk.2) fun _ _ hk => hk) ?_
  rintro (_ | fd)
  · exact .bind (spec_giveBack h p rfl hnew) fun _ => hput
  · refine .of_pure (c := (pr p).ofile fd = none) (fun _ hk => hk.1) fun hfree => ?_
    refine .bind ((spec_sys_same fun _ _ => spec_iunlock h p ip).mono (fun _ hk => hk.2)
        fun _ _ hk => hk) fun _ =>
      .bind (spec_sys_same fun _ _ => h.spec_kernel spec_endOp) fun _ =>
        .bind (h.spec_kernel (spec_openFile (by simp [one_self]) (Finset.notMem_empty f) rfl))
          fun _ => .pure _ fun _ hk => ?_
    refine ⟨putFd pr p fd (some f), ?_, ht.putFd hlive fd _⟩
    rw [slots_give hfree, cwdRefs_putFd]
    exact hk

theorem spec_sysPipe (hlive : (pr p).state = .live) (want : Option Page) :
    Spec view (Settled pr) (sysPipe o p want) (fun _ => AtRest) := by
  refine .of_pure (c := Tidy pr) (fun _ hk => hk.tidy) fun ht =>
    .bind ((spec_pipealloc h p want).mono (fun _ hk => hk.sys) fun _ _ hk => hk) ?_
  rintro (_ | ⟨rf, wf⟩)
  · exact .pure _ fun _ hk => ⟨pr, hk, ht⟩
  have hclose : Spec view (Sys pr (slots pr + one rf + one wf) ∅ (cwdRefs pr))
      (closePair o p rf wf : Prog σ Panic (Option (Fin NOFILE × Fin NOFILE)))
      (fun _ => AtRest) :=
    .bind (spec_fileclose h p (add_right_comm _ _ _)) fun _ => .bind (spec_fileclose h p rfl)
      fun _ => .pure _ fun _ hk => ⟨pr, hk, ht⟩
  refine .bind (h.spec_kernel (spec_fdalloc rf)) ?_
  rintro (_ | fd0)
  · exact hclose
  refine .of_pure (c := (pr p).ofile fd0 = none) (fun _ hk => hk.1) fun hfree =>
    .bind ((h.spec_kernel (spec_fdalloc wf)).mono (fun _ hk => hk.2) fun _ _ hk => hk) ?_
  rintro (_ | fd1)
  · -- the descriptor that was given out is taken back
    have hback : putFd (putFd pr p fd0 (some rf)) p fd0 none = pr := by
      unfold putFd
      rw [set_self, set_set, Proc.setOfile_setOfile, ← hfree, Proc.setOfile_eta, set_eta]
    refine .bind (h.spec_kernel (spec_setOfile fd0 none)) fun _ =>
      hclose.mono (fun _ hk => ?_) fun _ _ hk => hk
    rw [← hback]
    simpa [hback] using hk
  · refine .pure _ fun _ hk => ?_
    obtain ⟨hfree1, hk⟩ := hk
    have hlive0 : (putFd pr p fd0 (some rf) p).state = .live := by
      unfold putFd
      rw [set_self]
      exact hlive
    refine ⟨_, ?_, (ht.putFd hlive fd0 (some rf)).putFd hlive0 fd1 (some wf)⟩
    rw [slots_give hfree1, slots_give hfree, cwdRefs_putFd, cwdRefs_putFd]
    exact hk

/-- The reference by the working directory is given back. -/
theorem spec_putCwd {Y : Ip → Nat} (hX : ∀ cwd, (pr p).cwd = some cwd → Y = X + one cwd) :
    Spec view (Sys pr R F Y) (putCwd o p) (fun _ => Sys pr R F X) := by
  refine .bind (h.spec_gets _) fun c => .of_pure (c := c = (pr p).cwd) ?_ ?_
  · rintro k ⟨hk, rfl⟩
    rw [hk.proc]
  · rintro rfl
    cases hcwd : (pr p).cwd with
    | none => exact .fail fun _ _ => id
    | some cwd =>
      rw [hX cwd hcwd]
      exact (spec_sys fun t N _ => spec_iput h p cwd (add_assoc _ _ _).symm).mono
        (fun _ hk => hk.1) fun _ _ hk => hk

omit h in
theorem cwdRefs_putDir (hlive : (pr p).state = .live) (v : Option Ip) :
    cwdRefs (putDir pr p v) + mark (pr p).cwd = cwdRefs pr + mark v := by
  have hset := cwdRefs_set pr p ((pr p).setCwd v)
  rw [show (pr p).cwdRef = (pr p).cwd from if_pos hlive,
    show ((pr p).setCwd v).cwdRef = v from if_pos hlive] at hset
  exact hset

omit h in
theorem slots_putDir (v : Option Ip) : slots (putDir pr p v) = slots pr := slots_same rfl

omit h in
theorem Tidy.putDir (ht : Tidy pr) (v : Option Ip) : Tidy (putDir pr p v) := by
  intro q hq fd
  by_cases hqp : q = p
  · subst hqp
    simp only [Fs.putDir, set_self] at *
    exact ht q hq fd
  · simp only [Fs.putDir, set_of_ne _ _ hqp] at *
    exact ht q hq fd

theorem spec_sysChdir (hlive : (pr p).state = .live) (path : List UInt8) :
    Spec view (Settled pr) (sysChdir o p path) (fun _ => AtRest) := by
  refine .of_pure (c := Tidy pr) (fun _ hk => hk.tidy) fun ht =>
    .bind (M := fun _ => Sys pr (slots pr) ∅ (cwdRefs pr))
      ((spec_sys_same fun _ _ => h.spec_kernel spec_beginOp).mono (fun _ hk => hk.sys)
        fun _ _ hk => hk) fun _ =>
      .bind (spec_sys_add (cwdIn_cwdRefs hlive) fun t N hcwd => spec_namei h p path hcwd) ?_
  rintro (_ | ip)
  · exact (spec_sys_same fun _ _ => spec_endWith h _).post fun _ _ hk => ⟨pr, hk, ht⟩
  refine .bind (spec_sys_same fun _ _ => spec_ilock h p ip) fun _ =>
    .bind (spec_sys_same fun _ _ => (h.fields ip).spec) fun m => .ite (fun _ => ?_) fun _ => ?_
  · exact (spec_sys fun t N _ => spec_putEnd h p ip _ (add_assoc _ _ _).symm).post
      fun _ _ hk => ⟨pr, hk, ht⟩
  refine .bind (spec_sys_same fun _ _ => spec_iunlock h p ip) fun _ =>
    .bind (spec_putCwd h (X := cwdRefs (putDir pr p (some ip))) ?_) fun _ =>
      .bind (spec_sys_same fun _ _ => h.spec_kernel spec_endOp) fun _ =>
        .bind (h.spec_kernel (spec_setCwd (some ip))) fun _ => .pure _ fun _ hk => ?_
  · intro cwd hcwd
    have hput := cwdRefs_putDir hlive (some ip)
    rw [hcwd] at hput
    exact hput.symm
  · refine ⟨putDir pr p (some ip), ?_, ht.putDir _⟩
    rw [slots_putDir]
    exact hk

end Calls

/-! ### Processes -/

section Processes

variable {σ : Type} {o : Ops σ Slot} {view : σ → Kernel Slot} {pr : Slot → Proc Slot}
  {R : Fin NFILE → Nat} {F : Finset (Fin NFILE)} {X : Ip → Nat} {p : Slot} {k : Kernel Slot}

/-- A change of a process that keeps its descriptors and its working
directory. -/
theorem Settled.setProc (hk : Settled pr k) {q : Slot} {x : Proc Slot}
    (hofile : x.ofile = (pr q).ofile) (hcwd : x.cwdRef = (pr q).cwdRef)
    (htidy : x.state ≠ .live → (pr q).state ≠ .live) :
    Settled (set pr q x) { k with proc := set k.proc q x } where
  sys := by
    rw [slots_same hofile, cwdRefs_same hcwd]
    exact hk.sys.setProc x
  tidy := by
    intro r hr fd
    by_cases hrq : r = q
    · subst hrq
      rw [set_self] at hr ⊢
      rw [hofile]
      exact hk.tidy r (htidy hr) fd
    · rw [set_of_ne _ _ hrq] at hr ⊢
      exact hk.tidy r hr fd

theorem spec_wait (killed : Bool) :
    Spec id (Settled pr) (wait p killed) (fun _ => AtRest) := by
  intro k (hk : Settled pr k)
  unfold wait
  simp only [wp_bind, wp_gets, id_eq]
  split
  · next q hfound =>
      have hq := List.find?_some hfound
      simp only [Bool.and_eq_true, decide_eq_true_eq, hk.sys.proc] at hq
      refine ⟨_, hk.setProc (q := q) ?_ ?_ ?_⟩
      · rw [hk.sys.proc]
        rfl
      · simp [Proc.cwdRef, hk.sys.proc, hq.2]
      · simp [hq.2]
  · exact wp_ite (fun _ => ⟨pr, hk⟩) fun _ => id

theorem spec_joinContainer (id' : Int) :
    Spec id (Settled pr) (joinContainer p id') (fun _ => AtRest) := by
  intro k (hk : Settled pr k)
  unfold joinContainer
  simp only [wp_bind, wp_gets]
  refine ⟨_, hk.setProc (q := p) ?_ ?_ ?_⟩
  · rw [hk.sys.proc]
    rfl
  · simp [Proc.cwdRef, hk.sys.proc]
  · simp [hk.sys.proc]

/-! `fork`: until the child runs, its descriptors already count. -/

/-- The child `np` is being made; the descriptors in `rest` are still to be
copied. -/
structure Forking (p np : Slot) (rest : List (Fin NOFILE)) (pr : Slot → Proc Slot)
    (k : Kernel Slot) : Prop where
  sys : Sys pr (slots pr) ∅ (cwdRefs pr) k
  parent : (pr p).state = .live
  child : (pr np).state = .unused
  empty : ∀ fd ∈ rest, (pr np).ofile fd = none
  tidy : ∀ q, q ≠ np → (pr q).state ≠ .live → ∀ fd, (pr q).ofile fd = none

variable {np : Slot}

theorem Forking.ne {rest : List (Fin NOFILE)} (h : Forking p np rest pr k) : np ≠ p := by
  rintro rfl
  have := h.parent
  rw [h.child] at this
  cases this

theorem spec_copyFd {fd : Fin NOFILE} {rest : List (Fin NOFILE)} (hnd : fd ∉ rest) :
    Spec id (fun k => ∃ pr, Forking p np (fd :: rest) pr k) (copyFd p np fd)
      (fun _ k => ∃ pr, Forking p np rest pr k) := by
  rintro k ⟨pr, hk⟩
  replace hk : Forking p np (fd :: rest) pr k := hk
  have hproc : k.proc = pr := hk.sys.proc
  unfold copyFd
  simp only [wp_bind, wp_gets, hproc]
  split
  · exact ⟨pr, { hk with empty := fun fd' hfd => hk.empty fd' (List.mem_cons_of_mem _ hfd) }⟩
  · next f hf =>
      refine wp_bind.mpr (wp_mono (spec_filedup (slots_pos hf) k hk.sys) ?_ fun _ _ he => he)
      intro _ k' hk'
      refine wp_mono (spec_setOfile fd (some f) k' hk') ?_ fun _ _ he => he
      intro _ k'' hk''
      have hfree := hk.empty fd List.mem_cons_self
      refine ⟨putFd pr np fd (some f), ?_, ?_, ?_, ?_, ?_⟩
      · rw [slots_give hfree, cwdRefs_putFd]
        exact hk''
      · rw [putFd, set_of_ne _ _ hk.ne.symm]
        exact hk.parent
      · rw [putFd, set_self]
        exact hk.child
      · intro fd' hfd'
        have hne : fd' ≠ fd := fun heq => hnd (heq ▸ hfd')
        rw [putFd, set_self, Proc.setOfile_ofile, set_of_ne _ _ hne]
        exact hk.empty fd' (List.mem_cons_of_mem _ hfd')
      · intro q hq hstate
        rw [putFd, set_of_ne _ _ hq] at hstate ⊢
        exact hk.tidy q hq hstate

/-- The child has its descriptors and its working directory `cwd`, which the
totals do not count before it is live. -/
structure Forked (np : Slot) (cwd : Ip) (pr : Slot → Proc Slot) (k : Kernel Slot) : Prop where
  sys : Sys pr (slots pr) ∅ (cwdRefs pr + one cwd) k
  child : (pr np).state = .unused
  cwd : (pr np).cwd = some cwd
  tidy : ∀ q, q ≠ np → (pr q).state ≠ .live → ∀ fd, (pr q).ofile fd = none

theorem spec_shareFiles :
    Spec id (fun k => ∃ pr, Forking p np (List.finRange NOFILE) pr k) (shareFiles p np)
      (fun _ k => ∃ pr cwd, Forked np cwd pr k) := by
  refine .bind (M := fun _ k => List.Nodup ([] : List (Fin NOFILE)) ∧
    ∃ pr, Forking p np [] pr k) ?_ fun _ => ?_
  · refine (Triple.forEach (I := fun rest k => rest.Nodup ∧ ∃ pr, Forking p np rest pr k)
      (List.finRange NOFILE) fun fd rest => ?_).mono
      (fun _ hk => ⟨List.nodup_finRange NOFILE, hk⟩) fun _ _ hk => hk
    refine .of_pure (c := (fd :: rest).Nodup) (fun _ hk => hk.1) fun hnd => ?_
    rw [List.nodup_cons] at hnd
    exact (spec_copyFd hnd.1).mono (fun _ hk => hk.2) fun _ _ hk => ⟨hnd.2, hk⟩
  · rintro k ⟨-, pr, hk⟩
    replace hk : Forking p np [] pr k := hk
    have hproc : k.proc = pr := hk.sys.proc
    simp only [wp_bind, wp_gets, hproc]
    cases hcwd : (pr p).cwd with
    | none => exact id
    | some cwd =>
      have hpos : 0 < (Pins.none.base + (fileRefs k.ftable + cwdRefs pr)) cwd := by
        rw [Pins.none_add]
        exact Nat.add_pos_right _ (cwdRefs_pos hk.parent hcwd)
      refine wp_bind.mpr (wp_mono (spec_idup hpos k hk.sys.acc) ?_ fun _ _ he => he)
      rintro ip k' ⟨rfl, hacc⟩
      rw [add_assoc] at hacc
      have hsys : Sys pr (slots pr) ∅ (cwdRefs pr + one ip) k' := hk.sys.congr_acc hacc
      refine wp_mono (spec_setCwd (p := np) (some ip) k' hsys) ?_ fun _ _ he => he
      intro _ k'' hk''
      have hsame : cwdRefs (putDir pr np (some ip)) = cwdRefs pr :=
        cwdRefs_same (by simp [Proc.cwdRef, hk.child])
      refine ⟨putDir pr np (some ip), ip, ?_, ?_, ?_, ?_⟩
      · rw [slots_putDir, hsame]
        exact hk''
      · rw [putDir, set_self]
        exact hk.child
      · rw [putDir, set_self, Proc.setCwd_cwd]
      · intro q hq hstate
        rw [putDir, set_of_ne _ _ hq] at hstate ⊢
        exact hk.tidy q hq hstate

theorem Forked.start {cwd : Ip} {x : Proc Slot} (h : Forked np cwd pr k)
    (hofile : x.ofile = (pr np).ofile) (hlive : x.state = .live) (hcwd : x.cwd = (pr np).cwd) :
    Settled (set pr np x) { k with proc := set k.proc np x } where
  sys := by
    have hset := cwdRefs_set pr np x
    rw [show (pr np).cwdRef = none from if_neg (by rw [h.child]; nofun),
      show x.cwdRef = some cwd from (if_pos hlive).trans (hcwd.trans h.cwd)] at hset
    rw [slots_same hofile, show cwdRefs (set pr np x) = cwdRefs pr + one cwd from hset]
    exact h.sys.setProc x
  tidy := by
    intro q hq fd
    by_cases hqn : q = np
    · subst hqn
      rw [set_self] at hq
      exact absurd hlive hq
    · rw [set_of_ne _ _ hqn] at hq ⊢
      exact h.tidy q hqn hq fd

theorem spec_fork (hlive : (pr p).state = .live) (memory : ForkMemory) :
    Spec id (Settled pr) (fork p memory) (fun _ => AtRest) := by
  intro k (hk : Settled pr k)
  have hproc : k.proc = pr := hk.sys.proc
  unfold fork
  simp only [wp_bind, wp_gets, id_eq, hproc]
  split
  · exact ⟨pr, hk⟩
  · next np hfound =>
      have hunused : (pr np).state = .unused := by simpa using List.find?_some hfound
      have hk1 : Settled pr { k with nextpid := k.nextpid + 1 } :=
        ⟨hk.sys.congr_acc (hk.sys.acc.congr rfl rfl fun _ => ⟨rfl, rfl⟩), hk.tidy⟩
      have hk2 := hk1.setProc (q := np) (x := (pr np).setPid k.nextpid) rfl rfl
        (fun hne => hne)
      have hne : p ≠ np := by
        rintro rfl
        rw [hlive] at hunused
        cases hunused
      simp only [Xv6.Fs.setProc, wp_bind, wp_modify]
      refine wp_ite (fun _ => ⟨_, hk2⟩) fun _ => ?_
      have hstart : Forking p np (List.finRange NOFILE)
          (set pr np ((pr np).setPid k.nextpid))
          { k with nextpid := k.nextpid + 1, proc := set k.proc np ((pr np).setPid k.nextpid) } :=
        { sys := hk2.sys
          parent := by
            rw [set_of_ne _ _ hne]
            exact hlive
          child := by
            rw [set_self]
            exact hunused
          empty := fun fd _ => hk2.tidy np (by simp [hunused]) fd
          tidy := fun q _ hq => hk2.tidy q hq }
      refine wp_bind.mpr (wp_mono (spec_shareFiles _ ⟨_, hstart⟩) ?_ fun _ _ he => he)
      rintro _ k' ⟨pr', cwd, hk'⟩
      have hproc' : k'.proc = pr' := hk'.sys.proc
      simp only [wp_bind, wp_gets, wp_modify, hproc']
      have hdone := hk'.start (x := (pr' np).start p) rfl rfl rfl
      rw [show (id k').proc = pr' from hproc'] at hdone
      exact ⟨_, hdone⟩

/-! `exit` -/

/-- A process that closes its descriptors; those in `rest` are still to be
looked at. -/
structure Exiting (p : Slot) (rest : List (Fin NOFILE)) (pr : Slot → Proc Slot)
    (k : Kernel Slot) : Prop where
  settled : Settled pr k
  live : (pr p).state = .live
  closed : ∀ fd, fd ∉ rest → (pr p).ofile fd = none

variable (h : Frame o view)

include h

theorem spec_closeFd (fd : Fin NOFILE) (rest : List (Fin NOFILE)) :
    Spec view (fun k => ∃ pr, Exiting p (fd :: rest) pr k) (closeFd o p fd)
      (fun _ k => ∃ pr, Exiting p rest pr k) := by
  rintro s ⟨pr, hs⟩
  have hbody : Spec view (Settled pr) (closeFd o p fd)
      (fun _ k => ∃ pr, Exiting p rest pr k) := by
    refine spec_proc h (.of_pure (c := Tidy pr) (fun _ hk => hk.tidy) fun ht => ?_)
    cases hf : (pr p).ofile fd with
    | none =>
      refine .pure _ fun k hk => ⟨pr, hk, hs.live, fun fd' hfd' => ?_⟩
      by_cases heq : fd' = fd
      · rw [heq, hf]
      · exact hs.closed fd' (by simp [heq, hfd'])
    | some f =>
      refine .bind ((spec_fileclose h p (slots_take hf)).mono (fun _ hk => hk.sys)
        fun _ _ hk => hk) fun _ => (h.spec_kernel (spec_setOfile fd none)).post fun _ k hk => ?_
      refine ⟨putFd pr p fd none, ⟨?_, ht.putFd hs.live fd none⟩, ?_, ?_⟩
      · rw [cwdRefs_putFd]
        exact hk
      · rw [putFd, set_self]
        exact hs.live
      · intro fd' hfd'
        rw [putFd, set_self]
        by_cases heq : fd' = fd
        · simp [heq]
        · rw [Proc.setOfile_ofile, set_of_ne _ _ heq]
          exact hs.closed fd' (by simp [heq, hfd'])
  exact hbody s hs.settled

omit h in
theorem Settled.passChildren (hk : Settled pr k) (initproc : Slot) :
    Settled (fun q => (pr q).pass p initproc)
      { k with proc := fun q => (k.proc q).pass p initproc } := by
  have hofile (x : Proc Slot) : (x.pass p initproc).ofile = x.ofile := by
    unfold Proc.pass
    split <;> rfl
  have hstate (x : Proc Slot) : (x.pass p initproc).state = x.state := by
    unfold Proc.pass
    split <;> rfl
  have hcwd (x : Proc Slot) : (x.pass p initproc).cwdRef = x.cwdRef := by
    unfold Proc.pass
    split <;> rfl
  have hslots : slots (fun q => (pr q).pass p initproc) = slots pr := by
    unfold slots
    simp only [hofile]
  have hcwds : cwdRefs (fun q => (pr q).pass p initproc) = cwdRefs pr := by
    unfold cwdRefs
    simp only [hcwd]
  refine ⟨?_, ?_⟩
  · rw [hslots, hcwds]
    exact
      { proc := by rw [← hk.sys.proc]
        files := hk.sys.files
        objects := hk.sys.objects
        acc := hk.sys.acc.retable rfl rfl }
  · intro q hq fd
    rw [hstate] at hq
    rw [hofile]
    exact hk.tidy q hq fd

omit h in
theorem Settled.zombie (hk : Settled pr k) (hcwd : (pr p).cwd = none)
    (hclosed : ∀ fd, (pr p).ofile fd = none) :
    Settled (set pr p (pr p).zombie)
      { k with proc := set k.proc p (pr p).zombie } where
  sys := by
    have hslots : slots (set pr p (pr p).zombie) = slots pr := slots_same rfl
    have hcwds : cwdRefs (set pr p (pr p).zombie) = cwdRefs pr :=
      cwdRefs_same (by simp [Proc.cwdRef, hcwd])
    rw [hslots, hcwds]
    exact hk.sys.setProc _
  tidy := by
    intro q hq fd
    by_cases hqp : q = p
    · subst hqp
      rw [set_self]
      exact hclosed fd
    · rw [set_of_ne _ _ hqp] at hq ⊢
      exact hk.tidy q hq fd

theorem spec_exit (hlive : (pr p).state = .live) :
    Spec view (Settled pr) (exit o p) (fun _ => AtRest) := by
  refine .bind (h.spec_look _) fun initproc => .bind (.check id) fun _ =>
    .bind (M := fun _ k => ∃ pr, Exiting p [] pr k) ?_ fun _ => ?_
  · refine (Triple.forEach (I := fun rest k => ∃ pr, Exiting p rest pr k) (List.finRange NOFILE)
      (spec_closeFd h)).mono (fun k hk => ⟨pr, hk, hlive, ?_⟩) fun _ _ hk => hk
    exact fun fd hfd => absurd (List.mem_finRange fd) hfd
  · rintro s ⟨pr, hs⟩
    have ht := hs.settled.tidy
    have hclosed (fd : Fin NOFILE) : (pr p).ofile fd = none := hs.closed fd (by simp)
    have hbody : Spec view (Sys pr (slots pr) ∅ (cwdRefs pr)) (exitRest o p) (fun _ => AtRest) := by
      refine .bind (spec_sys_same fun _ _ => h.spec_kernel spec_beginOp) fun _ =>
        .bind (spec_putCwd h (X := cwdRefs (putDir pr p none)) ?_) fun _ =>
          .bind (spec_sys_same fun _ _ => h.spec_kernel spec_endOp) fun _ =>
            .bind (h.spec_kernel (spec_setCwd none)) fun _ => ?_
      · intro cwd hcwd
        have hput := cwdRefs_putDir hs.live none
        rw [hcwd] at hput
        exact hput.symm
      · refine .bind (h.spec_modify _) fun _ => .bind (h.spec_gets _) fun x =>
          .bind (h.spec_modify _) fun _ => .pure _ ?_
        rintro _ ⟨_, ⟨⟨k, hk, rfl⟩, rfl⟩, rfl⟩
        have hk' : Settled (putDir pr p none) k := ⟨by rw [slots_putDir]; exact hk, ht.putDir none⟩
        have hpass := hk'.passChildren (p := p) k.initproc
        have hself : (putDir pr p none p).pass p k.initproc = (k.proc p).pass p k.initproc := by
          rw [hk.proc]
        have hdead := hpass.zombie (p := p) ?_ ?_
        · rw [hself] at hdead
          exact ⟨_, hdead⟩
        · rw [putDir, set_self, Proc.pass]
          split <;> rfl
        · intro fd
          rw [putDir, set_self, Proc.pass]
          split <;> exact hclosed fd
    exact hbody s hs.settled.sys

end Processes

/-! ### Runs -/

section Runs

variable {σ : Type} {o : Ops σ Slot} {view : σ → Kernel Slot} {pr : Slot → Proc Slot} {p : Slot}

/-- A call that works on inodes only and keeps none. -/
theorem spec_stable {α : Type} {x : Prog σ Panic α} (hlive : (pr p).state = .live)
    (hx : ∀ t N, HasCwd .none t p N → Spec view (Acc .none t N) x (fun _ => Acc .none t N)) :
    Spec view (Settled pr) x (fun _ => AtRest) :=
  .of_pure (c := Tidy pr) (fun _ hk => hk.tidy) fun ht =>
    (spec_sys_add (cwdIn_cwdRefs hlive) (Y := fun _ => 0) hx).mono (fun _ hk => hk.sys)
      fun _ _ hk => ⟨pr, hk, ht⟩

variable (h : Frame o view)

include h

theorem spec_callBody (hlive : (pr p).state = .live) (c : Call) :
    Spec view (Settled pr) (callBody o p c) (fun _ => AtRest) := by
  cases c with
  | «open» path omode => exact spec_sysOpen h hlive path omode
  | pipe page => exact .bind (spec_sysPipe h hlive page) fun _ => .ret rfl
  | dup fd => exact h.spec_kernel (spec_sysDup hlive fd)
  | close fd mem => exact spec_sysClose h hlive fd mem
  | write fd src n mem pipewrite => exact spec_sysWrite h fd src n mem pipewrite
  | link old new => exact spec_stable hlive fun t N hcwd => spec_sysLink h p hcwd old new
  | unlink path => exact spec_stable hlive fun t N hcwd => spec_sysUnlink h p hcwd path
  | mkdir path =>
    exact spec_stable hlive fun t N hcwd => spec_putCreated h p hcwd rfl path T_DIR 0 0
  | mknod path major minor =>
    exact spec_stable hlive fun t N hcwd => spec_putCreated h p hcwd rfl path T_DEV major minor
  | chdir path => exact spec_sysChdir h hlive path
  | exec vm path => exact spec_stable hlive fun t N hcwd => spec_exec h p hcwd vm path
  | fork memory => exact h.spec_kernel (spec_fork hlive memory)
  | exit => exact spec_exit h hlive
  | wait killed => exact h.spec_kernel (spec_wait killed)
  | join id => exact h.spec_kernel (spec_joinContainer id)
  | leave => exact h.spec_kernel (spec_joinContainer 0)

theorem spec_call (c : Call) :
    Spec view (Settled pr) (call o p c) (fun _ => AtRest) := by
  refine spec_proc h (.bind (M := fun _ k => Settled pr k ∧ (pr p).state = .live)
    (.panicIf (fun _ _ _ => id) fun _ hk hlive => ⟨hk, not_not.mp hlive⟩) fun _ => ?_)
  exact .of_pure (fun _ hk => hk.2) fun hlive =>
    (spec_callBody h hlive c).mono (fun _ hk => hk.1) fun _ _ hk => hk

theorem spec_calls (cs : List (Slot × Call)) :
    Spec view AtRest (calls o cs) (fun _ => AtRest) := by
  induction cs with
  | nil => exact .ret rfl
  | cons pc cs ih =>
    have hcall : Spec view AtRest (call o pc.1 pc.2) (fun _ => AtRest) := by
      rintro s ⟨pr, hs⟩
      exact spec_call h pc.2 s hs
    exact .bind hcall fun _ => .bind ih fun _ => .ret rfl

end Runs

section Boot

section

variable (console : Nat → Nat → Int × (Nat → UInt8))

theorem cwdRef_userinit (q : Slot) :
    ((userinit console).proc q).cwdRef = if q = 0 then some 0 else none := by
  simp only [userinit]
  split <;> rfl

theorem refs_userinit :
    fileRefs (userinit console).ftable + cwdRefs (userinit console).proc = one 0 := by
  funext ip
  have hfiles : fileRefs (userinit console).ftable ip = 0 := by
    rw [fileRefs_apply]
    simp [userinit, File.inodeRef, File.object]
  have hcwds : cwdRefs (userinit console).proc ip = one 0 ip := by
    rw [cwdRefs_apply]
    simp only [cwdRef_userinit]
    by_cases hip : ip = 0
    · subst hip
      rw [one_self, Finset.card_eq_one]
      exact ⟨0, by ext q; simp⟩
    · rw [one_of_ne hip, Finset.card_eq_zero]
      ext q
      simp [Ne.symm hip]
  rw [Pi.add_apply, hfiles, hcwds, zero_add]

theorem ofile_userinit (q : Slot) (fd : Fin NOFILE) :
    ((userinit console).proc q).ofile fd = none := by
  simp only [userinit]
  split <;> rfl

theorem slots_userinit (f : Fin NFILE) : slots (userinit console).proc f = 0 := by
  rw [slots_apply, Finset.card_eq_zero, Finset.filter_eq_empty_iff]
  intro s _
  rw [ofile_userinit]
  exact nofun

theorem settled_userinit :
    Settled (userinit console).proc (userinit console) where
  sys :=
    { proc := rfl
      files :=
        { ref := fun f => by rw [slots_userinit]; rfl
          closed := fun _ _ => rfl
          opened := fun f hpos => by rw [slots_userinit] at hpos; omega }
      objects := Objects.start
      acc := by
        rw [refs_userinit]
        have hpos (ip : Ip) (h : 0 < one (0 : Ip) ip) : ip = 0 := by
          by_contra hne
          rw [one_of_ne hne] at h
          omega
        refine .of_none (fun ip => ?_) fun ip jp hi hj _ _ => (hpos ip hi).trans (hpos jp hj).symm
        by_cases hip : ip = 0
        · subst hip
          rw [one_self]
          rfl
        · rw [one_of_ne hip]
          simp [userinit, hip] }
  tidy := fun q _ fd => ofile_userinit console q fd

end

/-- What a run of calls from the first process on ends with. -/
theorem settled_calls {console : Nat → Nat → Int × (Nat → UInt8)} {s : FsState Slot}
    (hboot : s.kernel = userinit console) (cs : List (Slot × Call)) :
    wp (calls diskOps cs) (fun _ s' => Settled s'.kernel.proc s'.kernel)
      (fun e _ => ¬ e.OfFiles) s := by
  refine wp_mono (spec_calls diskOps_frame cs s ⟨_, hboot ▸ settled_userinit console⟩) ?_
    fun _ _ he => he
  rintro _ s' ⟨pr, hs⟩
  rw [hs.sys.proc]
  exact hs

theorem inodeRef_eq_some {x : File} {ip : Ip} :
    x.inodeRef = some ip ↔ x.type = .inode ∧ x.ip = some ip := by
  unfold File.inodeRef File.object
  cases x.type <;> cases x.pipe <;> cases x.ip <;> simp

theorem cwdRef_eq_some {x : Proc Slot} {ip : Ip} :
    x.cwdRef = some ip ↔ x.state = .live ∧ x.cwd = some ip := by
  unfold Proc.cwdRef
  split <;> simp_all

/-- The open files and the live processes' working directories that point to an
entry of the inode cache. -/
def Kernel.pointers (k : Kernel Slot) (ip : Ip) : Nat :=
  (Finset.univ.filter fun f => (k.ftable f).type = .inode ∧ (k.ftable f).ip = some ip).card +
    (Finset.univ.filter fun q => (k.proc q).state = .live ∧ (k.proc q).cwd = some ip).card

theorem Settled.icache_ref {k : Kernel Slot} (h : Settled k.proc k) (ip : Ip) :
    (k.icache ip).ref = k.pointers ip := by
  rw [h.sys.acc.ref_none ip, Pi.add_apply, fileRefs_apply, cwdRefs_apply]
  simp only [inodeRef_eq_some, cwdRef_eq_some]
  norm_cast

/-- Between calls the count of every entry of the inode cache is the number of
open files and of live processes' working directories that point to it, and an
inode has at most one entry in use, whatever the calls, their results and the
disk are. -/
theorem icache_counts_exact {console : Nat → Nat → Int × (Nat → UInt8)} {s s' : FsState Slot}
    {cs : List (Slot × Call)} {rs : List Int} (hboot : s.kernel = userinit console)
    (hrun : calls diskOps cs s = (.ok rs, s')) :
    (∀ ip, (s'.kernel.icache ip).ref = s'.kernel.pointers ip) ∧
    ∀ ip jp, 0 < (s'.kernel.icache ip).ref → 0 < (s'.kernel.icache jp).ref →
      (s'.kernel.icache ip).dev = (s'.kernel.icache jp).dev →
      (s'.kernel.icache ip).inum = (s'.kernel.icache jp).inum → ip = jp := by
  have hs := of_wp_ok (settled_calls hboot cs) hrun
  refine ⟨hs.icache_ref, fun ip jp hi hj => hs.sys.acc.unique ip jp ?_ ?_⟩
  · have := hs.sys.acc.ref ip
    omega
  · have := hs.sys.acc.ref jp
    omega

/-- The first process makes a file, looks in vain for another, gives the file a
second name, makes a directory and goes there. Its child takes the first name away. -/
def lookups : List (Slot × Call) :=
  [(0, .open [97] (O_CREATE ||| O_RDWR)), (0, .open [98] O_RDWR), (0, .link [97] [98]),
    (0, .mkdir [100]), (0, .chdir [100]), (0, .fork ⟨true, true⟩), (1, .unlink [46, 46, 47, 97])]

theorem icache_counts_lookups :
    ∃ s', calls diskOps lookups booted = (.ok [0, -1, 0, 0, 0, 2, 0], s') ∧
      (s'.kernel.proc 0).cwd = some 2 ∧ ((s'.kernel.icache 2).ref = 2) ∧
      ∀ ip, (s'.kernel.icache ip).ref = s'.kernel.pointers ip := by
  obtain ⟨s', hrun, hcwd, href⟩ : ∃ s',
      calls diskOps lookups booted = (.ok [0, -1, 0, 0, 0, 2, 0], s') ∧
      (s'.kernel.proc 0).cwd = some 2 ∧ (s'.kernel.icache 2).ref = 2 := by decide +kernel
  exact ⟨s', hrun, hcwd, href, (icache_counts_exact rfl hrun).1⟩

theorem Settled.object_isSome {k : Kernel Slot} (h : Settled k.proc k) (f : Fin NFILE) :
    (k.ftable f).object.isSome = true ↔ ∃ q fd, (k.proc q).ofile fd = some f := by
  constructor
  · intro hsome
    by_contra hnone
    have hzero : slots k.proc f = 0 := by
      rw [slots_apply, Finset.card_eq_zero, Finset.filter_eq_empty_iff]
      exact fun s _ hs => hnone ⟨s.1, s.2, hs⟩
    rw [File.object_of_none (h.sys.files.closed f (.inl hzero))] at hsome
    cases hsome
  · rintro ⟨q, fd, hheld⟩
    exact h.sys.files.opened f (slots_pos hheld) (Finset.notMem_empty f)

/-- Between calls the count of every file is the number of descriptors that
hold it; files without a descriptor are of type `FD_NONE`. The history of opened
and closed files keeps the rules of `Monitor.step`, and the files that are open
after it are those with a descriptor: the `iput` or `pipeclose` of a file comes
once, with its last descriptor, and the page of a pipe is freed once, when no
descriptor of either end is left. That the `iput` is made shows in the counts of
the inode cache. The panics of `filedup` and `fileclose` are not reached. -/
theorem descriptor_counts_exact {console : Nat → Nat → Int × (Nat → UInt8)} {s : FsState Slot}
    (hboot : s.kernel = userinit console) (cs : List (Slot × Call)) :
    (∀ rs s', calls diskOps cs s = (.ok rs, s') →
      (∀ f, (s'.kernel.ftable f).ref = (Finset.univ.filter fun d : Slot × Fin NOFILE =>
        (s'.kernel.proc d.1).ofile d.2 = some f).card) ∧
      (∀ f, (s'.kernel.ftable f).ref = 0 → (s'.kernel.ftable f).type = .none) ∧
      Transition.exec Monitor.step .start s'.kernel.history =
        some ⟨fun f => (s'.kernel.ftable f).object, fun page => (s'.kernel.pipes page).isSome⟩ ∧
      (∀ f, (s'.kernel.ftable f).object.isSome = true ↔
        ∃ q fd, (s'.kernel.proc q).ofile fd = some f) ∧
      (∀ page, (s'.kernel.pipes page).isSome = true →
        ∃ f w, (s'.kernel.ftable f).object = some (.pipe page w)) ∧
      ∀ ip, (s'.kernel.icache ip).ref = s'.kernel.pointers ip) ∧
    ∀ e s', calls diskOps cs s = (.error e, s') →
      e ≠ .filedup ∧ e ≠ .fileclose ∧ e ≠ .freedPage := by
  refine ⟨fun rs s' hrun => ?_, fun e s' hrun => ?_⟩
  · have hs := of_wp_ok (settled_calls hboot cs) hrun
    refine ⟨fun f => ?_, fun f hf => ?_, hs.sys.objects.monitor, hs.object_isSome, ?_,
      hs.icache_ref⟩
    · rw [hs.sys.files.ref f, slots_apply]
    · have := hs.sys.files.ref f
      exact hs.sys.files.closed f (.inl (by omega))
    · intro page hpage
      obtain ⟨ends, hends⟩ := Option.isSome_iff_exists.mp hpage
      obtain ⟨w, hw⟩ := hs.sys.objects.used page ends hends
      obtain ⟨f, hf⟩ := (hs.sys.objects.flag page ends w hends).mp hw
      exact ⟨f, w, hf⟩
  · have he := of_wp_error (settled_calls hboot cs) hrun
    refine ⟨?_, ?_, ?_⟩ <;>
    · rintro rfl
      exact he trivial

/-- The first process makes a pipe and a child, closes its ends and waits for the
child, which exits. -/
def pipeFork : List (Slot × Call) :=
  [(0, .pipe (some 7)), (0, .fork ⟨true, true⟩), (0, .close 0 0), (0, .close 1 0), (1, .exit),
    (0, .wait false)]

theorem descriptor_counts_pipeFork :
    ∃ s', calls diskOps pipeFork booted = (.ok [0, 2, 0, 0, 0, 2], s') ∧
      (s'.kernel.pipes 7).isSome = false ∧
      ∀ f, (s'.kernel.ftable f).ref = (Finset.univ.filter fun d : Slot × Fin NOFILE =>
        (s'.kernel.proc d.1).ofile d.2 = some f).card := by
  obtain ⟨s', hrun, hfreed⟩ : ∃ s', calls diskOps pipeFork booted = (.ok [0, 2, 0, 0, 0, 2], s') ∧
      (s'.kernel.pipes 7).isSome = false := by decide +kernel
  exact ⟨s', hrun, hfreed, ((descriptor_counts_exact rfl pipeFork).1 _ s' hrun).1⟩

end Boot

end Xv6.Fs
