import Xv6.Fs.Mkfs
import Xv6.Fs.Calls
import Xv6.Lib.Transition

/-!
The container checks of `sys_write` and `sys_close` on the descriptor of a
pipe. Both read `f->ip->containerID`, and the `ip` of a pipe is null or what an
earlier file in the same entry of the file table has left there.
-/

namespace Xv6.Fs

open Prog

variable {P : Type}

/-- The state with another file table. -/
def FsState.withFiles (c : FsState P) (t : Fin NFILE → File) : FsState P :=
  { c with kernel := { c.kernel with ftable := t } }

/-- The file tables differ in the `ip` of entries in `S` only. -/
structure SameFiles (S : Fin NFILE → Prop) (t t' : Fin NFILE → File) : Prop where
  file : ∀ f, t' f = { t f with ip := (t' f).ip }
  ip : ∀ f, ¬ S f → (t' f).ip = (t f).ip

/-- Two runs end with the same result, in states that differ as before. -/
def SameEffect (S : Fin NFILE → Prop) {α : Type} (x y : Except Panic α × FsState P) : Prop :=
  x.1 = y.1 ∧ ∃ t, y.2 = x.2.withFiles t ∧ SameFiles S x.2.kernel.ftable t

/-- What the container checks read for a file. -/
def Kernel.ownerOf (k : Kernel P) (f : Fin NFILE) (mem : Int) : Int :=
  match (k.ftable f).ip with
  | none => mem
  | some ip => (k.icache ip).containerID

def Kernel.IsPipe (k : Kernel P) (f : Fin NFILE) : Prop := (k.ftable f).type = .pipe

section Calls

variable [DecidableEq P] {p : P} {fd : Fin NOFILE} {f : Fin NFILE} {c : FsState P} {mem : Int}
  {S : Fin NFILE → Prop} {t t' : Fin NFILE → File}

/-- `fileclose` with the slot emptied: `sys_close` without its check. -/
def closeSlot {σ : Type} (o : Ops σ P) (p : P) (fd : Fin NOFILE) (f : Fin NFILE) :
    Prog σ Panic Int := do
  o.kernel (setOfile p fd none)
  fileclose o p f
  return 0

omit [DecidableEq P] in
theorem kernel_gets {α : Type} (g : Kernel P → α) (c : FsState P) :
    (diskOps.kernel (gets g) : FsM P α) c = (.ok (g c.kernel), c) := rfl

omit [DecidableEq P] in
theorem kernel_fileOwner (f : Fin NFILE) (mem : Int) (c : FsState P) :
    (diskOps.kernel (fileOwner f mem) : FsM P Int) c = (.ok (c.kernel.ownerOf f mem), c) := by
  have howner : fileOwner f mem c.kernel = (.ok (c.kernel.ownerOf f mem), c.kernel) := by
    unfold fileOwner Kernel.ownerOf
    rw [bind_ok (show (gets id : KernelM P _) c.kernel = (.ok c.kernel, c.kernel) from rfl)]
    cases (c.kernel.ftable f).ip <;> rfl
  change ((fileOwner f mem c.kernel).1, { c with kernel := (fileOwner f mem c.kernel).2 }) = _
  rw [howner]

theorem sysClose_eq (hfd : (c.kernel.proc p).ofile fd = some f) :
    sysClose diskOps p fd mem c =
      if (c.kernel.proc p).containerID = c.kernel.ownerOf f mem then closeSlot diskOps p fd f c
      else (.ok (-1), c) := by
  unfold sysClose
  rw [bind_ok (kernel_gets _ c), hfd]
  change (diskOps.kernel (fileOwner f mem) >>= _) c = _
  rw [bind_ok (kernel_fileOwner f mem c)]
  by_cases hcid : (c.kernel.proc p).containerID = c.kernel.ownerOf f mem
  · rw [if_neg (not_not.mpr hcid), if_pos hcid]
    rfl
  · rw [if_pos hcid, if_neg hcid]
    rfl

theorem sysWrite_eq (hfd : (c.kernel.proc p).ofile fd = some f) (src : Nat → UInt8) (n : Nat)
    (pipewrite : Int) :
    sysWrite diskOps p fd src n mem pipewrite c =
      if c.kernel.ownerOf f mem = 0 ∨ (c.kernel.proc p).containerID = c.kernel.ownerOf f mem then
        filewrite diskOps p f src n pipewrite c
      else (.ok (-1), c) := by
  unfold sysWrite
  rw [bind_ok (kernel_gets _ c), hfd]
  change (diskOps.kernel (fileOwner f mem) >>= _) c = _
  rw [bind_ok (kernel_fileOwner f mem c)]
  by_cases hzero : c.kernel.ownerOf f mem = 0
  · rw [if_pos hzero, if_pos (Or.inl hzero)]
  · rw [if_neg hzero]
    by_cases hcid : (c.kernel.proc p).containerID = c.kernel.ownerOf f mem
    · rw [if_neg (not_not.mpr hcid), if_pos (Or.inr hcid)]
    · rw [if_pos hcid, if_neg (fun hc => hc.elim hzero hcid)]
      rfl

theorem filewrite_pipe (hpipe : c.kernel.IsPipe f) (src : Nat → UInt8) (n : Nat) (pipewrite : Int) :
    filewrite diskOps p f src n pipewrite c =
      (.ok (if (c.kernel.ftable f).writable = false then -1 else pipewrite), c) := by
  unfold filewrite
  rw [bind_ok (kernel_gets _ c)]
  by_cases hw : (c.kernel.ftable f).writable = false
  · rw [if_pos hw, if_pos hw]
    rfl
  · rw [if_neg hw, if_neg hw]
    unfold Kernel.IsPipe at hpipe
    rw [hpipe]
    rfl

/-! ### Two states -/

namespace SameFiles

omit [DecidableEq P] in
theorem set (h : SameFiles S t t') (g : File → File)
    (hg : ∀ (x : File) ip, g { x with ip := ip } = { g x with ip := ip })
    (hip : ∀ x, (g x).ip = x.ip) (f : Fin NFILE) :
    SameFiles S (Prog.set t f (g (t f))) (Prog.set t' f (g (t' f))) where
  file := by
    intro e
    by_cases he : e = f
    · subst he
      rw [set_self, set_self, h.file e, hg]
    · rw [set_of_ne _ _ he, set_of_ne _ _ he]
      exact h.file e
  ip := by
    intro e hout
    by_cases he : e = f
    · subst he
      rw [set_self, set_self, hip, hip]
      exact h.ip e hout
    · rw [set_of_ne _ _ he, set_of_ne _ _ he]
      exact h.ip e hout

end SameFiles

omit [DecidableEq P] in
theorem pipeclose_ftable (page : Page) (w : Bool) (k : Kernel P) (t : Fin NFILE → File) :
    pipeclose page w { k with ftable := t } =
        ((pipeclose page w k).1, { (pipeclose page w k).2 with ftable := t }) ∧
      (pipeclose page w k).2.ftable = k.ftable := by
  have hrun (k : Kernel P) : (gets id : KernelM P _) k = (.ok k, k) := rfl
  unfold pipeclose
  rw [bind_ok (hrun k), bind_ok (hrun { k with ftable := t })]
  cases k.pipes page with
  | none => exact ⟨rfl, rfl⟩
  | some ends =>
    dsimp only
    generalize (if w = true then { ends with writeopen := false }
      else { ends with readopen := false }) = e
    by_cases hboth : e.readopen = false ∧ e.writeopen = false
    · rw [if_pos hboth]
      exact ⟨rfl, rfl⟩
    · rw [if_neg hboth]
      exact ⟨rfl, rfl⟩

omit [DecidableEq P] in
/-- What `fileclose` reads of a pipe does not include `ip`. -/
theorem fileclose_same (h : SameFiles S c.kernel.ftable t) (hpipe : c.kernel.IsPipe f) :
    SameEffect S (fileclose diskOps p f c) (fileclose diskOps p f (c.withFiles t)) := by
  have hfile := h.file f
  have href : (t f).ref = (c.kernel.ftable f).ref := by rw [hfile]
  have htype : (t f).type = .pipe := by
    rw [hfile]
    exact hpipe
  have hpage : (t f).pipe = (c.kernel.ftable f).pipe := by rw [hfile]
  have hw : (t f).writable = (c.kernel.ftable f).writable := by rw [hfile]
  have hshut := h.set File.shut (fun _ _ => rfl) (fun _ => rfl) f
  unfold Kernel.IsPipe at hpipe
  unfold fileclose
  rw [bind_ok (kernel_gets _ c), bind_ok (kernel_gets _ (c.withFiles t))]
  have hwith : (c.withFiles t).kernel.ftable = t := rfl
  rw [hwith, href, htype, hpage, hw, hpipe]
  unfold panicIf
  split
  · exact ⟨rfl, t, rfl, h⟩
  · split
    · refine ⟨rfl, _, rfl, ?_⟩
      exact h.set (fun x => x.setRef ((c.kernel.ftable f).ref - 1)) (fun _ _ => rfl)
        (fun _ => rfl) f
    · cases (c.kernel.ftable f).pipe with
      | none => exact ⟨rfl, _, rfl, hshut⟩
      | some page =>
        let k : Kernel P := { c.kernel with
          ftable := Prog.set c.kernel.ftable f (c.kernel.ftable f).shut
          history := c.kernel.history ++ [.closed f (.pipe page (c.kernel.ftable f).writable)] }
        obtain ⟨hrun, hkept⟩ := pipeclose_ftable page (c.kernel.ftable f).writable k
          (Prog.set t f (t f).shut)
        refine ⟨?_, Prog.set t f (t f).shut, ?_, ?_⟩
        · change _ = (pipeclose page _ { k with ftable := Prog.set t f (t f).shut }).1
          rw [hrun]
          rfl
        · change ({ (c.withFiles t) with kernel := (pipeclose page _
            { k with ftable := Prog.set t f (t f).shut }).2 } : FsState P) = _
          rw [hrun]
          rfl
        · change SameFiles S (pipeclose page _ k).2.ftable _
          rw [hkept]
          exact hshut

omit [DecidableEq P] in
theorem SameEffect.bind {α β : Type} {x : FsM P α} {g : α → FsM P β} {c' : FsState P}
    (h : SameEffect S (x c) (x c'))
    (hg : ∀ a c₁ t, SameFiles S c₁.kernel.ftable t → SameEffect S (g a c₁) (g a (c₁.withFiles t))) :
    SameEffect S ((x >>= g) c) ((x >>= g) c') := by
  obtain ⟨hres, t, hstate, hsame⟩ := h
  rcases hx : x c with ⟨e | a, c₁⟩
  · rcases hx' : x c' with ⟨e' | a', c₁'⟩
    · rw [hx, hx'] at hres hstate
      rw [hx] at hsame
      cases hres
      rw [bind_error hx, bind_error hx']
      exact ⟨rfl, t, hstate, hsame⟩
    · rw [hx, hx'] at hres
      cases hres
  · rcases hx' : x c' with ⟨e' | a', c₁'⟩
    · rw [hx, hx'] at hres
      cases hres
    · rw [hx, hx'] at hres hstate
      rw [hx] at hsame
      cases hres
      rw [bind_ok hx, bind_ok hx', show c₁' = c₁.withFiles t from hstate]
      exact hg a c₁ t hsame

theorem closeSlot_same (h : SameFiles S c.kernel.ftable t) (hpipe : c.kernel.IsPipe f) :
    SameEffect S (closeSlot diskOps p fd f c) (closeSlot diskOps p fd f (c.withFiles t)) := by
  let c₁ : FsState P := { c with kernel := { c.kernel with
    proc := Prog.set c.kernel.proc p ((c.kernel.proc p).setOfile fd none) } }
  have hslot : (diskOps.kernel (setOfile p fd none) : FsM P Unit) c = (.ok (), c₁) := rfl
  have hslot' : (diskOps.kernel (setOfile p fd none) : FsM P Unit) (c.withFiles t) =
      (.ok (), c₁.withFiles t) := rfl
  unfold closeSlot
  rw [bind_ok hslot, bind_ok hslot']
  exact (fileclose_same (c := c₁) h hpipe).bind fun _ _ t' ht => ⟨rfl, t', rfl, ht⟩

/-- `closeSlot` never returns -1. -/
theorem closeSlot_ne (c : FsState P) (c' : FsState P) :
    closeSlot diskOps p fd f c ≠ (.ok (-1), c') := by
  have hwp : wp (closeSlot diskOps p fd f) (fun r _ => r = 0) (fun _ _ => True) c := by
    unfold closeSlot
    simp only [wp_bind, wp_pure]
    refine wp_mono (Q := fun _ _ => True) ?_ (fun _ _ _ => ?_) (fun _ _ he => he)
    · unfold wp
      split <;> trivial
    · unfold wp
      split <;> trivial
  intro heq
  have := of_wp_ok hwp heq
  omega

/-- `sys_write` on this descriptor of a pipe does what `filewrite` does. -/
def WritesThrough (c : FsState P) (p : P) (fd : Fin NOFILE) (f : Fin NFILE) (mem : Int) : Prop :=
  ∀ src n pipewrite, sysWrite diskOps p fd src n mem pipewrite c =
    filewrite diskOps p f src n pipewrite c

/-- `sys_close` on this descriptor does what `fileclose` does, with the slot
emptied. -/
def ClosesThrough (c : FsState P) (p : P) (fd : Fin NOFILE) (f : Fin NFILE) (mem : Int) : Prop :=
  sysClose diskOps p fd mem c = closeSlot diskOps p fd f c

theorem writesThrough_iff (hfd : (c.kernel.proc p).ofile fd = some f) (hpipe : c.kernel.IsPipe f) :
    WritesThrough c p fd f mem ↔ (c.kernel.ftable f).writable = false ∨
      c.kernel.ownerOf f mem = 0 ∨ (c.kernel.proc p).containerID = c.kernel.ownerOf f mem := by
  constructor
  · intro hall
    by_contra hnot
    rw [not_or] at hnot
    have hrun := hall (fun _ => 0) 1 1
    rw [sysWrite_eq hfd, if_neg hnot.2, filewrite_pipe hpipe, if_neg hnot.1] at hrun
    have hres := congrArg Prod.fst hrun
    cases hres
  · intro hcond src n pipewrite
    rw [sysWrite_eq hfd]
    split
    · rfl
    · next hout =>
        rw [filewrite_pipe hpipe, if_pos (hcond.resolve_right hout)]

theorem closesThrough_iff (hfd : (c.kernel.proc p).ofile fd = some f) :
    ClosesThrough c p fd f mem ↔ (c.kernel.proc p).containerID = c.kernel.ownerOf f mem := by
  unfold ClosesThrough
  rw [sysClose_eq hfd]
  constructor
  · intro hrun
    by_contra hnot
    rw [if_neg hnot] at hrun
    exact closeSlot_ne c c hrun.symm
  · intro hcid
    rw [if_pos hcid]

/-- In two states that differ in the `ip` of pipes only, `sys_write` and
`sys_close` on a pipe are the same and do their work exactly if the container
checks let them pass in both. -/
theorem pipe_calls_ignore_ip_iff (mem : Int) (hsame : SameFiles c.kernel.IsPipe c.kernel.ftable t)
    (hfd : (c.kernel.proc p).ofile fd = some f) (hpipe : c.kernel.IsPipe f) :
    ((∀ src n pipewrite, SameEffect c.kernel.IsPipe
        (sysWrite diskOps p fd src n mem pipewrite c)
        (sysWrite diskOps p fd src n mem pipewrite (c.withFiles t))) ∧
      WritesThrough c p fd f mem ∧ WritesThrough (c.withFiles t) p fd f mem ↔
      ∀ c' ∈ [c, c.withFiles t], (c.kernel.ftable f).writable = false ∨
        c'.kernel.ownerOf f mem = 0 ∨ (c.kernel.proc p).containerID = c'.kernel.ownerOf f mem) ∧
    (SameEffect c.kernel.IsPipe (sysClose diskOps p fd mem c)
        (sysClose diskOps p fd mem (c.withFiles t)) ∧
      ClosesThrough c p fd f mem ∧ ClosesThrough (c.withFiles t) p fd f mem ↔
      ∀ c' ∈ [c, c.withFiles t],
        (c.kernel.proc p).containerID = c'.kernel.ownerOf f mem) := by
  have hfd' : ((c.withFiles t).kernel.proc p).ofile fd = some f := hfd
  have hfile := hsame.file f
  have hpipe' : (c.withFiles t).kernel.IsPipe f := by
    change (t f).type = .pipe
    rw [hfile]
    exact hpipe
  have hw : ((c.withFiles t).kernel.ftable f).writable = (c.kernel.ftable f).writable := by
    change (t f).writable = _
    rw [hfile]
  simp only [List.mem_cons, List.not_mem_nil, or_false, forall_eq_or_imp, forall_eq]
  rw [writesThrough_iff hfd hpipe, writesThrough_iff hfd' hpipe', hw,
    closesThrough_iff hfd, closesThrough_iff hfd']
  refine ⟨⟨fun h => h.2, fun h => ⟨?_, h⟩⟩, ⟨fun h => h.2, fun h => ⟨?_, h⟩⟩⟩
  · intro src n pipewrite
    rw [(writesThrough_iff hfd hpipe).mpr h.1,
      (writesThrough_iff hfd' hpipe').mpr (by rw [hw]; exact h.2), filewrite_pipe hpipe,
      filewrite_pipe hpipe', hw]
    exact ⟨rfl, t, rfl, hsame⟩
  · rw [(closesThrough_iff hfd).mpr h.1, (closesThrough_iff hfd').mpr h.2]
    exact closeSlot_same hsame hpipe

end Calls

/-- The file table with the `ip` of every pipe null. -/
def Kernel.nullPipes (k : Kernel P) (f : Fin NFILE) : File :=
  if (k.ftable f).type = .pipe then { k.ftable f with ip := none } else k.ftable f

theorem Kernel.nullPipes_same (k : Kernel P) : SameFiles k.IsPipe k.ftable k.nullPipes where
  file f := by
    unfold Kernel.nullPipes
    split <;> rfl
  ip f hout := by
    unfold Kernel.nullPipes
    rw [if_neg (show (k.ftable f).type ≠ .pipe from hout)]

/-- The write end of the first pipe. -/
def secondFile : Fin NFILE := ⟨1, by decide⟩

/-- The first process makes two files and closes them. Its pipe takes their entries
of the file table, and with them pointers to inodes of its own container. -/
def ownPipe : List (Slot × Call) :=
  [(0, .open [97] (O_CREATE ||| O_RDWR)), (0, .open [98] (O_CREATE ||| O_RDWR)), (0, .close 0 0),
    (0, .close 1 0), (0, .pipe (some 7))]

theorem pipe_calls_ignore_ip_own :
    ∃ s : FsState Slot,
      Transition.exec (callStep diskOps) booted ownPipe = some s ∧
      (s.kernel.ftable secondFile).ip ≠ none ∧ (s.kernel.nullPipes secondFile).ip = none ∧
      (∀ src n pipewrite, SameEffect s.kernel.IsPipe (sysWrite diskOps 0 1 src n 0 pipewrite s)
        (sysWrite diskOps 0 1 src n 0 pipewrite (s.withFiles s.kernel.nullPipes))) ∧
      SameEffect s.kernel.IsPipe (sysClose diskOps 0 1 0 s)
        (sysClose diskOps 0 1 0 (s.withFiles s.kernel.nullPipes)) := by
  obtain ⟨s, hs, hfd, hpipe, hip, hnull, hcid, howner⟩ : ∃ s : FsState Slot,
      Transition.exec (callStep diskOps) booted ownPipe = some s ∧
      (s.kernel.proc 0).ofile 1 = some secondFile ∧ (s.kernel.ftable secondFile).type = .pipe ∧
      (s.kernel.ftable secondFile).ip ≠ none ∧ (s.kernel.nullPipes secondFile).ip = none ∧
      (s.kernel.proc 0).containerID = 0 ∧
      ∀ c' ∈ [s, s.withFiles s.kernel.nullPipes], c'.kernel.ownerOf secondFile 0 = 0 := by
    decide +kernel
  have hiff := pipe_calls_ignore_ip_iff 0 s.kernel.nullPipes_same hfd hpipe
  refine ⟨s, hs, hip, hnull, (hiff.1.mpr fun c' hc' => ?_).1, (hiff.2.mpr fun c' hc' => ?_).1⟩
  · exact Or.inr (Or.inl (howner c' hc'))
  · rw [hcid, howner c' hc']

/-- A process of container 1 makes two files and closes them. The pipe of the
first process takes their entries of the file table, and with them pointers to
inodes of container 1. -/
def stalePipe : List (Slot × Call) :=
  [(0, .fork ⟨true, true⟩), (1, .join 1), (1, .open [97] (O_CREATE ||| O_RDWR)),
    (1, .open [98] (O_CREATE ||| O_RDWR)), (1, .close 0 0), (1, .close 1 0), (0, .pipe (some 7))]

theorem stale_ip_refuses_pipe :
    ∃ s : FsState Slot, Transition.exec (callStep diskOps) booted stalePipe = some s ∧
      (s.kernel.proc 0).ofile 1 = some secondFile ∧ s.kernel.IsPipe secondFile ∧
      SameFiles s.kernel.IsPipe s.kernel.ftable s.kernel.nullPipes ∧
      (sysWrite diskOps 0 1 (fun _ => 88) 1 0 1 s).1 = .ok (-1) ∧
      (sysWrite diskOps 0 1 (fun _ => 88) 1 0 1 (s.withFiles s.kernel.nullPipes)).1 = .ok 1 ∧
      (sysClose diskOps 0 1 0 s).1 = .ok (-1) ∧
      (sysClose diskOps 0 1 0 (s.withFiles s.kernel.nullPipes)).1 = .ok 0 := by
  obtain ⟨s, hs, hfd, hpipe, hcalls⟩ : ∃ s : FsState Slot,
      Transition.exec (callStep diskOps) booted stalePipe = some s ∧
      (s.kernel.proc 0).ofile 1 = some secondFile ∧ (s.kernel.ftable secondFile).type = .pipe ∧
      (sysWrite diskOps 0 1 (fun _ => 88) 1 0 1 s).1 = .ok (-1) ∧
      (sysWrite diskOps 0 1 (fun _ => 88) 1 0 1 (s.withFiles s.kernel.nullPipes)).1 = .ok 1 ∧
      (sysClose diskOps 0 1 0 s).1 = .ok (-1) ∧
      (sysClose diskOps 0 1 0 (s.withFiles s.kernel.nullPipes)).1 = .ok 0 := by
    decide +kernel
  exact ⟨s, hs, hfd, hpipe, s.kernel.nullPipes_same, hcalls⟩

end Xv6.Fs
