import Xv6.Lib.Refinement
import Xv6.Fs.Calls

/-!
The functions above the disk operations keep refinement: run on operations that
refine others, each of them refines itself run on the others. Every proof
follows the text of the function.
-/

namespace Xv6.Fs

open Prog

/-- Each operation refines the corresponding one. -/
structure OpsRefine {σ τ P : Type} (R : σ → τ → Prop) (bad : Panic) (excused : Panic → Prop)
    (o : Ops σ P) (o' : Ops τ P) : Prop where
  kernel : ∀ {α : Type} (x : KernelM P α), Refines R bad excused (o.kernel x) (o'.kernel x)
  alloc : ∀ dev type, Refines R bad excused (o.alloc dev type) (o'.alloc dev type)
  load : ∀ ip, Refines R bad excused (o.load ip) (o'.load ip)
  fields : ∀ ip, Refines R bad excused (o.fields ip) (o'.fields ip)
  update : ∀ ip f, Refines R bad excused (o.update ip f) (o'.update ip f)
  free : ∀ ip, Refines R bad excused (o.free ip) (o'.free ip)
  read : ∀ ip off n, Refines R bad excused (o.read ip off n) (o'.read ip off n)
  write : ∀ ip src off n, Refines R bad excused (o.write ip src off n) (o'.write ip src off n)

section Lift

variable {σ τ P : Type} [DecidableEq P] {R : σ → τ → Prop} {bad : Panic}
  {excused : Panic → Prop} {o : Ops σ P} {o' : Ops τ P} (h : OpsRefine R bad excused o o') (p : P)

include h

omit [DecidableEq P] in
theorem ialloc_lift (dev : Nat) (type : Int) :
    Refines R bad excused (ialloc o dev type) (ialloc o' dev type) :=
  .bind (h.alloc dev type) fun _ => h.kernel _

omit [DecidableEq P] in
theorem ilock_lift (ip : Ip) : Refines R bad excused (ilock o p ip) (ilock o' p ip) :=
  .bind (h.kernel _) fun _ => .bind (.panicIf _ _) fun _ => .bind (h.kernel _) fun _ =>
    .when (h.load ip)

theorem iunlock_lift (ip : Ip) : Refines R bad excused (iunlock o p ip) (iunlock o' p ip) :=
  .bind (h.kernel _) fun _ => .bind (.panicIf _ _) fun _ => h.kernel _

omit [DecidableEq P] in
theorem iput_lift (ip : Ip) : Refines R bad excused (iput o p ip) (iput o' p ip) :=
  .bind (h.kernel _) fun _ => .bind (h.kernel _) fun _ =>
    .bind (.when (.bind (h.fields ip) fun _ => .when (h.free ip))) fun _ =>
      .bind (h.kernel _) fun _ => .bind (h.kernel _) fun _ => h.kernel _

theorem iunlockput_lift (ip : Ip) :
    Refines R bad excused (iunlockput o p ip) (iunlockput o' p ip) :=
  .bind (iunlock_lift h p ip) fun _ => iput_lift h p ip

theorem readi_lift (ip : Ip) (off n : Nat) :
    Refines R bad excused (readi o p ip off n) (readi o' p ip off n) :=
  .bind (h.fields ip) fun _ =>
    .ite
      (.ite (.pure _)
        (.bind (iunlock_lift h p ip) fun _ => .bind (h.kernel _) fun _ =>
          .bind (ilock_lift h p ip) fun _ => .pure _))
      (.ite (.pure _) (.bind (h.read ip off _) fun _ => .pure _))

theorem writei_lift (ip : Ip) (src : Nat → UInt8) (off n : Nat) :
    Refines R bad excused (writei o p ip src off n) (writei o' p ip src off n) :=
  .bind (h.fields ip) fun _ =>
    .ite
      (.ite (.pure _)
        (.bind (iunlock_lift h p ip) fun _ => .bind (ilock_lift h p ip) fun _ => .pure _))
      (.ite (.pure _) (.ite (.pure _) (.bind (h.write ip src off n) fun _ => .pure _)))

theorem dirlookup_lift (dp : Ip) (name : Name) :
    Refines R bad excused (dirlookup o p dp name) (dirlookup o' p dp name) :=
  .bind (h.fields dp) fun _ => .bind (.panicIf _ _) fun _ =>
    .first (fun _ => .bind (readi_lift h p dp _ _) fun _ => .bind (.panicIf _ _) fun _ =>
      .ite (.pure _)
        (.ite (.bind (h.kernel _) fun _ => .bind (h.kernel _) fun _ => .pure _) (.pure _))) _ _

theorem dirlink_lift (dp : Ip) (name : Name) (inum : Nat) :
    Refines R bad excused (dirlink o p dp name inum) (dirlink o' p dp name inum) := by
  refine .bind (dirlookup_lift h p dp name) ?_
  rintro (_ | ⟨ip, off⟩)
  · refine .bind (h.fields dp) fun m => .bind (.first (fun _ => ?_) _ _) fun _ => ?_
    · exact .bind (readi_lift h p dp _ _) fun _ => .bind (.panicIf _ _) fun _ =>
        .ite (.pure _) (.pure _)
    · exact .bind (writei_lift h p dp _ _ _) fun _ => .bind (.panicIf _ _) fun _ => .pure _
  · exact .bind (iput_lift h p ip) fun _ => .pure _

theorem namexLoop_lift (parent : Bool) (steps : Nat) (ip : Ip) (path : List UInt8) :
    Refines R bad excused (namexLoop o p parent steps ip path)
      (namexLoop o' p parent steps ip path) := by
  induction steps generalizing ip path with
  | zero => exact .fail _
  | succ steps ih =>
    unfold namexLoop
    split
    · exact .ite (.bind (iput_lift h p ip) fun _ => .pure _) (.pure _)
    · refine .bind (ilock_lift h p ip) fun _ => .bind (h.fields ip) fun m => ?_
      refine .ite (.bind (iunlockput_lift h p ip) fun _ => .pure _) ?_
      refine .ite (.bind (iunlock_lift h p ip) fun _ => .pure _) ?_
      refine .bind (dirlookup_lift h p ip _) ?_
      rintro (_ | ⟨next, off⟩)
      · exact .bind (iunlockput_lift h p ip) fun _ => .pure _
      · exact .bind (iunlockput_lift h p ip) fun _ => ih next _

theorem namex_lift (path : List UInt8) (parent : Bool) :
    Refines R bad excused (namex o p path parent) (namex o' p path parent) :=
  .ite (.bind (h.kernel _) fun _ => namexLoop_lift h p parent _ _ path)
    (.bind (h.kernel _) fun cwd => by
      cases cwd with
      | none => exact .fail _
      | some ip => exact .bind (h.kernel _) fun _ => namexLoop_lift h p parent _ _ path)

theorem namei_lift (path : List UInt8) :
    Refines R bad excused (namei o p path) (namei o' p path) :=
  .bind (namex_lift h p path false) fun _ => .pure _

theorem nameiparent_lift (path : List UInt8) :
    Refines R bad excused (nameiparent o p path) (nameiparent o' p path) :=
  namex_lift h p path true

/-! ### System calls -/

omit [DecidableEq P] in
theorem fileclose_lift (f : Fin NFILE) :
    Refines R bad excused (fileclose o p f) (fileclose o' p f) := by
  refine .bind (h.kernel _) fun t => .bind (.panicIf _ _) fun _ => .ite (h.kernel _) ?_
  refine .bind (h.kernel _) fun _ => ?_
  split
  · exact .pure _
  · exact .bind (h.kernel _) fun _ => h.kernel _
  · exact .bind (h.kernel _) fun _ => .bind (h.kernel _) fun _ =>
      .bind (iput_lift h p _) fun _ => h.kernel _
  · exact .fail _

omit [DecidableEq P] in
theorem putCwd_lift : Refines R bad excused (putCwd o p) (putCwd o' p) := by
  refine .bind (h.kernel _) ?_
  rintro (_ | ip)
  · exact .fail _
  · exact iput_lift h p ip

omit [DecidableEq P] in
theorem closePair_lift {α : Type} (rf wf : Fin NFILE) :
    Refines R bad excused (closePair o p rf wf : Prog σ Panic (Option α)) (closePair o' p rf wf) :=
  .bind (fileclose_lift h p rf) fun _ => .bind (fileclose_lift h p wf) fun _ => .pure _

omit [DecidableEq P] in
theorem pipealloc_lift (want : Option Page) :
    Refines R bad excused (pipealloc o p want) (pipealloc o' p want) := by
  refine .bind (h.kernel _) ?_
  rintro (_ | f0)
  · exact .pure _
  · refine .bind (h.kernel _) ?_
    rintro (_ | f1)
    · exact .bind (fileclose_lift h p f0) fun _ => .pure _
    · refine .bind (h.kernel _) ?_
      rintro (_ | page)
      · exact closePair_lift h p f0 f1
      · exact .bind (h.kernel _) fun _ => .bind (h.kernel _) fun _ => .bind (h.kernel _) fun _ =>
          .bind (h.kernel _) fun _ => .pure _

theorem filewriteLoop_lift (f : Fin NFILE) (ip : Ip) (src : Nat → UInt8) (n rounds i : Nat) :
    Refines R bad excused (filewriteLoop o p f ip src n rounds i)
      (filewriteLoop o' p f ip src n rounds i) := by
  induction rounds generalizing i with
  | zero => exact .pure _
  | succ rounds ih =>
    refine .ite ?_ (.pure _)
    refine .bind (h.kernel _) fun _ => .bind (ilock_lift h p ip) fun _ => ?_
    refine .bind (h.kernel _) fun t => .bind (writei_lift h p ip _ _ _) fun r => ?_
    refine .bind (.when (h.kernel _)) fun _ => .bind (iunlock_lift h p ip) fun _ => ?_
    exact .bind (h.kernel _) fun _ => .ite (.pure _) (.bind (.panicIf _ _) fun _ => ih _)

theorem filewrite_lift (f : Fin NFILE) (src : Nat → UInt8) (n : Nat) (pipewrite : Int) :
    Refines R bad excused (filewrite o p f src n pipewrite)
      (filewrite o' p f src n pipewrite) := by
  refine .bind (h.kernel _) fun t => .ite (.pure _) ?_
  split
  · exact .pure _
  · exact .bind (filewriteLoop_lift h p f _ src n n 0) fun _ => .pure _
  · exact .fail _
  · exact .fail _

theorem sysWrite_lift (fd : Fin NOFILE) (src : Nat → UInt8) (n : Nat) (mem pipewrite : Int) :
    Refines R bad excused (sysWrite o p fd src n mem pipewrite)
      (sysWrite o' p fd src n mem pipewrite) := by
  refine .bind (h.kernel _) fun x => ?_
  split
  · exact .pure _
  · exact .bind (h.kernel _) fun _ => .ite (filewrite_lift h p _ src n pipewrite)
      (.ite (.pure _) (filewrite_lift h p _ src n pipewrite))

theorem sysClose_lift (fd : Fin NOFILE) (mem : Int) :
    Refines R bad excused (sysClose o p fd mem) (sysClose o' p fd mem) := by
  refine .bind (h.kernel _) fun x => ?_
  split
  · exact .pure _
  · refine .bind (h.kernel _) fun owner => .ite (.pure _) ?_
    exact .bind (h.kernel _) fun _ => .bind (fileclose_lift h p _) fun _ => .pure _

theorem sysPipe_lift (want : Option Page) :
    Refines R bad excused (sysPipe o p want) (sysPipe o' p want) := by
  refine .bind (pipealloc_lift h p want) ?_
  rintro (_ | ⟨rf, wf⟩)
  · exact .pure _
  · refine .bind (h.kernel _) ?_
    rintro (_ | fd0)
    · exact closePair_lift h p rf wf
    · refine .bind (h.kernel _) ?_
      rintro (_ | fd1)
      · exact .bind (h.kernel _) fun _ => closePair_lift h p rf wf
      · exact .pure _

omit [DecidableEq P] p in
theorem endWith_lift (r : Int) : Refines R bad excused (endWith o r) (endWith o' r) :=
  .bind (h.kernel _) fun _ => .pure _

theorem putEnd_lift (ip : Ip) (r : Int) :
    Refines R bad excused (putEnd o p ip r) (putEnd o' p ip r) :=
  .bind (iunlockput_lift h p ip) fun _ => endWith_lift h r

theorem sysLink_lift (old new : List UInt8) :
    Refines R bad excused (sysLink o p old new) (sysLink o' p old new) := by
  refine .bind (h.kernel _) fun _ => .bind (namei_lift h p old) ?_
  rintro (_ | ip)
  · exact endWith_lift h _
  · refine .bind (ilock_lift h p ip) fun _ => .bind (h.fields ip) fun m => .ite ?_ ?_
    · exact putEnd_lift h p ip _
    · refine .bind (h.update ip _) fun _ => .bind (iunlock_lift h p ip) fun _ => ?_
      refine .bind (h.kernel _) fun e => .bind (.bind (nameiparent_lift h p new) ?_)
        fun linked => ?_
      · rintro (_ | ⟨dp, name⟩)
        · exact .pure _
        · refine .bind (ilock_lift h p dp) fun _ => .bind (h.kernel _) fun de => .ite ?_ ?_
          · exact .bind (iunlockput_lift h p dp) fun _ => .pure _
          · exact .bind (dirlink_lift h p dp name _) fun _ =>
              .bind (iunlockput_lift h p dp) fun _ => .pure _
      · refine .ite ?_ ?_
        · exact .bind (iput_lift h p ip) fun _ => endWith_lift h _
        · exact .bind (ilock_lift h p ip) fun _ => .bind (h.update ip _) fun _ =>
            putEnd_lift h p ip _

theorem isdirempty_lift (dp : Ip) :
    Refines R bad excused (isdirempty o p dp) (isdirempty o' p dp) :=
  .bind (h.fields dp) fun _ =>
    .bind (.first (fun _ => .bind (readi_lift h p dp _ _) fun _ =>
      .bind (.panicIf _ _) fun _ => .ite (.pure _) (.pure _)) _ _) fun _ => .pure _

section

variable (path : List UInt8)

theorem sysUnlink_lift : Refines R bad excused (sysUnlink o p path) (sysUnlink o' p path) := by
  refine .bind (h.kernel _) fun _ => .bind (nameiparent_lift h p path) ?_
  rintro (_ | ⟨dp, name⟩)
  · exact endWith_lift h _
  · refine .bind (ilock_lift h p dp) fun _ => .bind (.ite (.pure _) ?_) fun removed => ?_
    · refine .bind (dirlookup_lift h p dp name) ?_
      rintro (_ | ⟨ip, off⟩)
      · exact .pure _
      · refine .bind (ilock_lift h p ip) fun _ => .bind (h.fields ip) fun m => ?_
        refine .bind (.panicIf _ _) fun _ =>
          .bind (.ite (isdirempty_lift h p ip) (.pure _)) fun empty => .ite ?_ ?_
        · refine .bind (writei_lift h p dp _ _ _) fun _ => .bind (.panicIf _ _) fun _ => ?_
          exact .bind (.when (h.update dp _)) fun _ => .bind (iunlockput_lift h p dp) fun _ =>
            .bind (h.update ip _) fun _ => .bind (iunlockput_lift h p ip) fun _ => .pure _
        · exact .bind (iunlockput_lift h p ip) fun _ => .pure _
    · exact .ite (endWith_lift h _) (putEnd_lift h p dp _)

theorem create_lift (type major minor : Int) :
    Refines R bad excused (create o p path type major minor)
      (create o' p path type major minor) := by
  refine .bind (nameiparent_lift h p path) ?_
  rintro (_ | ⟨dp, name⟩)
  · exact .pure _
  · refine .bind (ilock_lift h p dp) fun _ => .bind (dirlookup_lift h p dp name) ?_
    rintro (_ | ⟨ip, off⟩)
    · refine .bind (h.kernel _) fun d => .bind (ialloc_lift h _ type) fun ip => ?_
      refine .bind (ilock_lift h p ip) fun _ => .bind (h.kernel _) fun e => ?_
      refine .bind (h.kernel _) fun x => .bind (h.kernel _) fun _ => .bind (h.kernel _) fun _ => ?_
      refine .bind (h.update ip _) fun _ => .bind (.when ?_) fun _ => ?_
      · exact .bind (h.update dp _) fun _ => .bind (dirlink_lift h p ip dot _) fun _ =>
          .bind (.panicIf _ _) fun _ => .bind (dirlink_lift h p ip dotdot _) fun _ =>
            .panicIf _ _
      · exact .bind (dirlink_lift h p dp name _) fun _ => .bind (.panicIf _ _) fun _ =>
          .bind (iunlockput_lift h p dp) fun _ => .pure _
    · refine .bind (iunlockput_lift h p dp) fun _ => .bind (ilock_lift h p ip) fun _ => ?_
      exact .bind (h.fields ip) fun _ => .ite (.pure _)
        (.bind (iunlockput_lift h p ip) fun _ => .pure _)

theorem openPath_lift (omode : UInt32) :
    Refines R bad excused (openPath o p path omode) (openPath o' p path omode) := by
  refine .ite (create_lift h p _ _ _ _) (.bind (namei_lift h p _) ?_)
  rintro (_ | ip)
  · exact .pure _
  · exact .bind (ilock_lift h p ip) fun _ => .bind (h.fields ip) fun _ =>
      .ite (.bind (iunlockput_lift h p ip) fun _ => .pure _) (.pure _)

theorem sysOpen_lift (omode : UInt32) :
    Refines R bad excused (sysOpen o p path omode) (sysOpen o' p path omode) := by
  refine .bind (h.kernel _) fun x => .bind (h.kernel _) fun _ => .bind (openPath_lift h p _ _) ?_
  rintro (_ | ip)
  · exact endWith_lift h _
  · refine .bind (h.kernel _) ?_
    rintro (_ | f)
    · exact putEnd_lift h p ip _
    · refine .bind (h.kernel _) ?_
      rintro (_ | fd)
      · exact .bind (fileclose_lift h p f) fun _ => putEnd_lift h p ip _
      · exact .bind (iunlock_lift h p ip) fun _ => .bind (h.kernel _) fun _ =>
          .bind (h.kernel _) fun _ => .pure _

theorem putCreated_lift (type major minor : Int) :
    Refines R bad excused (putCreated o p path type major minor)
      (putCreated o' p path type major minor) := by
  refine .bind (h.kernel _) fun _ => .bind (create_lift h p _ _ _ _) ?_
  rintro (_ | ip)
  · exact endWith_lift h _
  · exact putEnd_lift h p ip _

theorem sysChdir_lift : Refines R bad excused (sysChdir o p path) (sysChdir o' p path) := by
  refine .bind (h.kernel _) fun _ => .bind (namei_lift h p path) ?_
  rintro (_ | ip)
  · exact endWith_lift h _
  · refine .bind (ilock_lift h p ip) fun _ => .bind (h.fields ip) fun m => .ite ?_ ?_
    · exact putEnd_lift h p ip _
    · exact .bind (iunlock_lift h p ip) fun _ => .bind (putCwd_lift h p) fun _ =>
        .bind (h.kernel _) fun _ => .bind (h.kernel _) fun _ => .pure _

end

theorem loaduvm_lift (ip : Ip) (offset sz : Nat) :
    Refines R bad excused (loaduvm o p ip offset sz) (loaduvm o' p ip offset sz) :=
  .bind (.first (fun _ => .bind (readi_lift h p ip _ _) fun _ => .ite (.pure _) (.pure _)) _ _)
    fun _ => .pure _

theorem loadSegment_lift (vm : Vm) (ip : Ip) (phoff i : Nat) :
    Refines R bad excused (loadSegment o p vm ip phoff i) (loadSegment o' p vm ip phoff i) :=
  .bind (readi_lift h p ip _ _) fun _ => .ite (.pure _) (.ite (.pure _) (.ite (.pure _)
    (.bind (loaduvm_lift h p ip _ _) fun _ => .pure _)))

theorem exec_lift (vm : Vm) (path : List UInt8) :
    Refines R bad excused (exec o p vm path) (exec o' p vm path) := by
  refine .bind (h.kernel _) fun _ => .bind (namei_lift h p path) ?_
  rintro (_ | ip)
  · exact endWith_lift h _
  · refine .bind (ilock_lift h p ip) fun _ => .bind ?_ fun failed => ?_
    · exact .bind (readi_lift h p ip _ _) fun _ => .ite (.pure _)
        (.bind (.first (loadSegment_lift h p vm ip _) _ _) fun _ => .pure _)
    · exact putEnd_lift h p ip _

end Lift

/-! ### Runs -/

section Runs

variable {σ τ : Type} {R : σ → τ → Prop} {bad : Panic} {excused : Panic → Prop}
  {o : Ops σ Slot} {o' : Ops τ Slot} (h : OpsRefine R bad excused o o') (p : Slot)

include h

theorem exit_lift : Refines R bad excused (exit o p) (exit o' p) := by
  refine .bind (h.kernel _) fun _ => .bind (.panicIf _ _) fun _ => .bind (.forEach ?_ _) fun _ => ?_
  · intro fd
    refine .bind (h.kernel _) fun x => ?_
    split
    · exact .pure _
    · exact .bind (fileclose_lift h p _) fun _ => h.kernel _
  · exact .bind (h.kernel _) fun _ => .bind (putCwd_lift h p) fun _ => .bind (h.kernel _) fun _ =>
      .bind (h.kernel _) fun _ => .bind (h.kernel _) fun _ => .bind (h.kernel _) fun _ =>
        .bind (h.kernel _) fun _ => .pure _

theorem callBody_lift (c : Call) :
    Refines R bad excused (callBody o p c) (callBody o' p c) := by
  cases c with
  | «open» path omode => exact sysOpen_lift h p path omode
  | pipe want => exact .bind (sysPipe_lift h p want) fun _ => .pure _
  | close fd mem => exact sysClose_lift h p fd mem
  | write fd src n mem pipewrite => exact sysWrite_lift h p fd src n mem pipewrite
  | link old new => exact sysLink_lift h p old new
  | unlink path => exact sysUnlink_lift h p path
  | mkdir path => exact putCreated_lift h p path _ _ _
  | mknod path major minor => exact putCreated_lift h p path _ major minor
  | chdir path => exact sysChdir_lift h p path
  | exec vm path => exact exec_lift h p vm path
  | exit => exact exit_lift h p
  | dup | fork | wait | join | leave => exact h.kernel _

theorem call_lift (c : Call) : Refines R bad excused (call o p c) (call o' p c) :=
  .bind (h.kernel _) fun _ => .bind (.panicIf _ _) fun _ => callBody_lift h p c

omit p in
theorem calls_lift (cs : List (Slot × Call)) :
    Refines R bad excused (calls o cs) (calls o' cs) := by
  induction cs with
  | nil => exact .pure _
  | cons pc cs ih =>
    obtain ⟨p, c⟩ := pc
    exact .bind (call_lift h p c) fun _ => .bind ih fun _ => .pure _

end Runs

end Xv6.Fs
