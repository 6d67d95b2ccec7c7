import Xv6.Fs.Counts
import Xv6.Fs.Objects

/-!
Reference counts of the file table, and what `file.c` does to them. Between
calls a file has as many references as descriptors hold it, and an inode as
many as open files and working directories refer to it. Within a call `R` are
the references to files, and `X` the references to inodes that are not held by
open files.
-/

namespace Xv6.Fs

open Prog Tally

section Totals

variable {P : Type}

@[simp] theorem File.setRef_ref (x : File) (r : Int) : (x.setRef r).ref = r := rfl

@[simp] theorem File.setRef_type (x : File) (r : Int) : (x.setRef r).type = x.type := rfl

theorem File.shut_object (x : File) : x.shut.object = none := rfl

theorem File.asPipe_object (x : File) (page : Page) (w : Bool) :
    (x.asPipe page w).object = some (.pipe page w) := rfl

theorem File.object_of_none {x : File} (h : x.type = .none) : x.object = none := by
  simp [File.object, h]

/-- The reference to an inode that an open file holds. -/
def File.inodeRef (x : File) : Option Ip :=
  match x.object with
  | some (.inode ip) => some ip
  | _ => none

/-- The reference that a process holds by its working directory. -/
def Proc.cwdRef (x : Proc P) : Option Ip := if x.state = .live then x.cwd else none

def fileRefs (ft : Fin NFILE → File) : Ip → Nat := ∑ f, mark (ft f).inodeRef

variable [Fintype P]

def cwdRefs (pr : P → Proc P) : Ip → Nat := ∑ q, mark (pr q).cwdRef

/-- How many descriptors of all processes hold a file. -/
def slots (pr : P → Proc P) : Fin NFILE → Nat := ∑ q, ∑ fd, mark ((pr q).ofile fd)

theorem fileRefs_set (ft : Fin NFILE → File) (f : Fin NFILE) (x : File) :
    fileRefs (set ft f x) + mark (ft f).inodeRef = fileRefs ft + mark x.inodeRef := by
  unfold fileRefs
  exact sum_set (fun x : File => mark x.inodeRef) ft f x

theorem object_set (ft : Fin NFILE → File) (f : Fin NFILE) (x : File) :
    (fun g => (set ft f x g).object) = set (fun g => (ft g).object) f x.object := by
  funext g
  by_cases hg : g = f
  · subst hg
    simp
  · simp [set_of_ne _ _ hg]

variable [DecidableEq P]

theorem cwdRefs_set (pr : P → Proc P) (p : P) (x : Proc P) :
    cwdRefs (set pr p x) + mark (pr p).cwdRef = cwdRefs pr + mark x.cwdRef :=
  sum_set (fun x : Proc P => mark x.cwdRef) pr p x

omit [Fintype P] [DecidableEq P] in
theorem Proc.setOfile_setOfile (x : Proc P) (fd : Fin NOFILE) (v w : Option (Fin NFILE)) :
    (x.setOfile fd v).setOfile fd w = x.setOfile fd w := by
  simp [Proc.setOfile]

omit [Fintype P] [DecidableEq P] in
theorem Proc.setOfile_eta (x : Proc P) (fd : Fin NOFILE) : x.setOfile fd (x.ofile fd) = x := by
  simp [Proc.setOfile]

/-- The process table with another descriptor. -/
def putFd (pr : P → Proc P) (p : P) (fd : Fin NOFILE) (v : Option (Fin NFILE)) : P → Proc P :=
  set pr p ((pr p).setOfile fd v)

theorem slots_putFd (pr : P → Proc P) (p : P) (fd : Fin NOFILE) (v : Option (Fin NFILE)) :
    slots (putFd pr p fd v) + mark ((pr p).ofile fd) = slots pr + mark v := by
  have hproc := sum_set (fun x : Proc P => ∑ fd, mark (x.ofile fd)) pr p
    ((pr p).setOfile fd v)
  rw [show ((pr p).setOfile fd v).ofile = set (pr p).ofile fd v from rfl] at hproc
  have hrow := sum_set mark (pr p).ofile fd v
  unfold slots putFd
  -- in both sums the rest of the table is the same
  refine add_right_cancel (b := ∑ fd, mark ((pr p).ofile fd)) ?_
  calc _ = (∑ q, ∑ fd, mark ((pr q).ofile fd)) + ∑ i, mark (set (pr p).ofile fd v i) +
        mark ((pr p).ofile fd) := by rw [← hproc]; exact add_right_comm _ _ _
    _ = _ := by rw [add_assoc, hrow, ← add_assoc]; exact add_right_comm _ _ _

theorem cwdRefs_same {pr : P → Proc P} {p : P} {x : Proc P} (h : x.cwdRef = (pr p).cwdRef) :
    cwdRefs (set pr p x) = cwdRefs pr :=
  sum_set_same (g := fun x : Proc P => mark x.cwdRef) (by rw [h])

theorem cwdRefs_putFd (pr : P → Proc P) (p : P) (fd : Fin NOFILE) (v : Option (Fin NFILE)) :
    cwdRefs (putFd pr p fd v) = cwdRefs pr := cwdRefs_same rfl

theorem slots_same {pr : P → Proc P} {p : P} {x : Proc P} (h : x.ofile = (pr p).ofile) :
    slots (set pr p x) = slots pr :=
  sum_set_same (g := fun x : Proc P => ∑ fd, mark (x.ofile fd)) (by rw [h])

theorem fileRefs_apply (ft : Fin NFILE → File) (ip : Ip) :
    fileRefs ft ip = (Finset.univ.filter fun f => (ft f).inodeRef = some ip).card := by
  unfold fileRefs
  exact sum_mark_apply (fun f => (ft f).inodeRef) ip

omit [DecidableEq P] in
theorem cwdRefs_apply (pr : P → Proc P) (ip : Ip) :
    cwdRefs pr ip = (Finset.univ.filter fun q => (pr q).cwdRef = some ip).card := by
  unfold cwdRefs
  exact sum_mark_apply (fun q => (pr q).cwdRef) ip

omit [DecidableEq P] in
theorem slots_apply (pr : P → Proc P) (f : Fin NFILE) :
    slots pr f = (Finset.univ.filter fun s : P × Fin NOFILE =>
      (pr s.1).ofile s.2 = some f).card := by
  unfold slots
  rw [← sum_mark_apply (fun s : P × Fin NOFILE => (pr s.1).ofile s.2), Fintype.sum_prod_type]

-- totals are not to be unrolled when goals are compared
attribute [irreducible] fileRefs cwdRefs slots

end Totals

/-- The counts of the file table are `R`. A file is open when it has a reference,
but for those in `F`, which a call has taken and not opened yet. -/
structure FilesOk (ft : Fin NFILE → File) (R : Fin NFILE → Nat) (F : Finset (Fin NFILE)) :
    Prop where
  ref : ∀ f, (ft f).ref = R f
  closed : ∀ f, R f = 0 ∨ f ∈ F → (ft f).type = .none
  opened : ∀ f, 0 < R f → f ∉ F → (ft f).object.isSome = true

theorem FilesOk.store {ft : Fin NFILE → File} {R S : Fin NFILE → Nat} {F G : Finset (Fin NFILE)}
    (h : FilesOk ft R F) {f : Fin NFILE} {x : File} (href : x.ref = S f)
    (hclosed : S f = 0 ∨ f ∈ G → x.type = .none)
    (hopened : 0 < S f → f ∉ G → x.object.isSome = true)
    (hother : ∀ g, g ≠ f → S g = R g ∧ (g ∈ G ↔ g ∈ F)) : FilesOk (set ft f x) S G := by
  refine ⟨?_, ?_, ?_⟩
  · intro g
    by_cases hg : g = f
    · subst hg
      rw [set_self, href]
    · rw [set_of_ne _ _ hg, (hother g hg).1]
      exact h.ref g
  · intro g
    by_cases hg : g = f
    · subst hg
      rw [set_self]
      exact hclosed
    · rw [set_of_ne _ _ hg, (hother g hg).1, (hother g hg).2]
      exact h.closed g
  · intro g
    by_cases hg : g = f
    · subst hg
      rw [set_self]
      exact hopened
    · rw [set_of_ne _ _ hg, (hother g hg).1, (hother g hg).2]
      exact h.opened g

/-- A file that nobody refers to any more is no longer being opened. -/
theorem FilesOk.forget {ft : Fin NFILE → File} {R : Fin NFILE → Nat} {F : Finset (Fin NFILE)}
    {f : Fin NFILE} (h : FilesOk ft R (insert f F)) (hR : R f = 0) : FilesOk ft R F where
  ref := h.ref
  closed := fun g hg => h.closed g (hg.imp_right (Finset.mem_insert_of_mem))
  opened := by
    intro g hg hgF
    refine h.opened g hg ?_
    rw [Finset.mem_insert]
    rintro (rfl | hmem)
    · omega
    · exact hgF hmem

structure Sys {P : Type} (pr : P → Proc P) (R : Fin NFILE → Nat) (F : Finset (Fin NFILE))
    (X : Ip → Nat) (k : Kernel P) : Prop where
  proc : k.proc = pr
  files : FilesOk k.ftable R F
  objects : Objects (fun f => (k.ftable f).object) k.pipes k.history
  acc : Acc .none k.outer (fileRefs k.ftable + X) k

section Sys

variable {P : Type} {pr : P → Proc P} {R S : Fin NFILE → Nat} {F G : Finset (Fin NFILE)}
  {X Y : Ip → Nat} {k : Kernel P} {f : Fin NFILE}

variable {x : File} {σ : Type} {view : σ → Kernel P} {o : Ops σ P}

/-- A file is stored. The reference to an inode that it holds more or less is
one that is held elsewhere less or more. -/
theorem Sys.store (h : Sys pr R F X k) {pipes : Page → Option PipeEnds} {history : List Event}
    (hfiles : FilesOk (set k.ftable f x) S G)
    (hobj : Objects (set (fun g => (k.ftable g).object) f x.object) pipes history)
    (hX : mark x.inodeRef + Y = mark (k.ftable f).inodeRef + X) :
    Sys pr S G Y { k with ftable := set k.ftable f x, pipes := pipes, history := history } where
  proc := h.proc
  files := hfiles
  objects := by
    dsimp only
    rw [object_set]
    exact hobj
  acc := by
    have hsum : fileRefs (set k.ftable f x) + Y = fileRefs k.ftable + X := by
      funext ip
      have hset := congrFun (fileRefs_set k.ftable f x) ip
      have hX := congrFun hX ip
      simp only [Pi.add_apply] at *
      omega
    dsimp only
    rw [hsum]
    exact h.acc.retable rfl rfl

/-- Only the count of a file changes, or fields that do not matter. -/
theorem Sys.store_same (h : Sys pr R F X k) (hobj : x.object = (k.ftable f).object)
    (hfiles : FilesOk (set k.ftable f x) S G) :
    Sys pr S G X { k with ftable := set k.ftable f x } := by
  refine h.store hfiles ?_ ?_
  · rw [hobj, set_eta (fun g => (k.ftable g).object)]
    exact h.objects
  · unfold File.inodeRef
    rw [hobj]

theorem Sys.forget (h : Sys pr R (insert f F) X k) (hR : R f = 0) : Sys pr R F X k :=
  { h with files := h.files.forget hR }

/-- Changes that the totals do not see. -/
theorem Sys.congr_acc (h : Sys pr R F X k) {k' : Kernel P}
    (hacc : Acc .none k.outer (fileRefs k.ftable + Y) k') : Sys pr R F Y k' := by
  have houter := hacc.outer
  have hproc : k'.proc = k.proc := congrArg Outer.proc houter
  have hft : k'.ftable = k.ftable := congrArg Outer.ftable houter
  have hpipes : k'.pipes = k.pipes := congrArg Outer.pipes houter
  have hhist : k'.history = k.history := congrArg Outer.history houter
  exact
    { proc := hproc.trans h.proc
      files := hft ▸ h.files
      objects := by
        rw [hft, hpipes, hhist]
        exact h.objects
      acc := by
        rw [hft, houter]
        exact hacc }

/-- Functions that leave the tables above the inode cache alone. -/
theorem spec_sys_keep {α : Type} {x : Prog σ Panic α} {Y : α → Ip → Nat}
    (J : (Fin NFILE → File) → Prop)
    (hx : ∀ t N, t.proc = pr → Spec view (Acc .none t (N + X)) x (fun r => Acc .none t (N + Y r))) :
    Spec view (fun k => Sys pr R F X k ∧ J k.ftable) x
      (fun r k => Sys pr R F (Y r) k ∧ J k.ftable) := by
  rintro s ⟨hs, hJ⟩
  have hrun := hx (view s).outer (fileRefs (view s).ftable) hs.proc s hs.acc
  refine wp_mono hrun (fun r s' hacc => ⟨hs.congr_acc hacc, ?_⟩) (fun _ _ he => he)
  rw [show (view s').ftable = (view s).ftable from congrArg Outer.ftable hacc.outer]
  exact hJ

theorem spec_sys {α : Type} {x : Prog σ Panic α} {Y : α → Ip → Nat}
    (hx : ∀ t N, t.proc = pr → Spec view (Acc .none t (N + X)) x (fun r => Acc .none t (N + Y r))) :
    Spec view (Sys pr R F X) x (fun r => Sys pr R F (Y r)) :=
  (spec_sys_keep (fun _ => True) hx).mono (fun _ hk => ⟨hk, trivial⟩) fun _ _ hk => hk.1

theorem object_of_type {ip : Ip} (htype : x.type = .inode) (hip : x.ip = some ip) :
    x.object = some (.inode ip) := by
  simp [File.object, htype, hip]

/-- Another file, or none, is the one that changes. -/
theorem others_same {f g : Fin NFILE} (hg : g ≠ f) :
    (R + one f) g = R g ∧ (g ∈ insert f F ↔ g ∈ F) := by
  simp [one_of_ne hg, hg]

theorem spec_filealloc :
    Spec id (Sys pr R F X) filealloc (fun r k => match r with
      | none => Sys pr R F X k
      | some f => R f = 0 ∧ Sys pr (R + one f) (insert f F) X k) := by
  intro k (h : Sys pr R F X k)
  unfold filealloc
  simp only [wp_bind, wp_gets]
  split
  · exact h
  · next f hfound =>
      have href : (k.ftable f).ref = 0 := by simpa using List.find?_some hfound
      have hR : R f = 0 := by
        have := h.files.ref f
        omega
      have htype := h.files.closed f (.inl hR)
      refine ⟨hR, h.store_same rfl (h.files.store ?_ (fun _ => htype) ?_ fun g hg =>
        others_same hg)⟩
      · simp [one_self, hR]
      · exact fun _ hf => absurd (Finset.mem_insert_self f F) hf

theorem spec_filedup (hpos : 0 < R f) :
    Spec id (Sys pr R F X) (filedup f) (fun _ => Sys pr (R + one f) F X) := by
  intro k (h : Sys pr R F X k)
  have href := h.files.ref f
  unfold filedup
  simp only [wp_bind, wp_gets, wp_panicIf]
  refine ⟨fun hlt => by omega, fun _ => ?_⟩
  refine h.store_same rfl (h.files.store ?_ ?_ (fun _ => h.files.opened f hpos) ?_)
  · simp [one_self, href]
  · rintro (h0 | hf)
    · simp [one_self] at h0
    · exact h.files.closed f (.inr hf)
  · exact fun g hg => ⟨(others_same hg (F := F)).1, Iff.rfl⟩

/-- An inode that the call holds a reference to becomes an open file. -/
theorem spec_openFile {ip : Ip} {readable writable : Bool} (hpos : 0 < R f) (hf : f ∉ F)
    (hX : Y = X + one ip) :
    Spec id (Sys pr R (insert f F) Y) (openInode f ip readable writable)
      (fun _ => Sys pr R F X) := by
  intro k (h : Sys pr R (insert f F) Y k)
  subst hX
  have htype := h.files.closed f (.inr (Finset.mem_insert_self f F))
  have hnone : (k.ftable f).object = none := File.object_of_none htype
  have href : (k.ftable f).inodeRef = none := by simp [File.inodeRef, hnone]
  refine h.store (Y := X) (h.files.store (h.files.ref f) ?_ (fun _ _ => rfl)
    fun g hg => ⟨rfl, (others_same hg (R := R)).2.symm⟩) ?_ ?_
  · rintro (h0 | hmem)
    · omega
    · exact absurd hmem hf
  · exact h.objects.openInode hnone
  · rw [href]
    change one ip + X = 0 + (X + one ip)
    rw [zero_add, add_comm]

/-! ### Closing a file -/

theorem FilesOk.shut {ft : Fin NFILE → File} (h : FilesOk ft S F) (hS : S = R + one f)
    (hlast : R f = 0) : FilesOk (set ft f (ft f).shut) R F := by
  refine h.store ?_ (fun _ => rfl) (fun hpos => by omega) fun g hg => ⟨?_, Iff.rfl⟩
  · rw [hlast]
    rfl
  · rw [hS]
    simp [one_of_ne hg]

theorem both_closed (ends : PipeEnds) (w : Bool) :
    ((ends.closeEnd w).readopen = false ∧ (ends.closeEnd w).writeopen = false) ↔
      ¬ (ends.closeEnd w).isOpen (!w) = true := by
  cases w <;> simp [PipeEnds.closeEnd, PipeEnds.isOpen]

/-- `pipeclose` for the last reference to an end, after its file was marked
free. -/
theorem spec_pipeclose {page : Page} {w : Bool} (hS : S = R + one f) (hlast : R f = 0)
    (h : Sys pr S F X k) (hobj : (k.ftable f).object = some (.pipe page w)) :
    wp (pipeclose page w) (fun _ => Sys pr R F X) (fun e _ => ¬ e.OfFiles)
      { k with
        ftable := set k.ftable f (k.ftable f).shut
        history := k.history ++ [.closed f (.pipe page w)] } := by
  obtain ⟨ends, hends⟩ := Option.isSome_iff_exists.mp (h.objects.page f page w hobj)
  have hclose := h.objects.closePipe hobj hends
  have href : (k.ftable f).inodeRef = none := by simp [File.inodeRef, hobj]
  have hX : mark (k.ftable f).shut.inodeRef + X = mark (k.ftable f).inodeRef + X := by
    rw [href, File.inodeRef, File.shut_object]
  unfold pipeclose
  simp only [wp_bind, wp_gets, id_eq, hends]
  refine wp_ite (fun hboth => ?_) fun hboth => ?_
  · have hshut := (both_closed ends w).mp hboth
    rw [if_neg hshut, if_neg hshut] at hclose
    exact h.store (h.files.shut hS hlast) hclose hX
  · have hopen := not_not.mp (mt (both_closed ends w).mpr hboth)
    rw [if_pos hopen, if_pos hopen, List.append_nil] at hclose
    exact h.store (h.files.shut hS hlast) hclose hX

theorem spec_fileclose (h : Frame o view) (p : P) (hS : S = R + one f) :
    Spec view (Sys pr S F X) (fileclose o p f) (fun _ => Sys pr R F X) := by
  have hpos : S f = R f + 1 := by simp [hS, one_self]
  refine .bind (h.spec_gets _) fun t => .bind (.panicIf ?_ fun _ hk _ => hk) fun _ =>
    .ite (fun hmore => ?_) fun hmore => ?_
  · rintro k ⟨hk, rfl⟩ hlt
    have := hk.files.ref f
    omega
  · refine h.spec_kernel (.modify fun k hk => ?_)
    obtain ⟨hk, rfl⟩ := hk
    have href := hk.files.ref f
    refine hk.store_same rfl (hk.files.store ?_ ?_ (fun _ => hk.files.opened f (by omega))
      fun g hg => ⟨?_, Iff.rfl⟩)
    · rw [File.setRef_ref]
      omega
    · rintro (h0 | hf)
      · omega
      · exact hk.files.closed f (.inr hf)
    · rw [hS]
      simp [one_of_ne hg]
  · refine .of_pure (c := R f = 0) ?_ fun hlast => .bind (h.spec_modify _) fun _ => ?_
    · rintro k ⟨hk, rfl⟩
      have := hk.files.ref f
      omega
    cases htype : (t f).type with
    | none =>
      refine .pure _ ?_
      rintro _ ⟨k, ⟨hk, rfl⟩, rfl⟩
      have hnone : (k.ftable f).object = none := by simp [File.object, htype]
      refine hk.store_same ?_ (hk.files.shut hS hlast)
      rw [hnone]
      rfl
    | pipe =>
      cases hpage : (t f).pipe with
      | none => exact .fail fun _ _ => id
      | some page =>
        refine .bind (h.spec_modify _) fun _ => h.spec_kernel ?_
        rintro _ ⟨_, ⟨k, ⟨hk, rfl⟩, rfl⟩, rfl⟩
        exact spec_pipeclose hS hlast hk (by simp [File.object, htype, hpage])
    | inode =>
      cases hip : (t f).ip with
      | none => exact .fail fun _ _ => id
      | some ip =>
        refine .bind (h.spec_modify _) fun _ =>
          .bind (M := fun _ => Sys pr R F (X + one ip)) (h.spec_kernel (.modify ?_)) fun _ =>
            .bind (spec_sys fun t N _ => spec_iput h p ip (add_assoc _ _ _).symm) fun _ =>
              spec_sys fun t N _ => h.spec_kernel spec_endOp
        rintro _ ⟨_, ⟨k, ⟨hk, rfl⟩, rfl⟩, rfl⟩
        have hobj := object_of_type htype hip
        have href : (k.ftable f).inodeRef = some ip := by simp [File.inodeRef, hobj]
        have hstore : Sys pr R F (X + one ip) { k with
            ftable := set k.ftable f (k.ftable f).shut
            history := k.history ++ [.closed f (.inode ip)] } := by
          refine hk.store (hk.files.shut hS hlast) (hk.objects.closeInode hobj) ?_
          rw [href, File.inodeRef, File.shut_object]
          change 0 + (X + one ip) = one ip + X
          rw [zero_add, add_comm]
        exact hstore.congr_acc (hstore.acc.congr rfl rfl fun _ => ⟨rfl, rfl⟩)

/-- The last reference to a file that was not opened is given back. -/
theorem spec_giveBack (h : Frame o view) (p : P) (hS : S = R + one f) (hR : R f = 0) :
    Spec view (Sys pr S (insert f F) X) (fileclose o p f) (fun _ => Sys pr R F X) :=
  (spec_fileclose h p hS).post fun _ _ hk => hk.forget hR

/-- The two new files of a pipe. -/
theorem Sys.openPipe {f0 f1 : Fin NFILE} {page : Page} (h : Sys pr R {f1, f0} X k)
    (h0 : 0 < R f0) (h1 : 0 < R f1) (hne : f1 ≠ f0) (hpage : k.pipes page = none) :
    Sys pr R ∅ X { k with
      ftable := set (set k.ftable f0 ((k.ftable f0).asPipe page false)) f1
        ((k.ftable f1).asPipe page true)
      pipes := set k.pipes page (some ⟨true, true⟩)
      history := k.history ++ [.kalloc page] ++ [.opened f0 (.pipe page false)] ++
        [.opened f1 (.pipe page true)] } := by
  have ht0 := h.files.closed f0 (.inr (by simp))
  have ht1 := h.files.closed f1 (.inr (by simp))
  have hnone {x : File} (ht : x.type = .none) (w : Bool) :
      mark (x.asPipe page w).inodeRef = mark x.inodeRef := by
    simp [File.inodeRef, File.asPipe_object, File.object_of_none ht]
  have hsum : fileRefs (set (set k.ftable f0 ((k.ftable f0).asPipe page false)) f1
      ((k.ftable f1).asPipe page true)) = fileRefs k.ftable := by
    unfold fileRefs
    rw [sum_set_same (g := fun x : File => mark x.inodeRef),
      sum_set_same (g := fun x : File => mark x.inodeRef) (hnone ht0 false)]
    rw [set_of_ne _ _ hne]
    exact hnone ht1 true
  have hread : FilesOk (set k.ftable f0 ((k.ftable f0).asPipe page false)) R {f1} := by
    refine h.files.store (h.files.ref f0) ?_ (fun _ _ => rfl) fun g hg => ⟨rfl, by simp [hg]⟩
    rintro (hR | hmem)
    · omega
    · exact absurd (Finset.mem_singleton.mp hmem).symm hne
  exact
    { proc := h.proc
      files := by
        refine hread.store (h.files.ref f1) ?_ (fun _ _ => rfl) fun g hg => ⟨rfl, by simp [hg]⟩
        rintro (hR | hmem)
        · omega
        · exact absurd hmem (Finset.notMem_empty f1)
      objects := by
        dsimp only
        rw [object_set, object_set]
        exact h.objects.openPipe (File.object_of_none ht0) (File.object_of_none ht1) hne hpage
      acc := by
        dsimp only
        rw [hsum]
        exact h.acc.retable rfl rfl }

theorem spec_openPipe {Pre : Kernel P → Prop} (f : Fin NFILE) (page : Page) (w : Bool) :
    Spec id Pre (openPipe f page w) (fun _ k' => ∃ k, Pre k ∧ k' = { k with
      ftable := set k.ftable f ((k.ftable f).asPipe page w)
      history := k.history ++ [.opened f (.pipe page w)] }) :=
  fun k hk => ⟨k, hk, rfl⟩

theorem spec_kalloc {Pre : Kernel P → Prop} (want : Option Page) :
    Spec id Pre (kalloc want) (fun r k => Pre k ∧ ∀ page, r = some page → k.pipes page = none) := by
  intro k hk
  unfold kalloc
  simp only [wp_bind, wp_gets]
  split
  · refine ⟨hk, ?_⟩
    rintro _ ⟨⟩
  · refine wp_ite (fun hfree => ⟨hk, ?_⟩) fun _ => ⟨hk, ?_⟩
    · rintro _ ⟨⟩
      exact hfree
    · rintro _ ⟨⟩

theorem spec_pipealloc (h : Frame o view) (p : P) (want : Option Page) :
    Spec view (Sys pr R ∅ X) (pipealloc o p want) (fun r k => match r with
      | none => Sys pr R ∅ X k
      | some (f0, f1) => Sys pr (R + one f0 + one f1) ∅ X k) := by
  refine .bind (h.spec_kernel spec_filealloc) ?_
  rintro (_ | f0)
  · exact .ret rfl
  refine .of_pure (c := R f0 = 0) (fun _ hk => hk.1) fun hR0 =>
    .bind ((h.spec_kernel spec_filealloc).mono (fun _ hk => hk.2) fun _ _ hk => hk) ?_
  rintro (_ | f1)
  · exact .bind (spec_giveBack h p rfl hR0) fun _ => .ret rfl
  refine .of_pure (c := R f1 = 0 ∧ f1 ≠ f0) ?_ fun ⟨hR1, hne⟩ =>
    .bind (h.spec_kernel (spec_kalloc want)) ?_
  · rintro k ⟨hR, -⟩
    rw [Pi.add_apply, Nat.add_eq_zero_iff] at hR
    refine ⟨hR.1, ?_⟩
    rintro rfl
    rw [one_self] at hR
    omega
  rintro (_ | page)
  · exact .bind ((spec_fileclose h p (add_right_comm _ _ _)).mono (fun k hk => hk.1.2)
      fun _ _ hk => hk) fun _ => .bind (spec_giveBack h p rfl hR1) fun _ =>
        .pure _ fun _ hk => hk.forget hR0
  · refine .bind (h.spec_modify _) fun _ => .bind (h.spec_modify _) fun _ =>
      .bind (h.spec_kernel (spec_openPipe f0 page false)) fun _ =>
        .bind (h.spec_kernel (spec_openPipe f1 page true)) fun _ => .pure _ ?_
    rintro _ ⟨_, ⟨_, ⟨_, ⟨k, ⟨⟨-, hk⟩, hpage⟩, rfl⟩, rfl⟩, rfl⟩, rfl⟩
    dsimp only
    rw [set_of_ne _ _ hne]
    exact hk.openPipe (by simp [one_self]) (by simp [one_self]) hne (hpage page rfl)

end Sys

/-! ### Descriptors and working directories -/

section Processes

variable {P : Type} [DecidableEq P] {pr : P → Proc P} {R : Fin NFILE → Nat}
  {F : Finset (Fin NFILE)} {X : Ip → Nat} {k : Kernel P} {p : P}

theorem Sys.setProc (h : Sys pr R F X k) (x : Proc P) :
    Sys (set pr p x) R F X { k with proc := set k.proc p x } where
  proc := by rw [← h.proc]
  files := h.files
  objects := h.objects
  acc := h.acc.retable rfl rfl

theorem spec_setOfile (fd : Fin NOFILE) (v : Option (Fin NFILE)) :
    Spec id (Sys pr R F X) (setOfile p fd v) (fun _ => Sys (putFd pr p fd v) R F X) := by
  intro k (h : Sys pr R F X k)
  have hset := h.setProc (p := p) ((pr p).setOfile fd v)
  unfold setOfile Xv6.Fs.setProc
  simp only [wp_bind, wp_gets, wp_modify]
  rw [h.proc] at *
  exact hset

/-- The process table with another working directory. -/
def putDir (pr : P → Proc P) (p : P) (v : Option Ip) : P → Proc P :=
  set pr p ((pr p).setCwd v)

theorem spec_setCwd (v : Option Ip) :
    Spec id (Sys pr R F X) (setCwd p v) (fun _ => Sys (putDir pr p v) R F X) := by
  intro k (h : Sys pr R F X k)
  have hset := h.setProc (p := p) ((pr p).setCwd v)
  unfold setCwd Xv6.Fs.setProc
  simp only [wp_bind, wp_gets, wp_modify]
  rw [h.proc] at *
  exact hset

theorem spec_fdalloc (f : Fin NFILE) :
    Spec id (Sys pr R F X) (fdalloc p f) (fun r k => match r with
      | none => Sys pr R F X k
      | some fd => (pr p).ofile fd = none ∧ Sys (putFd pr p fd (some f)) R F X k) := by
  intro k (hk : Sys pr R F X k)
  unfold fdalloc
  simp only [wp_bind, wp_gets]
  rw [show k.proc = pr from hk.proc]
  split
  · exact hk
  · next fd hfound =>
      refine wp_bind.mpr (wp_mono (spec_setOfile fd (some f) k hk) ?_ fun _ _ he => he)
      intro _ k' hk'
      exact ⟨by simpa using List.find?_some hfound, hk'⟩

variable {fd : Fin NOFILE}

theorem slots_give [Fintype P] (hfree : (pr p).ofile fd = none) (f : Fin NFILE) :
    slots (putFd pr p fd (some f)) = slots pr + one f := by
  have := slots_putFd pr p fd (some f)
  rw [hfree] at this
  exact this

theorem slots_take [Fintype P] {f : Fin NFILE} (hheld : (pr p).ofile fd = some f) :
    slots pr = slots (putFd pr p fd none) + one f := by
  have := slots_putFd pr p fd none
  rw [hheld] at this
  exact this.symm

theorem slots_pos [Fintype P] {f : Fin NFILE} (hheld : (pr p).ofile fd = some f) :
    0 < slots pr f := by
  rw [slots_take hheld]
  simp [one_self]

end Processes

end Xv6.Fs
