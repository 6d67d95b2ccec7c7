import Xv6.Lib.Hoare
import Xv6.Fs.Calls
import Xv6.Fs.Disk
import Xv6.Fs.Abstract

/-!
What the disk operations leave alone. Whatever is on the disk, they change
nothing in the tables in memory but the `valid` flags of the inode cache, and
they do not stop in `file.c`. The accounting of references uses only this.
-/

namespace Xv6.Fs

open Prog

variable {P : Type}

/-- The same tables, up to the `valid` flags of the inode cache. -/
def Kernel.Revalidated (k k' : Kernel P) : Prop :=
  ∃ v : Ip → Bool, k' = { k with icache := fun ip => { k.icache ip with valid := v ip } }

theorem Kernel.Revalidated.refl (k : Kernel P) : k.Revalidated k :=
  ⟨fun ip => (k.icache ip).valid, rfl⟩

theorem Kernel.Revalidated.trans {k k' k'' : Kernel P} (h : k.Revalidated k')
    (h' : k'.Revalidated k'') : k.Revalidated k'' := by
  obtain ⟨v, rfl⟩ := h
  obtain ⟨v', rfl⟩ := h'
  exact ⟨v', rfl⟩

theorem Kernel.Revalidated.setEntry (k : Kernel P) (ip : Ip) (v : Bool) :
    k.Revalidated (k.setEntry ip { k.icache ip with valid := v }) := by
  refine ⟨fun jp => if jp = ip then v else (k.icache jp).valid, ?_⟩
  unfold Kernel.setEntry
  congr 1
  funext jp
  by_cases h : jp = ip
  · subst h
    simp
  · simp [set_of_ne _ _ h, h]

/-- The panics of `file.c`, and the use of a pipe that was freed. -/
def Panic.OfFiles : Panic → Prop
  | .filedup | .fileclose | .freedPage => True
  | _ => False

/-- Two states that show the same tables, up to the `valid` flags. -/
def SameTables {σ : Type} (view : σ → Kernel P) (s s' : σ) : Prop :=
  (view s).Revalidated (view s')

instance {σ : Type} (view : σ → Kernel P) : Std.Refl (SameTables view) :=
  ⟨fun s => .refl (view s)⟩

instance {σ : Type} (view : σ → Kernel P) : IsTrans σ (SameTables view) :=
  ⟨fun _ _ _ => .trans⟩

/-- A command that leaves the tables in memory alone. -/
abbrev Leaves {σ α : Type} (view : σ → Kernel P) (x : Prog σ Panic α) : Prop :=
  Keeps (SameTables view) (fun e => ¬ e.OfFiles) x

/-- The operations, seen through the tables in memory. -/
structure Frame {σ : Type} (o : Ops σ P) (view : σ → Kernel P) : Prop where
  kernel : ∀ {α : Type} (x : KernelM P α) s, wp (o.kernel x)
    (fun r s' => x (view s) = (.ok r, view s'))
    (fun e _ => e = .misuse ∨ (x (view s)).1 = .error e) s
  alloc : ∀ dev type, Leaves view (o.alloc dev type)
  load : ∀ ip, Leaves view (o.load ip)
  fields : ∀ ip, Leaves view (o.fields ip)
  update : ∀ ip f, Leaves view (o.update ip f)
  free : ∀ ip, Leaves view (o.free ip)
  read : ∀ ip off n, Leaves view (o.read ip off n)
  write : ∀ ip src off n, Leaves view (o.write ip src off n)

/-! ### The operations on a disk -/

section Disk

theorem leaves_modify {f : FsState P → FsState P} (h : ∀ c, (f c).kernel = c.kernel) :
    Leaves FsState.kernel (modify f) :=
  .modify fun c => by
    unfold SameTables
    rw [h]
    exact .refl _

theorem leaves_bread (dev b : Nat) : Leaves FsState.kernel (P := P) (bread dev b) :=
  .bind (.gets _) fun _ => .bind (.panicIf id) fun _ => .bind (.panicIf id) fun _ =>
    .bind (leaves_modify fun _ => rfl) fun _ => .pure _

theorem leaves_logWrite (b : Nat) (d : Block) : Leaves FsState.kernel (P := P) (logWrite b d) :=
  .bind (.gets _) fun _ => .bind (.panicIf id) fun _ => leaves_modify fun _ => rfl

theorem leaves_brelse (b : Nat) : Leaves FsState.kernel (P := P) (brelse b) :=
  leaves_modify fun _ => rfl

theorem leaves_setCopy (ip : Ip) (di : Dinode) : Leaves FsState.kernel (P := P) (setCopy ip di) :=
  leaves_modify fun _ => rfl

theorem leaves_setValid (ip : Ip) (v : Bool) : Leaves FsState.kernel (P := P) (setValid ip v) :=
  .modify fun c => Kernel.Revalidated.setEntry c.kernel ip v

theorem leaves_balloc (dev : Nat) : Leaves FsState.kernel (P := P) (balloc dev) := by
  refine .bind (.gets _) fun sb => .bind (.first (fun i => ?_) _ _) ?_
  · refine .bind (leaves_bread _ _) fun d => ?_
    split
    · exact .bind (leaves_logWrite _ _) fun _ => .bind (leaves_brelse _) fun _ =>
        .bind (.bind (leaves_bread _ _) fun _ => .bind (leaves_logWrite _ _) fun _ =>
          leaves_brelse _) fun _ => .pure _
    · exact .bind (leaves_brelse _) fun _ => .pure _
  · rintro (_ | b)
    · exact .fail id
    · exact .pure _

theorem leaves_bfree (dev b : Nat) : Leaves FsState.kernel (P := P) (bfree dev b) := by
  refine .bind (.bind (leaves_bread _ _) fun _ => .bind (leaves_modify fun _ => rfl) fun _ =>
    leaves_brelse _) fun _ => .bind (.gets _) fun sb => ?_
  exact .bind (leaves_bread _ _) fun _ => .bind (.panicIf id) fun _ =>
    .bind (leaves_logWrite _ _) fun _ => leaves_brelse _

theorem leaves_allocInode (dev : Nat) (type : Int) :
    Leaves FsState.kernel (P := P) (allocInode dev type) := by
  refine .bind (.gets _) fun sb => .bind (.first (fun i => ?_) _ _) ?_
  · exact .bind (leaves_bread _ _) fun _ => .ite
      (.bind (leaves_logWrite _ _) fun _ => .bind (leaves_brelse _) fun _ => .pure _)
      (.bind (leaves_brelse _) fun _ => .pure _)
  · rintro (_ | b)
    · exact .fail id
    · exact .pure _

theorem leaves_iupdate (ip : Ip) : Leaves FsState.kernel (P := P) (iupdate ip) :=
  .bind (.gets _) fun _ => .bind (.gets _) fun _ => .bind (.gets _) fun _ =>
    .bind (leaves_bread _ _) fun _ => .bind (leaves_logWrite _ _) fun _ => leaves_brelse _

theorem leaves_loadInode (ip : Ip) : Leaves FsState.kernel (P := P) (loadInode ip) :=
  .bind (.gets _) fun _ => .bind (.gets _) fun _ => .bind (leaves_bread _ _) fun _ =>
    .bind (leaves_setCopy _ _) fun _ => .bind (leaves_brelse _) fun _ =>
      .bind (leaves_setValid _ _) fun _ => .bind (.gets _) fun _ => .panicIf id

theorem leaves_bmap (ip : Ip) (bn : Nat) : Leaves FsState.kernel (P := P) (bmap ip bn) := by
  refine .bind (.gets _) fun e => .bind (.gets _) fun di => .ite (.ite ?_ (.pure _)) (.ite ?_ ?_)
  · exact .bind (leaves_balloc _) fun _ => .bind (leaves_setCopy _ _) fun _ => .pure _
  · refine .bind (.ite ?_ (.pure _)) fun table => .bind (leaves_bread _ _) fun d => .ite ?_ ?_
    · exact .bind (leaves_balloc _) fun _ => .bind (leaves_setCopy _ _) fun _ => .pure _
    · exact .bind (leaves_balloc _) fun _ => .bind (leaves_logWrite _ _) fun _ =>
        .bind (leaves_brelse _) fun _ => .pure _
    · exact .bind (leaves_brelse _) fun _ => .pure _
  · exact .fail id

theorem leaves_itrunc (ip : Ip) : Leaves FsState.kernel (P := P) (itrunc ip) := by
  refine .bind (.gets _) fun e => .bind (.times (fun i => ?_) _) fun _ => ?_
  · exact .bind (.gets _) fun _ => .when (.bind (leaves_bfree _ _) fun _ => leaves_setCopy _ _)
  · refine .bind (.gets _) fun di => .bind (.when ?_) fun _ => ?_
    · exact .bind (leaves_bread _ _) fun _ => .bind (.times (fun _ => .when (leaves_bfree _ _)) _)
        fun _ => .bind (leaves_brelse _) fun _ => .bind (leaves_bfree _ _) fun _ =>
          leaves_setCopy _ _
    · exact .bind (.gets _) fun _ => .bind (leaves_setCopy _ _) fun _ => leaves_iupdate ip

theorem leaves_readLoop (ip : Ip) (n rounds tot off : Nat) (dst : Nat → UInt8) :
    Leaves FsState.kernel (P := P) (readLoop ip n rounds tot off dst) := by
  induction rounds generalizing tot off dst with
  | zero => exact .pure _
  | succ rounds ih =>
    exact .ite (.bind (.gets _) fun _ => .bind (leaves_bmap _ _) fun _ =>
      .bind (leaves_bread _ _) fun _ => .bind (leaves_brelse _) fun _ => ih _ _ _) (.pure _)

theorem leaves_writeLoop (ip : Ip) (src : Nat → UInt8) (n rounds tot off : Nat) :
    Leaves FsState.kernel (P := P) (writeLoop ip src n rounds tot off) := by
  induction rounds generalizing tot off with
  | zero => exact .pure _
  | succ rounds ih =>
    exact .ite (.bind (.gets _) fun _ => .bind (leaves_bmap _ _) fun _ =>
      .bind (leaves_bread _ _) fun _ => .bind (leaves_logWrite _ _) fun _ =>
        .bind (leaves_brelse _) fun _ => ih _ _) (.pure _)

theorem diskOps_frame : Frame (diskOps (P := P)) FsState.kernel where
  kernel := by
    intro α x c
    unfold wp diskOps
    dsimp only
    rcases x c.kernel with ⟨e | r, k⟩
    · exact Or.inr rfl
    · rfl
  alloc := leaves_allocInode
  load := leaves_loadInode
  fields ip := .bind (.gets _) fun _ => .pure _
  update ip f := .bind (.gets _) fun _ => .bind (leaves_setCopy _ _) fun _ => leaves_iupdate ip
  free ip := .bind (leaves_itrunc ip) fun _ => .bind (.gets _) fun _ =>
    .bind (leaves_setCopy _ _) fun _ => .bind (leaves_iupdate ip) fun _ => leaves_setValid ip false
  read ip off n := leaves_readLoop ip n n 0 off _
  write ip src off n := .bind (leaves_writeLoop ip src n n 0 off) fun _ => .bind (.gets _) fun _ =>
    .when (.bind (leaves_setCopy _ _) fun _ => leaves_iupdate ip)

end Disk

end Xv6.Fs
